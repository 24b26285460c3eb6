import TinyStm.Quiesce.Proof

/-!
# Calls of the collector

A function of the collector works on a part of the state, on which the other threads and the
rollover keep to `gcShared`; its steps are steps of `Act`. A block that is handed to the collector
belongs to its slot from then on, and a block that is given back has been freed for good.
-/

namespace TinyStm.Quiesce

variable {Tid Addr : Type} [DecidableEq Tid] {cfg : Config} {p q : Tid} {g : GcConfig} {e : Option ℕ}

/-- To a thread inside the collector, the steps of the others are calls of the collector or resets. -/
theorem gc_stable (hg : cfg.gc = some g) (q : Tid) (hq : q ≠ p) (s s' : State Tid Addr)
    (hs : Inv cfg s) (hs' : Inv cfg s') (h : Act cfg q s s') :
    GcShape g s.gc ∧ GcShape g s'.gc ∧
      ∃ j, j ≠ some p ∧ (gcShared g p e).guar j s.gc s'.gc := by
  refine ⟨hs.shape g hg, hs'.shape g hg, ?_⟩
  have hreset (hstep : GcStep none s.gc s'.gc) :
      ∃ j, j ≠ some p ∧ (gcShared g p e).guar j s.gc s'.gc :=
    ⟨none, nofun, hstep, nofun⟩
  cases h with
  | reset _ hstep _ _ => exact hreset hstep
  | gc _ _ hstep _ _ =>
    exact ⟨some q, fun h => hq (Option.some.inj h), hstep, fun h => (hq (Option.some.inj h)).elim⟩
  | _ => exact hreset ⟨fun _ h => h, fun _ _ => rfl, fun _ _ _ => .rfl, fun _ _ _ _ => .inl rfl⟩

/-- A thread that may call the collector. -/
def Near (o : Own) : Prop :=
  (o.windowed ∨ o.registered) ∧ ¬ o.waiting ∧ (o.tx.point ≠ .outside → o.registered)

/-- What a thread has to itself, as if it were not inside the collector. -/
def Own.calm (o : Own) : Own := { o with tx := { o.tx with inGc := false, freeing := none } }

/-- What the thread has to itself while it frees memory at epoch `e`, inside the collector or not. -/
def Calm (e : Option ℕ) (b : Bool) (φ : Own → Prop) (o : Own) : Prop :=
  o.tx.freeing = e ∧ o.tx.inGc = b ∧ φ o.calm

section
variable {α : Type} {φ ψ : Own → Prop} {J : Assn (protocol cfg : RG (State Tid Addr) Tid) p}
  {Q : α → Assn (protocol cfg : RG (State Tid Addr) Tid) p}

omit [DecidableEq Tid] in
theorem Near.busy {s : State Tid Addr} (h : Near (s.own p)) : s.Busy p :=
  h.1.imp id fun hr => ⟨hr, h.2.1⟩

/-- A thread calls the collector, which may change its slot only. -/
def Calling (e : Option ℕ) (φ : Own → Prop) (o : Own) : Prop :=
  Near o ∧ o.tx.freeing = e ∧ φ { o with slotted := True }

/-- A function of the collector. -/
theorem zoomGc_spec (hg : cfg.gc = some g) {c : GcProg Tid (Block Tid Addr) Unit}
    {P K : Assn (gcShared g p e : RG (GcState Tid (Block Tid Addr)) (Option Tid)) (some p)}
    {Q : Unit → Assn (gcShared g p e : RG (GcState Tid (Block Tid Addr)) (Option Tid)) (some p)}
    (h : Triple (gcShared g p e) (some p) P c Q K) :
    Triple (protocol cfg) p (has (Calling e φ) ⊓ P.pull (·.gc) (gc_stable hg))
      (c.zoom (·.gc) fun g s => { s with gc := g })
      (fun a => has (Calling e φ) ⊓ (Q a).pull (·.gc) (gc_stable hg)) J := by
  refine .zoom (H := protocol cfg) (gc_stable hg) (fun s hs => ⟨hs.inv.shape g hg, trivial⟩)
    (fun s t hs hF hinv hguar => ?_) h
  have hact : Act cfg p s { s with gc := t } := by
    refine .gc (by rw [hg]; nofun) hF.1.busy hguar.1 (hF.2.1 ▸ hguar.2 rfl) fun c hc => ?_
    obtain rfl : g = c := Option.some.inj (hg.symm.trans hc)
    exact hinv
  exact ⟨hact.inv hs.inv, hact, hF, rfl⟩

theorem Own.slotted_true {o : Own} (h : o.slotted) : { o with slotted := True } = o := by
  obtain ⟨tx, registered, waiting, windowed, granted, rolls, slotted⟩ := o
  simpa using h

/-- A function of the collector that leaves the thread its slot. -/
theorem callGc_spec {c : GcConfig → GcProg Tid (Block Tid Addr) Unit}
    (hφ : ∀ o, φ o → Near o ∧ o.tx.freeing = e ∧ (cfg.gc ≠ none → o.slotted))
    (h : ∀ g i, Triple (gcShared g p e) (some p) (gcSlots (GcOwns i)) (c g)
      (fun _ => gcSlots (GcOwns i)) (.pure True)) :
    Triple (protocol cfg) p (has φ) (callGc cfg c : QProg Tid Addr Unit) (fun _ => has φ) J := by
  unfold callGc
  cases hg : cfg.gc with
  | none => exact .of_ret fun _ _ h => h
  | some g =>
    have hgc : cfg.gc ≠ none := by rw [hg]; nofun
    refine .of_exists (R := fun i => has (Calling e φ) ⊓
      (gcSlots (GcOwns i)).pull (·.gc) (gc_stable hg)) (fun s _ h => ?_) fun i =>
      (zoomGc_spec hg (h g i)).post (fun _ s _ h => ?_) fun _ _ h => h
    · have h : φ (s.own p) := h
      have ho := hφ _ h
      refine ⟨s.gc.idx p, ⟨ho.1, ho.2.1, ?_⟩, rfl, ho.2.2 hgc⟩
      rw [Own.slotted_true (ho.2.2 hgc)]
      exact h
    · obtain ⟨⟨-, -, hown⟩, hidx, hheld⟩ := h
      have hs : (s.own p).slotted := by
        rw [← hidx] at hheld
        exact hheld
      rw [Own.slotted_true hs] at hown
      exact hown

/-- A thread enters a function of the collector, or leaves it. -/
theorem setInGc_spec {c : Unit → QProg Tid Addr α} (b b' : Bool) (hφ : ∀ o, φ o → Near o)
    (hc : Triple (protocol cfg) p (has (Calm e b' φ)) (c ()) Q J) :
    Triple (protocol cfg) p (has (Calm e b φ))
      (modifyTx p (fun tx => { tx with inGc := b' }) >>= c) Q J := by
  refine act_spec (fun _ => has (Calm e b' φ)) (fun s hs h => ?_) fun _ => hc
  obtain ⟨hfreeing, -, hown⟩ := h
  have hnear : Near (s.own p) := (hφ _ hown : Near (s.own p).calm)
  refine ⟨.move (f := fun tx => { tx with inGc := b' }) (.gc b') hnear.2.1 hnear.2.2 fun _ =>
    hnear.busy, ?_⟩
  show Calm e b' φ (State.own (s.setTx p fun tx => { tx with inGc := b' }) p)
  rw [own_setTx]
  exact ⟨hfreeing, rfl, hown⟩

/-- The thread is inside the collector. -/
theorem insideGc_spec {c : GcConfig → GcProg Tid (Block Tid Addr) Unit} (hφ : ∀ o, φ o → Near o)
    (hψ : ∀ o, ψ o → Near o)
    (h : Triple (protocol cfg) p (has (Calm e true φ)) (callGc cfg c : QProg Tid Addr Unit)
      (fun _ => has (Calm e true ψ)) J) :
    Triple (protocol cfg) p (has (Calm e false φ)) (insideGc cfg p c)
      (fun _ => has (Calm e false ψ)) J :=
  setInGc_spec false true hφ (.bind h fun _ =>
    .last (setInGc_spec true false hψ (.of_ret fun _ _ h => h)))

/-- `gc_free`. -/
theorem freeAt_spec {n : ℕ} {b : Block Tid Addr}
    (hφ : ∀ o, φ o → Near o ∧ (cfg.gc ≠ none → o.slotted)) :
    Triple (protocol cfg) p (has (Calm (some n) false φ)) (freeAt cfg p n b)
      (fun _ => has (Calm (some n) false φ)) J := by
  refine act_spec (fun _ => has (Calm (some n) false φ)) (fun s hs h => ⟨.call h.1 (hφ _ h.2.2).2, h⟩) fun _ => ?_
  refine insideGc_spec (fun o h => (hφ o h).1) (fun o h => (hφ o h).1) ?_
  refine callGc_spec (fun o h => ⟨?_, h.1, ?_⟩) fun g i => gcFree_shared rfl
  · exact (hφ _ h.2.2).1
  · exact (hφ _ h.2.2).2

/-- The epoch at which memory is freed. -/
theorem freeEpoch_spec {c : ℕ → QProg Tid Addr α} (hφ : ∀ o, φ o → Near o)
    (hc : ∀ n, Triple (protocol cfg) p (has (Calm (some n) false φ)) (c n) Q J) :
    Triple (protocol cfg) p (has (Calm none false φ)) (freeEpoch p >>= c) Q J := by
  refine act_spec (fun n => has (Calm (some n) false φ)) (fun s hs h => ?_) hc
  have hnear : Near (s.own p) := (hφ _ h.2.2 : Near (s.own p).calm)
  refine ⟨.epoch hnear.busy hnear.2.1, ?_⟩
  show Calm _ false φ (State.own (s.setTx p fun tx => { tx with freeing := some s.gc.clock }) p)
  rw [own_setTx]
  exact ⟨rfl, h.2⟩

/-- No more memory is freed at the epoch. -/
theorem freed_spec {n : ℕ} {c : Unit → QProg Tid Addr α} (hφ : ∀ o, φ o → Near o)
    (hc : Triple (protocol cfg) p (has (Calm none false φ)) (c ()) Q J) :
    Triple (protocol cfg) p (has (Calm (some n) false φ))
      (modifyTx p (fun tx => { tx with freeing := none }) >>= c) Q J := by
  refine act_spec (fun _ => has (Calm none false φ)) (fun s hs h => ?_) fun _ => hc
  have hnear : Near (s.own p) := (hφ _ h.2.2 : Near (s.own p).calm)
  refine ⟨.move (f := fun tx => { tx with freeing := none }) .freed hnear.2.1 hnear.2.2 fun _ =>
    hnear.busy, ?_⟩
  show Calm none false φ (State.own (s.setTx p fun tx => { tx with freeing := none }) p)
  rw [own_setTx]
  exact ⟨rfl, h.2⟩

/-- Blocks are freed one after the other. -/
theorem freeNow_spec (bs : List (Block Tid Addr))
    (hφ : ∀ o, φ o → Near o ∧ (cfg.gc ≠ none → o.slotted)) :
    Triple (protocol cfg) p (has (Calm none false φ)) (freeNow cfg p bs)
      (fun _ => has (Calm none false φ)) J := by
  have hnear : ∀ o, φ o → Near o := fun o h => (hφ o h).1
  induction bs with
  | nil => exact .of_ret fun _ _ h => h
  | cons b bs ih =>
    exact freeEpoch_spec hnear fun n => .bind (freeAt_spec hφ) fun _ => freed_spec hnear ih

end

end TinyStm.Quiesce
