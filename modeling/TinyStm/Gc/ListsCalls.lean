import TinyStm.Gc.ListsProof

/-!
# Threads come and go

The functions that take slots and release them, and what a thread has when a call begins and when it
ends. A thread that registers takes the first slot that is free, with the list that its last owner
has left; a thread that exits leaves its list behind. Between two calls a thread outside the
collector knows only its own registration.
-/

namespace TinyStm.GcLists

variable {Tid Addr : Type} [DecidableEq Tid] {cfg : GcConfig} {p : Tid} {i : ℕ} {s : State Tid Addr}
  {o : Own Addr} {c : Content Addr}

/-- The thread is inside of a call and holds no slot. -/
structure Own.Bare (o : Own Addr) : Prop where
  inside : o.inside
  held : o.held = ∅
  content : o.content = fun _ => none

/-- Outside of a call the thread holds its slot. -/
structure Own.Outside (o : Own Addr) : Prop where
  outside : ¬ o.inside
  held : ∀ i, i ∈ o.held ↔ o.registered ∧ i = o.idx

/-- An assertion about what belongs to the thread. -/
def has (φ : Own Addr → Prop) : Assn (listsProtocol cfg : RG (State Tid Addr) Tid) p where
  holds s := φ (s.own p)
  stable _ hq _ _ _ _ hg h := by rwa [hg.own p (Ne.symm hq)]

/-- The thread holds no slot. -/
def bare : Assn (listsProtocol cfg : RG (State Tid Addr) Tid) p := has fun o => o.Bare ∧ ¬ o.registered

/-- The thread holds its slot, on which no function works. -/
def ready : Assn (listsProtocol cfg : RG (State Tid Addr) Tid) p :=
  .ex fun o => rests o o.idx 0 ⊓ .pure (o.Bare ∧ o.registered)

/-! ## Calls begin and end -/

/-- A step that changes the number of threads, the clock, and the index of a thread. -/
theorem Inv.rename (h : Inv cfg s) (n now : ℕ) (idx : Tid → ℕ) (registered : Finset Tid)
    (hidx : ∀ q, q ≠ p → idx q = s.idx q) (hregistered : ∀ q, q ≠ p → (q ∈ registered ↔ q ∈ s.registered)) :
    Inv cfg { s with nbActive := n, clock := now, idx := idx, registered := registered } ∧
      Guar p s { s with nbActive := n, clock := now, idx := idx, registered := registered } :=
  ⟨{ h with },
    { own := fun q hq => own_congr Iff.rfl (hregistered q hq) (hidx q hq) (fun _ => Iff.rfl)
        fun _ _ _ => rfl
      taken := fun _ h => h
      allocs := Nat.le_refl _ }⟩

theorem own_rename {n now : ℕ} {idx : Tid → ℕ} {registered : Finset Tid} :
    State.own { s with nbActive := n, clock := now, idx := idx, registered := registered } p =
      { s.own p with idx := idx p, registered := p ∈ registered } :=
  rfl

/-- A call begins. -/
theorem Inv.enter (h : Inv cfg s) (hex : s.exited = false) :
    Inv cfg { s with inside := insert p s.inside } ∧ Guar p s { s with inside := insert p s.inside } := by
  refine ⟨
      { h with
        updating := fun i hi => ?_
        quiet := fun i hi => ?_
        closed := fun hn => ?_ },
      { own := fun q hq => own_congr (Finset.mem_insert.trans (or_iff_right hq)) Iff.rfl rfl
          (fun _ => Iff.rfl) fun _ _ _ => rfl
        taken := fun _ h => h
        allocs := Nat.le_refl _ }⟩
  · exact h.updating i fun q hq => hi q (Finset.mem_insert_of_mem hq)
  · exact h.quiet i fun q hq => hi q (Finset.mem_insert_of_mem hq)
  · nomatch hex.symm.trans hn

/-- A call ends. -/
theorem Inv.leave (h : Inv cfg s) (hp : p ∈ s.inside)
    (hquiet : ∀ i, s.holder i = some p → (s.content i).Quiet) :
    Inv cfg { s with inside := s.inside.erase p } ∧ Guar p s { s with inside := s.inside.erase p } := by
  have hothers : ∀ i, s.holder i ≠ some p → (∀ q ∈ s.inside.erase p, s.holder i ≠ some q) →
      ∀ q ∈ s.inside, s.holder i ≠ some q := by
    intro i hi hq q hqin
    by_cases hqp : q = p
    · exact hqp ▸ hi
    · exact hq q (Finset.mem_erase.2 ⟨hqp, hqin⟩)
  refine ⟨
      { h with
        updating := fun i hi => ?_
        quiet := fun i hi hex => ?_
        closed := fun hn => ?_ },
      { own := fun q hq => own_congr (Finset.mem_erase.trans (and_iff_right hq)) Iff.rfl rfl
          (fun _ => Iff.rfl) fun _ _ _ => rfl
        taken := fun _ h => h
        allocs := Nat.le_refl _ }⟩
  · by_cases hip : s.holder i = some p
    · exact (hquiet i hip).updating_eq
    · exact h.updating i (hothers i hip hi)
  · by_cases hip : s.holder i = some p
    · exact hquiet i hip
    · exact h.quiet i (hothers i hip hi) hex
  · nomatch (h.exited_false hp).symm.trans hn

section
variable {J : Assn (listsProtocol cfg : RG (State Tid Addr) Tid) p}

/-- A thread that has been outside of a call has what it needs for the next one. -/
theorem ready_or_bare_of_outside (h : Inv cfg s) (ho : (s.own p).Outside) (hex : s.exited = false) :
    (p ∈ s.registered → (ready : Assn (listsProtocol cfg : RG (State Tid Addr) Tid) p)
        { s with inside := insert p s.inside }) ∧
      (p ∉ s.registered → (bare : Assn (listsProtocol cfg : RG (State Tid Addr) Tid) p)
        { s with inside := insert p s.inside }) := by
  have hin : p ∈ insert p s.inside := Finset.mem_insert_self p s.inside
  have hheld : ∀ i, s.holder i = some p ↔ p ∈ s.registered ∧ i = s.idx p := ho.held
  refine ⟨fun hreg => ?_, fun hreg => ⟨⟨hin, ?_, ?_⟩, hreg⟩⟩
  · have hi : s.holder (s.idx p) = some p := (hheld _).2 ⟨hreg, rfl⟩
    have htake := own_drop_take (s := { s with inside := insert p s.inside }) hin hi
    refine ⟨Own.drop (State.own { s with inside := insert p s.inside } p) (s.idx p),
      ⟨s.content (s.idx p), ⟨htake, Nat.zero_le _⟩, h.quiet _ (fun q hq hqi => ?_) hex⟩, ⟨hin, ?_, ?_⟩, hreg⟩
    · rw [hi, Option.some.injEq] at hqi
      exact ho.outside (hqi ▸ hq)
    · ext j
      refine iff_of_false (fun hj => hj.2 ((hheld j).1 hj.1).2) (Set.notMem_empty j)
    · funext j
      rw [Own.drop]
      dsimp only
      by_cases hj : j = s.idx p
      · rw [hj, Function.update_self]
      · rw [Function.update_of_ne hj]
        exact if_neg fun hn => hj ((hheld j).1 hn.2).2
  · ext j
    exact iff_of_false (fun hj => hreg ((hheld j).1 hj).1) (Set.notMem_empty j)
  · funext j
    exact if_neg fun hn => hreg ((hheld j).1 hn.2).1

/-- A call ends when the thread has no slot. -/
theorem leave_bare (h : Inv cfg s)
    (hs : (bare : Assn (listsProtocol cfg : RG (State Tid Addr) Tid) p) s) :
    Inv cfg { s with inside := s.inside.erase p } ∧ Guar p s { s with inside := s.inside.erase p } ∧
      ({ s with inside := s.inside.erase p }.own p).Outside := by
  have hnone : ∀ i, s.holder i ≠ some p := fun i hi => by
    have hmem : i ∈ (s.own p).held := hi
    rw [hs.1.held] at hmem
    exact hmem
  have hleave := h.leave hs.1.inside fun i hi => (hnone i hi).elim
  exact ⟨hleave.1, hleave.2, Finset.notMem_erase p _, fun i => iff_of_false (hnone i) fun hn => hs.2 hn.1⟩

/-- A call ends when the thread has its slot. -/
theorem leave_ready (h : Inv cfg s)
    (hs : (ready : Assn (listsProtocol cfg : RG (State Tid Addr) Tid) p) s) :
    Inv cfg { s with inside := s.inside.erase p } ∧ Guar p s { s with inside := s.inside.erase p } ∧
      ({ s with inside := s.inside.erase p }.own p).Outside := by
  obtain ⟨o, ⟨c, ⟨ho, -⟩, hc⟩, hbare, hreg⟩ := hs
  obtain ⟨hp, hi, hci⟩ := own_of_take ho
  have hidx : s.idx p = o.idx := congrArg Own.idx ho
  have hheld : ∀ i, s.holder i = some p ↔ i = o.idx := by
    intro i
    have hmem : i ∈ (s.own p).held ↔ i ∈ insert o.idx o.held := by
      rw [ho]
      rfl
    rw [hbare.held, Set.mem_insert_iff, or_iff_left (Set.notMem_empty i)] at hmem
    exact hmem
  have hleave := h.leave hp fun i hi => by
    rw [(hheld i).1 hi, hci]
    exact hc
  have hregistered : p ∈ s.registered := by
    have heq : (p ∈ s.registered) = o.registered := congrArg Own.registered ho
    rwa [heq]
  exact ⟨hleave.1, hleave.2, Finset.notMem_erase p _, fun i =>
    (hheld i).trans ⟨fun h => ⟨hregistered, h.trans hidx.symm⟩, fun h => h.2.trans hidx⟩⟩

/-- A call that enters the collector and leaves it. -/
theorem within_spec {P : Assn (listsProtocol cfg : RG (State Tid Addr) Tid) p} {φ : Own Addr → Prop}
    {call : LProg Tid Addr Unit} (hcall : Triple (listsProtocol cfg) p P call (fun _ => ready ⊔ bare) J)
    (hP : ∀ s, Inv cfg s → s.exited = false → (s.own p).Outside → φ (s.own p) →
      P { s with inside := insert p s.inside }) :
    Triple (listsProtocol cfg) p (has fun o => o.Outside ∧ φ o) (within p call)
      (fun _ => has fun o => o.Outside) J := by
  refine .bind (R := fun b => .imp (b = true) P ⊓ .imp (b = false) (has fun o => o.Outside))
    (.atomic fun s hs ⟨ho, hφ⟩ => ?_) fun b => .ite (fun hb => ?_) fun hb => .of_ret fun s _ h => ?_
  · rcases Bool.eq_false_or_eq_true s.exited with hex | hex
    · rw [if_pos hex]
      exact ⟨hs.inv, (listsProtocol cfg).refl p s hs.inv, nofun, fun _ => ho⟩
    · have henter := hs.inv.enter (p := p) hex
      rw [if_neg (by rw [hex]; nofun)]
      exact ⟨henter.1, henter.2, fun _ => hP s hs.inv hex ho hφ, nofun⟩
  · refine .bind (hcall.pre fun s _ h => h.1 hb) fun _ => .modify fun s hs h => ?_
    exact h.elim (leave_ready hs.inv) (leave_bare hs.inv)
  · exact h.2 (Bool.not_eq_true _ ▸ hb)

/-- A call works on the slot of its thread. -/
theorem ready_spec {call : LProg Tid Addr Unit}
    (h : ∀ o, Triple (listsProtocol cfg : RG (State Tid Addr) Tid) p (rests o o.idx 0) call
      (fun _ => rests o o.idx 0) J) :
    Triple (listsProtocol cfg) p ready call (fun _ => ready ⊔ bare) J := by
  refine .of_ex fun o => .of_fact (fun _ _ h => h.2) fun ho => .pre ?_ fun _ _ h => h.1
  exact (h o).post (fun _ s _ h => .inl ⟨o, h, ho⟩) fun _ _ h => h

/-! ## Slots -/

/-- A slot is claimed. -/
theorem claim_spec {P R : Assn (listsProtocol cfg : RG (State Tid Addr) Tid) p} {used : GcUsed}
    (hu : used ≠ .busy) (hi : i < cfg.maxGcThreads) (hP : ∀ s, P s → s.own p = o ∧ o.inside)
    (hfront : ∀ s, Inv cfg s → P s → (s.slots i).used = used → ∀ j < i, (s.slots j).used ≠ .null)
    (hR : ∀ s, P s → (s.slots i).used ≠ used → R s) :
    Triple (listsProtocol cfg) p P (claim p i used)
      (fun ok => .imp (ok = true) (rests o i 0 ⊓ .pure (i ∉ o.held ∧ o.content i = none)) ⊓
        .imp (ok = false) R) J := by
  refine .atomic fun s hs h => ?_
  by_cases hused : (s.slots i).used = used
  · rw [if_pos hused]
    obtain ⟨rfl, hp⟩ := hP s h
    obtain ⟨hinv, hguar, hown, hquiet⟩ := hs.inv.claim (hused ▸ hu) hi (hfront s hs.inv h hused) hp
    have hnone : s.holder i ≠ some p := fun hip => hu (hused ▸ (hs.inv.busy i).1 (by rw [hip]; nofun))
    exact ⟨hinv, hguar, fun _ => ⟨⟨_, ⟨hown, Nat.zero_le _⟩, hquiet⟩, hnone, if_neg fun hn => hnone hn.2⟩,
      nofun⟩
  · rw [if_neg hused]
    exact ⟨hs.inv, (listsProtocol cfg).refl p s hs.inv, nofun, fun _ => hR s h hused⟩

/-- A slot is released. -/
theorem release_spec {a : ℕ} (hheld : i ∉ o.held) (hnone : o.content i = none) :
    Triple (listsProtocol cfg) p (rests o i a) (release i) (fun _ => owns o) J :=
  .modify fun _ hs ⟨_, ⟨ho, _⟩, hc⟩ => hs.inv.release ho hc hheld hnone

/-- The slot of `gc_init_thread`. -/
theorem takeSlot_spec (hmax : 0 < cfg.maxGcThreads) (ho : o.Bare) :
    Triple (listsProtocol cfg) p (owns o) (takeSlot cfg p) (fun idx => rests o idx 0) J := by
  refine .iterate (fun i => (owns o ⊓ passed i) ⊓ .pure (i < cfg.maxGcThreads))
    (fun s _ h => ⟨⟨h, fun j hj => (Nat.not_lt_zero j hj).elim⟩, hmax⟩) fun i => ?_
  refine .of_fact (fun _ _ h => h.2) fun hi => .pre ?_ fun _ _ h => h.1
  have hnext : ∀ s, (owns o ⊓ passed (i + 1) : Assn (listsProtocol cfg : RG (State Tid Addr) Tid) p) s →
      ((owns o ⊓ passed (if i + 1 ≥ cfg.maxGcThreads then 0 else i + 1)) ⊓
        .pure ((if i + 1 ≥ cfg.maxGcThreads then 0 else i + 1) < cfg.maxGcThreads) :
          Assn (listsProtocol cfg : RG (State Tid Addr) Tid) p) s := by
    intro s h
    split
    · exact ⟨⟨h.1, fun j hj => (Nat.not_lt_zero j hj).elim⟩, hmax⟩
    · exact ⟨h, show i + 1 < cfg.maxGcThreads by omega⟩
  have hpassed : ∀ s : State Tid Addr, (∀ j < i, (s.slots j).used ≠ .null) → (s.slots i).used ≠ .null →
      ∀ j < i + 1, (s.slots j).used ≠ .null := by
    intro s h hne j hj
    rcases Nat.lt_succ_iff_lt_or_eq.1 hj with hj | rfl
    · exact h j hj
    · exact hne
  -- no slot that is passed has never been used
  refine .bind (R := fun t => (owns o ⊓ passed i) ⊓ .imp (t.used ≠ .null) (passed (i + 1)))
    (.read fun s _ h => ⟨h, fun hne => hpassed s h.2 hne⟩) fun t => .ite (fun hu => ?_) fun hu =>
    .of_ret fun s _ h => hnext s ⟨h.1.1, h.2 ?_⟩
  · refine .bind (claim_spec (R := owns o ⊓ passed (i + 1)) hu hi (fun s h => ⟨h.1.1, ho.inside⟩)
      (fun s _ h _ => h.1.2) fun s h hne => ⟨h.1.1, ?_⟩) fun ok => .ite (fun hok => ?_) fun hok => ?_
    · by_cases hnull : t.used = .null
      · exact hpassed s h.1.2 (hnull ▸ hne)
      · exact h.2 hnull
    · refine .pre (P := rests o i 0) ?_ fun s _ h => (h.1 hok).1
      refine .bind (R := fun _ => rests o i 0) (.read fun _ _ h => h) fun epoch => ?_
      refine .of_ex fun c => .of_fact (fun _ _ h => h.2) fun hc => .pre ?_ fun _ _ h => h.1
      exact .bind (modifySlot_spec rfl fun n _ h => ⟨h.sorted, h.nodup, h.fresh, h.tail_eq⟩) fun _ =>
        .of_ret fun s _ h => ⟨_, h, hc.updating_eq, hc.left_eq⟩
    · exact .of_ret fun s _ h => hnext s (h.2 (Bool.not_eq_true _ ▸ hok))
  · rw [not_not.1 hu]
    nofun

/-- `gc_init_thread`. -/
theorem gcInitThread_spec : Triple (listsProtocol cfg : RG (State Tid Addr) Tid) p bare (gcInitThread cfg p)
    (fun _ => ready ⊔ bare) J := by
  refine .bind (R := fun _ => bare) (.atomic fun s hs h => ?_) fun nb => .ite (fun _ => ?_) fun hnb => ?_
  · have hstep := hs.inv.rename (p := p) (s.nbActive + 1) s.clock s.idx s.registered (fun _ _ => rfl)
      fun _ _ => Iff.rfl
    exact ⟨hstep.1, hstep.2, h⟩
  · exact .of_ret fun s _ h => .inr h
  · have hmax : 0 < cfg.maxGcThreads := by omega
    refine .of_exists (R := fun o => owns o ⊓ .pure (o.Bare ∧ ¬ o.registered)) (fun s _ h => ⟨s.own p, rfl, h⟩)
      fun o => .of_fact (fun _ _ h => h.2) fun ho => .pre ?_ fun _ _ h => h.1
    refine .bind (takeSlot_spec hmax ho.1) fun idx => ?_
    refine .bind (R := fun _ => ready) (.modify fun s hs ⟨c, ⟨hc, _⟩, hquiet⟩ => ?_) fun _ =>
      .of_ret fun s _ h => .inl h
    have hstep := hs.inv.rename (p := p) s.nbActive s.clock (Function.update s.idx p idx)
      (insert p s.registered) (fun q hq => Function.update_of_ne hq ..)
      fun q hq => Finset.mem_insert.trans (or_iff_right hq)
    refine ⟨hstep.1, hstep.2, { o with idx := idx, registered := True }, ⟨c, ⟨?_, Nat.zero_le _⟩, hquiet⟩,
      ⟨ho.1.inside, ho.1.held, ho.1.content⟩, trivial⟩
    refine own_rename.trans ?_
    have hc : s.own p = o.take idx c := hc
    rw [hc, Function.update_self, eq_true (Finset.mem_insert_self p s.registered)]
    rfl

/-- `gc_exit_thread`. -/
theorem gcExitThread_spec : Triple (listsProtocol cfg : RG (State Tid Addr) Tid) p ready (gcExitThread cfg p)
    (fun _ => ready ⊔ bare) J := by
  refine .of_ex fun o => .of_fact (fun _ _ h => h.2) fun ⟨ho, _⟩ => .pre ?_ fun _ _ h => h.1
  have hheld : o.idx ∉ o.held := by
    rw [ho.held]
    exact Set.notMem_empty _
  have hnone : o.content o.idx = none := congrFun ho.content o.idx
  refine .bind (R := fun idx => rests { o with registered := False } idx 0 ⊓ .pure (idx = o.idx))
    (.atomic fun s hs ⟨c, ⟨hc, _⟩, hquiet⟩ => ?_) fun idx => .of_fact (fun _ _ h => h.2) fun hidx =>
    .pre ?_ fun _ _ h => h.1
  · have hstep := hs.inv.rename (p := p) s.nbActive s.clock s.idx (s.registered.erase p) (fun _ _ => rfl)
      fun q hq => Finset.mem_erase.trans (and_iff_right hq)
    have hc : s.own p = o.take o.idx c := hc
    have hidx : s.idx p = o.idx := congrArg Own.idx hc
    have hown : (State.own { s with registered := s.registered.erase p } p) =
        { s.own p with idx := s.idx p, registered := p ∈ s.registered.erase p } := own_rename
    rw [hc, eq_false (Finset.notMem_erase p s.registered)] at hown
    refine ⟨hstep.1, hstep.2, ⟨c, ⟨?_, Nat.zero_le _⟩, hquiet⟩, hidx⟩
    rw [hidx] at hown ⊢
    exact hown
  · subst hidx
    refine .of_ex fun c => .of_fact (fun _ _ h => h.2) fun hc => .pre ?_ fun _ _ h => h.1
    refine .bind (modifySlot_spec rfl fun n _ h => ⟨h.sorted, h.nodup, h.fresh, h.tail_eq⟩) fun _ => ?_
    refine .bind ((release_spec (o := { o with registered := False }) hheld hnone).pre
      fun s _ h => ⟨_, h, hc.updating_eq, hc.left_eq⟩) fun _ =>
      .modify fun s hs h => ?_
    have hstep := hs.inv.rename (p := p) (s.nbActive - 1) s.clock s.idx s.registered (fun _ _ => rfl)
      fun _ _ => Iff.rfl
    have h : s.own p = { o with registered := False } := h
    have hown : (State.own { s with nbActive := s.nbActive - 1 } p).Bare ∧ p ∉ s.registered := by
      have hreg : (p ∈ s.registered) = False := congrArg Own.registered h
      rw [hreg]
      exact ⟨h ▸ ⟨ho.inside, ho.held, ho.content⟩, id⟩
    exact ⟨hstep.1, hstep.2, .inr hown⟩

/-- `gc_set_epoch`. -/
theorem gcSetEpoch_spec {epoch : ℕ} : Triple (listsProtocol cfg : RG (State Tid Addr) Tid) p
    (rests o o.idx 0) (gcSetEpoch cfg p epoch) (fun _ => rests o o.idx 0) J := by
  refine .of_ex fun c => .of_fact (fun _ _ h => h.2) fun hc => .pre ?_ fun _ _ h => h.1
  refine .bind (gcGetIdx_spec (i := o.idx) _ fun s h =>
    (congrArg Own.idx h.1).trans (show (o.take o.idx c).idx = o.idx from rfl)) fun idx =>
    .of_fact (fun _ _ h => h.2) fun hi => .pre ?_ fun _ _ h => h.1
  subst hi
  refine .ite (fun _ => .of_ret fun s _ h => ⟨c, h, hc⟩) fun _ => ?_
  exact (modifySlot_spec rfl fun n _ h => ⟨h.sorted, h.nodup, h.fresh, h.tail_eq⟩).post
    (fun _ s _ h => ⟨_, h, hc.updating_eq, hc.left_eq⟩) fun _ _ h => h

variable [DecidableEq Addr]

/-- `gc_cleanup_all`. -/
theorem gcCleanupAll_spec (ho : o.inside) : Triple (listsProtocol cfg : RG (State Tid Addr) Tid) p (owns o)
    (gcCleanupAll cfg p) (fun _ => owns o) J := by
  refine .iterate (fun _ => owns o) (fun _ _ h => h) fun (i, min) => .ite (fun hi => ?_) fun _ => .of_ret fun _ _ h => h
  refine .bind (R := fun _ => owns o) (.read fun _ _ h => h) fun t => .ite (fun _ => .of_ret fun _ _ h => h)
    fun _ => ?_
  refine .bind (R := fun _ => owns o) (.read fun _ _ h => h) fun t => .ite (fun _ => ?_) fun _ =>
    .of_ret fun _ _ h => h
  refine .bind (claim_spec (R := owns o) nofun hi (fun s h => ⟨h, ho⟩) (fun s hs _ hfull j hj hnull => ?_)
    fun s h _ => h) fun ok => .ite (fun hok => ?_) fun hok => .of_ret fun s _ h => h.2 (Bool.not_eq_true _ ▸ hok)
  · nomatch (hs.front j i hj.le hnull).symm.trans hfull
  · refine .of_fact (fun s _ h => (h.1 hok).2) fun ⟨hheld, hnone⟩ => .pre (P := rests o i 0) ?_
      fun s _ h => (h.1 hok).1
    refine .bind (R := fun _ => rests o i 0) (.ite (fun _ => ?_) fun _ => .of_ret fun _ _ h => h) fun min => ?_
    · exact .bind (R := fun _ => rests o i 0) (.read fun _ _ h => h) fun now => gcComputeMin_spec _ now
    · exact .bind (gcCleanupThread_spec min) fun _ => .bind (release_spec hheld hnone) fun _ =>
        .of_ret fun _ _ h => h

/-- `gc_cleanup_all` works on slots of others. -/
theorem gcCleanupAll_frame : Triple (listsProtocol cfg : RG (State Tid Addr) Tid) p (ready ⊔ bare)
    (gcCleanupAll cfg p) (fun _ => ready ⊔ bare) J := by
  refine .of_sup ?_ ?_
  · refine .of_ex fun o => .of_fact (fun _ _ h => h.2) fun ho => .pre ?_ fun _ _ h => h.1
    refine .of_ex fun c => .of_fact (fun _ _ h => h.2) fun hc => .pre (P := owns (o.take o.idx c)) ?_
      fun _ _ h => h.1.1
    refine .post (Q := fun _ => owns (o.take o.idx c)) (gcCleanupAll_spec ho.1.inside) (fun _ s _ h => ?_)
      fun _ _ h => h
    exact .inl ⟨o, ⟨c, ⟨h, Nat.zero_le _⟩, hc⟩, ho⟩
  · refine .of_exists (R := fun o => owns o ⊓ .pure (o.Bare ∧ ¬ o.registered)) (fun s _ h => ⟨s.own p, rfl, h⟩)
      fun o => .of_fact (fun _ _ h => h.2) fun ho => .pre ?_ fun _ _ h => h.1
    refine (gcCleanupAll_spec ho.1.inside).post (fun _ s _ h => .inr ?_) fun _ _ h => h
    have h : s.own p = o := h
    rw [← h] at ho
    exact ho

end

end TinyStm.GcLists
