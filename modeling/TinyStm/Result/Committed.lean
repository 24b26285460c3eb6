import TinyStm.Conc.Under
import TinyStm.Proof.Loads
import TinyStm.Result.Reader
import TinyStm.Result.RealTime

/-!
# No dirty reads

A load from a stripe that the thread does not own returns the value that was committed at some
moment of the call, and a lock word never comes back after a write-through transaction has owned the
lock.
-/

namespace TinyStm

/-! ## The states during a call -/

section
variable {Tid Addr Lock : Type} {w : ℕ} {cfg : Config Addr Lock} {attrs : Attr → Prop}
  {obs : View Tid Addr Lock w → Prop}

theorem AbortsPlain.and (h : AbortsPlain cfg attrs obs) (O : View Tid Addr Lock w → Prop) :
    AbortsPlain cfg attrs fun v => obs v ∧ O v :=
  fun attr ha hd v hv => h attr ha hd v hv.1

/-- Only the views that satisfy `O` are observed. -/
def Setting.observing (S : Setting Tid Addr Lock w) (O : View Tid Addr Lock w → Prop) :
    Setting Tid Addr Lock w where
  toPremises := S.toPremises
  obs v := S.obs v ∧ O v
  plain := S.plain.and O

end

variable {Tid Addr Lock : Type} {w : ℕ} [DecidableEq Tid] [DecidableEq Addr] [DecidableEq Lock]
  {S : Setting Tid Addr Lock w} {O : View Tid Addr Lock w → Prop} {s : State Tid Addr Lock w}
  {p : Tid} {cmd : Cmd Addr w}

omit [DecidableEq Tid] [DecidableEq Lock] in
theorem observing_refines : (protocol (S.observing O)).Refines (protocol S) where
  inv _ h := h
  obs _ h := h.1
  guar _ _ _ _ _ h := h

omit [DecidableEq Tid] in
theorem pre_observing (h : pre S p cmd s) : pre (S.observing O) p cmd s := by
  cases cmd <;> exact h

/-! ## A load within a run -/

section
variable {cfg : Config Addr Lock} {C : Tid → Cmd Addr w → State Tid Addr Lock w → Prop}
  {O : State Tid Addr Lock w → Prop} {size : ℕ} {T U : Pool (State Tid Addr Lock w) Tid} {a : Addr}
  {x : BitVec w}

/-- The runs from the initial state all of whose states satisfy `O`. -/
abbrev RunIn (cfg : Config Addr Lock) (m₀ : Mem Addr w) (size : ℕ)
    (C : Tid → Cmd Addr w → State Tid Addr Lock w → Prop) (O : State Tid Addr Lock w → Prop)
    (T : Pool (State Tid Addr Lock w) Tid) : Prop :=
  Pool.ReachesIn (exec cfg) C O (Pool.init (State.init m₀ size)) T

/-- What the other threads do while thread `p` loads from `a`, in a run that has got to `T`. -/
abbrev DuringLoad (cfg : Config Addr Lock) (C : Tid → Cmd Addr w → State Tid Addr Lock w → Prop)
    (O : State Tid Addr Lock w → Prop) (p : Tid) (a : Addr) (T : Pool (State Tid Addr Lock w) Tid) :
    Pool (State Tid Addr Lock w) Tid → Prop :=
  Pool.ReachesIn (exec cfg) (fun q k s => q ≠ p ∧ C q k s) O (T.next (exec cfg) (.invoke p (.load a)))

/-- A load from `a` by thread `p`, called in `T`, has returned `x` in `U`. -/
structure Loads (cfg : Config Addr Lock) (C : Tid → Cmd Addr w → State Tid Addr Lock w → Prop)
    (O : State Tid Addr Lock w → Prop) (p : Tid) (a : Addr) (x : BitVec w)
    (T U : Pool (State Tid Addr Lock w) Tid) : Prop where
  idle : (T.ctl p).Done
  call : C p (.load a) T.st
  during : DuringLoad cfg C O p a T U
  done : (U.ctl p).Done
  value : (U.st.txs p).trace = .load a x :: (T.st.txs p).trace

/-- The committed word at `a` is `x` at some moment of the load. -/
def CommittedDuring (cfg : Config Addr Lock) (m₀ : Mem Addr w)
    (C : Tid → Cmd Addr w → State Tid Addr Lock w → Prop) (O : State Tid Addr Lock w → Prop) (p : Tid)
    (a : Addr) (x : BitVec w) (T U : Pool (State Tid Addr Lock w) Tid) : Prop :=
  ∃ V, DuringLoad cfg C O p a T V ∧
    Pool.ReachesIn (exec cfg) (fun q k s => q ≠ p ∧ C q k s) O V U ∧ V.st.committed m₀ a = x

/-- A value that a load returns comes from a stripe that the thread owns, or with commit-time
locking from a store of the transaction, or it was the committed one during the load. -/
theorem Loads.origin (hO : ∀ s, O s → S.obs s.view)
    (hC : ∀ p cmd s, s.view.Inv S → boundary S p s → C p cmd s → Admits S p cmd s)
    (hT : RunIn S.cfg S.mem₀ size C O T) (h : Loads S.cfg C O p a x T U) :
    U.st.view.Holds p (S.cfg.getLock a) ∨
      S.cfg.designOf (U.st.txs p).attr = .writeBackCtl ∧ a ∈ (T.st.txs p).trace.writes ∨
      CommittedDuring S.cfg S.mem₀ C O p a x T U := by
  have hpre : ∀ q k s, (protocol S).Ok s → boundary S q s → C q k s → pre S q k s :=
    fun q k s hs hB hk => pre_of_admits q k s hB (hC q k s hs.inv hB hk)
  obtain ⟨hinv, hB⟩ := Pool.ReachesIn.sound (S := Pool.init (State.init S.mem₀ size)) hO exec_spec
    hpre (inv_init S size) (fun q => Pool.atOutline_init (boundary_init S size q)) hT
  -- the states of the load are the ones observed from now on
  let S' := S.observing fun v => ∃ V, DuringLoad S.cfg C O p a T V ∧
    Pool.ReachesIn (exec S.cfg) (fun q k s => q ≠ p ∧ C q k s) O V U ∧ V.st.view = v
  let B : (q : Tid) → Asn S' q := fun q =>
    boundary S' q ⊓ .imp (q = p) (TinyStm.origin S' q (T.st.txs p).trace a)
  have hB' : ∀ q, Pool.AtOutline B (T.next (exec S.cfg) (.invoke p (.load a))) q := by
    intro q
    by_cases hq : q = p
    · subst hq
      refine ⟨pre S' q (.load a) ⊓ traceFrom S' q (T.st.txs q).trace, ?_, ?_, .inl rfl⟩
      · have hctl : (T.next (exec S.cfg) (.invoke q (.load a))).ctl q = exec S.cfg q (.load a) :=
          Function.update_self ..
        rw [hctl]
        exact exec_load_origin.post (fun _ _ _ h => ⟨h.1, fun _ => h.2⟩) fun _ _ h => ⟨h.1, fun _ => h.2⟩
      · have hok : (protocol S).Ok T.st := ⟨hinv, hO _ hT.obs⟩
        have hbound : boundary S q T.st := (hB q).of_done hok h.idle
        exact pre_observing (hpre q _ _ hok hbound h.call)
    · have hctl : (T.next (exec S.cfg) (.invoke p (.load a))).ctl q = T.ctl q :=
        Function.update_of_ne hq ..
      have hunder : Pool.AtOutline B T q := (hB q).under observing_refines
        (fun _ _ _ h h' => ⟨h, h'⟩) fun _ _ h => ⟨h, fun hqp => absurd hqp hq⟩
      obtain ⟨P, hP, hPT⟩ := hunder
      exact ⟨P, hctl ▸ hP, hPT⟩
  have hk : ∀ q k, Triple (protocol S') q (.pure (q ≠ p) ⊓ pre S' q k) (exec S.cfg q k) (fun _ => B q)
      (B q) := by
    refine fun q k => .of_fact (fun _ _ h => h.1) fun hq => ?_
    refine .pre ((exec_spec (S := S') q k).post (fun _ _ _ h => ?_) fun _ _ h => ?_) fun _ _ h => h.2
    all_goals exact ⟨h, fun hqp => absurd hqp hq⟩
  have hsound := Pool.ReachesIn.sound_of (S := T.next (exec S.cfg) (.invoke p (.load a))) hk
    (fun q k s hs hB hk => ⟨hk.1, pre_observing (hpre q k s ⟨hs.inv, hs.obs.1⟩ hB.1 hk.2)⟩) hinv hB'
    h.during fun V hV hVU => ⟨hO _ hV.obs, V, hV, hVU, rfl⟩
  have hend := (hsound.2 p).of_done ⟨hsound.1, hO _ h.during.obs, U, h.during, .refl h.during.obs, rfl⟩
    h.done
  obtain ⟨horigin, hwrites⟩ := hend.2 rfl x h.value
  rcases horigin with hh | hw | ⟨v, ⟨-, V, hV, hVU, rfl⟩, hx⟩
  · exact .inl hh
  · by_cases hctl : S.cfg.designOf (U.st.txs p).attr = .writeBackCtl
    · exact .inr (.inl ⟨hctl, hw⟩)
    · exact .inl (hwrites hctl hw)
  · exact .inr (.inr ⟨V, hV, hVU, hx⟩)

/-- Where nothing is committed, a load does not return another value than the initial one. -/
theorem Loads.not_committed {m₀ : Mem Addr w} (h : Loads cfg C O p a x T U)
    (hC : ∀ q k s, C q k s → Called q k s) (hT : Run cfg m₀ size C T) (hU : U.st.commits = [])
    (hx : m₀ a ≠ x) : ¬ CommittedDuring cfg m₀ C O p a x T U := by
  rintro ⟨V, hV, hVU, hVx⟩
  have hTV : Pool.Reaches (exec cfg) C T V :=
    (Pool.Reaches.tail (.invoke p (.load a)) .refl ⟨h.idle, h.call⟩).trans
      (hV.reaches.mono fun _ _ _ h => h.2)
  have hsuffix := Run.commits_suffix hC (hT.trans hTV) (hVU.reaches.mono fun _ _ _ h => h.2)
  rw [hU, List.suffix_nil] at hsuffix
  have hinit : History.memAt m₀ V.st.commits V.st.clock = m₀ := by
    rw [hsuffix]
    exact History.memAt_eq_of_le (Nat.zero_le _) nofun
  exact hx ((congrFun hinit a).symm.trans hVx)

/-- A lock word that is free after a write-through transaction has owned the lock is greater than
one that was free before. -/
theorem RunIn.lock_lt (hO : ∀ s, O s → S.obs s.view)
    (hC : ∀ p cmd s, s.view.Inv S → boundary S p s → C p cmd s → Admits S p cmd s)
    (hT : RunIn S.cfg S.mem₀ size C O T) {V : Pool (State Tid Addr Lock w) Tid}
    (hV : Pool.ReachesIn (exec S.cfg) C O T V) (hU : Pool.ReachesIn (exec S.cfg) C O V U) {ℓ : Lock}
    {l l' i : ℕ} (hl : T.st.locks ℓ = .free l) (hown : V.st.locks ℓ = .owned p i)
    (hwt : S.cfg.designOf (V.st.txs p).attr = .writeThrough) (hl' : U.st.locks ℓ = .free l') :
    l < l' := by
  have hwt : S.cfg.designOf (V.st.view.attr p) = .writeThrough := hwt
  have hpre : ∀ q k s, (protocol S).Ok s → boundary S q s → C q k s → pre S q k s :=
    fun q k s hs hB hk => pre_of_admits q k s hB (hC q k s hs.inv hB hk)
  -- the stamp is odd while the transaction owns the lock
  have hstamp : ∀ {T U : Pool (State Tid Addr Lock w) Tid}, (protocol S).inv T.st →
      (∀ q, Pool.AtOutline (boundary S) T q) → Pool.ReachesIn (exec S.cfg) C O T U →
      T.st.view.stamp S ℓ ≤ U.st.view.stamp S ℓ := fun hinv hB h =>
    h.sound_rel (G := protocol S) hO (R := fun s s' => s.view.stamp S ℓ ≤ s'.view.stamp S ℓ)
      (fun _ => le_rfl) (fun _ _ _ => le_trans) (fun _ _ _ _ _ hg => hg.2.stamp ℓ) exec_spec hpre
      hinv hB
  obtain ⟨hinv, hB⟩ := Pool.ReachesIn.sound (S := Pool.init (State.init S.mem₀ size)) hO exec_spec
    hpre (inv_init S size) (fun q => Pool.atOutline_init (boundary_init S size q)) hT
  obtain ⟨hinv', hB'⟩ := hV.sound hO exec_spec hpre hinv hB
  have hTV := hstamp hinv hB hV
  have hVU := hstamp hinv' hB' hU
  rw [View.stamp_of_free hl, View.stamp_of_owned hown, if_pos hwt] at hTV
  rw [View.stamp_of_owned hown, if_pos hwt, View.stamp_of_free hl'] at hVU
  omega

end

/-! ## Transactions of different designs -/

/-- No transaction of a write-back design rolls back while it owns a lock whose word had an
incarnation number. -/
def View.RollsBackPlain (cfg : Config Addr Lock) (v : View Tid Addr Lock w) : Prop :=
  ∀ ℓ p, (v.locks ℓ).owner = some p → cfg.designOf (v.attr p) ≠ .writeThrough →
    v.phase p = .aborting → Plain (v.saved ℓ)

instance [Fintype Tid] [Fintype Lock] (cfg : Config Addr Lock) (v : View Tid Addr Lock w) :
    Decidable (v.RollsBackPlain cfg) := by
  unfold View.RollsBackPlain Plain
  infer_instance

/-- The calls that each design handles: a transaction may have any attributes, but with
encounter-time locking no store of a `no_retry` transaction needs a new entry while the write set is
full, and in write-through every store saves the old value. -/
def MixedCall (cfg : Config Addr Lock) (p : Tid) (cmd : Cmd Addr w) (s : State Tid Addr Lock w) :
    Prop :=
  Called p cmd s ∧ (cmd = .setIrrevocable → cfg.irrevocableEnabled = true) ∧
    (cfg.designOf (s.txs p).attr ≠ .writeBackCtl → RoomyStore cfg p cmd s) ∧
    (cfg.designOf (s.txs p).attr = .writeThrough → SavedStore cfg p cmd s)

instance (cfg : Config Addr Lock) (p : Tid) (cmd : Cmd Addr w) (s : State Tid Addr Lock w) :
    Decidable (MixedCall cfg p cmd s) :=
  inferInstanceAs (Decidable (_ ∧ _ ∧ _ ∧ _))

omit [DecidableEq Tid] [DecidableEq Addr] [DecidableEq Lock] in
theorem abortsPlain_of_rollsBackPlain (cfg : Config Addr Lock) :
    AbortsPlain cfg (fun _ => True) fun v : View Tid Addr Lock w => v.RollsBackPlain cfg :=
  fun _ _ _ _ hv p _ hne hph ℓ _ hl => hv ℓ p (by rw [hl]; rfl) hne hph

/-- What is assumed of runs of transactions of different designs. -/
def mixedSetting (cfg : Config Addr Lock) (m₀ : Mem Addr w) : Setting Tid Addr Lock w where
  cfg := cfg
  attrs _ := True
  mem₀ := m₀
  tokens := cfg.irrevocableEnabled = true
  enabled_of_tokens h := h
  tokens_of_requests := enabled_of_requests cfg
  strict := False
  hint := False
  mask _ := True
  mask_or := any_mask_or
  obs v := v.RollsBackPlain cfg
  plain := abortsPlain_of_rollsBackPlain cfg

omit [DecidableEq Tid] in
/-- The calls of such transactions are admitted. -/
theorem admits_of_mixed {cfg : Config Addr Lock} {m₀ : Mem Addr w} (p : Tid) (cmd : Cmd Addr w)
    (s : State Tid Addr Lock w) (_ : s.view.Inv (mixedSetting cfg m₀ : Setting Tid Addr Lock w))
    (hB : boundary (mixedSetting cfg m₀) p s) (h : MixedCall cfg p cmd s) :
    Admits (mixedSetting cfg m₀) p cmd s := by
  obtain ⟨hcall, he, hroom, hsaved⟩ := h
  have hstore : ∀ x ∈ cmd.target,
      MayStore (mixedSetting cfg m₀ : Setting Tid Addr Lock w) (s.txs p) x.1 x.2 :=
    fun x hx => ⟨False.elim, trivial, fun hd => hroom hd x hx, fun hd => hsaved hd x hx⟩
  cases cmd with
  | start attr => exact ⟨trivial, hcall⟩
  | load a =>
    refine ⟨hcall, nofun, fun _ hb hi => (hb ⟨False.elim, .inr ?_⟩).elim⟩
    exact (active_of_boundary hB hcall).irr.resolve_left hi
  | store a x => exact ⟨hcall, hstore _ rfl⟩
  | store2 a x k => exact ⟨hcall, hstore _ rfl⟩
  | commit => exact ⟨hcall, fun _ => False.elim⟩
  | abort reason => exact hcall
  | setIrrevocable => exact ⟨he rfl, False.elim⟩

section
variable {cfg : Config Addr Lock} {m₀ : Mem Addr w} {size : ℕ} {T : Pool (State Tid Addr Lock w) Tid}

/-- Transactions of different designs may run at the same time, as long as none of a write-back
design is rolled back while it owns a lock whose word had an incarnation number: what a load returns
from a stripe that its thread does not own, and to which the transaction has not stored, is the
committed value at some moment of the call, and a lock word does not come back once a write-through
transaction has owned the lock. -/
theorem mixed_no_dirty_reads
    (hT : RunIn cfg m₀ size (MixedCall cfg) (fun s => s.view.RollsBackPlain cfg) T) :
    (∀ p a x U, Loads cfg (MixedCall cfg) (fun s => s.view.RollsBackPlain cfg) p a x T U →
      (∀ i, U.st.locks (cfg.getLock a) ≠ .owned p i) →
      (cfg.designOf (U.st.txs p).attr = .writeBackCtl → a ∉ (T.st.txs p).trace.writes) →
      CommittedDuring cfg m₀ (MixedCall cfg) (fun s => s.view.RollsBackPlain cfg) p a x T U) ∧
    ∀ V U ℓ l q i l',
      Pool.ReachesIn (exec cfg) (MixedCall cfg) (fun s => s.view.RollsBackPlain cfg) T V →
      Pool.ReachesIn (exec cfg) (MixedCall cfg) (fun s => s.view.RollsBackPlain cfg) V U →
      T.st.locks ℓ = .free l → V.st.locks ℓ = .owned q i →
      cfg.designOf (V.st.txs q).attr = .writeThrough → U.st.locks ℓ = .free l' → l < l' := by
  refine ⟨fun p a x U h hown hwrites => ?_, fun V U ℓ l q i l' hV hU hl hheld hwt hl' => ?_⟩
  · rcases h.origin (S := mixedSetting cfg m₀) (fun _ h => h) admits_of_mixed hT with
      ⟨i, hi⟩ | ⟨hctl, hw⟩ | hcommitted
    · exact (hown i hi).elim
    · exact (hwrites hctl hw).elim
    · exact hcommitted
  · exact RunIn.lock_lt (S := mixedSetting cfg m₀) (fun _ h => h) admits_of_mixed hT hV hU hl hheld hwt
      hl'

end

/-- The attributes of a write-through transaction under `DESIGN=MODULAR`. -/
def wtAttr : Attr := ⟨2, false, false⟩

/-- Transactions of two designs, one of which has aborted. -/
def twoDesigns : List (Fin 2 × Cmd (Fin 2) 8) :=
  [(0, .start .readWrite), (1, .start wtAttr), (1, .store 0 5), (1, .abort 0)]

/-- The load of the first transaction. -/
def mixedLoad : Pool (State (Fin 2) (Fin 2) (Fin 2) 8) (Fin 2) :=
  Pool.follow (exec (.plain .modular id))
    ((after (.plain .modular id) 4 30 twoDesigns).next (exec (.plain .modular id))
      (.invoke 0 (.load 0))) (List.replicate 10 (.exec 0))

set_option maxRecDepth 20000 in
theorem mixed_no_dirty_reads_calls :
    CommittedDuring (.plain .modular id) (fun _ => 0#8) (MixedCall (.plain .modular id))
      (fun s => s.view.RollsBackPlain (.plain .modular id)) 0 0 0#8
      (after (.plain .modular id) 4 30 twoDesigns) mixedLoad := by
  have hT : RunIn (.plain .modular id) (fun _ => 0#8) 4 (MixedCall (.plain .modular id))
      (fun s => s.view.RollsBackPlain (.plain .modular id))
      (after (.plain .modular id) 4 30 twoDesigns) := Pool.FollowsIn.reaches (by decide)
  have hload : Loads (.plain .modular id) (MixedCall (.plain .modular id))
      (fun s => s.view.RollsBackPlain (.plain .modular id)) 0 0 0#8
      (after (.plain .modular id) 4 30 twoDesigns) mixedLoad :=
    ⟨by decide, by decide, Pool.FollowsIn.reaches (by decide), by decide, by decide⟩
  have hlock : mixedLoad.st.locks 0 = .free 2 := by decide
  refine (mixed_no_dirty_reads hT).1 0 0 0#8 _ hload (fun i h => ?_) (by decide)
  cases hlock.symm.trans h

/-- Three transactions. -/
def startCalls : List (Fin 3 × Cmd (Fin 1) 8) :=
  [(0, .start .readWrite), (1, .start wtAttr), (2, .start .readWrite)]

/-- While thread 0 loads the word, a write-through transaction of thread 1 stores to it and aborts,
and then a write-back transaction of thread 2 does. -/
def returningWord : Pool (State (Fin 3) (Fin 1) (Fin 1) 8) (Fin 3) :=
  Pool.follow (exec (.plain .modular id))
    ((after (.plain .modular id) 4 30 startCalls).next (exec (.plain .modular id))
      (.invoke 0 (.load 0)))
    (List.replicate 3 (.exec 0) ++ Pool.Label.calls 20 [(1, .store 0 5)] ++ [.exec 0] ++
      Pool.Label.calls 30 [(1, .abort 0), (2, .store 0 1), (2, .abort 0)] ++
      List.replicate 10 (.exec 0))

set_option maxRecDepth 20000 in
/-- The second rollback restores the lock word without the incarnation number that the first one
gave it, so the load returns the word of the write-through transaction, which nobody has committed.
-/
theorem mixed_dirty_read : ∃ T U : Pool (State (Fin 3) (Fin 1) (Fin 1) 8) (Fin 3),
    RunIn (.plain .modular id) (fun _ => 0#8) 4 (MixedCall (.plain .modular id)) (fun _ => True) T ∧
      Loads (.plain .modular id) (MixedCall (.plain .modular id)) (fun _ => True) 0 0 5#8 T U ∧
      U.st.locks 0 = .free 0 ∧
      (.plain .modular id : Config (Fin 1) (Fin 1)).designOf (U.st.txs 0).attr = .writeBackEtl ∧
      ¬ CommittedDuring (.plain .modular id) (fun _ => 0#8) (MixedCall (.plain .modular id))
        (fun _ => True) 0 0 5#8 T U := by
  have hT : Run (.plain .modular id) (fun _ => 0#8) 4 (MixedCall (.plain .modular id))
      (after (.plain .modular id) 4 30 startCalls) := run_after (by decide)
  have hload : Loads (.plain .modular id) (MixedCall (.plain .modular id)) (fun _ => True) 0 0 5#8
      (after (.plain .modular id) 4 30 startCalls) returningWord :=
    ⟨by decide, by decide, (Pool.Follows.reaches (by decide)).reachesIn, by decide, by decide⟩
  refine ⟨_, _, hT.reachesIn, hload, by decide, by decide, ?_⟩
  exact hload.not_committed (fun _ _ _ h => h.1) hT (by decide) (by decide)

/-! ## WRITE_THROUGH -/

section
variable {cfg : Config Addr Lock} {m₀ : Mem Addr w} {size : ℕ} {T : Pool (State Tid Addr Lock w) Tid}

/-- In every run of WRITE_THROUGH in which every store saves the old value and no store of a
`no_retry` transaction needs a new entry while its write set is full, the words that are stored to a
lock when it is released grow, and what a load returns from a stripe that its thread does not own is
the committed value at some moment of the call. -/
theorem wt_no_dirty_reads (hd : cfg.design = .writeThrough) (hT : Run cfg m₀ size (CleanCall cfg) T) :
    (∀ V U ℓ l q i l', Pool.Reaches (exec cfg) (CleanCall cfg) T V →
      Pool.Reaches (exec cfg) (CleanCall cfg) V U → T.st.locks ℓ = .free l →
      V.st.locks ℓ = .owned q i → U.st.locks ℓ = .free l' → l < l') ∧
    ∀ p a x U, Loads cfg (CleanCall cfg) (fun _ => True) p a x T U →
      (∀ i, U.st.locks (cfg.getLock a) ≠ .owned p i) →
      CommittedDuring cfg m₀ (CleanCall cfg) (fun _ => True) p a x T U := by
  have hm : cfg.design ≠ .modular := by simp [hd]
  have hadm : ∀ (q : Tid) (cmd : Cmd Addr w) (s : State Tid Addr Lock w),
      s.view.Inv (anySetting cfg hm m₀ : Setting Tid Addr Lock w) →
      boundary (anySetting cfg hm m₀) q s → CleanCall cfg q cmd s →
      Admits (anySetting cfg hm m₀) q cmd s :=
    fun q cmd s _ hB h => admits_of_any q cmd s hB h.1 h.2
  have hdesign (attr : Attr) : cfg.designOf attr = .writeThrough := (designOf_static hm attr).trans hd
  refine ⟨fun V U ℓ l q i l' hV hU hl hown hl' => ?_, fun p a x U h hown => ?_⟩
  · exact RunIn.lock_lt (S := anySetting cfg hm m₀) (fun _ h => h) hadm hT.reachesIn hV.reachesIn
      hU.reachesIn hl hown (hdesign _) hl'
  · rcases h.origin (S := anySetting cfg hm m₀) (fun _ h => h) hadm hT.reachesIn with
      ⟨i, hi⟩ | ⟨hctl, -⟩ | hcommitted
    · exact (hown i hi).elim
    · exact absurd ((hdesign _).symm.trans hctl) (by decide)
    · exact hcommitted

end

/-- A store that is undone, and another one. -/
def storesTwice : List (Fin 2 × Cmd (Fin 2) 8) :=
  [(0, .start .readWrite), (0, .store 0 5), (0, .abort 0), (0, .store 0 6), (0, .commit),
    (1, .start .readWrite)]

/-- A load after them. -/
def loadAfter {Lock : Type} [DecidableEq Lock] (getLock : Fin 2 → Lock)
    (ks : List (Fin 2 × Cmd (Fin 2) 8)) : Pool (State (Fin 2) (Fin 2) Lock 8) (Fin 2) :=
  Pool.follow (exec (.plain .writeThrough getLock))
    ((after (.plain .writeThrough getLock) 4 30 ks).next (exec (.plain .writeThrough getLock))
      (.invoke 1 (.load 0))) (List.replicate 10 (.exec 1))

set_option maxRecDepth 20000 in
theorem wt_no_dirty_reads_twice :
    CommittedDuring (.plain .writeThrough id) (fun _ => 0#8) (CleanCall (.plain .writeThrough id))
      (fun _ => True) 1 0 6#8 (after (.plain .writeThrough id) 4 30 storesTwice)
      (loadAfter id storesTwice) := by
  have hT : Run (.plain .writeThrough id) (fun _ => 0#8) 4 (CleanCall (.plain .writeThrough id))
      (after (.plain .writeThrough id) 4 30 storesTwice) := run_after (by decide)
  have hload : Loads (.plain .writeThrough id) (CleanCall (.plain .writeThrough id)) (fun _ => True)
      1 0 6#8 (after (.plain .writeThrough id) 4 30 storesTwice) (loadAfter id storesTwice) :=
    ⟨by decide, by decide, (Pool.Follows.reaches (by decide)).reachesIn, by decide, by decide⟩
  have hlock : (loadAfter id storesTwice).st.locks 0 = .free 16 := by decide
  refine (wt_no_dirty_reads rfl hT).2 1 0 6#8 _ hload fun i h => ?_
  cases hlock.symm.trans h

/-- The first store to a stripe has an empty mask, and another word of the stripe is stored twice.
-/
def lateSaves : List (Fin 2 × Cmd (Fin 2) 8) :=
  [(0, .start .readWrite), (0, .store2 0 5 0), (0, .store 1 7), (0, .store 1 8), (0, .abort 0),
    (1, .start .readWrite)]

set_option maxRecDepth 20000 in
/-- The rollback stores a value of the second word to the first one and frees the lock, and a load
returns it. -/
theorem wt_dirty_read : ∃ T U : Pool (State (Fin 2) (Fin 2) (Fin 1) 8) (Fin 2),
    Run (.plain .writeThrough fun _ => 0) (fun _ => 0#8) 4
        (AnyCall (.plain .writeThrough fun _ => 0) .writeThrough) T ∧
      Loads (.plain .writeThrough fun _ => 0) (AnyCall (.plain .writeThrough fun _ => 0) .writeThrough)
        (fun _ => True) 1 0 7#8 T U ∧
      U.st.locks 0 = .free 2 ∧
      ¬ CommittedDuring (.plain .writeThrough fun _ => 0) (fun _ => 0#8)
        (AnyCall (.plain .writeThrough fun _ => 0) .writeThrough) (fun _ => True) 1 0 7#8 T U := by
  have hT : Run (.plain .writeThrough fun _ => 0) (fun _ => 0#8) 4
      (AnyCall (.plain .writeThrough fun _ => 0) .writeThrough)
      (after (.plain .writeThrough fun _ => (0 : Fin 1)) 4 30 lateSaves) := run_after (by decide)
  have hload : Loads (.plain .writeThrough fun _ => 0)
      (AnyCall (.plain .writeThrough fun _ => 0) .writeThrough) (fun _ => True) 1 0 7#8
      (after (.plain .writeThrough fun _ => (0 : Fin 1)) 4 30 lateSaves)
      (loadAfter (fun _ => 0) lateSaves) :=
    ⟨by decide, by decide, (Pool.Follows.reaches (by decide)).reachesIn, by decide, by decide⟩
  refine ⟨_, _, hT, hload, by decide, ?_⟩
  exact hload.not_committed (fun _ _ _ h => h.1) hT (by decide) (by decide)

end TinyStm
