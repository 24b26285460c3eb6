import TinyStm.Conc.Watch
import TinyStm.Proof.Levels
import TinyStm.Proof.Sound

/-!
# What a transaction has seen

The values that a transaction has loaded so far are those of one committed memory, also in the middle of a
call: a step of any thread keeps the committed memory as of a timestamp at the words that the transaction
has read (`View.Sees`), and between two steps of the thread itself its trace changes only where it is
emptied, and where a load or a store has returned.
-/

namespace TinyStm

namespace View

variable {Tid Addr Lock : Type} {w : ℕ} [DecidableEq Addr] {S : Setting Tid Addr Lock w}
  {v v' : View Tid Addr Lock w} {p q : Tid} {n : ℕ} {a : Addr} {x : BitVec w} {tr : Trace Addr w}

variable (S v) in
/-- The committed word at `a` as of timestamp `n` is `x`, and no commit under way can change it. -/
structure SettledAt (n : ℕ) (a : Addr) (x : BitVec w) : Prop where
  le : n ≤ v.clock
  eq : v.memAt S n a = x
  late : ∀ q t, v.phase q = .ticket t → v.Holds q (S.cfg.getLock a) → n < t

/-- No step changes such a word. -/
theorem SettledAt.step (hg : Guar S q v v') (h : v.SettledAt S n a x) : v'.SettledAt S n a x where
  le := h.le.trans hg.clock
  eq := by
    rcases hg.memAt a n h.le with he | ⟨t, ht, hle, hh⟩
    · exact he.trans h.eq
    · have := h.late q t ht hh
      omega
  late r t ht hh := by
    by_cases hrq : r = q
    · subst hrq
      rcases hg.acquire _ hh with hh | hh
      · rcases hg.draw t ht with ht | ht
        · exact h.late r t ht hh
        · exact h.le.trans_lt ht
      · rw [ht] at hh
        cases hh
    · rw [hg.phase r hrq] at ht
      exact h.late r t ht ((hg.holds_iff (Ne.symm hrq)).1 hh)

/-- What others cannot change the thread itself does not change before it commits. -/
theorem FixedAt.settledAt (h : v.FixedAt S p n a x) (hp : v.phase p = .running) :
    v.SettledAt S n a x where
  le := h.le
  eq := h.eq
  late q t ht hh := by
    refine h.late q t (fun hqp => ?_) ht hh
    rw [hqp, hp] at ht
    cases ht

/-- The values that a transaction rests on in a strict run. -/
theorem Good.settledAt {tx : StmTx Addr Lock w} (hv : v.Inv S) (h : v.Good S p tx a x) (hs : S.strict)
    (hi : tx.irrevocable = 0) (hp : v.phase p = .running) (hend : tx.end_ ≤ v.clock) :
    v.SettledAt S tx.end_ a x := by
  rcases h with ⟨ho, hx, hle⟩ | ⟨-, hi3, -⟩ | ⟨-, -, hf, -⟩
  · have hle := (hle hs).resolve_left fun h => h hi
    have hfix := FixedAt.of_holds hv ho.2 (fun t ht => by rw [hp] at ht; cases ht) hle hend
    exact hx ▸ hfix.settledAt hp
  · omega
  · exact hf.settledAt hp

variable (S v) in
/-- The loads of the trace return, under its own stores, the committed values as of timestamp `n`, for
good. -/
def Sees (tr : Trace Addr w) (n : ℕ) : Prop :=
  ∃ m : Mem Addr w, tr.Consistent m ∧ ∀ a ∈ tr.reads, v.SettledAt S n a (m a)

/-- What has been seen stays so. -/
theorem Sees.step (hg : Guar S q v v') (h : v.Sees S tr n) : v'.Sees S tr n :=
  h.imp fun _ ⟨hc, hm⟩ => ⟨hc, fun a ha => (hm a ha).step hg⟩

/-- Nothing has been seen. -/
theorem Sees.nil : v.Sees S [] n := ⟨fun _ => 0#w, trivial, nofun⟩

/-- The loads are those of the committed memory of that time. -/
theorem Sees.consistent (h : v.Sees S tr n) : tr.Consistent (v.memAt S n) := by
  obtain ⟨m, hc, hm⟩ := h
  exact hc.congr fun a ha => (hm a ha).eq.symm

/-- The snapshot of a transaction in a strict run. -/
theorem Snap.sees {tx : StmTx Addr Lock w} {m : Mem Addr w} (h : v.Snap S p tx m) (hv : v.Inv S)
    (hs : S.strict) (hb : ¬ Blind S tx) (hi : tx.irrevocable = 0) (hp : v.phase p = .running) :
    v.Sees S tx.trace tx.end_ :=
  ⟨m, h.cons hb, fun a ha => (h.good hb a ha).settledAt hv hs hi hp h.end_le⟩

end View

variable {Tid Addr Lock : Type} {w : ℕ} [DecidableEq Tid] [DecidableEq Addr] [DecidableEq Lock]
  {S : Setting Tid Addr Lock w} {cfg : Config Addr Lock} {p q : Tid} {s s' : State Tid Addr Lock w}
  {a : Addr} {x k : BitVec w}

/-! ## Traces -/

omit [DecidableEq Tid] [DecidableEq Addr] [DecidableEq Lock] in
/-- The step leaves the trace of `p` alone, or it empties it. -/
def Fades (p : Tid) (s s' : State Tid Addr Lock w) : Prop :=
  (s'.txs p).trace = (s.txs p).trace ∨ (s'.txs p).trace = []

omit [DecidableEq Tid] [DecidableEq Addr] [DecidableEq Lock] in
/-- The trace belongs to the control part. -/
theorem Fades.of_control (h : (s'.txs p).control = (s.txs p).control) : Fades p s s' :=
  .inl (congrArg Control.trace h)

omit [DecidableEq Addr] [DecidableEq Lock] in
/-- A change of the descriptor that keeps the trace or empties it. -/
theorem modifyTx_fades {f : StmTx Addr Lock w → StmTx Addr Lock w}
    (h : ∀ tx, (f tx).trace = tx.trace ∨ (f tx).trace = []) :
    (modifyTx p f).Actions (Fades p) :=
  ⟨fun s => by simpa [Fades, State.setTx] using h (s.txs p), fun _ => trivial⟩

omit [DecidableEq Addr] [DecidableEq Lock] in
/-- `int_stm_prepare`. -/
theorem intStmPrepare_fades : (intStmPrepare cfg p : M Tid Addr Lock w _).Actions (Fades p) := by
  have hkeep : ∀ s s' : State Tid Addr Lock w, KeepsSets p s s' → Fades p s s' :=
    fun _ _ h => .inl h.trace
  refine (modifyTx_fades fun _ => .inr rfl).bind fun _ => (setStart_sets.actions hkeep).bind fun _ =>
    Prog.actions_access (fun _ => .inl rfl) fun tx => Prog.actions_ite ?_ ?_
  · exact (setIrrevocableRestart_sets.actions hkeep).bind fun _ => modifyTx_fades fun _ => .inl rfl
  · exact modifyTx_fades fun _ => .inl rfl

/-- `stm_rollback`. -/
theorem stmRollback_fades (reason : Reason) :
    (stmRollback cfg p reason : M Tid Addr Lock w _).Actions (Fades p) := by
  have hkeep : ∀ s s' : State Tid Addr Lock w, KeepsControl p s s' → Fades p s s' :=
    fun _ _ h => .of_control h.control
  refine ((control_of_keeps stmDesignRollback_keeps).actions hkeep).bind fun _ => ?_
  refine Prog.Actions.bind (modifyTx_fades fun _ => .inl rfl) fun _ => ?_
  refine Prog.Actions.bind (modifyTx_fades fun _ => .inl rfl) fun _ => ?_
  refine (waitCLock_control.actions hkeep).bind fun _ => ?_
  refine Prog.actions_access (fun _ => .inl rfl) fun tx => Prog.actions_ite ?_ ?_
  · exact modifyTx_fades fun _ => .inl rfl
  · exact intStmPrepare_fades.bind fun _ => trivial

/-- A program that is made of actions that leave the control part alone and of rollbacks. -/
theorem fades_alike {α : Type} {d : Design} {c c' : M Tid Addr Lock w α} (h : Alike cfg d p c c') :
    c.Actions (Fades p) :=
  h.actions (fun _ _ => .of_control) stmRollback_fades

/-- `int_stm_load`. -/
theorem intStmLoad_fades : (intStmLoad cfg p a : M Tid Addr Lock w _).Actions (Fades p) :=
  fades_alike intStmLoad_alike

/-- `stm_write`. -/
theorem stmWrite_fades : (stmWrite cfg p a x k : M Tid Addr Lock w _).Actions (Fades p) :=
  fades_alike stmWrite_alike

/-- The commit of the write set, if it is not empty. -/
theorem commitWriteSet_fades (tx : StmTx Addr Lock w) :
    (commitWriteSet cfg p tx).Actions (Fades p) :=
  Prog.actions_ite ⟨fun _ => .inl rfl, fun _ => trivial⟩
    ((fades_alike stmDesignCommit_alike).bind fun _ => trivial)

omit [DecidableEq Addr] [DecidableEq Lock] in
/-- The nesting level is changed. -/
theorem nesting_fades (f : ℕ → ℕ) :
    (modifyTx p fun tx => { tx with nesting := f tx.nesting } :
      M Tid Addr Lock w _).Actions (Fades p) :=
  modifyTx_fades fun _ => .inl rfl

/-- `int_stm_commit`. -/
theorem intStmCommit_fades : (intStmCommit cfg p : M Tid Addr Lock w _).Actions (Fades p) := by
  refine (nesting_fades nestingPred).bind fun _ => Prog.actions_access (fun _ => .inl rfl) fun tx => ?_
  refine Prog.actions_ite trivial (Prog.Actions.bind (modifyTx_fades fun _ => .inl rfl) fun _ => ?_)
  refine (commitWriteSet_fades tx).bind fun _ => Prog.Actions.bind (modifyTx_fades fun _ => .inl rfl)
    fun _ => Prog.actions_access (fun _ => .inl rfl) fun tx =>
    Prog.Actions.bind (Prog.actions_ite ?_ trivial) fun _ => ?_
  · exact ⟨fun s => .inl (by simp [State.setTx]), fun _ => trivial⟩
  · exact Prog.Actions.bind (modifyTx_fades fun _ => .inl rfl) fun _ =>
      Prog.Actions.bind (modifyTx_fades fun _ => .inl rfl) fun _ => trivial

omit [DecidableEq Addr] [DecidableEq Lock] in
/-- `int_stm_start`. -/
theorem intStmStart_fades (attr : Attr) :
    (intStmStart cfg p attr : M Tid Addr Lock w _).Actions (Fades p) := by
  refine Prog.actions_access (fun _ => .inl rfl) fun tx => (nesting_fades nestingSucc).bind fun _ => ?_
  refine Prog.actions_ite trivial (Prog.Actions.bind (modifyTx_fades fun _ => .inl rfl) fun _ => ?_)
  exact intStmPrepare_fades.bind fun _ => modifyTx_fades fun _ => .inl rfl

end TinyStm
