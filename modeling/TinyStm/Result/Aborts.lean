import Mathlib.Algebra.BigOperators.Group.Finset.Piecewise
import TinyStm.Proof.Alike
import TinyStm.Result.Calls

/-!
# Abort statistics

With `TM_STATISTICS2` a transaction counts its aborts by the reason given to `stm_rollback`. The counters,
of 32 bits, are those of the reasons that are given, in every run of a thread. But a load that finds its
lock owned by another transaction gives the reason that `stm.h` documents for a store to a location that is
read, a failed validation in `stm_set_irrevocable` the one for a commit, a transaction that cannot enter the
serial mode although it has the token the one for deferring to an irrevocable transaction, and `stm_abort`
any reason that it is called with.
-/

namespace TinyStm

section
variable {Addr Lock : Type} {w : ℕ}

/-! ## Statistics -/

/-- `int_stm_get_stats` for `nb_aborts`. -/
def nbAborts (tx : StmTx Addr Lock w) : ℕ := tx.statAborts

/-- `int_stm_get_stats` for `nb_aborts_locked_read`. -/
def nbAbortsLockedRead (tx : StmTx Addr Lock w) : ℕ := tx.statAbortsR (stmAbortWrConflict >>> 8)

/-- `int_stm_get_stats` for `nb_aborts_locked_write`. -/
def nbAbortsLockedWrite (tx : StmTx Addr Lock w) : ℕ := tx.statAbortsR (stmAbortWwConflict >>> 8)

/-- The reason that `stm.h` documents: a lock that another transaction owns is a location that is being
written, a failed validation has a reason of its own upon a read, a write and a commit only, and the one
for deferring to an irrevocable transaction is not for the transaction that has the token. -/
def Reason.documented : Reason → ℕ
  | .loadLocked => stmAbortWrConflict
  | .loadInvalid => stmAbortValRead
  | .storeLocked => stmAbortWwConflict
  | .storeInvalid => stmAbortValWrite
  | .writeSetFull => stmAbortExtendWs
  | .commitIrrevocable => stmAbortIrrevocable
  | .commitInvalid => stmAbortValidate
  | .tokenTaken => stmAbortIrrevocable
  | .irrevocableInvalid => stmAbortOther
  | .serialWrites => stmAbortOther
  | .quiescing => stmAbortOther
  | .explicit reason => reason ||| stmAbortExplicit

/-- The statistics are exact: the counters add up, each abort is counted under the reason documented for
it, and the aborts upon a locked location are those that the statistics name so. -/
structure StmTx.ExactAborts (tx : StmTx Addr Lock w) : Prop where
  total : nbAborts tx = ∑ i ∈ Finset.range 16, tx.statAbortsR i
  counted : ∀ i, tx.statAbortsR i = tx.aborts.countP fun r => decide (abortIndex r.code = i)
  documented : ∀ r ∈ tx.aborts, abortIndex r.code = abortIndex r.documented
  lockedRead : nbAbortsLockedRead tx = tx.aborts.countP fun r => decide (r = .loadLocked)
  lockedWrite : nbAbortsLockedWrite tx = tx.aborts.countP fun r => decide (r = .storeLocked)

/-- The reason is not one of those that are misreported: no load has given up at a lock of another
transaction, no transaction that has got the token in `stm_set_irrevocable` has been aborted there, and
`stm_abort` has not been called with one of the reasons for a locked location. -/
def Reason.Faithful (r : Reason) : Prop :=
  (r ≠ .loadLocked ∧ r ≠ .irrevocableInvalid ∧ r ≠ .serialWrites ∧ r ≠ .quiescing) ∧
    ∀ n, r = .explicit n → abortIndex r.code ≠ 3 ∧ abortIndex r.code ≠ 4

end

/-! ## The counters are those of the reasons given -/

/-- The counters of the aborts, with why these happened. -/
structure AbortTally where
  aborts : ℕ
  byIndex : ℕ → ℕ
  reasons : List Reason

/-- One more abort. -/
def AbortTally.abort (t : AbortTally) (r : Reason) : AbortTally where
  aborts := statSucc t.aborts
  byIndex := Function.update t.byIndex (abortIndex r.code) (statSucc (t.byIndex (abortIndex r.code)))
  reasons := r :: t.reasons

/-- Each counter is the number of aborts with a reason of its index, modulo 2^32, and the total is that of
all aborts. -/
structure AbortTally.Counted (t : AbortTally) : Prop where
  total : t.aborts = t.reasons.length % 2 ^ 32
  counted : ∀ i, t.byIndex i = (t.reasons.countP fun r => decide (abortIndex r.code = i)) % 2 ^ 32

/-- There are 16 counters. -/
theorem abortIndex_lt (code : ℕ) : abortIndex code < 16 :=
  Nat.lt_of_le_of_lt Nat.and_le_right (by decide)

/-- A counter counts modulo `2 ^ 32`. -/
theorem statSucc_mod (n : ℕ) : statSucc (n % 2 ^ 32) = (n + 1) % 2 ^ 32 := Nat.mod_add_mod ..

/-- One abort more is counted. -/
theorem AbortTally.Counted.abort {t : AbortTally} (h : t.Counted) (r : Reason) : (t.abort r).Counted where
  total := by
    simp only [AbortTally.abort, h.total, statSucc_mod, List.length_cons]
  counted i := by
    simp only [AbortTally.abort, List.countP_cons]
    by_cases hi : abortIndex r.code = i
    · simp only [hi, Function.update_self, h.counted i, statSucc_mod, decide_true, if_true]
    · simp only [hi, Function.update_of_ne (Ne.symm hi), h.counted i, decide_false, Bool.false_eq_true,
        if_false, Nat.add_zero]

/-- The aborts of all indices are the aborts. -/
theorem sum_countP_abortIndex (rs : List Reason) :
    ∑ i ∈ Finset.range 16, (rs.countP fun r => decide (abortIndex r.code = i)) = rs.length := by
  induction rs with
  | nil => simp
  | cons r rs ih =>
    have hmem : abortIndex r.code ∈ Finset.range 16 := Finset.mem_range.2 (abortIndex_lt _)
    simp only [List.countP_cons, Finset.sum_add_distrib, ih, decide_eq_true_eq, List.length_cons,
      Finset.sum_ite_eq, hmem, if_true]

section
variable {Addr Lock : Type} {w : ℕ}

/-- The counters of a descriptor. -/
def StmTx.tally (tx : StmTx Addr Lock w) : AbortTally := ⟨tx.statAborts, tx.statAbortsR, tx.aborts⟩

end

variable {Tid Addr Lock : Type} {w : ℕ} [DecidableEq Tid] {cfg : Config Addr Lock} {p : Tid}
  {s t : State Tid Addr Lock w}

/-- A step of `p` leaves its counters alone, or counts an abort. -/
def Tallies (p : Tid) (s s' : State Tid Addr Lock w) : Prop :=
  (s'.txs p).tally = (s.txs p).tally ∨ ∃ r, (s'.txs p).tally = (s.txs p).tally.abort r

omit [DecidableEq Tid] in
/-- The counters belong to the control part. -/
theorem Tallies.of_control {s s' : State Tid Addr Lock w} (h : SameControl p s s') :
    Tallies p s s' := by
  have haborts := congrArg Control.statAborts h
  have hbyIndex := congrArg Control.statAbortsR h
  have hreasons := congrArg Control.aborts h
  simp only [StmTx.control] at haborts hbyIndex hreasons
  exact .inl (by rw [StmTx.tally, haborts, hbyIndex, hreasons, StmTx.tally])

omit [DecidableEq Tid] in
/-- A part that leaves the control part alone. -/
theorem tallies_control {α : Type} {c : M Tid Addr Lock w α} (h : c.Within (KeepsControl p)) :
    c.Actions (Tallies p) :=
  h.actions fun _ _ hc => .of_control hc.control

/-- The descriptor is changed, but not its counters. -/
theorem modifyTx_tallies {f : StmTx Addr Lock w → StmTx Addr Lock w}
    (h : ∀ tx, (f tx).tally = tx.tally) : (modifyTx p f).Actions (Tallies p) :=
  ⟨fun s => .inl (by simp [State.setTx, h]), fun _ => trivial⟩

omit [DecidableEq Tid] in
/-- The own descriptor is read. -/
theorem getTx_tallies : (getTx p : M Tid Addr Lock w _).Actions (Tallies p) :=
  ⟨fun _ => .inl rfl, fun _ => trivial⟩

/-- The token is taken. -/
theorem casIrrevocable_tallies : (casIrrevocable p : M Tid Addr Lock w _).Actions (Tallies p) := by
  refine ⟨fun s => .inl ?_, fun _ => trivial⟩
  dsimp only
  split
  · simp [State.setTx, StmTx.tally]
  · rfl

/-- The token is waited for. -/
theorem acquireToken_tallies : (acquireToken p : M Tid Addr Lock w _).Actions (Tallies p) := by
  refine Prog.actions_iterate fun _ => Prog.actions_access (fun _ => .inl rfl) fun i =>
    Prog.actions_ite trivial ?_
  exact casIrrevocable_tallies.bind fun _ => trivial

/-- The request of `int_stm_prepare`. -/
theorem setIrrevocableRestart_tallies :
    (setIrrevocableRestart p : M Tid Addr Lock w _).Actions (Tallies p) := by
  refine getTx_tallies.bind fun tx => Prog.actions_ite trivial (Prog.actions_ite ?_ ?_)
  · exact acquireToken_tallies.bind fun _ => modifyTx_tallies fun _ => rfl
  · exact modifyTx_tallies fun _ => rfl

/-- `int_stm_prepare`. -/
theorem intStmPrepare_tallies : (intStmPrepare cfg p : M Tid Addr Lock w _).Actions (Tallies p) := by
  refine Prog.Actions.bind (modifyTx_tallies fun _ => rfl) fun _ => ?_
  refine (tallies_control setStart_control).bind fun _ => getTx_tallies.bind fun tx => ?_
  refine Prog.actions_ite ?_ (modifyTx_tallies fun _ => rfl)
  exact setIrrevocableRestart_tallies.bind fun _ => modifyTx_tallies fun _ => rfl

variable [DecidableEq Addr] [DecidableEq Lock]

/-- `stm_rollback` counts the abort. -/
theorem stmRollback_tallies (r : Reason) :
    (stmRollback cfg p r : M Tid Addr Lock w _).Actions (Tallies p) := by
  refine (tallies_control (control_of_keeps stmDesignRollback_keeps)).bind fun _ => Prog.actions_access (fun s => ?_)
    fun _ => Prog.Actions.bind (modifyTx_tallies fun _ => rfl) fun _ => ?_
  · exact .inr ⟨r, by simp [State.setTx, StmTx.tally, AbortTally.abort]⟩
  · refine (tallies_control waitCLock_control).bind fun _ => getTx_tallies.bind fun tx => ?_
    exact Prog.actions_ite (modifyTx_tallies fun _ => rfl) (intStmPrepare_tallies.bind fun _ => trivial)

/-- A program that is made of actions that leave the control part alone and of rollbacks. -/
theorem tallies_alike {α : Type} {d : Design} {c c' : M Tid Addr Lock w α} (h : Alike cfg d p c c') :
    c.Actions (Tallies p) :=
  h.actions (fun _ _ => .of_control) stmRollback_tallies

/-- `int_stm_load`. -/
theorem intStmLoad_tallies (a : Addr) :
    (intStmLoad cfg p a : M Tid Addr Lock w _).Actions (Tallies p) :=
  tallies_alike intStmLoad_alike

/-- `stm_write`. -/
theorem stmWrite_tallies (a : Addr) (x k : BitVec w) :
    (stmWrite cfg p a x k : M Tid Addr Lock w _).Actions (Tallies p) :=
  tallies_alike stmWrite_alike

/-- The commit of the write set, if it is not empty. -/
theorem commitWriteSet_tallies (tx : StmTx Addr Lock w) :
    (commitWriteSet cfg p tx).Actions (Tallies p) :=
  Prog.actions_ite ⟨fun _ => .inl rfl, fun _ => trivial⟩
    ((tallies_alike stmDesignCommit_alike).bind fun _ => trivial)

omit [DecidableEq Addr] [DecidableEq Lock] in
/-- The nesting level is changed. -/
theorem nesting_tallies (f : ℕ → ℕ) :
    (modifyTx p fun tx => { tx with nesting := f tx.nesting } :
      M Tid Addr Lock w _).Actions (Tallies p) :=
  modifyTx_tallies fun _ => rfl

/-- `int_stm_commit`. -/
theorem intStmCommit_tallies : (intStmCommit cfg p : M Tid Addr Lock w _).Actions (Tallies p) := by
  refine (nesting_tallies nestingPred).bind fun _ => getTx_tallies.bind fun tx => ?_
  refine Prog.actions_ite trivial (Prog.Actions.bind (modifyTx_tallies fun _ => rfl) fun _ => ?_)
  refine (commitWriteSet_tallies tx).bind fun _ => Prog.Actions.bind (modifyTx_tallies fun _ => rfl)
    fun _ => getTx_tallies.bind fun tx => Prog.Actions.bind (Prog.actions_ite ?_ trivial) fun _ => ?_
  · exact ⟨fun s => .inl (by simp [State.setTx, StmTx.tally]), fun _ => trivial⟩
  · exact Prog.Actions.bind (modifyTx_tallies fun _ => rfl) fun _ =>
      Prog.Actions.bind (modifyTx_tallies fun _ => rfl) fun _ => trivial

omit [DecidableEq Addr] [DecidableEq Lock] in
/-- The validation of a request. -/
theorem setIrrevocableValidate_tallies :
    (setIrrevocableValidate cfg p : M Tid Addr Lock w _).Actions (Tallies p) := by
  have hvalidate : ∀ test, (getTx p >>= fun tx => validateEntries p test tx.rSet :
      M Tid Addr Lock w _).Actions (Tallies p) := fun test =>
    getTx_tallies.bind fun tx => tallies_control (validateEntries_within (KeepsControl.refl p) _)
  unfold setIrrevocableValidate
  split
  · exact hvalidate _
  · exact hvalidate _
  · exact hvalidate _
  · refine getTx_tallies.bind fun tx => ?_
    split
    · exact (hvalidate _).bind fun _ => trivial
    · exact (hvalidate _).bind fun _ => trivial
    · exact (hvalidate _).bind fun _ => trivial

/-- `int_stm_set_irrevocable`. -/
theorem intStmSetIrrevocable_tallies :
    (intStmSetIrrevocable cfg p : M Tid Addr Lock w _).Actions (Tallies p) := by
  refine getTx_tallies.bind fun tx => Prog.actions_ite ?_ (Prog.actions_ite trivial
    (Prog.actions_ite ?_ (setIrrevocableRestart_tallies.bind fun _ => trivial)))
  · exact Prog.Actions.bind (modifyTx_tallies fun _ => rfl) fun _ => trivial
  · refine Prog.Actions.bind (modifyTx_tallies fun _ => rfl) fun _ => Prog.Actions.bind ?_ fun got => ?_
    · exact Prog.actions_access (fun _ => .inl rfl) fun i =>
        Prog.actions_ite trivial casIrrevocable_tallies
    · refine Prog.actions_ite (setIrrevocableValidate_tallies.bind fun ok => Prog.actions_ite ?_ ?_) ?_
      · exact Prog.Actions.bind (modifyTx_tallies fun _ => rfl) fun _ => trivial
      · exact (stmRollback_tallies _).bind fun _ => trivial
      · exact (stmRollback_tallies _).bind fun _ => trivial

omit [DecidableEq Addr] [DecidableEq Lock] in
/-- A load or a store is recorded. -/
theorem record_tallies (e : Event Addr w) : (record p e : M Tid Addr Lock w _).Actions (Tallies p) :=
  modifyTx_tallies fun tx => by split <;> rfl

/-- A call leaves the counters alone, or counts its aborts. -/
theorem exec_tallies (cmd : Cmd Addr w) : (exec cfg p cmd : M Tid Addr Lock w _).Actions (Tallies p) := by
  cases cmd with
  | start attr =>
    refine getTx_tallies.bind fun tx => (nesting_tallies nestingSucc).bind fun _ => ?_
    refine Prog.actions_ite trivial (Prog.Actions.bind (modifyTx_tallies fun _ => rfl) fun _ => ?_)
    exact intStmPrepare_tallies.bind fun _ => modifyTx_tallies fun _ => rfl
  | load a => exact (intStmLoad_tallies a).bind fun _ => record_tallies _
  | store a x => exact (stmWrite_tallies a x _).bind fun _ => record_tallies _
  | store2 a x k => exact (stmWrite_tallies a x k).bind fun _ => record_tallies _
  | commit => exact intStmCommit_tallies.bind fun _ => trivial
  | abort reason => exact stmRollback_tallies _
  | setIrrevocable => exact intStmSetIrrevocable_tallies.bind fun _ => trivial

/-! ## Runs of a thread -/

/-- A request in serial mode, or not. -/
theorem enterIrrevocable_tallies (blocked : Bool) :
    (enterIrrevocable cfg p blocked : M Tid Addr Lock w _).Actions (Tallies p) := by
  refine getTx_tallies.bind fun tx => Prog.actions_ite ((stmRollback_tallies _).bind fun _ => trivial) ?_
  exact Prog.Actions.bind (modifyTx_tallies fun _ => rfl) fun _ => trivial

/-- So does `stm_set_irrevocable(1)`. -/
theorem intStmSetIrrevocableSerial_tallies (blocked : Bool) :
    (intStmSetIrrevocableSerial cfg p blocked : M Tid Addr Lock w _).Actions (Tallies p) := by
  have hroll : ∀ r, (stmRollback cfg p r >>= fun _ => pure false : M Tid Addr Lock w _).Actions
      (Tallies p) := fun r => (stmRollback_tallies r).bind fun _ => trivial
  refine getTx_tallies.bind fun tx => Prog.actions_ite ?_ (Prog.actions_ite trivial
    (Prog.actions_ite ?_ ?_))
  · exact Prog.Actions.bind (modifyTx_tallies fun _ => rfl) fun _ => trivial
  · refine Prog.Actions.bind (modifyTx_tallies fun _ => rfl) fun _ => Prog.Actions.bind ?_ fun got => ?_
    · exact Prog.actions_access (fun _ => .inl rfl) fun i =>
        Prog.actions_ite trivial casIrrevocable_tallies
    · refine Prog.actions_ite (setIrrevocableValidate_tallies.bind fun ok => Prog.actions_ite ?_
        (hroll _)) (hroll _)
      exact Prog.actions_ite (hroll _) (enterIrrevocable_tallies blocked)
  · exact Prog.actions_ite (acquireToken_tallies.bind fun _ => enterIrrevocable_tallies blocked)
      (enterIrrevocable_tallies blocked)

/-- The calls of a thread: those of `Cmd`, and `stm_set_irrevocable(1)` with the result of its
`stm_quiesce`. -/
inductive Call (Addr : Type) (w : ℕ)
  | cmd (cmd : Cmd Addr w)
  | setIrrevocableSerial (blocked : Bool)

/-- The program of a call. -/
def perform (cfg : Config Addr Lock) (p : Tid) : Call Addr w → M Tid Addr Lock w Unit
  | .cmd cmd => exec cfg p cmd
  | .setIrrevocableSerial blocked => do
    let _ ← intStmSetIrrevocableSerial cfg p blocked

/-- Every call. -/
theorem perform_tallies (k : Call Addr w) :
    (perform cfg p k : M Tid Addr Lock w _).Actions (Tallies p) := by
  cases k with
  | cmd cmd => exact exec_tallies cmd
  | setIrrevocableSerial blocked =>
    exact (intStmSetIrrevocableSerial_tallies blocked).bind fun _ => trivial

/-- The runs of thread `p`, with the rest of the program that it runs: the other threads act on what it does
not have to itself, and it makes any calls. -/
inductive Life (cfg : Config Addr Lock) (p : Tid) (s₀ : State Tid Addr Lock w) :
    M Tid Addr Lock w Unit → State Tid Addr Lock w → Prop
  | init : Life cfg p s₀ (.ret ()) s₀
  | others {c : M Tid Addr Lock w Unit} {s t : State Tid Addr Lock w} : Life cfg p s₀ c s →
      Others p s t → Life cfg p s₀ c t
  | call {c : M Tid Addr Lock w Unit} {s : State Tid Addr Lock w} (k : Call Addr w) :
      Life cfg p s₀ c s → c.Done → Life cfg p s₀ (perform cfg p k) s
  | step {c : M Tid Addr Lock w Unit} {s : State Tid Addr Lock w} : Life cfg p s₀ c s →
      Life cfg p s₀ (c.step s).1 (c.step s).2

/-- The counters are those of the reasons given, in every run of the thread. -/
theorem Life.counted {s₀ : State Tid Addr Lock w} {c : M Tid Addr Lock w Unit}
    (h : Life cfg p s₀ c s) (h₀ : (s₀.txs p).tally.Counted) :
    (s.txs p).tally.Counted ∧ c.Actions (Tallies p) := by
  induction h with
  | init => exact ⟨h₀, trivial⟩
  | others _ ho ih =>
    have htx := congrArg Own.tx ho
    exact ⟨(congrArg (fun tx : StmTx Addr Lock w => tx.tally.Counted) htx).mpr ih.1, ih.2⟩
  | call k _ _ ih => exact ⟨ih.1, perform_tallies k⟩
  | step _ ih =>
    obtain ⟨hstep, hc⟩ := ih.2.step (fun _ => .inl rfl) _
    refine ⟨?_, hc⟩
    rcases hstep with heq | ⟨r, heq⟩
    · rw [heq]
      exact ih.1
    · rw [heq]
      exact ih.1.abort r

/-- The counters after some steps of a call. -/
theorem Life.run {s₀ : State Tid Addr Lock w} {c : M Tid Addr Lock w Unit} (h : Life cfg p s₀ c s)
    (n : ℕ) : Life cfg p s₀ (Prog.run n c s).1 (Prog.run n c s).2 := by
  induction n generalizing c s with
  | zero => exact h
  | succ n ih => exact ih h.step

/-! ## The result -/

/-- Where as many elements have `q` as `p`, which implies `q`, those with `q` have `p`. -/
theorem forall_of_countP_eq {α : Type} {l : List α} {p q : α → Bool} (hpq : ∀ a, p a → q a)
    (h : l.countP q = l.countP p) : ∀ a ∈ l, q a → p a := by
  induction l with
  | nil => exact nofun
  | cons b l ih =>
    have hle : l.countP p ≤ l.countP q := List.countP_mono_left fun a _ => hpq a
    simp only [List.countP_cons] at h
    have hb : q b → p b := by
      intro hq
      by_contra hp
      simp only [hq, hp, if_true, if_false] at h
      omega
    have hl : l.countP q = l.countP p := by
      by_cases hq : q b
      · simp only [hq, hb hq, if_true] at h
        omega
      · have hp : ¬ p b := fun hp => hq (hpq b hp)
        simpa [hq, hp] using h
    intro a ha
    rcases List.mem_cons.1 ha with rfl | ha
    · exact hb
    · exact ih hl a ha

omit [DecidableEq Tid] [DecidableEq Addr] [DecidableEq Lock] in
/-- The reasons with the index of a store to a locked location. -/
theorem Reason.Faithful.storeLocked {r : Reason} (h : r.Faithful) :
    abortIndex r.code = 4 ↔ r = .storeLocked := by
  cases r with
  | explicit n => exact ⟨fun hn => absurd hn (h.2 n rfl).2, nofun⟩
  | _ => decide

/-- Of the reasons that the library uses, one is counted as a load of a locked word. -/
theorem Reason.Faithful.loadLocked {r : Reason} (h : r.Faithful) :
    abortIndex r.code = 3 ↔ r = .loadLocked := by
  cases r with
  | explicit n => exact ⟨fun hn => absurd hn (h.2 n rfl).1, nofun⟩
  | loadLocked => exact absurd rfl h.1.1
  | _ => decide

/-- The reasons whose index is the documented one. -/
theorem Reason.documented_iff {r : Reason} : abortIndex r.code = abortIndex r.documented ↔
    r ≠ .loadLocked ∧ r ≠ .irrevocableInvalid ∧ r ≠ .serialWrites ∧ r ≠ .quiescing := by
  cases r with
  | explicit n => exact ⟨fun _ => ⟨nofun, nofun, nofun, nofun⟩, fun _ => rfl⟩
  | _ => decide

omit [DecidableEq Addr] [DecidableEq Lock] in
/-- The counters of a thread that has aborted fewer than 2^32 times. -/
theorem AbortTally.Counted.exact {t : AbortTally} (h : t.Counted) (hlen : t.reasons.length < 2 ^ 32) :
    t.aborts = t.reasons.length ∧
      ∀ i, t.byIndex i = t.reasons.countP fun r => decide (abortIndex r.code = i) :=
  ⟨h.total.trans (Nat.mod_eq_of_lt hlen), fun i => (h.counted i).trans
    (Nat.mod_eq_of_lt (List.countP_le_length.trans_lt hlen))⟩

/-- In every run of a thread the abort statistics are exact if and only if it has aborted fewer than 2^32
times and none of its aborts is one of those that are misreported. -/
theorem exactAborts_iff {m₀ : Mem Addr w} {size : ℕ} {c : M Tid Addr Lock w Unit}
    (h : Life cfg p (State.init m₀ size) c s) :
    (s.txs p).ExactAborts ↔
      (s.txs p).aborts.length < 2 ^ 32 ∧ ∀ r ∈ (s.txs p).aborts, r.Faithful := by
  have hcounted : (s.txs p).tally.Counted :=
    (h.counted ⟨by simp [State.init, StmTx.init, StmTx.tally], fun i => by
      simp [State.init, StmTx.init, StmTx.tally]⟩).1
  constructor
  · intro hexact
    have hlen : (s.txs p).aborts.length < 2 ^ 32 := by
      have hsum : ∑ i ∈ Finset.range 16, (s.txs p).statAbortsR i = (s.txs p).aborts.length := by
        rw [← sum_countP_abortIndex]
        exact Finset.sum_congr rfl fun i _ => hexact.counted i
      have htotal : (s.txs p).aborts.length % 2 ^ 32 = (s.txs p).aborts.length :=
        hcounted.total.symm.trans (hexact.total.trans hsum)
      omega
    have hindex : ∀ i, (s.txs p).statAbortsR i =
        (s.txs p).aborts.countP fun r => decide (abortIndex r.code = i) := (hcounted.exact hlen).2
    refine ⟨hlen, fun r hr => ⟨Reason.documented_iff.1 (hexact.documented r hr), fun n hn =>
      ⟨fun hi => ?_, fun hi => ?_⟩⟩⟩
    · -- a load at a locked location is counted elsewhere, so there is none
      subst hn
      have hzero : (s.txs p).aborts.countP (fun r => decide (r = .loadLocked)) = 0 := by
        refine List.countP_eq_zero.2 fun r hr hl => ?_
        rw [of_decide_eq_true hl] at hr
        exact absurd (hexact.documented _ hr) (by decide)
      have hnone := (hindex 3).symm.trans (hexact.lockedRead.trans hzero)
      exact List.countP_eq_zero.1 hnone _ hr (decide_eq_true hi)
    · subst hn
      have hstore := forall_of_countP_eq (p := fun r => decide (r = Reason.storeLocked))
        (fun r hr => by rw [of_decide_eq_true hr]; decide)
        ((hindex 4).symm.trans hexact.lockedWrite) _ hr (decide_eq_true hi)
      exact Reason.noConfusion (of_decide_eq_true hstore)
  · rintro ⟨hlen, hf⟩
    obtain ⟨htotal, hindex⟩ : (s.txs p).statAborts = (s.txs p).aborts.length ∧
        ∀ i, (s.txs p).statAbortsR i =
          (s.txs p).aborts.countP fun r => decide (abortIndex r.code = i) := hcounted.exact hlen
    refine ⟨?_, hindex, fun r hr => Reason.documented_iff.2 (hf r hr).1, ?_, ?_⟩
    · rw [nbAborts, htotal, ← sum_countP_abortIndex]
      exact Finset.sum_congr rfl fun i _ => (hindex i).symm
    · exact (hindex 3).trans (List.countP_congr fun r hr => by simpa using (hf r hr).loadLocked)
    · exact (hindex 4).trans (List.countP_congr fun r hr => by simpa using (hf r hr).storeLocked)

/-- What is left of the second of two calls of thread 0, and the state, with 40 steps for each. -/
def performed (s : State (Fin 2) (Fin 2) (Fin 2) 8) (cmd cmd' : Cmd (Fin 2) 8) :
    M (Fin 2) (Fin 2) (Fin 2) 8 Unit × State (Fin 2) (Fin 2) (Fin 2) 8 :=
  Prog.run 40 (exec (.plain .writeBackEtl id) 0 cmd')
    (Prog.run 40 (exec (.plain .writeBackEtl id) 0 cmd) s).2

/-- The counters over two calls, from the initial state. -/
theorem performed_life {s : State (Fin 2) (Fin 2) (Fin 2) 8} {cmd cmd' : Cmd (Fin 2) 8}
    (h : Others 0 (State.init (fun _ => 0#8) 4) s)
    (hd : (Prog.run 40 (exec (.plain .writeBackEtl id) 0 cmd) s).1.Done) :
    Life (.plain .writeBackEtl id) 0 (State.init (fun _ => 0#8) 4) (performed s cmd cmd').1
      (performed s cmd cmd').2 :=
  ((((Life.init.others h).call (.cmd cmd) trivial).run 40).call (.cmd cmd') hd).run 40

set_option maxRecDepth 10000 in
/-- A transaction that is aborted by the application. -/
theorem exactAborts_explicit :
    ((performed (State.init (fun _ => 0#8) 4) (.start .readWrite) (.abort 0)).2.txs 0).ExactAborts := by
  refine (exactAborts_iff (performed_life (Eq.refl _) (by decide))).2 ⟨by decide, fun r hr => ?_⟩
  have hr : r = .explicit 0 := List.mem_singleton.1 hr
  subst hr
  refine ⟨by decide, fun n _ => ?_⟩
  decide

/-- Thread 1 stores the first word. -/
def lockedByOther : State (Fin 2) (Fin 2) (Fin 2) 8 :=
  (after (.plain .writeBackEtl id) 4 40 [(1, .start .readWrite), (1, .store 0 5)]).st

set_option maxRecDepth 10000 in
/-- The other thread has only taken a lock. -/
theorem lockedByOther_others : Others 0 (State.init (fun _ => 0#8) 4) lockedByOther := by
  have hlocks : ∀ ℓ, (lockedByOther.locks ℓ).entryOf 0 = none := by decide
  have htx : lockedByOther.txs 0 = (State.init (fun _ => 0#8) 4 : State (Fin 2) (Fin 2) (Fin 2) 8).txs 0 :=
    rfl
  have hcommits : lockedByOther.commits = [] := rfl
  simp only [Others, State.own, htx, hcommits, hlocks]
  rfl

set_option maxRecDepth 10000 in
/-- The abort upon a load of a word that another transaction has locked is not counted as such. -/
theorem not_exactAborts_lockedLoad : ¬ ∀ (c : M (Fin 2) (Fin 2) (Fin 2) 8 Unit)
    (s : State (Fin 2) (Fin 2) (Fin 2) 8),
    Life (.plain .writeBackEtl id) 0 (State.init (fun _ => 0#8) 4) c s → (s.txs 0).ExactAborts := by
  intro h
  have hlife : Life (.plain .writeBackEtl id) 0 (State.init (fun _ => 0#8) 4)
      (performed lockedByOther (.start .readWrite) (.load 0)).1
      (performed lockedByOther (.start .readWrite) (.load 0)).2 :=
    performed_life lockedByOther_others (by decide)
  have hread := (h _ _ hlife).lockedRead
  revert hread
  decide

end TinyStm
