import TinyStm.Proof.Alike

/-!
# The nesting level

What the operations do to the nesting level, whatever the other threads do. A call keeps the level
of an attempt that is under way; a rollback jumps back to the outermost level, or it leaves the
thread with no level open. The invariant bounds the level by the number of levels that the client
has opened, and follows from one fact: no access but those of `stm_rollback`, `int_stm_start` and
`int_stm_commit` changes the control part of the descriptor.
-/

namespace TinyStm

section
variable {Tid Addr Lock : Type} {w : ℕ}

/-- `n` levels are open: of an attempt that is under way, or none. -/
structure Level (n : ℕ) (tx : Control Addr w) : Prop where
  nesting : tx.nesting = n
  active : tx.status.isActive = true ↔ 0 < n

/-- The nesting level is at most `N`. -/
def AtMost (N : ℕ) (o : Own Tid Addr Lock w) : Prop := o.tx.nesting ≤ N

/-- The descriptor after `int_stm_prepare`. -/
structure Fresh (tx : StmTx Addr Lock w) : Prop where
  level : Level 1 tx.control
  rSet : tx.rSet = []
  entries : tx.wSet.entries = []
  trace : tx.trace = []

end

variable {Tid Addr Lock : Type} {w : ℕ} [DecidableEq Tid] {p : Tid} {n N : ℕ} {α β : Type}

/-- The protocol of a thread whose nesting level is at most `N`. -/
abbrev bounded (p : Tid) (N : ℕ) : RG (State Tid Addr Lock w) Bool :=
  ownProtocol p (AtMost N) fun _ => True

/-- A new attempt at the outermost level. -/
def restarted (p : Tid) (N : ℕ) : Assn (bounded p N : RG (State Tid Addr Lock w) Bool) true :=
  Has fun o => Fresh o.tx

/-- A program that keeps an assertion about the control part, or starts a new attempt. -/
abbrev KeepsLevels (p : Tid) (N : ℕ) (φ : Control Addr w → Prop) (c : M Tid Addr Lock w α) : Prop :=
  Triple (bounded p N) true (Has fun o => φ o.tx.control) c (fun _ => Has fun o => φ o.tx.control)
    (restarted p N)

variable {φ : Control Addr w → Prop}

theorem levels_within {c : M Tid Addr Lock w α} (h : c.Within (KeepsControl p)) :
    KeepsLevels p N φ c :=
  control_spec h fun _ _ heq hI => (congrArg Control.nesting heq).trans_le hI

theorem levels_pure (b : α) : KeepsLevels p N φ (pure b : M Tid Addr Lock w α) :=
  .of_ret fun _ _ h => h

/-- An access that leaves the control part alone, but not the commits. -/
theorem levels_shared {g : State Tid Addr Lock w → β × State Tid Addr Lock w}
    {c : β → M Tid Addr Lock w α} (hg : ∀ s, ((g s).2.txs p).control = (s.txs p).control)
    (hc : ∀ b, KeepsLevels p N φ (c b)) : KeepsLevels p N φ (Prog.atomic g >>= c) :=
  .ownAct (fun _ o => φ o.tx.control) (fun s _ hI h =>
    ⟨(congrArg Control.nesting (hg s)).trans_le hI, (congrArg φ (hg s)).mpr h⟩) hc

/-! ## Preparation and rollback -/

/-- The step leaves the nesting level, the sets and the trace of `p` alone. -/
structure KeepsSets (p : Tid) (s s' : State Tid Addr Lock w) : Prop where
  nesting : (s'.txs p).nesting = (s.txs p).nesting
  rSet : (s'.txs p).rSet = (s.txs p).rSet
  wSet : (s'.txs p).wSet = (s.txs p).wSet
  trace : (s'.txs p).trace = (s.txs p).trace

omit [DecidableEq Tid] in
theorem KeepsSets.refl (p : Tid) (s : State Tid Addr Lock w) : KeepsSets p s s :=
  ⟨rfl, rfl, rfl, rfl⟩

theorem modifyTx_sets {f : StmTx Addr Lock w → StmTx Addr Lock w}
    (h : ∀ tx, (f tx).nesting = tx.nesting ∧ (f tx).rSet = tx.rSet ∧ (f tx).wSet = tx.wSet ∧
      (f tx).trace = tx.trace) :
    (modifyTx p f).Within (KeepsSets p) :=
  Prog.within_atomic fun s => ⟨by simp [State.setTx, h], by simp [State.setTx, h],
    by simp [State.setTx, h], by simp [State.setTx, h]⟩

variable [DecidableEq Addr] [DecidableEq Lock] {cfg : Config Addr Lock}

omit [DecidableEq Addr] [DecidableEq Lock] in
theorem setStart_sets : (setStart cfg p : M Tid Addr Lock w _).Within (KeepsSets p) :=
  Prog.within_iterate fun _ => Prog.within_access (KeepsSets.refl p) fun _ =>
    Prog.Within.bind (modifyTx_sets fun _ => ⟨rfl, rfl, rfl, rfl⟩) fun _ => Prog.within_pure _

omit [DecidableEq Addr] [DecidableEq Lock] in
theorem setIrrevocableRestart_sets :
    (setIrrevocableRestart p : M Tid Addr Lock w _).Within (KeepsSets p) := by
  refine Prog.within_access (KeepsSets.refl p) fun tx => ?_
  split
  · trivial
  · split
    · refine Prog.Within.bind (Prog.within_iterate fun _ => ?_) fun _ => (modifyTx_sets fun _ => ⟨rfl, rfl, rfl, rfl⟩)
      refine Prog.within_access (KeepsSets.refl p) fun i => ?_
      split
      · trivial
      · refine Prog.within_access (fun s => ?_) fun _ => trivial
        split
        · exact ⟨by simp [State.setTx], by simp [State.setTx], by simp [State.setTx],
            by simp [State.setTx]⟩
        · exact KeepsSets.refl p s
    · exact (modifyTx_sets fun _ => ⟨rfl, rfl, rfl, rfl⟩)

/-- The sets and the trace are empty, at the outermost level. -/
def Blank (o : Own Tid Addr Lock w) : Prop :=
  o.tx.nesting = 1 ∧ o.tx.rSet = [] ∧ o.tx.wSet.entries = [] ∧ o.tx.trace = []

omit [DecidableEq Addr] [DecidableEq Lock] in
theorem blank_within {c : M Tid Addr Lock w α} (h : c.Within (KeepsSets p))
    {J : Assn (bounded p N : RG (State Tid Addr Lock w) Bool) true} :
    Triple (bounded p N) true (Has Blank) c (fun _ => Has Blank) J := by
  refine .of_within h fun s s' hs hr ⟨h1, h2, h3, h4⟩ => ⟨?_, nofun, hr.nesting.trans h1,
    hr.rSet.trans h2, ?_, hr.trace.trans h4⟩
  · exact hr.nesting.trans_le hs.inv
  · change (s'.txs p).wSet.entries = []
    rw [hr.wSet]
    exact h3

/-- `int_stm_prepare`. -/
theorem intStmPrepare_fresh
    {J : Assn (bounded p N : RG (State Tid Addr Lock w) Bool) true} :
    Triple (bounded p N) true (Has fun o => o.tx.nesting = 1) (intStmPrepare cfg p)
      (fun _ => restarted p N) J := by
  have activate : ∀ st : Status, st.isActive = true →
      Triple (bounded p N) true (Has Blank)
        (modifyTx p fun tx => { tx with status := st } : M Tid Addr Lock w Unit)
        (fun _ => restarted p N) J := fun st hst =>
    .last (.ownModifyTx (ψ := fun o => Fresh o.tx) (fun o hI ⟨h1, h2, h3, h4⟩ => ⟨hI,
      ⟨h1, by simp [StmTx.control, hst]⟩, h2, h3, h4⟩) (.of_ret fun _ _ h => h))
  refine .ownModifyTx (ψ := Blank) (fun o hI h => ⟨hI, h, rfl, rfl, rfl⟩)
    (.bind (blank_within setStart_sets) fun _ => .ownGetTx fun tx => .ownPre ?_ fun _ _ h => h.2)
  refine .ite (fun _ => ?_) fun _ => activate .active rfl
  exact .bind (blank_within setIrrevocableRestart_sets) fun _ => activate .irrevocable rfl

/-- `stm_rollback` jumps back to a new attempt, or it returns and no level is open. -/
theorem stmRollback_levels (hN : 1 ≤ N) (reason : Reason) :
    Triple (bounded p N : RG (State Tid Addr Lock w) Bool) true (Has fun _ => True)
      (stmRollback cfg p reason) (fun _ => Has fun o => Level 0 o.tx.control ∧ o.tx.status = .aborted) (restarted p N) := by
  refine .bind (.of_within (control_of_keeps stmDesignRollback_keeps) fun s s' hs hr _ =>
    ⟨(congrArg Control.nesting hr.control).trans_le hs.inv, nofun, trivial⟩) fun _ => ?_
  have keeps : ∀ {α : Type} {c : M Tid Addr Lock w α}, c.Within (KeepsControl p) →
      Triple (bounded p N) true (Has fun o => o.tx.status = .aborted ∧ o.tx.nesting = 1) c
        (fun _ => Has fun o => o.tx.status = .aborted ∧ o.tx.nesting = 1) (restarted p N) :=
    fun h => control_spec (φ := fun tx => tx.status = .aborted ∧ tx.nesting = 1) h
      fun _ _ heq hI => (congrArg Control.nesting heq).trans_le hI
  refine .ownModifyTx (ψ := fun o => o.tx.status = .aborted ∧ o.tx.nesting = 1)
    (fun _ _ _ => ⟨hN, rfl, rfl⟩) (.ownModifyTx
    (ψ := fun o => o.tx.status = .aborted ∧ o.tx.nesting = 1) (fun _ hI h => ⟨hI, h⟩) ?_)
  refine .bind (keeps waitCLock_control) fun _ => .ownGetTx fun tx => .ite (fun _ => ?_) fun _ => ?_
  · exact .last (.ownModifyTx (ψ := fun o => Level 0 o.tx.control ∧ o.tx.status = .aborted)
      (fun _ _ ⟨_, h, _⟩ => ⟨Nat.zero_le N, ⟨rfl, by simp [StmTx.control, h, Status.isActive]⟩, h⟩)
      (.of_ret fun _ _ h => h))
  · exact .bind (.ownPre intStmPrepare_fresh fun _ _ h => h.2.2) fun _ => .jump fun _ _ h => h

/-- What a rollback is given for: `φ` holds when no level is open. -/
structure Admissible (N : ℕ) (φ : Control Addr w → Prop) : Prop where
  pos : 1 ≤ N
  none : ∀ tx, Level 0 tx → φ tx

/-- A rollback keeps what holds when no level is open. -/
theorem rollback_levels (hφ : Admissible N φ) (reason : Reason) :
    KeepsLevels p N φ (stmRollback cfg p reason : M Tid Addr Lock w _) :=
  (stmRollback_levels hφ.pos reason).pre (fun _ _ _ => trivial) |>.post
    (fun _ _ _ h => hφ.none _ h.1) fun _ _ h => h

/-! ## The operations -/

section
variable {d : Design} {a : Addr} {x k : BitVec w} (hφ : Admissible N φ)

include hφ

/-- A program that is made of actions that leave the control part alone and of rollbacks. -/
theorem levels_alike {c c' : M Tid Addr Lock w α} (h : Alike cfg d p c c') : KeepsLevels p N φ c :=
  h.triple (fun _ _ hs hr hP => ⟨(congrArg Control.nesting hr).trans_le hs.inv, nofun,
    (congrArg φ hr).mpr hP⟩) (rollback_levels hφ)

/-- `int_stm_load`. -/
theorem intStmLoad_levels : KeepsLevels p N φ (intStmLoad cfg p a : M Tid Addr Lock w _) :=
  levels_alike hφ intStmLoad_alike

/-- `stm_write`. -/
theorem stmWrite_levels : KeepsLevels p N φ (stmWrite cfg p a x k : M Tid Addr Lock w _) :=
  levels_alike hφ stmWrite_alike

/-- The commit of the write set, if it is not empty. -/
theorem commitWriteSet_levels (tx : StmTx Addr Lock w) :
    KeepsLevels p N φ (commitWriteSet cfg p tx) := by
  refine .ite (fun _ => .last (levels_shared (fun _ => rfl) levels_pure)) fun _ => ?_
  exact .bind (levels_alike hφ stmDesignCommit_alike) fun _ => levels_pure _

end

end TinyStm
