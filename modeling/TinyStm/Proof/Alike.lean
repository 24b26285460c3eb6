import TinyStm.Conc.Agree
import TinyStm.Proof.Control

/-!
# What an operation is made of

The loads, stores and commits of a design are made of actions that leave the control part of the
descriptor alone, and of calls of `stm_rollback`. They do not look at `DESIGN` themselves: `Alike` compares
an operation of one build with the same operation of the build of a single design. `Resembles` says more of a
store or a commit: each of its actions but the one that adds the commit is a step of any relation that has
the steps of `KeepsAttempt`, so that what a proof needs of a whole operation is a matter of that relation and of
the rollback.
-/

namespace TinyStm

section
variable {Addr Lock : Type}

/-- The build of the design `d` with the same other options. -/
abbrev Config.static (cfg : Config Addr Lock) (d : Design) : Config Addr Lock :=
  { cfg with design := d }

end

variable {Tid Addr Lock : Type} {w : ℕ} [DecidableEq Tid] [DecidableEq Addr] [DecidableEq Lock]
  {cfg : Config Addr Lock} {p : Tid} {d : Design} {a : Addr} {x k : BitVec w} {α β : Type}

omit [DecidableEq Tid] [DecidableEq Addr] [DecidableEq Lock] in
/-- The step leaves the control part of `p` alone. -/
def SameControl (p : Tid) (s s' : State Tid Addr Lock w) : Prop :=
  (s'.txs p).control = (s.txs p).control

/-- The two programs are the same but for the build whose `stm_rollback` they call, and their other actions
are steps of `r`. -/
abbrev Resembles (r : State Tid Addr Lock w → State Tid Addr Lock w → Prop) (cfg : Config Addr Lock)
    (d : Design) (p : Tid) (c c' : M Tid Addr Lock w α) : Prop :=
  Prog.Mirrors r (stmRollback cfg p) (stmRollback (cfg.static d) p) c c'

/-- The two programs are the same but for the build whose `stm_rollback` they call. -/
abbrev Alike (cfg : Config Addr Lock) (d : Design) (p : Tid) (c c' : M Tid Addr Lock w α) : Prop :=
  Resembles (SameControl p) cfg d p c c'

omit [DecidableEq Tid] [DecidableEq Addr] [DecidableEq Lock] in
/-- A part that leaves the descriptor alone leaves its control part alone. -/
theorem sameControl_of_keeps (s s' : State Tid Addr Lock w) (h : KeepsAttempt p s s') : SameControl p s s' :=
  h.control

/-- A part that leaves the control part and the commits alone. -/
theorem alike_within {c : M Tid Addr Lock w α} (h : c.Within (KeepsControl p)) : Alike cfg d p c c :=
  .within (h.mono fun _ _ => KeepsControl.control)

/-- A part that keeps the descriptor, and what follows it. -/
theorem alike_access {c : M Tid Addr Lock w β} {f f' : β → M Tid Addr Lock w α}
    (hc : c.Within (KeepsAttempt p)) (hf : ∀ b, Alike cfg d p (f b) (f' b)) :
    Alike cfg d p (c >>= f) (c >>= f') :=
  .bind (alike_within (control_of_keeps hc)) hf

section
variable {r : State Tid Addr Lock w → State Tid Addr Lock w → Prop}

/-- A part that keeps the descriptor, and what follows it. -/
theorem resembles_access (hr : ∀ s s', KeepsAttempt p s s' → r s s') {c : M Tid Addr Lock w β}
    {f f' : β → M Tid Addr Lock w α} (hc : c.Within (KeepsAttempt p))
    (hf : ∀ b, Resembles r cfg d p (f b) (f' b)) : Resembles r cfg d p (c >>= f) (c >>= f') :=
  .bind (.within (hc.mono hr)) hf

/-- A rollback and what follows it. -/
theorem resembles_rollback {reason : Reason} {f f' : Unit → M Tid Addr Lock w α}
    (hf : Resembles r cfg d p (f ()) (f' ())) :
    Resembles r cfg d p (stmRollback cfg p reason >>= f)
      (stmRollback (cfg.static d) p reason >>= f') :=
  .bind (.call reason) fun _ => hf

end

/-! ## Loads -/

/-- `stm_wbetl_read_invisible`. -/
theorem stmWbetlReadInvisible_alike :
    Alike cfg d p (stmWbetlReadInvisible cfg p a : M Tid Addr Lock w _)
      (stmWbetlReadInvisible (cfg.static d) p a) := by
  refine .iterate _ fun l? => alike_access (loadLockOr_keeps _ l?) fun l => ?_
  cases l with
  | owned q i =>
    refine alike_access getTx_keeps fun tx => .ite (fun _ => ?_) fun _ => .ite (fun _ => .pure _)
      fun _ => ?_
    · cases chainFind tx.wSet.entries a tx.wSet.entries.length i with
      | found j e => exact alike_access (entryValue_keeps _) fun _ => .pure _
      | last j v => exact alike_access (loadWord_keeps _) fun _ => .pure _
    · exact alike_access (setCLock_keeps _) fun _ => resembles_rollback (.pure _)
  | free l =>
    refine alike_access (loadWord_keeps _) fun y => alike_access (loadLock_keeps _) fun l2 => ?_
    refine .ite (fun _ => .pure _) fun _ => alike_access getTx_keeps fun tx => ?_
    refine .ite (fun _ => .pure _) fun _ => .ite (fun _ => ?_) fun _ => ?_
    · refine .bind (alike_within extendWith_control) fun ok => .ite (fun _ => ?_) fun _ =>
        resembles_rollback (.pure _)
      refine alike_access (loadLock_keeps _) fun l2 => .ite (fun _ => .pure _) fun _ => ?_
      exact alike_access (addToRs_keeps ..) fun _ => .pure _
    · exact alike_access (addToRs_keeps ..) fun _ => .pure _

/-- `stm_wt_read`. -/
theorem stmWtRead_alike :
    Alike cfg d p (stmWtRead cfg p a : M Tid Addr Lock w _) (stmWtRead (cfg.static d) p a) := by
  refine .iterate _ fun l? => alike_access (loadLockOr_keeps _ l?) fun l => ?_
  cases l with
  | owned q i =>
    refine alike_access getTx_keeps fun tx => .ite (fun _ => ?_) fun _ => .ite (fun _ => .pure _)
      fun _ => ?_
    · exact alike_access (loadWord_keeps _) fun _ => .pure _
    · exact alike_access (setCLock_keeps _) fun _ => resembles_rollback (.pure _)
  | free l =>
    refine alike_access (loadWord_keeps _) fun y => alike_access (loadLock_keeps _) fun l2 => ?_
    refine .ite (fun _ => .pure _) fun _ => alike_access getTx_keeps fun tx => ?_
    refine .ite (fun _ => .pure _) fun _ => alike_access (addToRs_keeps ..) fun _ => ?_
    refine .ite (fun _ => ?_) fun _ => .pure _
    exact .bind (alike_within extendWith_control) fun ok => .ite (fun _ => .pure _) fun _ =>
      resembles_rollback (.pure _)

/-- `stm_wbctl_read`. -/
theorem stmWbctlRead_alike :
    Alike cfg d p (stmWbctlRead cfg p a : M Tid Addr Lock w _) (stmWbctlRead (cfg.static d) p a) := by
  refine alike_access getTx_keeps fun tx => ?_
  dsimp only
  cases (writtenEntry tx a).filter fun e => e.mask = BitVec.allOnes w with
  | some e => exact .pure _
  | none =>
    refine .iterate _ fun l? => alike_access (loadLockOr_keeps _ l?) fun l => ?_
    cases l with
    | owned q i => exact .pure _
    | free l =>
      refine alike_access (loadWord_keeps _) fun y => alike_access (loadLock_keeps _) fun l2 => ?_
      refine .ite (fun _ => .pure _) fun _ => alike_access getTx_keeps fun tx => ?_
      refine .ite (fun _ => .pure _) fun _ => .ite (fun _ => ?_) fun _ => ?_
      · refine .bind (alike_within extendWith_control) fun ok => .ite (fun _ => ?_) fun _ =>
          resembles_rollback (.pure _)
        refine alike_access (loadLock_keeps _) fun l' => .ite (fun _ => .pure _) fun _ => ?_
        exact alike_access (addToRs_keeps ..) fun _ => .pure _
      · exact alike_access (addToRs_keeps ..) fun _ => .pure _

/-! ## Stores -/

section
variable {r : State Tid Addr Lock w → State Tid Addr Lock w → Prop}
  (hr : ∀ s s', KeepsAttempt p s s' → r s s')
include hr

/-- The write set is full, or not. -/
theorem extendWs_resembles :
    Resembles r cfg d p (extendWs cfg p : M Tid Addr Lock w _) (extendWs (cfg.static d) p) :=
  resembles_access hr getTx_keeps fun _ => .ite (fun _ => .call _) fun _ => .pure _

/-- The loop of the stores with encounter-time locking. -/
theorem writeLoop_resembles {merge : ℕ → ℕ → WEntry Addr Lock w → M Tid Addr Lock w Unit}
    {push : ℕ → Option ℕ → M Tid Addr Lock w Unit} {version : ℕ → ℕ}
    (hmerge : ∀ i j e, (merge i j e).Within (KeepsAttempt p))
    (hpush : ∀ v prev, (push v prev).Within (KeepsAttempt p)) :
    Resembles r cfg d p (writeLoop cfg p a k merge push version)
      (writeLoop (cfg.static d) p a k merge push version) := by
  refine .iterate _ fun _ => resembles_access hr (loadLock_keeps _) fun l => ?_
  refine resembles_access hr getTx_keeps fun tx => ?_
  cases l with
  | owned q i =>
    refine .ite (fun _ => .ite (fun _ => .pure _) fun _ => ?_) fun _ => .ite (fun _ => .pure _)
      fun _ => ?_
    · cases chainFind tx.wSet.entries a tx.wSet.entries.length i with
      | found j e => exact resembles_access hr (hmerge ..) fun _ => .pure _
      | last j v =>
        refine .bind (extendWs_resembles hr) fun _ => ?_
        exact resembles_access hr (hpush ..) fun _ => .pure _
    · exact resembles_access hr (setCLock_keeps _) fun _ => resembles_rollback (.pure _)
  | free l =>
    refine .ite (fun _ => resembles_rollback (.pure _)) fun _ => ?_
    refine .bind (extendWs_resembles hr) fun _ => resembles_access hr getTx_keeps fun tx => ?_
    refine resembles_access hr (casLock_keeps ..) fun ok => .ite (fun _ => ?_) fun _ => .pure _
    exact resembles_access hr (hpush ..) fun _ => .pure _

/-- `stm_wbetl_write`. -/
theorem stmWbetlWrite_resembles :
    Resembles r cfg d p (stmWbetlWrite cfg p a x k : M Tid Addr Lock w _)
      (stmWbetlWrite (cfg.static d) p a x k) :=
  writeLoop_resembles hr (fun _ _ _ => wbetlMerge_keeps ..) fun _ _ => wbetlDoWrite_keeps ..

/-- `stm_wt_write`. -/
theorem stmWtWrite_resembles :
    Resembles r cfg d p (stmWtWrite cfg p a x k : M Tid Addr Lock w _)
      (stmWtWrite (cfg.static d) p a x k) :=
  writeLoop_resembles hr (fun _ _ _ => wtOverwrite_keeps _) fun _ _ => wtDoWrite_keeps ..

/-- `stm_wbctl_write`. -/
theorem stmWbctlWrite_resembles :
    Resembles r cfg d p (stmWbctlWrite cfg p a x k : M Tid Addr Lock w _)
      (stmWbctlWrite (cfg.static d) p a x k) := by
  refine .iterate _ fun _ => resembles_access hr (loadLock_keeps _) fun l => ?_
  cases l with
  | owned q i => exact .pure _
  | free l =>
    refine resembles_access hr getTx_keeps fun tx => ?_
    dsimp only
    cases stmHasWritten tx a with
    | some i => exact resembles_access hr (modifyTx_keeps fun _ => ⟨rfl, rfl⟩) fun _ => .pure _
    | none =>
      refine .ite (fun _ => resembles_rollback (.pure _)) fun _ => ?_
      exact resembles_access hr (modifyTx_keeps fun _ => ⟨rfl, rfl⟩) fun _ => .pure _

/-! ## Commit -/

/-- A lock is acquired at the commit. -/
theorem wbctlAcquireEntry_resembles (i : ℕ) (lock : Lock) :
    Resembles r cfg d p (wbctlAcquireEntry cfg p i lock : M Tid Addr Lock w _)
      (wbctlAcquireEntry (cfg.static d) p i lock) := by
  refine .iterate _ fun _ => resembles_access hr (loadLock_keeps _) fun l => ?_
  cases l with
  | owned q j =>
    refine resembles_access hr getTx_keeps fun tx => .ite (fun _ => .pure _) fun _ => ?_
    exact resembles_access hr (setCLock_keeps _) fun _ => .ite (fun _ => .pure _) fun _ =>
      resembles_rollback (.pure _)
  | free l =>
    refine resembles_access hr (casLock_keeps ..) fun ok => .ite (fun _ => ?_) fun _ => .pure _
    exact resembles_access hr (modifyTx_keeps fun _ => ⟨rfl, rfl⟩) fun _ => .pure _

/-- The locks are acquired one after the other. -/
theorem wbctlAcquire_resembles (es : List (WEntry Addr Lock w × ℕ)) :
    Resembles r cfg d p (wbctlAcquire cfg p es : M Tid Addr Lock w _)
      (wbctlAcquire (cfg.static d) p es) := by
  induction es with
  | nil => exact .pure _
  | cons e es ih =>
    exact .bind (wbctlAcquireEntry_resembles hr ..) fun ok => .ite (fun _ => ih) fun _ => .pure _

/-- The part of a commit that the designs share, if `r` has the step that adds the commit. -/
theorem commitWith_resembles (hrecord : ∀ t, (recordUpdate p t : M Tid Addr Lock w _).Within r)
    {test : StmTx Addr Lock w → ℕ → REntry Lock → Bool}
    {install : List (WEntry Addr Lock w) → ℕ → M Tid Addr Lock w Unit}
    (hi : ∀ es t, (install es t).Within (KeepsAttempt p)) :
    Resembles r cfg d p
      (commitWith cfg p (getTx p >>= fun tx => validateEntries p test tx.rSet) install)
      (commitWith (cfg.static d) p (getTx p >>= fun tx => validateEntries p test tx.rSet)
        install) := by
  refine resembles_access hr getTx_keeps fun tx => .bind ?_ fun i => .ite (fun _ =>
    resembles_rollback (.pure _)) fun _ => ?_
  · exact .ite (fun _ => .within (checkIrrevocable_keeps.mono hr)) fun _ => .pure _
  · refine resembles_access hr fetchTimestamp_keeps fun t => .bind ?_ fun ok => .ite (fun _ => ?_)
      fun _ => resembles_rollback (.pure _)
    · refine .ite (fun _ => .pure _) fun _ => .within (Prog.Within.mono ?_ hr)
      exact getTx_keeps.bind fun tx => validateEntries_within (KeepsAttempt.refl p) _
    · exact .bind (.within (hrecord t)) fun _ => resembles_access hr (hi ..) fun _ => .pure _

/-- `stm_wbctl_commit`. -/
theorem stmWbctlCommit_resembles
    (hrecord : ∀ t, (recordUpdate p t : M Tid Addr Lock w _).Within r) :
    Resembles r cfg d p (stmWbctlCommit cfg p : M Tid Addr Lock w _)
      (stmWbctlCommit (cfg.static d) p) := by
  refine resembles_access hr getTx_keeps fun _ => .bind (wbctlAcquire_resembles hr _) fun _ => ?_
  exact .ite (fun _ => commitWith_resembles hr hrecord fun _ _ => wbctlInstall_keeps ..)
    fun _ => .pure _

end

omit [DecidableEq Addr] [DecidableEq Lock] in
/-- The commit is added. -/
theorem recordUpdate_sameControl (t : ℕ) :
    (recordUpdate p t : M Tid Addr Lock w _).Within (SameControl p) :=
  Prog.within_atomic fun s => by simp [SameControl, State.setTx, StmTx.control]

/-- `stm_wbetl_commit`. -/
theorem stmWbetlCommit_alike :
    Alike cfg d p (stmWbetlCommit cfg p : M Tid Addr Lock w _) (stmWbetlCommit (cfg.static d) p) :=
  commitWith_resembles sameControl_of_keeps recordUpdate_sameControl fun _ _ => wbetlInstall_keeps ..

/-- `stm_wt_commit`. -/
theorem stmWtCommit_alike :
    Alike cfg d p (stmWtCommit cfg p : M Tid Addr Lock w _) (stmWtCommit (cfg.static d) p) :=
  commitWith_resembles sameControl_of_keeps recordUpdate_sameControl fun _ _ => wtInstall_keeps ..

/-- `stm_wbctl_commit`. -/
theorem stmWbctlCommit_alike :
    Alike cfg d p (stmWbctlCommit cfg p : M Tid Addr Lock w _) (stmWbctlCommit (cfg.static d) p) :=
  stmWbctlCommit_resembles sameControl_of_keeps recordUpdate_sameControl

/-! ## Operations -/

/-- `int_stm_load`, whatever the design of the transaction is. -/
theorem intStmLoad_alike :
    Alike cfg cfg.design p (intStmLoad cfg p a : M Tid Addr Lock w _) (intStmLoad cfg p a) := by
  refine alike_access getTx_keeps fun tx => ?_
  split
  · exact stmWbctlRead_alike
  · exact stmWtRead_alike
  · exact stmWbetlReadInvisible_alike

/-- `stm_write`. -/
theorem stmWrite_alike :
    Alike cfg cfg.design p (stmWrite cfg p a x k : M Tid Addr Lock w _) (stmWrite cfg p a x k) := by
  refine alike_access getTx_keeps fun tx => ?_
  split
  · exact stmWbctlWrite_resembles sameControl_of_keeps
  · exact stmWtWrite_resembles sameControl_of_keeps
  · exact stmWbetlWrite_resembles sameControl_of_keeps

/-- The design's commit function. -/
theorem stmDesignCommit_alike :
    Alike cfg cfg.design p (stmDesignCommit cfg p : M Tid Addr Lock w _) (stmDesignCommit cfg p) := by
  refine alike_access getTx_keeps fun tx => ?_
  split
  · exact stmWbctlCommit_alike
  · exact stmWtCommit_alike
  · exact stmWbetlCommit_alike

end TinyStm
