import TinyStm.Conc.Frame
import TinyStm.Protocol.Own

/-!
# What the accesses of an operation leave alone

The descriptor of a transaction apart from its snapshot, its read and write sets and the contended
lock is its control part. No action of a load or a store changes it, outside `stm_rollback`; nor does
it add to the commits.
-/

namespace TinyStm

section
variable {Addr Lock : Type} {w : ℕ}

/-- The control part of a descriptor. -/
structure Control (Addr : Type) (w : ℕ) where
  attr : Attr
  status : Status
  irrevocable : ℕ
  nesting : ℕ
  statCommits : ℕ
  statAborts : ℕ
  statAbortsR : ℕ → ℕ
  calls : List ℕ
  aborts : List Reason
  trace : Trace Addr w

/-- The control part of a descriptor. -/
def StmTx.control (tx : StmTx Addr Lock w) : Control Addr w where
  attr := tx.attr
  status := tx.status
  irrevocable := tx.irrevocable
  nesting := tx.nesting
  statCommits := tx.statCommits
  statAborts := tx.statAborts
  statAbortsR := tx.statAbortsR
  calls := tx.calls
  aborts := tx.aborts
  trace := tx.trace

end

variable {Tid Addr Lock : Type} {w : ℕ} [DecidableEq Tid]

/-- The step leaves the control part of `p` and the commits alone. -/
structure KeepsControl (p : Tid) (s s' : State Tid Addr Lock w) : Prop where
  control : (s'.txs p).control = (s.txs p).control
  commits : s'.commits = s.commits

omit [DecidableEq Tid] in
/-- A step that changes nothing. -/
theorem KeepsControl.refl (p : Tid) (s : State Tid Addr Lock w) : KeepsControl p s s := ⟨rfl, rfl⟩

omit [DecidableEq Tid] in
/-- Two steps after each other. -/
theorem KeepsControl.trans {p : Tid} {s t u : State Tid Addr Lock w} (h : KeepsControl p s t)
    (h' : KeepsControl p t u) : KeepsControl p s u :=
  ⟨h'.control.trans h.control, h'.commits.trans h.commits⟩

/-- The step leaves the control part of `p`, the end of its snapshot, the commits and the other
descriptors alone. So do all parts of loads, stores and commits, apart from the extension, the commit
itself and the rollback. -/
structure KeepsAttempt (p : Tid) (s s' : State Tid Addr Lock w) : Prop extends KeepsControl p s s' where
  end_ : (s'.txs p).end_ = (s.txs p).end_
  txs : ∀ q, q ≠ p → s'.txs q = s.txs q

omit [DecidableEq Tid] in
/-- A step that changes nothing. -/
theorem KeepsAttempt.refl (p : Tid) (s : State Tid Addr Lock w) : KeepsAttempt p s s :=
  ⟨.refl p s, rfl, fun _ _ => rfl⟩

variable {p : Tid} {α : Type}

omit [DecidableEq Tid] in
/-- An access that leaves the descriptors and the commits alone. -/
theorem access_control {g : State Tid Addr Lock w → α × State Tid Addr Lock w}
    (h : ∀ s, (g s).2.txs = s.txs ∧ (g s).2.commits = s.commits) :
    (Prog.atomic g).Within (KeepsControl p) :=
  Prog.within_atomic fun s => ⟨by rw [(h s).1], (h s).2⟩

/-- A change of the own descriptor. -/
theorem modifyTx_control {f : StmTx Addr Lock w → StmTx Addr Lock w}
    (h : ∀ tx, (f tx).control = tx.control) :
    (modifyTx p f).Within (KeepsControl p) :=
  Prog.within_atomic fun s => ⟨by simp [State.setTx, h], rfl⟩

omit [DecidableEq Tid] in
/-- The own descriptor is read. -/
theorem getTx_control : (getTx p : M Tid Addr Lock w _).Within (KeepsControl p) :=
  access_control fun _ => ⟨rfl, rfl⟩

omit [DecidableEq Tid] in
/-- The control part is left alone. -/
theorem control_of_keeps {c : M Tid Addr Lock w α} (h : c.Within (KeepsAttempt p)) :
    c.Within (KeepsControl p) :=
  h.mono fun _ _ hr => hr.toKeepsControl

omit [DecidableEq Tid] in
/-- An access that leaves the descriptors and the commits alone. -/
theorem access_keeps {g : State Tid Addr Lock w → α × State Tid Addr Lock w}
    (h : ∀ s, (g s).2.txs = s.txs ∧ (g s).2.commits = s.commits) :
    (Prog.atomic g).Within (KeepsAttempt p) := by
  refine Prog.within_atomic fun s => ?_
  obtain ⟨htxs, hcommits⟩ := h s
  exact ⟨⟨by rw [htxs], hcommits⟩, by rw [htxs], fun q _ => by rw [htxs]⟩

/-- A change of the own descriptor. -/
theorem modifyTx_keeps {f : StmTx Addr Lock w → StmTx Addr Lock w}
    (h : ∀ tx, (f tx).control = tx.control ∧ (f tx).end_ = tx.end_) :
    (modifyTx p f).Within (KeepsAttempt p) := by
  refine Prog.within_atomic fun s => ⟨⟨?_, rfl⟩, ?_, fun q hq => Function.update_of_ne hq ..⟩
  · simp [State.setTx, h]
  · simp [State.setTx, h]

omit [DecidableEq Tid] in
/-- The own descriptor is read. -/
theorem getTx_keeps : (getTx p : M Tid Addr Lock w _).Within (KeepsAttempt p) :=
  access_keeps fun _ => ⟨rfl, rfl⟩

omit [DecidableEq Tid] in
/-- A data word is read. -/
theorem loadWord_keeps (a : Addr) : (loadWord a : M Tid Addr Lock w _).Within (KeepsAttempt p) :=
  access_keeps fun _ => ⟨rfl, rfl⟩

omit [DecidableEq Tid] in
/-- A lock word is read. -/
theorem loadLock_keeps (lock : Lock) : (loadLock lock : M Tid Addr Lock w _).Within (KeepsAttempt p) :=
  access_keeps fun _ => ⟨rfl, rfl⟩

/-- A commit draws its timestamp. -/
theorem fetchTimestamp_keeps : (fetchTimestamp p : M Tid Addr Lock w _).Within (KeepsAttempt p) := by
  refine Prog.within_atomic fun s => ⟨⟨?_, rfl⟩, ?_, fun q hq => Function.update_of_ne hq ..⟩
  · simp [State.setTx, StmTx.control]
  · simp [State.setTx]

/-- A commit looks at the token. -/
theorem checkIrrevocable_keeps : (checkIrrevocable p : M Tid Addr Lock w _).Within (KeepsAttempt p) := by
  refine Prog.within_atomic fun s => ?_
  dsimp only
  split
  · refine ⟨⟨?_, rfl⟩, ?_, fun q hq => Function.update_of_ne hq ..⟩
    · simp [State.setTx, StmTx.control]
    · simp [State.setTx]
  · exact .refl p s

/-- An assertion that the control part determines. -/
theorem control_spec {I : Own Tid Addr Lock w → Prop} {O : State Tid Addr Lock w → Prop}
    {φ : Control Addr w → Prop} {J : Assn (ownProtocol p I O) true} {c : M Tid Addr Lock w α}
    (h : c.Within (KeepsControl p))
    (hI : ∀ o o' : Own Tid Addr Lock w, o'.tx.control = o.tx.control → I o → I o') :
    Triple (ownProtocol p I O) true (Has fun o => φ o.tx.control) c
      (fun _ => Has fun o => φ o.tx.control) J :=
  .of_within h fun s s' hs hr hP => ⟨hI (s.own p) (s'.own p) hr.control hs.inv, nofun,
    (congrArg φ hr.control).mpr hP⟩

variable [DecidableEq Addr] [DecidableEq Lock] {cfg : Config Addr Lock} {a : Addr} {x k : BitVec w}

omit [DecidableEq Tid] [DecidableEq Addr] [DecidableEq Lock] in
/-- The lock word of the last load is used, or it is read. -/
theorem loadLockOr_keeps (lock : Lock) (l? : Option (LockWord Tid)) :
    (loadLockOr lock l? : M Tid Addr Lock w _).Within (KeepsAttempt p) := by
  cases l? with
  | none => exact access_keeps fun _ => ⟨rfl, rfl⟩
  | some l => trivial

omit [DecidableEq Tid] [DecidableEq Lock] in
/-- A data word is stored. -/
theorem storeWord_keeps : (storeWord a x : M Tid Addr Lock w _).Within (KeepsAttempt p) :=
  access_keeps fun _ => ⟨rfl, rfl⟩

omit [DecidableEq Tid] [DecidableEq Addr] in
/-- A lock word is stored. -/
theorem storeLock_keeps (lock : Lock) (l : ℕ) :
    (storeLock lock l : M Tid Addr Lock w _).Within (KeepsAttempt p) :=
  access_keeps fun _ => ⟨rfl, rfl⟩

omit [DecidableEq Addr] in
/-- A lock is acquired, or not. -/
theorem casLock_keeps (lock : Lock) (l i : ℕ) :
    (casLock p lock l i : M Tid Addr Lock w _).Within (KeepsAttempt p) :=
  access_keeps fun s => by split <;> exact ⟨rfl, rfl⟩

omit [DecidableEq Addr] [DecidableEq Lock] in
/-- The contended lock is remembered. -/
theorem setCLock_keeps (lock : Lock) :
    (setCLock cfg p lock : M Tid Addr Lock w _).Within (KeepsAttempt p) := by
  unfold setCLock
  split
  · exact modifyTx_keeps fun _ => ⟨rfl, rfl⟩
  · trivial

/-! ## Loads -/

omit [DecidableEq Tid] [DecidableEq Addr] [DecidableEq Lock] in
/-- The value of an entry, or the word. -/
theorem entryValue_keeps (e : WEntry Addr Lock w) :
    (entryValue a e : M Tid Addr Lock w _).Within (KeepsAttempt p) := by
  unfold entryValue
  split
  · exact access_keeps fun _ => ⟨rfl, rfl⟩
  · trivial

omit [DecidableEq Addr] in
/-- An entry is added to the read set. -/
theorem addToRs_keeps (version : ℕ) (lock : Lock) :
    (modifyTx p (addToRs cfg version lock) : M Tid Addr Lock w _).Within (KeepsAttempt p) :=
  modifyTx_keeps fun tx => by unfold addToRs; split <;> exact ⟨rfl, rfl⟩

omit [DecidableEq Tid] [DecidableEq Addr] [DecidableEq Lock] in
/-- The validation changes nothing. -/
theorem validateEntries_within [DecidableEq Tid] {r : State Tid Addr Lock w → State Tid Addr Lock w → Prop}
    (hr : ∀ s, r s s) {test : StmTx Addr Lock w → ℕ → REntry Lock → Bool}
    (rs : List (REntry Lock)) : (validateEntries p test rs).Within r := by
  induction rs with
  | nil => trivial
  | cons r rs ih =>
    refine Prog.within_access hr fun l => ?_
    cases l with
    | owned q i =>
      refine Prog.within_access hr fun tx => ?_
      split
      · exact ih
      · trivial
    | free l =>
      dsimp only
      split
      · trivial
      · exact ih

omit [DecidableEq Addr] [DecidableEq Lock] in
/-- The extension of a design. -/
theorem extendWith_control {test : StmTx Addr Lock w → ℕ → REntry Lock → Bool}
    {tx : StmTx Addr Lock w} :
    (tryExtend tx (extendWith p (getTx p >>= fun tx => validateEntries p test tx.rSet))).Within
      (KeepsControl p) := by
  unfold tryExtend
  split
  · trivial
  · refine Prog.within_access (KeepsControl.refl p) fun now => Prog.Within.bind ?_ fun ok => ?_
    · exact getTx_control.bind fun tx => validateEntries_within (KeepsControl.refl p) tx.rSet
    · split
      · exact Prog.Within.bind (modifyTx_control fun _ => rfl) fun _ => Prog.within_pure _
      · trivial

/-! ## Stores -/

omit [DecidableEq Addr] [DecidableEq Lock] in
/-- An entry of the write set is changed. -/
theorem wbetlMerge_keeps (j : ℕ) (e : WEntry Addr Lock w) :
    (wbetlMerge p a x k j e).Within (KeepsAttempt p) := by
  unfold wbetlMerge
  dsimp only
  split
  · exact modifyTx_keeps fun _ => ⟨rfl, rfl⟩
  · exact (entryValue_keeps e).bind fun _ => modifyTx_keeps fun _ => ⟨rfl, rfl⟩

omit [DecidableEq Addr] [DecidableEq Lock] in
/-- An entry is added to the write set. -/
theorem wbetlDoWrite_keeps (lock : Lock) (v : ℕ) (prev : Option ℕ) :
    (wbetlDoWrite p lock a x k v prev).Within (KeepsAttempt p) := by
  unfold wbetlDoWrite
  dsimp only
  split
  · exact modifyTx_keeps fun _ => ⟨rfl, rfl⟩
  · split
    · exact modifyTx_keeps fun _ => ⟨rfl, rfl⟩
    · exact Prog.within_access (KeepsAttempt.refl p) fun _ => modifyTx_keeps fun _ => ⟨rfl, rfl⟩

omit [DecidableEq Tid] [DecidableEq Lock] in
/-- The bits of the mask are stored. -/
theorem wtStore_keeps : (wtStore a x k : M Tid Addr Lock w _).Within (KeepsAttempt p) := by
  unfold wtStore
  split
  · exact storeWord_keeps
  · exact Prog.within_access (KeepsAttempt.refl p) fun _ => storeWord_keeps

omit [DecidableEq Lock] in
/-- The old value is saved in an entry, and the word is stored. -/
theorem wtOverwrite_keeps (i : ℕ) :
    (wtOverwrite p a x k i : M Tid Addr Lock w _).Within (KeepsAttempt p) := by
  refine getTx_keeps.bind fun tx => ?_
  split
  · exact Prog.within_access (KeepsAttempt.refl p) fun _ =>
      Prog.Within.bind (modifyTx_keeps fun _ => ⟨rfl, rfl⟩) fun _ => wtStore_keeps
  · exact wtStore_keeps

omit [DecidableEq Lock] in
/-- An entry is added to the write set, and the word is stored. -/
theorem wtDoWrite_keeps (lock : Lock) (v : ℕ) (prev : Option ℕ) :
    (wtDoWrite p lock a x k v prev).Within (KeepsAttempt p) := by
  unfold wtDoWrite
  dsimp only
  split
  · exact modifyTx_keeps fun _ => ⟨rfl, rfl⟩
  · exact Prog.within_access (KeepsAttempt.refl p) fun _ =>
      storeWord_keeps.bind fun _ => modifyTx_keeps fun _ => ⟨rfl, rfl⟩

/-- The loop that `stm_wbetl_write` and `stm_wt_write` share, with their ways to change an entry and to
add one. -/
def writeLoop (cfg : Config Addr Lock) (p : Tid) (a : Addr) (k : BitVec w)
    (merge : ℕ → ℕ → WEntry Addr Lock w → M Tid Addr Lock w Unit)
    (push : ℕ → Option ℕ → M Tid Addr Lock w Unit) (version : ℕ → ℕ) : M Tid Addr Lock w Unit :=
  .iterate () fun _ => do
    let l ← loadLock (cfg.getLock a)
    let tx ← getTx p
    match l with
    | .owned q i =>
      if tx.Owns p q i then
        if k = 0#w then pure (.inr ())
        else match chainFind tx.wSet.entries a tx.wSet.entries.length i with
          | .found j e => do
            merge i j e
            pure (.inr ())
          | .last j v => do
            extendWs cfg p
            push v (some j)
            pure (.inr ())
      else if tx.irrevocable ≠ 0 then pure (.inl ())
      else do
        setCLock cfg p (cfg.getLock a)
        stmRollback cfg p .storeLocked
        pure (.inr ())
    | .free l =>
      if tx.irrevocable = 0 ∧ lockGetTimestamp l > tx.end_ ∧
          (stmHasRead tx (cfg.getLock a)).isSome then do
        stmRollback cfg p .storeInvalid
        pure (.inr ())
      else do
        extendWs cfg p
        let tx ← getTx p
        let ok ← casLock p (cfg.getLock a) l tx.wSet.entries.length
        if ok then do
          push (version l) none
          pure (.inr ())
        else pure (.inl ())

theorem stmWbetlWrite_eq : stmWbetlWrite cfg p a x k =
    writeLoop cfg p a k (fun _ j e => wbetlMerge p a x k j e)
      (wbetlDoWrite p (cfg.getLock a) a x k) lockGetTimestamp := rfl

theorem stmWtWrite_eq : stmWtWrite cfg p a x k =
    writeLoop cfg p a k (fun i _ _ => wtOverwrite p a x k i)
      (wtDoWrite p (cfg.getLock a) a x k) id := rfl

/-! ## Commit and rollback -/

omit [DecidableEq Tid] [DecidableEq Addr] in
/-- The lock of the last entry of a stripe is dropped. -/
theorem dropLast_keeps (e : WEntry Addr Lock w) (l : ℕ) :
    (dropLast e l : M Tid Addr Lock w _).Within (KeepsAttempt p) := by
  unfold dropLast
  split
  · exact storeLock_keeps ..
  · trivial

omit [DecidableEq Tid] [DecidableEq Lock] in
/-- The word of an entry is stored if its mask is not empty. -/
theorem storeWordIf_keeps : (storeWordIf a x k : M Tid Addr Lock w _).Within (KeepsAttempt p) := by
  unfold storeWordIf
  split
  · exact storeWord_keeps
  · trivial

omit [DecidableEq Tid] in
/-- The write set is written back, and its locks are dropped. -/
theorem wbetlInstall_keeps (es : List (WEntry Addr Lock w)) (t : ℕ) :
    (wbetlInstall es t : M Tid Addr Lock w _).Within (KeepsAttempt p) := by
  induction es with
  | nil => trivial
  | cons e es ih => exact storeWordIf_keeps.bind fun _ => (dropLast_keeps ..).bind fun _ => ih

omit [DecidableEq Tid] [DecidableEq Addr] in
/-- The locks of the write set are dropped. -/
theorem wtInstall_keeps (es : List (WEntry Addr Lock w)) (t : ℕ) :
    (wtInstall es t : M Tid Addr Lock w _).Within (KeepsAttempt p) := by
  induction es with
  | nil => trivial
  | cons e es ih => exact (dropLast_keeps ..).bind fun _ => ih

omit [DecidableEq Tid] in
/-- The write set is written back, and its locks are dropped. -/
theorem wbctlInstall_keeps (es : List (WEntry Addr Lock w)) (t : ℕ) :
    (wbctlInstall es t : M Tid Addr Lock w _).Within (KeepsAttempt p) := by
  induction es with
  | nil => trivial
  | cons e es ih =>
    refine Prog.Within.bind ?_ fun _ => Prog.Within.bind ?_ fun _ => ih
    · unfold wbctlStore
      split
      · exact storeWord_keeps
      · split
        · exact Prog.within_access (KeepsAttempt.refl p) fun _ => storeWord_keeps
        · trivial
    · unfold wbctlDrop
      split
      · exact storeLock_keeps ..
      · trivial

omit [DecidableEq Tid] [DecidableEq Addr] in
/-- The locks of the write set are dropped. -/
theorem wbetlDropLocks_keeps (es : List (WEntry Addr Lock w)) :
    (wbetlDropLocks es : M Tid Addr Lock w _).Within (KeepsAttempt p) := by
  induction es with
  | nil => trivial
  | cons e es ih => exact (dropLast_keeps ..).bind fun _ => ih

omit [DecidableEq Addr] in
/-- The locks that have been acquired are dropped. -/
theorem wbctlDropLocks_keeps (es : List (WEntry Addr Lock w)) (n : ℕ) :
    (wbctlDropLocks p es n).Within (KeepsAttempt p) := by
  induction es generalizing n with
  | nil =>
    cases n with
    | zero => trivial
    | succ n => exact access_keeps fun _ => ⟨rfl, rfl⟩
  | cons e es ih =>
    cases n with
    | zero => trivial
    | succ n =>
      unfold wbctlDropLocks
      split
      · exact ih _
      · exact Prog.Within.bind (modifyTx_keeps fun _ => ⟨rfl, rfl⟩) fun _ => (storeLock_keeps ..).bind fun _ => ih n

omit [DecidableEq Tid] in
/-- The words are restored, and the locks of the write set are dropped. -/
theorem wtUndo_keeps (es : List (WEntry Addr Lock w)) (t : ℕ) :
    (wtUndo es t : M Tid Addr Lock w _).Within (KeepsAttempt p) := by
  induction es generalizing t with
  | nil => trivial
  | cons e es ih =>
    refine storeWordIf_keeps.bind fun _ => ?_
    split
    · exact ih t
    · split
      · refine Prog.Within.bind ?_ fun t => (storeLock_keeps ..).bind fun _ => ih t
        unfold wtNewTimestamp
        split
        · exact access_keeps fun _ => ⟨rfl, rfl⟩
        · trivial
      · exact (storeLock_keeps ..).bind fun _ => ih t

/-- The design's rollback function. -/
theorem stmDesignRollback_keeps :
    (stmDesignRollback cfg p : M Tid Addr Lock w _).Within (KeepsAttempt p) := by
  refine Prog.Within.bind (modifyTx_keeps fun _ => ⟨rfl, rfl⟩) fun _ => getTx_keeps.bind fun tx => ?_
  split
  · exact getTx_keeps.bind fun tx => wbctlDropLocks_keeps ..
  · exact getTx_keeps.bind fun tx => wtUndo_keeps ..
  · exact getTx_keeps.bind fun tx => wbetlDropLocks_keeps ..

omit [DecidableEq Addr] [DecidableEq Lock] in
/-- The wait for the contended lock changes no more than `c_lock`. -/
theorem waitCLock_within {r : State Tid Addr Lock w → State Tid Addr Lock w → Prop}
    (hr : ∀ s, r s s) (hc : ∀ s, r s (s.setTx p fun tx => { tx with cLock := none })) :
    (waitCLock cfg p).Within r := by
  refine Prog.within_access hr fun tx => ?_
  split
  · refine (Prog.within_iterate fun _ => ?_).bind fun _ => Prog.within_atomic hc
    refine Prog.within_access hr fun l => ?_
    cases l <;> trivial
  · trivial

omit [DecidableEq Addr] [DecidableEq Lock] in
theorem waitCLock_control : (waitCLock cfg p : M Tid Addr Lock w _).Within (KeepsControl p) :=
  waitCLock_within (KeepsControl.refl p) fun s => ⟨by simp [State.setTx, StmTx.control], rfl⟩

omit [DecidableEq Addr] [DecidableEq Lock] in
theorem setStart_control : (setStart cfg p : M Tid Addr Lock w _).Within (KeepsControl p) := by
  refine Prog.within_iterate fun _ => Prog.within_access (KeepsControl.refl p) fun now => ?_
  exact Prog.Within.bind (modifyTx_control fun _ => rfl) fun _ => Prog.within_pure _

end TinyStm
