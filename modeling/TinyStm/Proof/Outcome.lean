import TinyStm.Proof.Control

/-!
# How a commit ends

The design's commit functions, whatever the other threads do: they add the transaction to the commits
of the thread and return 1, or they fail. `Assured` is when they cannot fail and return: a
transaction that is retried never comes back from `stm_rollback`, an irrevocable one is not checked,
and nobody interferes with the locks that a transaction holds.
-/

namespace TinyStm

variable {Tid Addr Lock : Type} {w : ℕ} [DecidableEq Tid]

/-- What a commit on its way does not change: of the descriptor the attributes, the callbacks that have
run, the number of commits, the trace and the irrevocability, and the thread's commits. -/
structure Core (Addr Tid : Type) (w : ℕ) where
  attr : Attr
  calls : List ℕ
  statCommits : ℕ
  trace : Trace Addr w
  irrevocable : ℕ
  commits : History Tid Addr w

/-- The core of what a thread has to itself. -/
def Own.core (o : Own Tid Addr Lock w) : Core Addr Tid w where
  attr := o.tx.attr
  calls := o.tx.calls
  statCommits := o.tx.statCommits
  trace := o.tx.trace
  irrevocable := o.tx.irrevocable
  commits := o.commits

/-- The step leaves the core of `p` alone. -/
def KeepsCore (p : Tid) (s s' : State Tid Addr Lock w) : Prop := (s'.own p).core = (s.own p).core

theorem KeepsControl.core {p : Tid} {s s' : State Tid Addr Lock w} (h : KeepsControl p s s') :
    KeepsCore p s s' := by
  have hattr := congrArg Control.attr h.control
  have hcalls := congrArg Control.calls h.control
  have hcommits := congrArg Control.statCommits h.control
  have htrace := congrArg Control.trace h.control
  have hirr := congrArg Control.irrevocable h.control
  simp only [KeepsCore, State.own, Own.core, h.commits, Core.mk.injEq, and_true]
  exact ⟨hattr, hcalls, hcommits, htrace, hirr⟩

variable [DecidableEq Addr] [DecidableEq Lock] {p : Tid} {cfg : Config Addr Lock}

/-! ## A rollback that is retried -/

/-- The step leaves the attributes of `p` alone. -/
def KeepsAttr (p : Tid) (s s' : State Tid Addr Lock w) : Prop :=
  (s'.txs p).attr = (s.txs p).attr

omit [DecidableEq Tid] [DecidableEq Addr] [DecidableEq Lock] in
theorem KeepsControl.attr {s s' : State Tid Addr Lock w} (h : KeepsControl p s s') :
    KeepsAttr p s s' :=
  congrArg Control.attr h.control

omit [DecidableEq Addr] [DecidableEq Lock] in
theorem modifyTx_attr {f : StmTx Addr Lock w → StmTx Addr Lock w}
    (h : ∀ tx, (f tx).attr = tx.attr) : (modifyTx p f).Within (KeepsAttr p) :=
  Prog.within_atomic fun s => by simp [KeepsAttr, State.setTx, h]

omit [DecidableEq Addr] [DecidableEq Lock] in
theorem acquireToken_attr : (acquireToken p : M Tid Addr Lock w _).Within (KeepsAttr p) := by
  refine Prog.within_iterate fun _ => Prog.within_access (fun _ => rfl) fun i => ?_
  split
  · trivial
  · refine Prog.within_access (fun s => ?_) fun _ => trivial
    split
    · simp [KeepsAttr, State.setTx]
    · rfl

omit [DecidableEq Addr] [DecidableEq Lock] in
theorem intStmPrepare_attr : (intStmPrepare cfg p : M Tid Addr Lock w _).Within (KeepsAttr p) := by
  refine Prog.Within.bind (modifyTx_attr fun _ => rfl) fun _ =>
    Prog.Within.bind (setStart_control.mono fun _ _ => KeepsControl.attr) fun _ => ?_
  refine Prog.within_access (fun _ => rfl) fun tx => ?_
  split
  · refine Prog.Within.bind ?_ fun _ => modifyTx_attr fun _ => rfl
    refine Prog.within_access (fun _ => rfl) fun tx => ?_
    split
    · trivial
    · split
      · exact acquireToken_attr.bind fun _ => modifyTx_attr fun _ => rfl
      · exact modifyTx_attr fun _ => rfl
  · exact modifyTx_attr fun _ => rfl

/-- The thread holds the lock by an entry of its write set. -/
def Own.Holds (o : Own Tid Addr Lock w) (lock : Lock) : Prop :=
  ∃ i, o.locks lock = some i ∧ i < o.tx.wSet.entries.length

/-- Nothing is left for another thread to interfere with: there are no irrevocable transactions, and
the transaction holds all locks that its commit acquires or validates. -/
structure AllHeld (cfg : Config Addr Lock) (o : Own Tid Addr Lock w) : Prop where
  token : cfg.irrevocableEnabled = false
  design : cfg.designOf o.tx.attr ≠ .writeBackCtl
  reads : ∀ r ∈ o.tx.rSet, o.Holds r.lock

/-- The design's commit function does not fail and return. -/
def Assured (cfg : Config Addr Lock) (o : Own Tid Addr Lock w) : Prop :=
  o.tx.attr.noRetry = false ∨ o.tx.irrevocable ≠ 0 ∨ AllHeld cfg o

omit [DecidableEq Tid] [DecidableEq Addr] [DecidableEq Lock] in
/-- What `AllHeld` depends on. -/
theorem AllHeld.congr {o o' : Own Tid Addr Lock w} (h : AllHeld cfg o)
    (hattr : o'.tx.attr = o.tx.attr) (hr : o'.tx.rSet = o.tx.rSet) (hw : o'.tx.wSet = o.tx.wSet)
    (hl : o'.locks = o.locks) : AllHeld cfg o' := by
  refine ⟨h.token, hattr ▸ h.design, fun r hr' => ?_⟩
  rw [Own.Holds, hl, hw]
  exact h.reads r (hr ▸ hr')

omit [DecidableEq Tid] [DecidableEq Addr] [DecidableEq Lock] in
/-- What `Assured` depends on. -/
theorem Assured.congr {o o' : Own Tid Addr Lock w} (h : Assured cfg o)
    (hattr : o'.tx.attr = o.tx.attr) (hirr : o'.tx.irrevocable = o.tx.irrevocable)
    (hr : o'.tx.rSet = o.tx.rSet) (hw : o'.tx.wSet = o.tx.wSet) (hl : o'.locks = o.locks) :
    Assured cfg o' :=
  h.imp (fun h => hattr ▸ h) fun h => h.imp (fun h => hirr ▸ h) fun h => h.congr hattr hr hw hl

section
variable {k : Core Addr Tid w} {α β : Type} {Q : α → Assn (alone p : RG (State Tid Addr Lock w) Bool) true}
  {J : Assn (alone p : RG (State Tid Addr Lock w) Bool) true}

end

section
variable {k : Core Addr Tid w}

/-- The transaction is in the commits of the thread. -/
def Core.commit (k : Core Addr Tid w) (p : Tid) (t : ℕ) : Core Addr Tid w :=
  { k with commits := ⟨p, t, true, k.trace⟩ :: k.commits }

end

end TinyStm
