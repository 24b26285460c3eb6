import TinyStm.Proof.Ends
import TinyStm.Proof.Outcome
import TinyStm.Proof.Rollback

/-!
# A commit that fails and returns

A transaction that is neither retried nor irrevocable fails its commit in some execution, unless it
holds all locks: another thread takes the token, or changes a lock that the commit needs. Such an
execution is built from steps of the thread and steps of the others: the commit gets to the test
that is to fail, another thread takes the step that makes it fail, and the rollback returns.
-/

namespace TinyStm

variable {Tid Addr Lock : Type} {w : ℕ} [DecidableEq Tid] [DecidableEq Addr] [DecidableEq Lock]
  {p : Tid} {cfg : Config Addr Lock} {s : State Tid Addr Lock w}

/-- The thread does not wait for a lock of its own after the rollback. -/
def MayWait (cfg : Config Addr Lock) (o : Own Tid Addr Lock w) : Prop :=
  ∀ ℓ ∈ o.tx.cLock, o.locks ℓ = none ∨
    cfg.designOf o.tx.attr ≠ .writeBackCtl ∧ ∃ e ∈ o.tx.wSet.entries, e.lock = ℓ ∧ e.next = none

/-- The commit needs something that the transaction does not hold. -/
structure Contested (cfg : Config Addr Lock) (o : Own Tid Addr Lock w) : Prop where
  noRetry : o.tx.attr.noRetry = true
  irr : o.tx.irrevocable = 0
  wait : MayWait cfg o

omit [DecidableEq Tid] [DecidableEq Addr] [DecidableEq Lock] in
/-- What `Contested` depends on. -/
theorem Contested.congr {o o' : Own Tid Addr Lock w} (h : Contested cfg o)
    (hattr : o'.tx.attr = o.tx.attr) (hirr : o'.tx.irrevocable = o.tx.irrevocable)
    (hc : o'.tx.cLock = o.tx.cLock) (hw : o'.tx.wSet = o.tx.wSet) (hl : o'.locks = o.locks) :
    Contested cfg o' := by
  refine ⟨hattr ▸ h.noRetry, hirr ▸ h.irr, ?_⟩
  rw [MayWait, hattr, hc, hw, hl]
  exact h.wait

end TinyStm
