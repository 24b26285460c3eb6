import TinyStm.Proof.Fails
import TinyStm.Proof.Install
import TinyStm.Proof.Stm
import TinyStm.Result.Calls

/-!
# What a commit reports

`int_stm_commit` reports a commit exactly when the writes have been installed, unless the design's
commit function fails and returns: its result is not used. `Installed` is about the words and the locks: in
the trail of the call, which holds the states before and after each step that the thread makes itself, every
entry of the write set is stored and then its lock is dropped with the timestamp of the commit.
-/

namespace TinyStm

variable {Tid Addr Lock : Type} {w : ℕ} [DecidableEq Tid] [DecidableEq Addr] [DecidableEq Lock]
  {p : Tid} {cfg : Config Addr Lock} {s : State Tid Addr Lock w}

/-- `int_stm_commit` is called at the nesting level 1 in an active transaction of a thread that is not
alone. Its write set is as the stores have left it. -/
structure CommitCall (cfg : Config Addr Lock) (p : Tid) (s : State Tid Addr Lock w) : Prop where
  active : (s.txs p).status.isActive = true
  nesting : (s.txs p).nesting = 1
  wait : MayWait cfg (s.own p)
  writes : Installable cfg (s.own p)
  other : ∃ q, q ≠ p

omit [DecidableEq Addr] [DecidableEq Lock] in
/-- With commit-time locking no lock of an entry is held. -/
theorem CommitCall.locks (h : CommitCall cfg p s) (hd : cfg.designOf (s.txs p).attr = .writeBackCtl) :
    ∀ e ∈ (s.txs p).wSet.entries, (s.own p).locks e.lock = none :=
  fun e he => (h.writes.fresh hd e he).2

/-! ## A commit that is reported -/

section
variable {k : Core Addr Tid w}

/-- The transaction is in the commits of the thread, with the callbacks `calls` run so far. -/
def Committed (k : Core Addr Tid w) (n : ℕ) (calls : List ℕ) (o : Own Tid Addr Lock w) : Prop :=
  o.tx.statCommits = n ∧ o.tx.calls = calls ∧ ∃ c, o.commits = c :: k.commits ∧ c.trace = k.trace

end

/-! ## A commit that is not -/

end TinyStm
