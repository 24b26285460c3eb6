import TinyStm.Proof.Sound

/-!
# Calls

The calls that the clients of a run make: what the interface asks of them, what the results assume
of them, and concrete runs.
-/

namespace TinyStm

section
variable {Tid Addr Lock : Type} {w : ℕ}

/-- The address and the mask of a store. -/
def Cmd.target : Cmd Addr w → Option (Addr × BitVec w)
  | .store a _ => some (a, BitVec.allOnes w)
  | .store2 a _ k => some (a, k)
  | _ => none

/-- The attributes with which a transaction is started. -/
def Cmd.attr? : Cmd Addr w → Option Attr
  | .start attr => some attr
  | _ => none

/-- The thread that owns the lock. -/
def LockWord.owner : LockWord Tid → Option Tid
  | .free _ => none
  | .owned q _ => some q

/-- The calls are made as the interface asks: a transaction is active, unless it is started or made
irrevocable, and the nesting level does not overflow. -/
def Called (p : Tid) (cmd : Cmd Addr w) (s : State Tid Addr Lock w) : Prop :=
  match cmd with
  | .start _ => (s.txs p).nesting + 1 < 2 ^ 32
  | .setIrrevocable => True
  | _ => (s.txs p).status.isActive = true

instance (p : Tid) (cmd : Cmd Addr w) (s : State Tid Addr Lock w) : Decidable (Called p cmd s) := by
  unfold Called
  split <;> infer_instance

end

variable {Tid Addr Lock : Type} {w : ℕ} [DecidableEq Tid] [DecidableEq Addr] [DecidableEq Lock]

/-- No abort callback requests irrevocability for the next attempt. -/
def Config.NoRequests (cfg : Config Addr Lock) : Prop :=
  ∀ reason n, cfg.requests reason n = false

/-- The calls of transactions that are neither irrevocable nor started read-only. -/
def PlainCall (p : Tid) (cmd : Cmd Addr w) (s : State Tid Addr Lock w) : Prop :=
  Called p cmd s ∧ cmd ≠ .setIrrevocable ∧ ∀ attr ∈ cmd.attr?, attr.readOnly = false

instance (p : Tid) (cmd : Cmd Addr w) (s : State Tid Addr Lock w) : Decidable (PlainCall p cmd s) :=
  inferInstanceAs (Decidable (_ ∧ _ ∧ _))

/-- A store of a transaction that is not retried finds room in the write set. -/
def RoomyStore (cfg : Config Addr Lock) (p : Tid) (cmd : Cmd Addr w)
    (s : State Tid Addr Lock w) : Prop :=
  ∀ x ∈ cmd.target, HasRoom cfg.getLock (s.txs p) x.1 x.2

instance (cfg : Config Addr Lock) (p : Tid) (cmd : Cmd Addr w) (s : State Tid Addr Lock w) :
    Decidable (RoomyStore cfg p cmd s) :=
  inferInstanceAs (Decidable (∀ x ∈ cmd.target, _))

/-- The calls of transactions of the design `d`, with any attributes. -/
def AnyCall (cfg : Config Addr Lock) (d : Design) (p : Tid) (cmd : Cmd Addr w)
    (s : State Tid Addr Lock w) : Prop :=
  Called p cmd s ∧ (∀ attr ∈ cmd.attr?, cfg.designOf attr = d) ∧
    (cmd = .setIrrevocable → cfg.irrevocableEnabled = true)

instance (cfg : Config Addr Lock) (d : Design) (p : Tid) (cmd : Cmd Addr w)
    (s : State Tid Addr Lock w) : Decidable (AnyCall cfg d p cmd s) :=
  inferInstanceAs (Decidable (_ ∧ _ ∧ _))

/-- A transaction that was started read-only neither stores nor becomes irrevocable. -/
def HintKept (p : Tid) (cmd : Cmd Addr w) (s : State Tid Addr Lock w) : Prop :=
  (s.txs p).status.isActive = true → (s.txs p).attr.readOnly = true →
    cmd.target = none ∧ cmd ≠ .setIrrevocable

instance (p : Tid) (cmd : Cmd Addr w) (s : State Tid Addr Lock w) : Decidable (HintKept p cmd s) :=
  inferInstanceAs (Decidable (_ → _ → _ ∧ _))

/-- A store in write-through does not find an old value missing: the first entry of the stripe has
one, or it is the entry of the address, or the address has no entry. -/
def SavedStore (cfg : Config Addr Lock) (p : Tid) (cmd : Cmd Addr w)
    (s : State Tid Addr Lock w) : Prop :=
  ∀ x ∈ cmd.target, x.2 ≠ 0#w → HeadSaved cfg.getLock (s.txs p) x.1

instance (cfg : Config Addr Lock) (p : Tid) (cmd : Cmd Addr w) (s : State Tid Addr Lock w) :
    Decidable (SavedStore cfg p cmd s) := by
  unfold SavedStore HeadSaved
  infer_instance

/-- The call ends a transaction, or one level of it. -/
def Cmd.isCommit : Cmd Addr w → Bool
  | .commit => true
  | _ => false

/-- The address of a load. -/
def Cmd.source : Cmd Addr w → Option Addr
  | .load a => some a
  | _ => none

omit [DecidableEq Addr] in
/-- Only a load has a source. -/
theorem Cmd.mem_source {cmd : Cmd Addr w} {a : Addr} : a ∈ cmd.source ↔ cmd = .load a := by
  cases cmd <;> simp [source]

omit [DecidableEq Addr] in
/-- Only `stm_commit` is a commit. -/
theorem Cmd.isCommit_iff {cmd : Cmd Addr w} : cmd.isCommit = true ↔ cmd = .commit := by
  cases cmd <;> simp [isCommit]

/-- An irrevocable transaction with commit-time locking loads no word that it has stored in part. -/
def MergedLoad (p : Tid) (cmd : Cmd Addr w) (s : State Tid Addr Lock w) : Prop :=
  ∀ a ∈ cmd.source, (s.txs p).irrevocable ≠ 0 → ∀ e ∈ (s.txs p).wSet.entries, e.addr = a →
    e.mask = BitVec.allOnes w ∨ e.mask = 0#w

instance (p : Tid) (cmd : Cmd Addr w) (s : State Tid Addr Lock w) :
    Decidable (MergedLoad p cmd s) :=
  inferInstanceAs (Decidable (∀ a ∈ cmd.source, _))

instance (cfg : Config Addr Lock) (n : ℕ) : Decidable (cfg.UnaskedCommit n) :=
  inferInstanceAs (Decidable (∀ reason ∈ _, cfg.requests _ (statSucc n) = false))

/-- A commit that fails for good does not give back the token of another transaction: if a transaction
with the `no_retry` attribute that is not irrevocable and has stored ends, no abort callback would
request irrevocability for it. -/
def TokenKept (cfg : Config Addr Lock) (p : Tid) (cmd : Cmd Addr w) (s : State Tid Addr Lock w) :
    Prop :=
  cmd.isCommit = true → (s.txs p).nesting = 1 → (s.txs p).attr.noRetry = true →
    (s.txs p).irrevocable = 0 → (s.txs p).wSet.entries ≠ [] →
    cfg.UnaskedCommit (s.txs p).statAborts

instance (cfg : Config Addr Lock) (p : Tid) (cmd : Cmd Addr w) (s : State Tid Addr Lock w) :
    Decidable (TokenKept cfg p cmd s) :=
  inferInstanceAs (Decidable (_ → _ → _ → _ → _ ≠ _ → _))

/-! ## Concrete runs -/

/-- A build with the design `d` and the given stripes. -/
def Config.plain (d : Design) (getLock : Addr → Lock) : Config Addr Lock where
  design := d
  cm := .suicide
  irrevocableEnabled := true
  noDuplicatesInRwSets := false
  versionMax := 1000
  startCb := []
  precommitCb := []
  commitCb := []
  abortCb := []
  abortRequests := none
  getLock := getLock

/-- `{ .read_only = 0 }`. -/
def Attr.readWrite : Attr := ⟨0, false, false⟩

/-- `{ .no_retry = 1 }`. -/
def Attr.once : Attr := ⟨0, false, true⟩

/-- `{ .read_only = 1 }`. -/
def Attr.reader : Attr := ⟨0, true, false⟩

/-- The state after some calls, one after the other, with `n` steps for each. The memory is 0 at the
start. -/
def after {Tid Addr Lock : Type} [DecidableEq Tid] [DecidableEq Addr] [DecidableEq Lock] {w : ℕ}
    (cfg : Config Addr Lock) (size n : ℕ) (ks : List (Tid × Cmd Addr w)) :
    Pool (State Tid Addr Lock w) Tid :=
  Pool.follow (exec cfg) (Pool.init (State.init (fun _ => 0#w) size)) (Pool.Label.calls n ks)

/-- Calls that are enabled one after the other are a run. -/
theorem run_after {Tid Addr Lock : Type} [DecidableEq Tid] [DecidableEq Addr] [DecidableEq Lock]
    {w : ℕ} {cfg : Config Addr Lock} {C : Tid → Cmd Addr w → State Tid Addr Lock w → Prop}
    {size n : ℕ} {ks : List (Tid × Cmd Addr w)}
    (h : Pool.Follows (exec cfg) C (Pool.init (State.init (fun _ => 0#w) size))
      (Pool.Label.calls n ks)) : Run cfg (fun _ => 0#w) size C (after cfg size n ks) :=
  h.reaches

end TinyStm
