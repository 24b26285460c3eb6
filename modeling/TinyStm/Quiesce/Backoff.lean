import TinyStm.Quiesce.Model

/-!
# The backoff slots of the threads

With `delay_time` each thread that is registered gets a slot of an array of 32 delays, and with
`CM_BACKOFF` it reads its slot when it aborts. The index is the number of threads that are registered and
not in the barrier. The mutex, the list of the threads and the barrier are those of
`TinyStm.Quiesce.Model`, which runs on its part of the state.
-/

namespace TinyStm.Backoff

open Quiesce (QProg)

/-- `MIN_BACKOFF`. -/
def minBackoff : ℕ := 4

/-- `_tinystm` with `delay_time`, and the `thread_idx` of the descriptors.

Auxiliary are: whether `delay_time` has been accessed beyond its end (`outside`), and whether a thread was
registered when there was no slot for it (`crowded`). -/
structure State (Tid Addr : Type) where
  base : Quiesce.State Tid Addr
  delayTime : List ℕ
  threadIdx : Tid → ℤ
  outside : Bool
  crowded : Bool

/-- Programs on this state. -/
abbrev BProg (Tid Addr : Type) := Prog (State Tid Addr)

variable {Tid Addr : Type} [DecidableEq Tid]

/-- A program of the threads that does not touch `delay_time`. -/
def onBase {α : Type} (c : QProg Tid Addr α) : BProg Tid Addr α :=
  c.zoom (·.base) fun b s => { s with base := b }

/-- The index is within `delay_time`. -/
def State.InDelayTime (s : State Tid Addr) (i : ℤ) : Prop := 0 ≤ i ∧ i < s.delayTime.length

omit [DecidableEq Tid] in
instance (s : State Tid Addr) (i : ℤ) : Decidable (s.InDelayTime i) :=
  inferInstanceAs (Decidable (0 ≤ i ∧ i < s.delayTime.length))

/-- There is a slot for `p`: the next index is within `delay_time`, and no other registered thread has
it. -/
def State.Vacant (s : State Tid Addr) (p : Tid) : Prop :=
  s.InDelayTime (s.base.threadsNb + 1) ∧
    ∀ q ∈ s.base.threads, q ≠ p → s.threadIdx q ≠ s.base.threadsNb + 1

instance (s : State Tid Addr) (p : Tid) : Decidable (s.Vacant p) :=
  inferInstanceAs (Decidable (_ ∧ ∀ q ∈ s.base.threads, q ≠ p → s.threadIdx q ≠ _))

/-- `delay_time[i] = MIN_BACKOFF`. -/
def State.setDelay (s : State Tid Addr) (i : ℤ) : State Tid Addr :=
  { s with
    delayTime := s.delayTime.set i.toNat minBackoff
    outside := s.outside || !decide (s.InDelayTime i) }

/-- What `stm_quiesce_enter_thread` does while it has the mutex. -/
def State.enter (s : State Tid Addr) (p : Tid) : State Tid Addr :=
  { s.setDelay (s.base.threadsNb + 1) with
    base := { s.base with
      threads := p :: s.base.threads, threadsNb := s.base.threadsNb + 1
      window := s.base.window.filter (· ≠ p) }
    threadIdx := Function.update s.threadIdx p (s.base.threadsNb + 1)
    crowded := s.crowded || !decide (s.Vacant p) }

/-- `stm_quiesce_enter_thread`. -/
def stmQuiesceEnterThread (p : Tid) : BProg Tid Addr Unit := do
  onBase (Quiesce.lockMutex p)
  .modify (·.enter p)
  onBase Quiesce.unlockMutex

/-- `int_stm_init_thread` until it registers the thread. -/
def prepareThread (cfg : Quiesce.Config) (p : Tid) : QProg Tid Addr Unit := do
  .modify fun s => { s with
    window := p :: s.window, exposed := s.exposed || decide (s.rolling ≠ none) }
  Quiesce.insideGc cfg p fun g => gcInitThread g p
  Quiesce.modifyTx p fun _ => .init

/-- Apart from the slots, a thread is registered as in `TinyStm.Quiesce.Model`. -/
theorem intStmInitThread_eq (cfg : Quiesce.Config) (p : Tid) :
    (Quiesce.intStmInitThread cfg p : QProg Tid Addr Unit) =
      prepareThread cfg p >>= fun _ => Quiesce.stmQuiesceEnterThread p := by
  simp only [Quiesce.intStmInitThread, prepareThread, Prog.bind_eq, Prog.bind_assoc]

/-- `int_stm_init_thread`. -/
def intStmInitThread (cfg : Quiesce.Config) (p : Tid) : BProg Tid Addr Unit := do
  onBase (prepareThread cfg p)
  stmQuiesceEnterThread p

/-- The wait in `stm_rollback`. The delay is read; the loop that does nothing for so long is left out. -/
def backoff (p : Tid) : BProg Tid Addr ℕ :=
  .atomic fun s => (s.delayTime.getD (s.threadIdx p).toNat 0,
    { s with outside := s.outside || !decide (s.InDelayTime (s.threadIdx p)) })

/-- What a thread may do: register and leave, enter the barrier to roll the clock over, and abort. -/
inductive Cmd
  | initThread
  | exitThread (pick : ℕ)
  | barrier
  | rollback

/-- The program of a call. -/
def Cmd.prog (cfg : Quiesce.Config) (p : Tid) : Cmd → BProg Tid Addr Unit
  | .initThread => intStmInitThread cfg p
  | .exitThread pick => onBase (Quiesce.intStmExitThread cfg p pick)
  | .barrier => onBase (Quiesce.stmQuiesceBarrier cfg p)
  | .rollback => do
    let _ ← backoff p

/-- A thread is registered once, and leaves and aborts only when it is. The barrier may be entered without a
descriptor. -/
def Cmd.Called (p : Tid) : Cmd → State Tid Addr → Prop
  | .initThread, s => p ∉ s.base.threads
  | .exitThread _, s | .rollback, s => p ∈ s.base.threads
  | .barrier, _ => True

instance (p : Tid) : (k : Cmd) → (s : State Tid Addr) → Decidable (k.Called p s)
  | .initThread, s => inferInstanceAs (Decidable (p ∉ s.base.threads))
  | .exitThread _, s | .rollback, s => inferInstanceAs (Decidable (p ∈ s.base.threads))
  | .barrier, _ => .isTrue trivial

/-- The state after `stm_init`. -/
def State.init (cfg : Quiesce.Config) : State Tid Addr where
  base := .init cfg
  delayTime := List.replicate 32 0
  threadIdx _ := 0
  outside := false
  crowded := false

end TinyStm.Backoff
