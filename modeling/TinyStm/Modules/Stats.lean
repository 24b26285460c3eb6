import TinyStm.Conc.Pool
import TinyStm.Conc.Tally

/-!
# Statistics

`src/mod_stats.c`. Each thread counts its commits and aborts in a record of its own, which it adds to
the global one when it exits. An `unsigned long` is a natural number: fewer than 2^64 transactions are
run and aborted.
-/

namespace TinyStm.Stats

/-- `ULONG_MAX`. -/
def ulongMax : ℕ := 2 ^ 64 - 1

/-- `mod_stats_data_t`. -/
structure StatsData where
  commits : ℕ
  retries : ℕ
  retriesMin : ℕ
  retriesMax : ℕ
  retriesAcc : ℕ
  retriesCnt : ℕ
  deriving DecidableEq

/-- `mod_stats_global`, and the records of the threads.

Auxiliary are: the threads that have a record (`live`), what their records hold that has not been merged
yet (`owes`), the numbers of commit and abort events, how often the current transaction of each thread
has aborted, and how often each transaction that has ended did (`ended`). -/
structure StatsState (Tid : Type) where
  global : StatsData
  data : Tid → StatsData
  live : Finset Tid
  owes : Tid → StatsData
  commitEvents : ℕ
  abortEvents : ℕ
  current : Tid → ℕ
  ended : List ℕ

abbrev StatsProg (Tid : Type) := Prog (StatsState Tid)

/-- The initial values of `mod_stats_global` and of a thread's record. -/
def StatsData.init : StatsData := ⟨0, 0, ulongMax, 0, 0, 0⟩

/-- `mod_stats_on_commit` on the record. -/
def StatsData.commit (stats : StatsData) : StatsData where
  commits := stats.commits + 1
  retriesAcc := stats.retriesAcc + stats.retries
  retriesCnt := stats.retriesCnt + 1
  retriesMin := if stats.retriesMin > stats.retries then stats.retries else stats.retriesMin
  retriesMax := if stats.retriesMax < stats.retries then stats.retries else stats.retriesMax
  retries := 0

/-- `mod_stats_on_abort` on the record. -/
def StatsData.abort (stats : StatsData) : StatsData := { stats with retries := stats.retries + 1 }

variable {Tid : Type} [DecidableEq Tid]

/-- The record of `p` is changed by `f`. -/
def StatsState.setData (s : StatsState Tid) (p : Tid) (f : StatsData → StatsData) : StatsState Tid :=
  { s with
    data := Function.update s.data p (f (s.data p))
    owes := Function.update s.owes p (f (s.owes p)) }

/-- Auxiliary: what `p` has merged is taken out. -/
def StatsState.settle (s : StatsState Tid) (p : Tid) (f : StatsData → StatsData) : StatsState Tid :=
  { s with owes := Function.update s.owes p (f (s.owes p)) }

/-- Auxiliary: the current transaction of `p` ends, having aborted `n` times. -/
def StatsState.finish (s : StatsState Tid) (p : Tid) (n : ℕ) : StatsState Tid :=
  { s with current := Function.update s.current p 0, ended := n :: s.ended }

/-- `mod_stats_on_thread_init`. -/
def modStatsOnThreadInit (p : Tid) : StatsProg Tid Unit :=
  .modify fun s =>
    { s.setData p fun _ => .init with
      live := insert p s.live, current := Function.update s.current p 0 }

/-- `mod_stats_on_commit`. -/
def modStatsOnCommit (p : Tid) : StatsProg Tid Unit :=
  .modify fun s =>
    { (s.setData p StatsData.commit).finish p (s.current p) with commitEvents := s.commitEvents + 1 }

/-- `mod_stats_on_abort`; the transaction is retried or ends. -/
def modStatsOnAbort (p : Tid) (retry : Bool) : StatsProg Tid Unit :=
  .modify fun s =>
    let s := { s.setData p StatsData.abort with abortEvents := s.abortEvents + 1 }
    if retry then { s with current := Function.update s.current p (s.current p + 1) }
    else s.finish p (s.current p + 1)

/-- `ATOMIC_CAS_FULL(&mod_stats_global.retries_max, max, v)`. -/
def casRetriesMax (p : Tid) (max v : ℕ) : StatsProg Tid Bool :=
  .atomic fun s =>
    if s.global.retriesMax = max then
      (true, { s with global := { s.global with retriesMax := v } }.settle p
        fun o => { o with retriesMax := 0 })
    else (false, s)

/-- `ATOMIC_CAS_FULL(&mod_stats_global.retries_min, min, v)`. -/
def casRetriesMin (p : Tid) (min v : ℕ) : StatsProg Tid Bool :=
  .atomic fun s =>
    if s.global.retriesMin = min then
      (true, { s with global := { s.global with retriesMin := v } }.settle p
        fun o => { o with retriesMin := ulongMax })
    else (false, s)

/-- The loop at the label `retry_max`. A record that does not raise the maximum is merged when that is
read. -/
def retryMax (p : Tid) (stats : StatsData) : StatsProg Tid Unit :=
  .iterate () fun _ => do
    let max ← .atomic fun s =>
      (s.global.retriesMax, if stats.retriesMax > s.global.retriesMax then s
        else s.settle p fun o => { o with retriesMax := 0 })
    if stats.retriesMax > max then do
      let ok ← casRetriesMax p max stats.retriesMax
      pure (if ok then .inr () else .inl ())
    else pure (.inr ())

/-- The loop at the label `retry_min`. -/
def retryMin (p : Tid) (stats : StatsData) : StatsProg Tid Unit :=
  .iterate () fun _ => do
    let min ← .atomic fun s =>
      (s.global.retriesMin, if stats.retriesMin < s.global.retriesMin then s
        else s.settle p fun o => { o with retriesMin := ulongMax })
    if stats.retriesMin < min then do
      let ok ← casRetriesMin p min stats.retriesMin
      pure (if ok then .inr () else .inl ())
    else pure (.inr ())

/-- `ATOMIC_FETCH_ADD_FULL(&mod_stats_global.commits, stats->commits)`. -/
def addCommits (p : Tid) (stats : StatsData) : StatsProg Tid Unit :=
  .modify fun s => { s with global.commits := s.global.commits + stats.commits }.settle p
    fun o => { o with commits := 0 }

/-- `ATOMIC_FETCH_ADD_FULL(&mod_stats_global.retries_cnt, stats->retries_cnt)`. -/
def addRetriesCnt (p : Tid) (stats : StatsData) : StatsProg Tid Unit :=
  .modify fun s => { s with global.retriesCnt := s.global.retriesCnt + stats.retriesCnt }.settle p
    fun o => { o with retriesCnt := 0 }

/-- `ATOMIC_FETCH_ADD_FULL(&mod_stats_global.retries_acc, stats->retries_acc)`. -/
def addRetriesAcc (p : Tid) (stats : StatsData) : StatsProg Tid Unit :=
  .modify fun s => { s with global.retriesAcc := s.global.retriesAcc + stats.retriesAcc }.settle p
    fun o => { o with retriesAcc := 0 }

/-- `mod_stats_on_thread_exit`. A transaction that has aborted and is not retried ends. -/
def modStatsOnThreadExit (p : Tid) : StatsProg Tid Unit := do
  let stats ← .read (·.data p)
  addCommits p stats
  addRetriesCnt p stats
  addRetriesAcc p stats
  retryMax p stats
  retryMin p stats
  .modify fun s =>
    { (if s.current p = 0 then s else s.finish p (s.current p)) with live := s.live.erase p }

/-- The callbacks. -/
inductive StatsCall
  | threadInit
  | commit
  | abort (retry : Bool)
  | threadExit

/-- The callbacks of the module. -/
def StatsCall.prog (p : Tid) : StatsCall → StatsProg Tid Unit
  | .threadInit => modStatsOnThreadInit p
  | .commit => modStatsOnCommit p
  | .abort retry => modStatsOnAbort p retry
  | .threadExit => modStatsOnThreadExit p

/-- Before any thread is created. -/
def StatsState.init (Tid : Type) : StatsState Tid where
  global := .init
  data := fun _ => .init
  live := ∅
  owes := fun _ => .init
  commitEvents := 0
  abortEvents := 0
  current := fun _ => 0
  ended := []

/-- A thread is initialised once before it exits, and runs and exits in between. -/
def StatsCall.Admitted (p : Tid) (k : StatsCall) (s : StatsState Tid) : Prop :=
  match k with
  | .threadInit => p ∉ s.live
  | _ => p ∈ s.live

end TinyStm.Stats
