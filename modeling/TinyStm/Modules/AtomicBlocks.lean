import TinyStm.Conc.Tally
import Mathlib.Algebra.Order.Ring.Rat
import Mathlib.Data.List.Sort
import Mathlib.Data.Multiset.AddSub
import Mathlib.Data.Rat.Floor

/-!
# Statistics of the atomic blocks

`src/mod_ab.c`. A `double` is a rational number and an `unsigned long` a natural number; an `int` is an integer
that is reduced where the source converts to it or multiplies. What is done under `ab_mutex` is one step.
`none` is undefined behaviour: an index outside of an array, a cell that has not been written, a division
by zero.
-/

namespace TinyStm.AtomicBlocks

/-- `NB_ATOMIC_BLOCKS`. -/
def nbAtomicBlocks : ℕ := 64

/-- `BUFFER_SIZE`. -/
def bufferSize : ℕ := 1024

/-- `SAMPLING_PERIOD_DEFAULT`. -/
def samplingPeriodDefault : ℕ := 1024

/-- The random generators of the C library, with seeds of type `Seed`. -/
structure Rand (Seed : Type) where
  erand48 : Seed → ℚ × Seed
  nrand48 : Seed → ℕ × Seed

/-- `smart_counter_t`. A cell of the reservoir that has not been written is `none`. -/
structure SmartCounter where
  samples : ℕ
  mean : ℚ
  variance : ℚ
  min : ℚ
  max : ℚ
  reservoir : List (Option ℚ)
  sorted : Bool
  deriving DecidableEq

/-! ## Counters -/

/-- The conversion to `int`. -/
def toInt (i : ℤ) : ℤ := i.bmod (2 ^ 32)

/-- `sc_round`: the conversion to `int` cuts off the fraction. -/
def scRound (d : ℚ) : ℤ := if 0 ≤ d + 1 / 2 then ⌊d + 1 / 2⌋ else ⌈d + 1 / 2⌉

/-- The index that `sc_percentile` computes. -/
def scIndex (length percentile : ℤ) : ℤ := scRound (toInt (length * percentile) / 100)

section
variable {Seed : Type} (rand : Rand Seed) (reservoirSize : ℕ)

/-- `sc_init`. -/
def scInit : SmartCounter where
  samples := 0
  mean := 0
  variance := 0
  min := 0
  max := 0
  reservoir := List.replicate reservoirSize none
  sorted := true

/-- The first half of `sc_add_sample`: the mean, the variance, the minimum and the maximum. -/
def scUpdate (n : ℚ) (c : SmartCounter) : SmartCounter :=
  let prev := c.mean
  let c :=
    if c.samples = 0 then { c with min := n, max := n }
    else if n < c.min then { c with min := n }
    else if n > c.max then { c with max := n }
    else c
  let c := { c with mean := c.mean + (n - c.mean) / (c.samples + 1) }
  { c with variance := c.variance + (n - prev) * (n - c.mean) }

/-- `c->reservoir[i] = n`. -/
def setReservoir (i : ℕ) (n : ℚ) (c : SmartCounter) : Option SmartCounter :=
  if i < c.reservoir.length then some { c with reservoir := c.reservoir.set i (some n) } else none

/-- The second half of `sc_add_sample`: the reservoir. -/
def scReservoir (n : ℚ) (seed : Seed) (c : SmartCounter) : Option (Seed × SmartCounter) :=
  if c.samples < reservoirSize then do
    let c ← setReservoir c.samples n c
    pure (seed, { c with sorted := false })
  else do
    let prob := reservoirSize / (c.samples + 1 : ℚ)
    let (r, seed) := rand.erand48 seed
    if r ≤ prob then
      let (k, seed) := rand.nrand48 seed
      if reservoirSize = 0 then none
      else do
        let c ← setReservoir (k % reservoirSize) n c
        pure (seed, { c with sorted := false })
    else pure (seed, { c with sorted := false })

/-- `sc_add_sample`. -/
def scAddSample (n : ℚ) (seed : Seed) (c : SmartCounter) : Option (Seed × SmartCounter) := do
  let (seed, c) ← scReservoir rand reservoirSize n seed (scUpdate n c)
  pure (seed, { c with samples := c.samples + 1 })

/-- `sc_variance`. -/
def scVariance (c : SmartCounter) : ℚ :=
  if c.samples ≤ 1 then 0 else c.variance / (c.samples - 1 : ℕ)

/-- `qsort` of the first `length` cells of the reservoir. -/
def sortReservoir (length : ℕ) (c : SmartCounter) : Option SmartCounter := do
  if c.reservoir.length < length then none
  let cells ← (c.reservoir.take length).mapM id
  pure { c with reservoir := (cells.insertionSort (· ≤ ·)).map some ++ c.reservoir.drop length }

/-- `sc_percentile`. -/
def scPercentile (percentile : ℤ) (c : SmartCounter) : Option (ℚ × SmartCounter) :=
  let length := toInt (if c.samples < reservoirSize then c.samples else reservoirSize)
  let i := scIndex length percentile
  if i ≤ 0 then some (c.min, c)
  else if i ≥ length then some (c.max, c)
  else do
    let c ← if c.sorted then some c
      else (sortReservoir length.toNat c).map fun c => { c with sorted := true }
    let v ← c.reservoir[i.toNat]?.join
    pure (v, c)

/-- `stm_ab_stats_t`. -/
structure StmAbStats where
  samples : ℕ
  mean : ℚ
  variance : ℚ
  min : ℚ
  max : ℚ
  percentile50 : ℚ
  percentile90 : ℚ
  percentile95 : ℚ
  reservoir : List (Option ℚ)
  reservoirSize : ℕ

/-- What `stm_get_ab_stats` does with the counter it has found. -/
def scGetStats (c : SmartCounter) : Option (StmAbStats × SmartCounter) := do
  let (p50, c) ← scPercentile reservoirSize 50 c
  let (p90, c) ← scPercentile reservoirSize 90 c
  let (p95, c) ← scPercentile reservoirSize 95 c
  pure ({ samples := c.samples, mean := c.mean, variance := scVariance c, min := c.min, max := c.max,
          percentile50 := p50, percentile90 := p90, percentile95 := p95, reservoir := c.reservoir,
          reservoirSize := if c.samples < reservoirSize then c.samples else reservoirSize }, c)

end

/-! ## Atomic blocks -/

/-- `ab_stats_t`. -/
structure AbStats where
  id : ℤ
  stats : SmartCounter

/-- `samples_buffer_t`. -/
structure SamplesBuffer (Seed : Type) where
  buffer : List (ℤ × ℕ)
  total : ℕ
  start : ℕ
  seed : Seed

/-- `ab_list`, and the buffers of the threads. Auxiliary are the threads that have one (`live`) and all samples
recorded so far. -/
structure AbState (Tid Seed : Type) where
  abList : Fin nbAtomicBlocks → List AbStats
  samples : Tid → SamplesBuffer Seed
  live : Finset Tid
  recorded : Multiset (ℤ × ℕ)

/-- The random generators, `RESERVOIR_SIZE`, which is converted to `unsigned int`, and the argument of
`mod_ab_init`. -/
structure AbConfig (Seed : Type) where
  rand : Rand Seed
  reservoirSize : ℕ
  reservoirSize_lt : reservoirSize < 2 ^ 32
  freq : ℤ

/-- `sampling_period`. -/
def AbConfig.samplingPeriod {Seed : Type} (cfg : AbConfig Seed) : ℕ :=
  if cfg.freq ≤ 0 then samplingPeriodDefault else cfg.freq.toNat

/-- `abs(id) % NB_ATOMIC_BLOCKS`. -/
def bucketOf (id : ℤ) : Fin nbAtomicBlocks := ⟨id.natAbs % nbAtomicBlocks, Nat.mod_lt _ (by decide)⟩

/-- The search for an entry in a bucket, and what `f` does with its counter. -/
def onEntry {α : Type} (id : ℤ) (f : SmartCounter → Option (α × SmartCounter)) :
    List AbStats → Option (Option α × List AbStats)
  | [] => some (none, [])
  | ab :: rest =>
    if ab.id = id then (f ab.stats).map fun (a, c) => (some a, ⟨ab.id, c⟩ :: rest)
    else (onEntry id f rest).map fun (a, rest) => (a, ab :: rest)

/-- The bucket with an entry for `id`, which is created if there is none. -/
def withEntry (reservoirSize : ℕ) (id : ℤ) (abs : List AbStats) : List AbStats :=
  if abs.any (·.id = id) then abs else ⟨id, scInit reservoirSize⟩ :: abs

section
variable {Tid Seed : Type} (cfg : AbConfig Seed)

/-- One round of the loop of `sc_add_samples`, on `ab_list` and the seed. -/
def addSample (t : (Fin nbAtomicBlocks → List AbStats) × Seed) (sample : ℤ × ℕ) :
    Option ((Fin nbAtomicBlocks → List AbStats) × Seed) := do
  let (abList, seed) := t
  let (id, length) := sample
  let bucket := bucketOf id
  let (seed, abs) ← onEntry id (scAddSample cfg.rand cfg.reservoirSize length seed)
    (withEntry cfg.reservoirSize id (abList bucket))
  let seed ← seed
  pure (Function.update abList bucket abs, seed)

variable [DecidableEq Tid]

/-- `sc_add_samples`. -/
def scAddSamples (p : Tid) (s : AbState Tid Seed) : Option (AbState Tid Seed) := do
  let samples := s.samples p
  let (abList, seed) ← samples.buffer.foldlM (addSample cfg) (s.abList, samples.seed)
  pure { s with
    abList := abList, samples := Function.update s.samples p { samples with buffer := [], seed := seed } }

/-- `mod_ab_on_thread_init`. The seed is random; the start time is what is in the block. -/
def modAbOnThreadInit (p : Tid) (seed : Seed) (start : ℕ) (s : AbState Tid Seed) : AbState Tid Seed :=
  { s with samples := Function.update s.samples p ⟨[], 0, start, seed⟩, live := insert p s.live }

/-- `mod_ab_on_thread_exit`. -/
def modAbOnThreadExit (p : Tid) (s : AbState Tid Seed) : Option (AbState Tid Seed) := do
  let s ← scAddSamples cfg p s
  pure { s with live := s.live.erase p }

/-- `mod_ab_on_start` and `mod_ab_on_abort`. -/
def setStart (p : Tid) (time : ℕ) (s : AbState Tid Seed) : AbState Tid Seed :=
  { s with samples := Function.update s.samples p { s.samples p with start := time } }

/-- The end of `mod_ab_on_commit`: the sample is put into the buffer, which is emptied when it is full. -/
def keepSample (p : Tid) (id : ℤ) (length : ℕ) (s : AbState Tid Seed) : Option (AbState Tid Seed) :=
  let samples := s.samples p
  if samples.buffer.length < bufferSize then
    let s := { s with
      samples := Function.update s.samples p { samples with buffer := samples.buffer ++ [(id, length)] }
      recorded := (id, length) ::ₘ s.recorded }
    if samples.buffer.length + 1 = bufferSize then scAddSamples cfg p s else some s
  else none

/-- `mod_ab_on_commit`. `valid` is what `check_fn` returns, if there is one; `id` is in the attributes. -/
def modAbOnCommit (p : Tid) (time : ℕ) (valid : Bool) (id : ℤ) (s : AbState Tid Seed) :
    Option (AbState Tid Seed) :=
  if valid then
    let samples := s.samples p
    let length := (time + (2 ^ 64 - samples.start)) % 2 ^ 64
    let total := (samples.total + 1) % 2 ^ 32
    let s := { s with samples := Function.update s.samples p { samples with total := total } }
    if total % cfg.samplingPeriod = 0 then keepSample cfg p id length s else some s
  else some s

omit [DecidableEq Tid] in
/-- `stm_get_ab_stats`. The result is `none` if there is no entry. -/
def stmGetAbStats (id : ℤ) (s : AbState Tid Seed) : Option (Option StmAbStats × AbState Tid Seed) := do
  let bucket := bucketOf id
  let (stats, abs) ← onEntry id (scGetStats cfg.reservoirSize) (s.abList bucket)
  pure (stats, { s with abList := Function.update s.abList bucket abs })

/-- The callbacks of a thread, and the query. -/
inductive AbCall (Seed : Type)
  | threadInit (seed : Seed) (start : ℕ)
  | start (time : ℕ)
  | commit (time : ℕ) (valid : Bool) (id : ℤ)
  | abort (time : ℕ)
  | threadExit
  | getAbStats (id : ℤ)

/-- What a call of thread `p` does. -/
def AbCall.run (p : Tid) (s : AbState Tid Seed) : AbCall Seed → Option (AbState Tid Seed)
  | .threadInit seed time => some (modAbOnThreadInit p seed time s)
  | .start time => some (setStart p time s)
  | .abort time => some (setStart p time s)
  | .commit time valid id => modAbOnCommit cfg p time valid id s
  | .threadExit => modAbOnThreadExit cfg p s
  | .getAbStats id => (stmGetAbStats cfg id s).map (·.2)

/-- A thread is initialised once before it exits, and runs transactions in between. -/
def AbCall.Admitted (p : Tid) (s : AbState Tid Seed) : AbCall Seed → Prop
  | .threadInit .. => p ∉ s.live
  | .getAbStats _ => True
  | _ => p ∈ s.live

instance AbCall.Admitted.decidable (p : Tid) (s : AbState Tid Seed) (k : AbCall Seed) :
    Decidable (k.Admitted p s) := by
  cases k <;> unfold AbCall.Admitted <;> infer_instance

/-- After `mod_ab_init`; the buffers are arbitrary. -/
def AbState.init (samples : Tid → SamplesBuffer Seed) : AbState Tid Seed where
  abList := fun _ => []
  samples := samples
  live := ∅
  recorded := 0

/-- The states that calls lead to. -/
inductive AbRun : AbState Tid Seed → Prop
  | init (samples : Tid → SamplesBuffer Seed) : AbRun (.init samples)
  | call {s s' : AbState Tid Seed} {p : Tid} {k : AbCall Seed} :
      AbRun s → k.Admitted p s → AbCall.run cfg p s k = some s' → AbRun s'

end

end TinyStm.AtomicBlocks
