import TinyStm.Conc.Pool

/-!
# The epoch-based garbage collector

`src/gc.c`. A thread takes a slot, in which it publishes the epoch at which it has started; the memory
that it frees is kept in the regions of its slot until no thread has started at or before the epoch of
the region. The list of the regions of a slot runs from its `head` to its `tail`. The asserted
conditions are not checked (`NDEBUG`), and a call of `exit` ends the thread.
-/

namespace TinyStm

/-- The constants: `CLEANUP_FREQUENCY` is none with `NO_PERIODIC_CLEANUP`. -/
structure GcConfig where
  maxGcThreads : ℕ
  epochMax : ℕ
  cleanupFrequency : Option ℕ

/-- The descriptor status. -/
inductive GcUsed
  | null
  | busy
  | freeEmpty
  | freeFull
  deriving DecidableEq

/-- `gc_region_t`. The epoch of a block, which was given to `gc_free`, is auxiliary. -/
structure GcRegion (Addr : Type) where
  blocks : List (Addr × ℕ)
  ts : ℕ
  deriving DecidableEq

/-- `gc_thread_t`, a slot. -/
structure GcThread (Addr : Type) where
  used : GcUsed
  ts : ℕ
  regions : List (GcRegion Addr)
  frees : ℕ
  deriving DecidableEq

/-- `frees++`, of an `unsigned int`. -/
def countFree (frees : ℕ) : ℕ := (frees + 1) % 0x100000000

/-- Auxiliary: who has set a slot to `GC_BUSY`, a thread that registers or one that cleans it up. -/
inductive GcHolder (Tid : Type)
  | nobody
  | thread (p : Tid)
  | cleaner (p : Tid)
  deriving DecidableEq

/-- The shared state: the slots, the clock that `gc_current_epoch` reads and the thread-local index.
Auxiliary are the holders of the slots, the epochs that a thread has read since it has last published
one (and that one), and the blocks that have been given back to the system. -/
structure GcState (Tid Addr : Type) where
  slots : ℕ → GcThread Addr
  nbActive : ℕ
  clock : ℕ
  idx : Tid → ℕ
  holder : ℕ → GcHolder Tid
  reads : Tid → List ℕ
  freed : List (Addr × ℕ)

/-- `tail->ts`, if there is a region. -/
def GcThread.tailTs {Addr : Type} (t : GcThread Addr) : Option ℕ :=
  t.regions.getLast?.map (·.ts)

/-- The status of a slot that is released. -/
def GcThread.released {Addr : Type} (t : GcThread Addr) : GcUsed :=
  if t.regions = [] then .freeEmpty else .freeFull

theorem released_ne {Addr : Type} (t : GcThread Addr) : t.released ≠ .busy ∧ t.released ≠ .null := by
  unfold GcThread.released
  split <;> exact ⟨nofun, nofun⟩

/-- Programs on the state of the collector. -/
abbrev GcProg (Tid Addr : Type) := Prog (GcState Tid Addr)

variable {Tid Addr : Type} [DecidableEq Tid] {cfg : GcConfig}

/-! ## Accesses -/

/-- Slot `i` is changed by `f`. -/
def GcState.setSlot (s : GcState Tid Addr) (i : ℕ) (f : GcThread Addr → GcThread Addr) :
    GcState Tid Addr :=
  { s with slots := Function.update s.slots i (f (s.slots i)) }

/-- `ATOMIC_LOAD` of `used`. -/
def gcLoadUsed (i : ℕ) : GcProg Tid Addr GcUsed := .read fun s => (s.slots i).used

/-- `ATOMIC_LOAD` of `ts`. -/
def gcLoadTs (i : ℕ) : GcProg Tid Addr ℕ := .read fun s => (s.slots i).ts

/-- The regions of a slot. -/
def gcLoadRegions (i : ℕ) : GcProg Tid Addr (List (GcRegion Addr)) :=
  .read fun s => (s.slots i).regions

/-- A change of a slot. -/
def gcModifySlot (i : ℕ) (f : GcThread Addr → GcThread Addr) : GcProg Tid Addr Unit :=
  .modify (·.setSlot i f)

/-- `ATOMIC_CAS_FULL(&slots[i].used, used, GC_BUSY)`; a thread that registers has read no epoch yet. -/
def gcClaim (holder : GcHolder Tid) (i : ℕ) (used : GcUsed) : GcProg Tid Addr Bool :=
  .atomic fun s =>
    if (s.slots i).used = used then
      (true, { s.setSlot i (fun t => { t with used := .busy }) with
        holder := Function.update s.holder i holder
        reads := match holder with
          | .thread p => Function.update s.reads p []
          | _ => s.reads })
    else (false, s)

/-- `ATOMIC_STORE` of `used` by the holder of the slot. -/
def gcRelease (i : ℕ) : GcProg Tid Addr Unit :=
  .modify fun s => { s.setSlot i (fun t => { t with used := t.released }) with
    holder := Function.update s.holder i .nobody }

/-- `gc_current_epoch`. -/
def gcCurrentEpoch : GcProg Tid Addr ℕ := .read (·.clock)

/-- Thread `p` reads the clock, for an epoch that it may publish. -/
def gcReadClock (p : Tid) : GcProg Tid Addr ℕ :=
  .atomic fun s => (s.clock, { s with reads := Function.update s.reads p (s.clock :: s.reads p) })

/-- `gc_get_idx`. -/
def gcGetIdx (p : Tid) : GcProg Tid Addr ℕ := .read (·.idx p)

/-- `xfree` of the memory of a block. -/
def gcXfree (b : Addr × ℕ) : GcProg Tid Addr Unit := .modify fun s => { s with freed := b :: s.freed }

/-! ## Internal functions -/

/-- `gc_compute_min`. -/
def gcComputeMin (cfg : GcConfig) (now : ℕ) : GcProg Tid Addr ℕ :=
  .iterate (0, now) fun (i, min) =>
    if i < cfg.maxGcThreads then do
      let used ← gcLoadUsed i
      match used with
      | .busy => do
        let ts ← gcLoadTs i
        -- a slot whose thread has not published an epoch is read again
        if ts = cfg.epochMax then pure (.inl (i, min))
        else pure (.inl (i + 1, if ts < min then ts else min))
      | .null => pure (.inr min)
      | .freeEmpty | .freeFull => pure (.inl (i + 1, min))
    else pure (.inr min)

/-- `gc_clean_blocks`. -/
def gcCleanBlocks : List (Addr × ℕ) → GcProg Tid Addr Unit
  | [] => pure ()
  | b :: bs => do
    gcXfree b
    gcCleanBlocks bs

/-- `gc_cleanup_thread`. -/
def gcCleanupThread (idx min : ℕ) : GcProg Tid Addr Unit :=
  .iterate () fun _ => do
    let regions ← gcLoadRegions idx
    match regions with
    | [] => pure (.inr ())
    | head :: _ =>
      if min > head.ts then do
        gcCleanBlocks head.blocks
        gcModifySlot idx fun t => { t with regions := t.regions.tail }
        pure (.inl ())
      else pure (.inr ())

/-! ## Functions -/

/-- `gc_init_thread`. -/
def gcInitThread (cfg : GcConfig) (p : Tid) : GcProg Tid Addr Unit := do
  let nb ← .atomic fun s => (s.nbActive, { s with nbActive := s.nbActive + 1 })
  if nb ≥ cfg.maxGcThreads then .jump
  else do
    let idx ← .iterate 0 fun i => do
      let next := if i + 1 ≥ cfg.maxGcThreads then 0 else i + 1
      let used ← gcLoadUsed i
      if used ≠ .busy then do
        let ok ← gcClaim (.thread p) i used
        if ok then do
          let epoch ← gcReadClock p
          gcModifySlot i fun t => { t with ts := epoch }
          pure (.inr i)
        else pure (.inl next)
      else pure (.inl next)
    .modify fun s => { s with idx := Function.update s.idx p idx }

/-- `gc_exit_thread`. -/
def gcExitThread (cfg : GcConfig) (p : Tid) : GcProg Tid Addr Unit := do
  let idx ← gcGetIdx p
  gcModifySlot idx fun t => { t with ts := cfg.epochMax }
  gcRelease idx
  .modify fun s => { s with nbActive := s.nbActive - 1 }

/-- `gc_set_epoch`. -/
def gcSetEpoch (cfg : GcConfig) (p : Tid) (epoch : ℕ) : GcProg Tid Addr Unit := do
  let idx ← gcGetIdx p
  if epoch ≥ cfg.epochMax then pure ()
  else .modify fun s => { s.setSlot idx (fun t => { t with ts := epoch }) with
    reads := Function.update s.reads p [epoch] }

/-- `gc_cleanup`. -/
def gcCleanup (cfg : GcConfig) (p : Tid) : GcProg Tid Addr Unit := do
  let idx ← gcGetIdx p
  let regions ← gcLoadRegions idx
  if regions = [] then pure ()
  else do
    let now ← gcCurrentEpoch
    let min ← gcComputeMin cfg now
    gcCleanupThread idx min

/-- A new region at the tail, unless the last one has the epoch already. -/
def gcAddRegion (epoch : ℕ) (t : GcThread Addr) : GcThread Addr :=
  if t.tailTs.all (· < epoch) then { t with regions := t.regions ++ [⟨[], epoch⟩] } else t

/-- A block is added to the last region. -/
def gcAddBlock (b : Addr × ℕ) (t : GcThread Addr) : GcThread Addr :=
  { t with
    regions := t.regions.modify (t.regions.length - 1) fun r => { r with blocks := b :: r.blocks } }

/-- `gc_free`. -/
def gcFree (cfg : GcConfig) (p : Tid) (addr : Addr) (epoch : ℕ) : GcProg Tid Addr Unit := do
  let idx ← gcGetIdx p
  gcModifySlot idx (gcAddRegion epoch)
  gcModifySlot idx (gcAddBlock (addr, epoch))
  match cfg.cleanupFrequency with
  | none => pure ()
  | some frequency => do
    let frees ← .atomic fun s => (countFree (s.slots idx).frees,
      s.setSlot idx fun t => { t with frees := countFree t.frees })
    if frees % frequency = 0 then gcCleanup cfg p else pure ()

/-- The bound for `gc_cleanup_all`, which is computed once. -/
def gcMinOnce (cfg : GcConfig) (min : ℕ) : GcProg Tid Addr ℕ :=
  if min = cfg.epochMax then do
    let now ← gcCurrentEpoch
    gcComputeMin cfg now
  else pure min

/-- `gc_cleanup_all`. -/
def gcCleanupAll (cfg : GcConfig) (p : Tid) : GcProg Tid Addr Unit :=
  .iterate (0, cfg.epochMax) fun (i, min) =>
    if i < cfg.maxGcThreads then do
      let used ← gcLoadUsed i
      if used = .null then pure (.inr ())
      else do
        let used ← gcLoadUsed i
        if used = .freeFull then do
          let ok ← gcClaim (.cleaner p) i .freeFull
          if ok then do
            let min ← gcMinOnce cfg min
            gcCleanupThread i min
            gcRelease i
            pure (.inl (i + 1, min))
          else pure (.inl (i + 1, min))
        else pure (.inl (i + 1, min))
    else pure (.inr ())

/-- `gc_clean_regions`. -/
def gcCleanRegions : List (GcRegion Addr) → GcProg Tid Addr Unit
  | [] => pure ()
  | r :: rs => do
    gcCleanBlocks r.blocks
    gcCleanRegions rs

/-- `gc_reset`. -/
def gcReset (cfg : GcConfig) : GcProg Tid Addr Unit :=
  .iterate 0 fun i =>
    if i < cfg.maxGcThreads then do
      let used ← gcLoadUsed i
      if used = .null then pure (.inr ())
      else do
        let regions ← gcLoadRegions i
        gcCleanRegions regions
        gcModifySlot i fun t => { t with ts := cfg.epochMax, regions := [], frees := 0 }
        pure (.inl (i + 1))
    else pure (.inr ())

/-! ## Calls -/

/-- What a thread may do. `tick` stands for whatever advances the clock. -/
inductive GcCmd (Addr : Type)
  | initThread
  | readClock
  | setEpoch (epoch : ℕ)
  | free (addr : Addr) (epoch : ℕ)
  | cleanup
  | cleanupAll
  | exitThread
  | tick (now : ℕ)

/-- The program of a call. The clock is a word, and it never decreases. -/
def gcExec (cfg : GcConfig) (p : Tid) : GcCmd Addr → GcProg Tid Addr Unit
  | .initThread => gcInitThread cfg p
  | .readClock => do
    let _ ← gcReadClock p
  | .setEpoch epoch => gcSetEpoch cfg p epoch
  | .free addr epoch => gcFree cfg p addr epoch
  | .cleanup => gcCleanup cfg p
  | .cleanupAll => gcCleanupAll cfg p
  | .exitThread => gcExitThread cfg p
  | .tick now => .modify fun s => { s with clock := max s.clock (min now cfg.epochMax) }

/-- Thread `p` has a slot. -/
def GcState.Registered (s : GcState Tid Addr) (p : Tid) : Prop := s.holder (s.idx p) = .thread p

instance (s : GcState Tid Addr) (p : Tid) : Decidable (s.Registered p) :=
  inferInstanceAs (Decidable (_ = _))

/-- The calls of threads that use the collector as they must: a thread registers before it uses its
slot, and it publishes an epoch that it has read from the clock since it last published one. -/
def GcCalled (p : Tid) : GcCmd Addr → GcState Tid Addr → Prop
  | .initThread, s => ¬ s.Registered p
  | .setEpoch epoch, s => s.Registered p ∧ epoch ∈ s.reads p
  | .readClock, s | .free _ _, s | .cleanup, s | .exitThread, s => s.Registered p
  | .cleanupAll, _ | .tick _, _ => True

instance (p : Tid) (cmd : GcCmd Addr) (s : GcState Tid Addr) : Decidable (GcCalled p cmd s) := by
  cases cmd <;> unfold GcCalled <;> infer_instance

/-- The state after `gc_init`. -/
def GcState.init (cfg : GcConfig) (clock : ℕ) : GcState Tid Addr where
  slots _ := ⟨.null, cfg.epochMax, [], 0⟩
  nbActive := 0
  clock := clock
  idx _ := 0
  holder _ := .nobody
  reads _ := []
  freed := []

end TinyStm
