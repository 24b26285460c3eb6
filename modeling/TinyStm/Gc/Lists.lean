import TinyStm.Gc.Model
import Mathlib.Data.Finset.Erase
import Mathlib.Data.Finset.Insert
import Mathlib.Data.Multiset.AddSub

/-!
# The lists of the garbage collector

`src/gc.c` again, with the pointers `head` and `tail` of a slot and the addresses of the regions, which
`TinyStm.Gc.Model` leaves out. `gc_reset` and `gc_exit` are called while no thread is inside of the collector:
each of them is one step, and does nothing otherwise; after `gc_exit` no call begins.
-/

namespace TinyStm.GcLists

/-- `gc_region_t`, and where it has been allocated. -/
structure Region (Addr : Type) where
  addr : ℕ
  blocks : List Addr
  ts : ℕ

/-- `gc_thread_t`: `head` are the regions that are found from it. -/
structure Slot (Addr : Type) where
  used : GcUsed
  ts : ℕ
  head : List (Region Addr)
  tail : Option ℕ
  frees : ℕ

/-- The slots, the clock that `gc_current_epoch` reads, the thread-local index, and what has been given back to the
system. A region is allocated at address `allocs`.

Auxiliary are: the thread that has set a slot to `GC_BUSY` (`holder`), whether one of `head` and `tail` has been
written and the other has not (`updating`), the threads inside of a call, those that have a slot, all addresses
passed to `gc_free` (`given`), those of a slot that have not been given back (`left`), whether a pointer to no
region has been followed, and whether `gc_exit` has returned. -/
structure State (Tid Addr : Type) where
  slots : ℕ → Slot Addr
  nbActive : ℕ
  clock : ℕ
  idx : Tid → ℕ
  allocs : ℕ
  freed : Multiset Addr
  holder : ℕ → Option Tid
  updating : ℕ → Bool
  inside : Finset Tid
  registered : Finset Tid
  given : Multiset Addr
  left : ℕ → Multiset Addr
  dangling : Bool
  exited : Bool

abbrev LProg (Tid Addr : Type) := Prog (State Tid Addr)

/-- The blocks of some regions. -/
def blocksOf {Addr : Type} (rs : List (Region Addr)) : Multiset Addr := (rs.flatMap (·.blocks) : List Addr)

/-- The status of a slot that is released. -/
def Slot.released {Addr : Type} (t : Slot Addr) : GcUsed :=
  match t.head with
  | [] => .freeEmpty
  | _ :: _ => .freeFull

/-- `slots[idx].tail`, if it points to a region. -/
def Slot.tailRegion {Addr : Type} (t : Slot Addr) : Option (Region Addr) :=
  t.head.find? fun r => some r.addr = t.tail

/-- `tail->next = mr`. -/
def linkAfter {Addr : Type} (tail : Option ℕ) (mr : Region Addr) : List (Region Addr) → List (Region Addr)
  | [] => []
  | r :: rs => if some r.addr = tail then [r, mr] else r :: linkAfter tail mr rs

/-- `mr->blocks = mb`, for a new block. -/
def addBlock {Addr : Type} (mr : ℕ) (addr : Addr) (rs : List (Region Addr)) : List (Region Addr) :=
  rs.map fun r => if r.addr = mr then { r with blocks := addr :: r.blocks } else r

variable {Tid Addr : Type} [DecidableEq Tid] [DecidableEq Addr]

/-- Slot `i` is changed by `f`. -/
def State.setSlot (s : State Tid Addr) (i : ℕ) (f : Slot Addr → Slot Addr) : State Tid Addr :=
  { s with slots := Function.update s.slots i (f (s.slots i)) }

def modifySlot (i : ℕ) (f : Slot Addr → Slot Addr) : LProg Tid Addr Unit := .modify (·.setSlot i f)

/-- The links of slot `i` are changed by `f`; after it the slot is, or is not, in the middle of an update. -/
def modifyLinks (i : ℕ) (updating : Bool) (f : Slot Addr → Slot Addr) : LProg Tid Addr Unit :=
  .modify fun s => { s.setSlot i f with updating := Function.update s.updating i updating }

def loadSlot (i : ℕ) : LProg Tid Addr (Slot Addr) := .read (·.slots i)

/-- A pointer to no region is followed. -/
def follow : LProg Tid Addr Unit := .modify fun s => { s with dangling := true }

/-- `ATOMIC_CAS_FULL(&slots[i].used, used, GC_BUSY)`. -/
def claim (p : Tid) (i : ℕ) (used : GcUsed) : LProg Tid Addr Bool :=
  .atomic fun s =>
    if (s.slots i).used = used then
      (true, { s.setSlot i fun t => { t with used := .busy } with
        holder := Function.update s.holder i (some p) })
    else (false, s)

/-- `ATOMIC_STORE` of `used` by the holder of the slot. -/
def release (i : ℕ) : LProg Tid Addr Unit :=
  .modify fun s => { s.setSlot i fun t => { t with used := t.released } with
    holder := Function.update s.holder i none }

/-- `gc_get_idx`. -/
def gcGetIdx (p : Tid) : LProg Tid Addr ℕ := .read (·.idx p)

/-- `gc_current_epoch`. -/
def gcCurrentEpoch : LProg Tid Addr ℕ := .read (·.clock)

/-- `xfree` of the memory of a block of slot `i`. -/
def xfree (i : ℕ) (addr : Addr) : LProg Tid Addr Unit :=
  .modify fun s => { s with
    freed := addr ::ₘ s.freed, left := Function.update s.left i ((s.left i).erase addr) }

/-! ## Internal functions -/

/-- `gc_compute_min`. -/
def gcComputeMin (cfg : GcConfig) (now : ℕ) : LProg Tid Addr ℕ :=
  .iterate (0, now) fun (i, min) =>
    if i < cfg.maxGcThreads then do
      let t ← loadSlot i
      match t.used with
      | .busy => do
        let t ← loadSlot i
        -- a slot whose thread has not published an epoch is read again
        if t.ts = cfg.epochMax then pure (.inl (i, min))
        else pure (.inl (i + 1, if t.ts < min then t.ts else min))
      | .null => pure (.inr min)
      | .freeEmpty | .freeFull => pure (.inl (i + 1, min))
    else pure (.inr min)

/-- `gc_clean_blocks`. -/
def gcCleanBlocks (i : ℕ) : List Addr → LProg Tid Addr Unit
  | [] => pure ()
  | addr :: mb => do
    xfree i addr
    gcCleanBlocks i mb

/-- The loop of `gc_cleanup_thread`. -/
def cleanupLoop (idx min : ℕ) : LProg Tid Addr Unit :=
  .iterate () fun _ => do
    let t ← loadSlot idx
    match t.head with
    | [] => do
      follow
      pure (.inr ())
    | r :: mr =>
      if min > r.ts then do
        gcCleanBlocks idx r.blocks
        modifyLinks idx mr.isEmpty fun t => { t with head := t.head.tail }
        match mr with
        | [] => do
          modifyLinks idx false fun t => { t with tail := none }
          pure (.inr ())
        | _ :: _ => pure (.inl ())
      else pure (.inr ())

/-- `gc_cleanup_thread`. -/
def gcCleanupThread (idx min : ℕ) : LProg Tid Addr Unit := do
  let t ← loadSlot idx
  match t.head with
  | [] => pure ()
  | _ :: _ => cleanupLoop idx min

/-! ## Functions -/

/-- `gc_init_thread`, up to the slot that is taken. -/
def takeSlot (cfg : GcConfig) (p : Tid) : LProg Tid Addr ℕ :=
  .iterate 0 fun i => do
    let next := if i + 1 ≥ cfg.maxGcThreads then 0 else i + 1
    let t ← loadSlot i
    if t.used ≠ .busy then do
      let ok ← claim p i t.used
      if ok then do
        let epoch ← gcCurrentEpoch
        modifySlot i fun t => { t with ts := epoch }
        pure (.inr i)
      else pure (.inl next)
    else pure (.inl next)

/-- `gc_init_thread`. The result is false if there are too many threads; the process exits then. -/
def gcInitThread (cfg : GcConfig) (p : Tid) : LProg Tid Addr Bool := do
  let nb ← .atomic fun s => (s.nbActive, { s with nbActive := s.nbActive + 1 })
  if nb ≥ cfg.maxGcThreads then pure false
  else do
    let idx ← takeSlot cfg p
    .modify fun s => { s with
      idx := Function.update s.idx p idx, registered := insert p s.registered }
    pure true

/-- `gc_exit_thread`. -/
def gcExitThread (cfg : GcConfig) (p : Tid) : LProg Tid Addr Unit := do
  let idx ← .atomic fun s => (s.idx p, { s with registered := s.registered.erase p })
  modifySlot idx fun t => { t with ts := cfg.epochMax }
  release idx
  .modify fun s => { s with nbActive := s.nbActive - 1 }

/-- `gc_set_epoch`. -/
def gcSetEpoch (cfg : GcConfig) (p : Tid) (epoch : ℕ) : LProg Tid Addr Unit := do
  let idx ← gcGetIdx p
  if epoch ≥ cfg.epochMax then pure ()
  else modifySlot idx fun t => { t with ts := epoch }

/-- `gc_cleanup`. -/
def gcCleanup (cfg : GcConfig) (p : Tid) : LProg Tid Addr Unit := do
  let idx ← gcGetIdx p
  let t ← loadSlot idx
  match t.head with
  | [] => pure ()
  | _ :: _ => do
    let now ← gcCurrentEpoch
    let min ← gcComputeMin cfg now
    gcCleanupThread idx min

/-- A new region at the end of the list. -/
def newRegion (idx epoch : ℕ) (head : List (Region Addr)) : LProg Tid Addr ℕ := do
  let mr ← .atomic fun s => (s.allocs, { s with allocs := s.allocs + 1 })
  match head with
  | [] => do
    modifyLinks idx true fun t => { t with tail := some mr }
    modifyLinks idx false fun t => { t with head := [⟨mr, [], epoch⟩] }
    pure mr
  | _ :: _ => do
    modifyLinks idx true fun t => { t with head := linkAfter t.tail ⟨mr, [], epoch⟩ t.head }
    modifyLinks idx false fun t => { t with tail := some mr }
    pure mr

/-- The region of `gc_free` for a block: a new one, or the last one. -/
def regionFor (idx epoch : ℕ) : LProg Tid Addr ℕ := do
  let t ← loadSlot idx
  match t.head with
  | [] => newRegion idx epoch t.head
  | _ :: _ =>
    match t.tailRegion with
    | none => do
      follow
      pure 0
    | some mr => if mr.ts < epoch then newRegion idx epoch t.head else pure mr.addr

/-- `gc_free`. -/
def gcFree (cfg : GcConfig) (p : Tid) (addr : Addr) (epoch : ℕ) : LProg Tid Addr Unit := do
  let idx ← .atomic fun s => (s.idx p, { s with
    given := addr ::ₘ s.given
    left := Function.update s.left (s.idx p) (addr ::ₘ s.left (s.idx p)) })
  let mr ← regionFor idx epoch
  modifySlot idx fun t => { t with head := addBlock mr addr t.head }
  match cfg.cleanupFrequency with
  | none => pure ()
  | some frequency => do
    let frees ← .atomic fun s => (countFree (s.slots idx).frees,
      s.setSlot idx fun t => { t with frees := countFree t.frees })
    if frees % frequency = 0 then gcCleanup cfg p else pure ()

/-- The bound for `gc_cleanup_all`, which is computed once. -/
def minOnce (cfg : GcConfig) (min : ℕ) : LProg Tid Addr ℕ :=
  if min = cfg.epochMax then do
    let now ← gcCurrentEpoch
    gcComputeMin cfg now
  else pure min

/-- `gc_cleanup_all`. -/
def gcCleanupAll (cfg : GcConfig) (p : Tid) : LProg Tid Addr Unit :=
  .iterate (0, cfg.epochMax) fun (i, min) =>
    if i < cfg.maxGcThreads then do
      let t ← loadSlot i
      if t.used = .null then pure (.inr ())
      else do
        let t ← loadSlot i
        if t.used = .freeFull then do
          let ok ← claim p i .freeFull
          if ok then do
            let min ← minOnce cfg min
            gcCleanupThread i min
            release i
            pure (.inl (i + 1, min))
          else pure (.inl (i + 1, min))
        else pure (.inl (i + 1, min))
    else pure (.inr ())

/-- `gc_clean_regions` on the regions of slot `i`. -/
def State.cleanRegions (s : State Tid Addr) (i : ℕ) : State Tid Addr :=
  { s with
    freed := blocksOf (s.slots i).head + s.freed
    left := Function.update s.left i (s.left i - blocksOf (s.slots i).head) }

/-- The loop of `gc_reset` from slot `i` on, when `n` slots are left. -/
def State.resetFrom (cfg : GcConfig) : ℕ → ℕ → State Tid Addr → State Tid Addr
  | 0, _, s => s
  | n + 1, i, s =>
    if (s.slots i).used = .null then s
    else resetFrom cfg n (i + 1) ((s.cleanRegions i).setSlot i fun t =>
      { t with ts := cfg.epochMax, head := [], tail := none, frees := 0 })

/-- `gc_reset`. -/
def gcReset (cfg : GcConfig) : LProg Tid Addr Unit :=
  .modify fun s => if s.inside = ∅ ∧ s.exited = false then s.resetFrom cfg cfg.maxGcThreads 0 else s

/-- The loop of `gc_exit`. -/
def State.cleanSlots : ℕ → State Tid Addr → State Tid Addr
  | 0, s => s
  | n + 1, s => (s.cleanSlots n).cleanRegions n

/-- `gc_exit`, if no thread is registered. -/
def gcExit (cfg : GcConfig) : LProg Tid Addr Unit :=
  .modify fun s => if s.inside = ∅ ∧ s.exited = false ∧ s.nbActive = 0 then
    { s.cleanSlots cfg.maxGcThreads with exited := true } else s

/-! ## Calls -/

/-- What a thread may do. `tick` stands for whatever changes the clock. -/
inductive Cmd (Addr : Type)
  | initThread
  | setEpoch (epoch : ℕ)
  | free (addr : Addr) (epoch : ℕ)
  | cleanup
  | cleanupAll
  | exitThread
  | reset
  | exit
  | tick (now : ℕ)

/-- A call that enters the collector and leaves it. -/
def within (p : Tid) (c : LProg Tid Addr Unit) : LProg Tid Addr Unit := do
  let open' ← .atomic fun s =>
    if s.exited then (false, s) else (true, { s with inside := insert p s.inside })
  if open' then do
    c
    .modify fun s => { s with inside := s.inside.erase p }
  else pure ()

/-- The program of a call. -/
def exec (cfg : GcConfig) (p : Tid) : Cmd Addr → LProg Tid Addr Unit
  | .initThread => within p do
    let _ ← gcInitThread cfg p
    pure ()
  | .setEpoch epoch => within p (gcSetEpoch cfg p epoch)
  | .free addr epoch => within p (gcFree cfg p addr epoch)
  | .cleanup => within p (gcCleanup cfg p)
  | .cleanupAll => within p (gcCleanupAll cfg p)
  | .exitThread => within p (gcExitThread cfg p)
  | .reset => gcReset cfg
  | .exit => gcExit cfg
  | .tick now => .modify fun s => { s with clock := now }

/-- A thread registers before it uses its slot. -/
def Called (p : Tid) : Cmd Addr → State Tid Addr → Prop
  | .initThread, s => p ∉ s.registered
  | .setEpoch _, s | .free _ _, s | .cleanup, s | .exitThread, s => p ∈ s.registered
  | .cleanupAll, _ | .reset, _ | .exit, _ | .tick _, _ => True

instance (p : Tid) (cmd : Cmd Addr) (s : State Tid Addr) : Decidable (Called p cmd s) := by
  cases cmd <;> unfold Called <;> infer_instance

/-- The state after `gc_init`. -/
def State.init (cfg : GcConfig) (clock : ℕ) : State Tid Addr where
  slots _ := ⟨.null, cfg.epochMax, [], none, 0⟩
  nbActive := 0
  clock := clock
  idx _ := 0
  allocs := 0
  freed := 0
  holder _ := none
  updating _ := false
  inside := ∅
  registered := ∅
  given := 0
  left _ := 0
  dangling := false
  exited := false

end TinyStm.GcLists
