import TinyStm.Bytes.Flat
import TinyStm.Bytes.Patch
import TinyStm.Model.Wrappers

/-!
# The undo log

`src/mod_log.c`. A transaction that writes to private memory directly saves what is there before; an
abort puts it back, the last entry first. The first `nb_entries` entries of the array are a list; an
`int` is a natural number, as an array of 2^30 entries cannot be allocated.
-/

namespace TinyStm

/-- The C types that can be logged, but for `TYPE_BYTES`. -/
inductive LogType
  | word
  | u8
  | u16
  | u32
  | u64
  | char
  | uchar
  | short
  | ushort
  | int
  | uint
  | long
  | ulong
  | float
  | double
  | ptr
  deriving DecidableEq

/-- The size of a type; `long` and pointers have the size of a word. -/
def LogType.width (z : WordSize) : LogType → ℕ
  | .u8 | .char | .uchar => 1
  | .u16 | .short | .ushort => 2
  | .u32 | .int | .uint | .float => 4
  | .u64 | .double => 8
  | .word | .long | .ulong | .ptr => z.bytes

/-- The size of the member of the union that keeps the old value: it is a `char` for all of the types
`uint8_t` to `uint64_t`. -/
def LogType.member (z : WordSize) : LogType → ℕ
  | .u8 | .u16 | .u32 | .u64 => 1
  | t => t.width z

/-- `mod_log_w_entry_t`. The buffer of a range of bytes has been allocated as the `id`-th one. -/
inductive LogEntry (z : WordSize)
  | scalar (t : LogType) (a : ℕ) (v : BitVec (8 * t.member z))
  | bytes (a : ℕ) (v : List (BitVec 8)) (id : ℕ)

/-- `mod_log_w_set_t`, the memory, and the buffers that have been allocated and freed. -/
structure LogState (z : WordSize) where
  entries : List (LogEntry z)
  size : ℕ
  allocated : ℕ
  mem : ByteMem
  buffers : ℕ
  freed : List ℕ

/-- The target: the byte order, the size of words, and whether `char` is signed. -/
structure LogTarget where
  order : ByteOrder
  word : WordSize
  signedChar : Bool

variable (c : LogTarget)

/-- `LW_SET_SIZE`. -/
def lwSetSize : ℕ := 1024

/-- `get_entry`, and what is stored in it. -/
def LogState.push {z : WordSize} (s : LogState z) (w : LogEntry z) : LogState z :=
  { s with
    size := if s.entries.length = s.size then (if s.size < lwSetSize then lwSetSize else s.size * 2)
      else s.size
    entries := s.entries ++ [w] }

/-- The value of type `t` at an address. -/
def LogState.value (s : LogState c.word) (t : LogType) (a : ℕ) : BitVec (8 * t.width c.word) :=
  c.order.ofBytes (t.width c.word) (s.mem.slice a (t.width c.word))

/-- `w->data.…v = *addr`: the conversion to the type of the member. -/
def LogType.save (z : WordSize) (t : LogType) (x : BitVec (8 * t.width z)) :
    BitVec (8 * t.member z) := x.setWidth _

/-- `*w->data.…a = w->data.…v`: the conversion from the type of the member. -/
def LogType.restore (t : LogType) (v : BitVec (8 * t.member c.word)) :
    BitVec (8 * t.width c.word) := if c.signedChar then v.signExtend _ else v.setWidth _

/-- `stm_log`, `stm_log_u8`, …, `stm_log_ptr`. -/
def stmLog (t : LogType) (addr : ℕ) (s : LogState c.word) : LogState c.word :=
  s.push (.scalar t addr (t.save c.word (s.value c t addr)))

/-- `stm_log_bytes`. -/
def stmLogBytes (addr size : ℕ) (s : LogState c.word) : LogState c.word :=
  { s.push (.bytes addr (s.mem.slice addr size) s.buffers) with
    buffers := s.buffers + 1, allocated := s.allocated + 1 }

/-- `xfree(w->data.b.v)` and `ws->allocated--`. -/
def LogState.freeBuffer {z : WordSize} (s : LogState z) (id : ℕ) : LogState z :=
  { s with freed := id :: s.freed, allocated := s.allocated - 1 }

/-- The loop of `mod_log_on_commit`; none if it goes past the last entry. -/
def logCommitLoop {z : WordSize} : List (LogEntry z) → LogState z → Option (LogState z)
  | [], _ => none
  | w :: ws, s =>
    let s := match w with
      | .scalar .. => s
      | .bytes _ _ id => s.freeBuffer id
    if s.allocated > 0 then logCommitLoop ws s else some s

/-- `mod_log_on_commit`. -/
def modLogOnCommit {z : WordSize} (s : LogState z) : Option (LogState z) :=
  if s.allocated > 0 then (logCommitLoop s.entries s).map fun s => { s with entries := [] }
  else some { s with entries := [] }

/-- An entry is undone. -/
def LogState.undo (w : LogEntry c.word) (s : LogState c.word) : LogState c.word :=
  match w with
  | .scalar t a v => { s with mem := s.mem.overlay a (c.order.bytesOf (t.restore c v)) }
  | .bytes a v id => { s with mem := s.mem.overlay a v }.freeBuffer id

/-- `mod_log_on_abort`. The entries are undone in the reverse order. -/
def modLogOnAbort (s : LogState c.word) : LogState c.word :=
  { s.entries.foldr (LogState.undo c) s with entries := [] }

/-- `mod_log_on_thread_init`. -/
def modLogOnThreadInit (z : WordSize) (mem : ByteMem) : LogState z := ⟨[], 0, 0, mem, 0, []⟩

end TinyStm
