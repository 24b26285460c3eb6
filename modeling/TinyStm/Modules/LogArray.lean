import TinyStm.Modules.Log

/-!
# The array of the undo log

The array that holds the entries of the log: what is stored at the indices from `nb_entries` on is left
from earlier transactions, or uninitialised. The loops that run when a transaction ends are stated on
the array, and fail if they look at such an index.
-/

namespace TinyStm

/-- `mod_log_w_set_t` with its array, the memory, and the buffers that have been allocated and freed.
`allocated` is of type `int`. -/
structure LogArray (z : WordSize) where
  cells : ℕ → Option (LogEntry z)
  nbEntries : ℕ
  size : ℕ
  allocated : ℤ
  mem : ByteMem
  buffers : ℕ
  freed : List ℕ

variable {z : WordSize} (c : LogTarget)

/-- `get_entry`, and what is stored in it. -/
def LogArray.getEntry (s : LogArray z) (w : LogEntry z) : LogArray z :=
  { s with
    size := if s.nbEntries = s.size then (if s.size < lwSetSize then lwSetSize else s.size * 2)
      else s.size
    cells := Function.update s.cells s.nbEntries (some w)
    nbEntries := s.nbEntries + 1 }

/-- `xfree(w->data.b.v)` and `ws->allocated--`. -/
def LogArray.freeBuffer (s : LogArray z) (id : ℕ) : LogArray z :=
  { s with freed := id :: s.freed, allocated := s.allocated - 1 }

/-- `stm_log`, `stm_log_u8`, …, `stm_log_ptr`. -/
def LogArray.log (t : LogType) (addr : ℕ) (s : LogArray c.word) : LogArray c.word :=
  s.getEntry (.scalar t addr (t.save c.word
    (c.order.ofBytes (t.width c.word) (s.mem.slice addr (t.width c.word)))))

/-- `stm_log_bytes`. -/
def LogArray.logBytes (addr size : ℕ) (s : LogArray c.word) : LogArray c.word :=
  { s.getEntry (.bytes addr (s.mem.slice addr size) s.buffers) with
    buffers := s.buffers + 1, allocated := s.allocated + 1 }

/-- The loop of `mod_log_on_commit` from index `i` on, when `n` entries are left. -/
def LogArray.commitFrom : ℕ → ℕ → LogArray z → Option (LogArray z)
  | 0, _, _ => none
  | n + 1, i, s => do
    let w ← s.cells i
    let s := match w with
      | .scalar .. => s
      | .bytes _ _ id => s.freeBuffer id
    if s.allocated > 0 then commitFrom n (i + 1) s else some s

/-- `mod_log_on_commit`. -/
def LogArray.onCommit (s : LogArray z) : Option (LogArray z) := do
  let s ← if s.allocated > 0 then commitFrom s.nbEntries 0 s else some s
  some { s with nbEntries := 0 }

/-- An entry is undone. -/
def LogArray.undo (s : LogArray c.word) : LogEntry c.word → LogArray c.word
  | .scalar t a v => { s with mem := s.mem.overlay a (c.order.bytesOf (t.restore c v)) }
  | .bytes a v id => { s with mem := s.mem.overlay a v }.freeBuffer id

/-- The loop of `mod_log_on_abort` from index `i` down. -/
def LogArray.abortFrom : ℕ → LogArray c.word → Option (LogArray c.word)
  | 0, s => do
    let w ← s.cells 0
    some (s.undo c w)
  | i + 1, s => do
    let w ← s.cells (i + 1)
    abortFrom i (s.undo c w)

/-- `mod_log_on_abort`, with its assertion. -/
def LogArray.onAbort (s : LogArray c.word) : Option (LogArray c.word) := do
  let s ← if s.nbEntries > 0 then abortFrom c (s.nbEntries - 1) s else some s
  let s := { s with nbEntries := 0 }
  if s.allocated = 0 then some s else none

/-- `mod_log_on_thread_init`. The array has not been allocated. -/
def LogArray.onThreadInit (z : WordSize) (mem : ByteMem) : LogArray z :=
  ⟨fun _ => none, 0, 0, 0, mem, 0, []⟩

end TinyStm
