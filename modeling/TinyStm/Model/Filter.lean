import TinyStm.Model.Wbctl

/-!
# The Bloom filter of the write set

`stm_has_written` and `stm_wbctl_write` with `USE_BLOOM_FILTER`: what they do to the descriptor, for which
the filter is a word more. `word` converts an address to a `stm_word_t`.
-/

namespace TinyStm

section
variable {w : ℕ}

/-- `FILTER_HASH`. -/
def filterHash (a : BitVec w) : BitVec w := (a >>> 2) ^^^ (a >>> 5)

/-- `FILTER_BITS`: an `int`, converted to `stm_word_t`. -/
def filterBits (a : BitVec w) : BitVec w :=
  (1#32 <<< (filterHash a &&& 0x1F#w).toNat).signExtend w

end

variable {Addr Lock : Type} {w : ℕ} [DecidableEq Addr] [DecidableEq Lock]

/-- What `stm_wbctl_write` does to the descriptor when it has found the version `l` in the lock and entry
`found` for the address: nothing, if it aborts. -/
def wbctlUpdate (cfg : Config Addr Lock) (found : Option ℕ) (l : ℕ) (addr : Addr) (value mask : BitVec w)
    (tx : StmTx Addr Lock w) : Option (StmTx Addr Lock w → StmTx Addr Lock w) :=
  match found with
  | some i => some fun tx => { tx with
      wSet := tx.wSet.modify i fun e =>
        { e with value := BitVec.merge e.value value mask, mask := e.mask ||| mask } }
  | none =>
    let version := lockGetTimestamp l
    if tx.irrevocable = 0 ∧ version > tx.end_ ∧ (stmHasRead tx (cfg.getLock addr)).isSome then none
    else some (wbctlPush
      ⟨addr, if mask = 0#w then 0#w else value, mask, version, cfg.getLock addr, none, true⟩)

/-- A descriptor with the filter of its write set. -/
structure FilteredTx (Addr Lock : Type) (w : ℕ) where
  tx : StmTx Addr Lock w
  bloom : BitVec w

namespace FilteredTx

variable (word : Addr → BitVec w)

/-- `int_stm_prepare`: the sets and the filter. -/
def prepare (t : FilteredTx Addr Lock w) : FilteredTx Addr Lock w where
  tx := { t.tx with rSet := [], wSet := { t.tx.wSet with entries := [], nbAcquired := 0 } }
  bloom := 0#w

/-- `stm_has_written` with the filter. -/
def stmHasWritten (t : FilteredTx Addr Lock w) (addr : Addr) : Option ℕ :=
  let mask := filterBits (word addr)
  if t.bloom &&& mask ≠ mask then none else TinyStm.stmHasWritten t.tx addr

/-- `stm_wbctl_write` with the filter, when it has found the version `l` in the lock. -/
def stmWbctlWrite (cfg : Config Addr Lock) (l : ℕ) (addr : Addr) (value mask : BitVec w)
    (t : FilteredTx Addr Lock w) : Option (FilteredTx Addr Lock w) :=
  let found := t.stmHasWritten word addr
  (wbctlUpdate cfg found l addr value mask t.tx).map fun f =>
    ⟨f t.tx, if found.isSome then t.bloom else t.bloom ||| filterBits (word addr)⟩

/-- The descriptors that calls of `stm_wbctl_write` lead to after `int_stm_prepare`. Between two calls the
rest of the descriptor may change. -/
inductive Since (cfg : Config Addr Lock) : FilteredTx Addr Lock w → Prop
  | prepare (t : FilteredTx Addr Lock w) : Since cfg t.prepare
  | write {t t' : FilteredTx Addr Lock w} {l : ℕ} {addr : Addr} {value mask : BitVec w} :
      Since cfg t → t.stmWbctlWrite word cfg l addr value mask = some t' → Since cfg t'
  | other {t : FilteredTx Addr Lock w} {tx : StmTx Addr Lock w} :
      Since cfg t → tx.wSet.entries = t.tx.wSet.entries → Since cfg ⟨tx, t.bloom⟩

end FilteredTx

end TinyStm
