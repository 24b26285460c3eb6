import TinyStm.Model.Filter
import TinyStm.Proof.Store
import TinyStm.Result.Calls

/-!
# The filter is transparent

The filter has the bits of all addresses in the write set, so it never hides an entry. The filter is
a word of bits, each address sets one, and the shift count is taken as the code computes it, also
where the shift of an `int` sets the sign bit. An address whose bit is missing is not in the write
set, so the scan that is skipped would have found nothing.
-/

namespace TinyStm

section
variable {Tid Addr Lock : Type} {w : ℕ} [DecidableEq Tid] [DecidableEq Addr] [DecidableEq Lock]

/-- `stm_wbctl_write` where the lock is free. -/
def wbctlWriteFree (cfg : Config Addr Lock) (p : Tid) (addr : Addr) (value mask : BitVec w) (l : ℕ) :
    M Tid Addr Lock w (Unit ⊕ Unit) := do
  let tx ← getTx p
  match wbctlUpdate cfg (stmHasWritten tx addr) l addr value mask tx with
  | some f => do
    modifyTx p f
    pure (.inr ())
  | none => do
    stmRollback cfg p .storeInvalid
    pure (.inr ())

variable {cfg : Config Addr Lock} {p : Tid} {addr : Addr} {value mask : BitVec w}

/-- Without the filter, `stm_wbctl_write` waits for the lock to be free and does this to the descriptor. -/
theorem stmWbctlWrite_eq : (stmWbctlWrite cfg p addr value mask : M Tid Addr Lock w Unit) =
    .iterate () fun _ => (do
      let l ← loadLock (cfg.getLock addr)
      match l with
      | .owned _ _ => pure (.inl ())
      | .free l => wbctlWriteFree cfg p addr value mask l) := by
  unfold stmWbctlWrite wbctlWriteFree wbctlUpdate
  refine congrArg (Prog.iterate ()) (funext fun _ =>
    congrArg (loadLock (cfg.getLock addr) >>= ·) (funext fun l => ?_))
  cases l with
  | owned q i => rfl
  | free l =>
    refine congrArg (getTx p >>= ·) (funext fun tx => ?_)
    cases stmHasWritten tx addr with
    | some i => rfl
    | none =>
      dsimp only
      split <;> rfl

end

/-! ## Bits of the filter -/

/-- All bits of `m` are in `b`. -/
def HasBits {w : ℕ} (b m : BitVec w) : Prop := b &&& m = m

section
variable {w : ℕ} {b c m : BitVec w}

/-- Bits are not taken out again. -/
theorem HasBits.or_left (h : HasBits b m) : HasBits (b ||| c) m := by
  refine BitVec.eq_of_getLsbD_eq fun k _ => ?_
  have hk := congrArg (·.getLsbD k) h
  simp only [BitVec.getLsbD_and, BitVec.getLsbD_or] at hk ⊢
  cases hm : m.getLsbD k with
  | false => rw [Bool.and_false]
  | true =>
    rw [hm, Bool.and_true] at hk
    rw [hk, Bool.true_or, Bool.true_and]

theorem HasBits.or_right : HasBits (b ||| m) m := by
  refine BitVec.eq_of_getLsbD_eq fun k _ => ?_
  simp only [BitVec.getLsbD_and, BitVec.getLsbD_or]
  cases m.getLsbD k with
  | false => rw [Bool.and_false]
  | true => rw [Bool.or_true, Bool.true_and]

end

/-! ## The filter and the write set -/

namespace FilteredTx

variable {Addr Lock : Type} {w : ℕ} [DecidableEq Addr] [DecidableEq Lock] {word : Addr → BitVec w}
  {cfg : Config Addr Lock} {t t' : FilteredTx Addr Lock w} {l : ℕ} {addr : Addr} {value mask : BitVec w}

omit [DecidableEq Addr] [DecidableEq Lock] in
variable (word t) in
/-- The filter has the bits of all addresses in the write set. -/
def Covers : Prop := ∀ e ∈ t.tx.wSet.entries, HasBits t.bloom (filterBits (word e.addr))

omit [DecidableEq Lock] in
/-- Then it hides no entry. -/
theorem Covers.stmHasWritten (h : t.Covers word) (addr : Addr) :
    t.stmHasWritten word addr = TinyStm.stmHasWritten t.tx addr := by
  rw [FilteredTx.stmHasWritten]
  by_cases hbits : t.bloom &&& filterBits (word addr) = filterBits (word addr)
  · exact if_neg (not_not.2 hbits)
  · rw [if_pos hbits]
    refine (List.findIdx?_eq_none_iff.2 fun e he => ?_).symm
    rw [decide_eq_false_iff_not]
    rintro rfl
    exact hbits (h e he)

omit [DecidableEq Addr] in
/-- The addresses of the write set after an update: there is a new one only if none was found. -/
theorem addr_of_update {found : Option ℕ} {tx : StmTx Addr Lock w}
    {f : StmTx Addr Lock w → StmTx Addr Lock w}
    (hf : wbctlUpdate cfg found l addr value mask tx = some f) {e : WEntry Addr Lock w}
    (he : e ∈ (f tx).wSet.entries) :
    (∃ d ∈ tx.wSet.entries, d.addr = e.addr) ∨ found = none ∧ e.addr = addr := by
  cases found with
  | some i =>
    cases hf
    obtain ⟨_, d, hd, ⟨-, rfl⟩ | ⟨-, rfl⟩⟩ := mem_modify he
    · exact .inl ⟨_, List.mem_of_getElem? hd, rfl⟩
    · exact .inl ⟨_, List.mem_of_getElem? hd, rfl⟩
  | none =>
    rw [wbctlUpdate] at hf
    split at hf
    · cases hf
    · cases hf
      rcases List.mem_append.1 he with he | he
      · exact .inl ⟨e, he, rfl⟩
      · exact .inr ⟨rfl, List.mem_singleton.1 he ▸ rfl⟩

/-- A store keeps the bits of the addresses and adds those of a new one. -/
theorem Covers.write (h : t.Covers word)
    (hw : t.stmWbctlWrite word cfg l addr value mask = some t') : t'.Covers word := by
  obtain ⟨f, hf, rfl⟩ := Option.map_eq_some_iff.1 hw
  intro e he
  dsimp only
  rcases addr_of_update hf he with ⟨d, hd, hde⟩ | ⟨hnone, rfl⟩
  · have hbits := hde ▸ h d hd
    split
    · exact hbits
    · exact hbits.or_left
  · rw [if_neg (by rw [hnone]; exact Bool.false_ne_true)]
    exact HasBits.or_right

/-- Since `int_stm_prepare` the filter has the bits of all addresses in the write set. -/
theorem Since.covers (h : Since word cfg t) : t.Covers word := by
  induction h with
  | prepare t => nofun
  | write _ hw ih => exact ih.write hw
  | other _ he ih => exact fun e hmem => ih e (he ▸ hmem)

/-- So `stm_wbctl_write` does what it does without the filter. -/
theorem Since.stmWbctlWrite (h : Since word cfg t) :
    (t.stmWbctlWrite word cfg l addr value mask).map tx =
      (wbctlUpdate cfg (TinyStm.stmHasWritten t.tx addr) l addr value mask t.tx).map (· t.tx) := by
  rw [FilteredTx.stmWbctlWrite, h.covers.stmHasWritten, Option.map_map]
  rfl

/-- With the filter, `stm_has_written` finds the entries that it finds without it. -/
theorem has_written_filtered (h : Since word cfg t) (addr : Addr) :
    t.stmHasWritten word addr = TinyStm.stmHasWritten t.tx addr :=
  h.covers.stmHasWritten addr

/-- Two stores after `int_stm_prepare`, with the version 0 in the lock. The bit of the first address is
bit 31, which the conversion to `stm_word_t` repeats. -/
def signStores : Option (FilteredTx (BitVec 64) (BitVec 64) 64) := do
  let t ← (prepare ⟨.init 4, 1#64⟩).stmWbctlWrite id (.plain .writeBackCtl id) 0 112#64 7#64 (.allOnes 64)
  t.stmWbctlWrite id (.plain .writeBackCtl id) 0 8#64 5#64 0xF#64

theorem since_signStores {t : FilteredTx (BitVec 64) (BitVec 64) 64} (h : signStores = some t) :
    Since id (.plain .writeBackCtl id) t := by
  rw [signStores, Option.bind_eq_bind, Option.bind_eq_some_iff] at h
  obtain ⟨_, hfirst, hsecond⟩ := h
  exact .write (.write (.prepare _) hfirst) hsecond

theorem has_written_filtered_sign : ∃ t, signStores = some t ∧ t.bloom = 0xFFFFFFFF80000004#64 ∧
    t.stmHasWritten id 8#64 = some 1 ∧
    t.stmHasWritten id 8#64 = TinyStm.stmHasWritten t.tx 8#64 :=
  ⟨_, rfl, by decide, by decide, has_written_filtered (since_signStores rfl) 8#64⟩

end FilteredTx

end TinyStm
