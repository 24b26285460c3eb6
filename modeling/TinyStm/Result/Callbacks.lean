import Mathlib.Data.List.TakeWhile
import TinyStm.Modules.Memory

/-!
# Callbacks run once

An attempt runs the entries that it has registered for its outcome once, in the reverse order, and
disposes of the blocks that it has allocated or freed. The arrays of entries grow by doubling a 16-bit
size, which is exact up to 32768 entries in one attempt and no further. And a call of `stm_free2` one of
whose stores aborts a transaction that is not retried registers its block nevertheless, so that the
commit of another transaction disposes of it.

The lists of entries of `CbArray.Holds` are what the two arrays stand for; a call appends one entry to one
of them, and an induction on the calls of an attempt gives what the attempt leaves.
-/

namespace TinyStm

/-- What a transaction calls. The allocator has chosen `addr` for a new block; of the stores of `free2`
those abort the transaction for which `aborts` says so. -/
inductive CbCall (F : Type) (z : WordSize)
  | onCommit (f : F) (arg : Word z)
  | onAbort (f : F) (arg : Word z)
  | malloc (size addr : Word z)
  | calloc (nm size addr : Word z)
  | free2 (addr idx size : Word z) (aborts : ℕ → Bool)

/-- How an attempt ends that none of its calls has aborted: it commits, or it aborts, or, if it is not
retried, its commit fails and goes on. -/
inductive CbOutcome
  | commit
  | abort
  | failedCommit

/-- An attempt: its calls, whether it is retried, its outcome, and the clock when it ends. -/
structure CbAttempt (F : Type) (z : WordSize) where
  calls : List (CbCall F z)
  noRetry : Bool
  outcome : CbOutcome
  clock : ℕ

variable {F : Type} (cfg : CbConfig)

/-- A call that registers an entry and leaves the attempt under way. -/
def registered {z : WordSize} (f : Except CbFault (ModCbInfo F z)) :
    Except CbFault (CbResult F z) := do
  let icb ← f
  pure ⟨[], icb, .active⟩

/-- A call. -/
def CbCall.exec (noRetry : Bool) (clock : ℕ) (icb : ModCbInfo F cfg.word) :
    CbCall F cfg.word → Except CbFault (CbResult F cfg.word)
  | .onCommit f arg => registered (stmOnCommit cfg f arg icb)
  | .onAbort f arg => registered (stmOnAbort cfg f arg icb)
  | .malloc size addr => registered (intStmMalloc cfg size addr icb)
  | .calloc nm size addr => registered (intStmCalloc cfg nm size addr icb)
  | .free2 addr idx size aborts => intStmFree2 cfg ⟨noRetry, aborts, clock⟩ addr idx size icb

/-- The calls of an attempt, up to the one that aborts it. -/
def cbCalls (noRetry : Bool) (clock : ℕ) : List (CbCall F cfg.word) → ModCbInfo F cfg.word →
    Except CbFault (CbResult F cfg.word)
  | [], icb => .ok ⟨[], icb, .active⟩
  | k :: ks, icb => do
    let r ← k.exec cfg noRetry clock icb
    if r.point = .active then do
      let r' ← cbCalls noRetry clock ks r.icb
      pure { r' with events := r.events ++ r'.events }
    else pure r

/-- The attempt commits unless it has aborted before. -/
def CbOutcome.commits : CbOutcome → Bool
  | .commit => true
  | .abort | .failedCommit => false

/-- The callbacks at the end of an attempt. -/
def CbOutcome.exec (clock : ℕ) (icb : ModCbInfo F cfg.word) :
    CbOutcome → List (CbEvent F cfg.word) × ModCbInfo F cfg.word
  | .commit => modCbOnCommit cfg clock icb
  | .abort => modCbOnAbort cfg clock icb
  | .failedCommit =>
    let (events, icb) := modCbOnAbort cfg clock icb
    let (events', icb) := modCbOnCommit cfg clock icb
    (events ++ events', icb)

/-- An attempt: what its callbacks do. -/
def CbAttempt.exec (a : CbAttempt F cfg.word) (icb : ModCbInfo F cfg.word) :
    Except CbFault (List (CbEvent F cfg.word) × ModCbInfo F cfg.word) := do
  let r ← cbCalls cfg a.noRetry a.clock a.calls icb
  if r.point = .active then
    let (events, icb) := a.outcome.exec cfg a.clock r.icb
    pure (r.events ++ events, icb)
  else pure (r.events, r.icb)

/-- A store of the call aborts the attempt. -/
def CbCall.aborts {z : WordSize} : CbCall F z → Bool
  | .free2 addr idx size aborts => (List.range (freeStores addr idx size).length).any aborts
  | _ => false

/-- What a call leaves to the commit. -/
def CbCall.commitEntry : CbCall F cfg.word → Option (CbEntry F cfg.word)
  | .onCommit f arg => some ⟨.user f, arg⟩
  | .free2 addr _ _ _ => some ⟨if cfg.epochGc then .epochFree else .free, addr⟩
  | _ => none

/-- What a call leaves to the abort. -/
def CbCall.abortEntry {z : WordSize} : CbCall F z → Option (CbEntry F z)
  | .onAbort f arg => some ⟨.user f, arg⟩
  | .malloc _ addr | .calloc _ _ addr => some ⟨.free, addr⟩
  | _ => none

/-- The calls of an attempt before the one that aborts it. -/
def CbAttempt.before {z : WordSize} (a : CbAttempt F z) : List (CbCall F z) :=
  a.calls.takeWhile fun k => !k.aborts

/-- The attempt commits. -/
def CbAttempt.commits {z : WordSize} (a : CbAttempt F z) : Bool :=
  a.outcome.commits && a.calls.all fun k => !k.aborts

/-- What is registered for the outcome of an attempt. -/
def CbAttempt.entries (a : CbAttempt F cfg.word) : List (CbEntry F cfg.word) :=
  if a.commits then a.before.filterMap (CbCall.commitEntry cfg)
  else a.before.filterMap CbCall.abortEntry

/-- Each attempt runs its entries once, in the reverse order, and leaves both lists empty. -/
def CbExact : List (CbAttempt F cfg.word) → ModCbInfo F cfg.word → Prop
  | [], _ => True
  | a :: as, icb => ∃ icb',
      a.exec cfg icb = .ok ((a.entries cfg).reverse.map (CbEntry.run cfg a.clock), icb') ∧
      icb'.commit.nb = 0 ∧ icb'.abort.nb = 0 ∧ CbExact as icb'

/-- An attempt registers at most 32768 entries of each kind. -/
def CbAttempt.Few (a : CbAttempt F cfg.word) : Prop :=
  (a.before.filterMap (CbCall.commitEntry cfg)).length ≤ 32768 ∧
    (a.before.filterMap CbCall.abortEntry).length ≤ 32768

/-- No store of `stm_free2` aborts an attempt that is not retried. -/
def CbAttempt.Settled {z : WordSize} (a : CbAttempt F z) : Prop :=
  a.noRetry = true → ∀ k ∈ a.calls, k.aborts = false

/-- The array holds some entries, and its size is a power of two that 16 bits can hold. -/
structure CbArray.Holds {z : WordSize} (c : CbArray F z) (es : List (CbEntry F z)) : Prop where
  nb : c.nb.toNat = es.length
  cells : ∀ i (h : i < es.length), c.cells i = es[i]
  pow : ∃ j ≤ 11, c.size.toNat = 16 * 2 ^ j
  allocated : c.allocated = c.size.toNat
  room : c.nb.toNat ≤ c.size.toNat

variable {cfg} {c : CbArray F cfg.word} {es : List (CbEntry F cfg.word)} {e : CbEntry F cfg.word}

/-- A size that is doubled. -/
theorem size_mul_two {size : BitVec 16} {j : ℕ} (hj : j < 11) (h : size.toNat = 16 * 2 ^ j) :
    (size * 2).toNat = 16 * 2 ^ (j + 1) := by
  have hlt : 2 ^ (j + 1) ≤ 2 ^ 11 := Nat.pow_le_pow_right (by omega) hj
  rw [BitVec.toNat_mul, h, Nat.pow_succ] at *
  show 16 * 2 ^ j * 2 % 65536 = _
  omega

/-- There is room for one more entry, after the array has grown if need be. -/
theorem CbArray.Holds.reserve (h : c.Holds es) (hes : es.length < 32768) :
    ∃ c', c.reserve cfg = .ok c' ∧ c'.Holds es ∧ c'.nb.toNat < c'.allocated := by
  obtain ⟨j, hj, hsize⟩ := h.pow
  have hnb := h.nb
  unfold CbArray.reserve
  by_cases hfull : c.nb ≥ c.size
  · have hle : c.size.toNat ≤ c.nb.toNat := hfull
    have hlt : 2 ^ j < 2 ^ 11 := by omega
    have hj' : j < 11 := (Nat.pow_lt_pow_iff_right (by omega)).1 hlt
    have hdouble := size_mul_two hj' hsize
    have hpos : 0 < 2 ^ j := Nat.two_pow_pos _
    have hpos' : 0 < 2 ^ (j + 1) := Nat.two_pow_pos _
    have hle' := h.room
    have hne : ¬ (c.size * 2 = 0 ∧ cfg.reallocNull) := fun h0 => by
      rw [h0.1] at hdouble
      simp at hdouble
    rw [if_pos hfull, CbArray.grow, if_neg hne]
    have hroom : c.nb.toNat < (c.size * 2).toNat := by
      rw [hdouble, Nat.pow_succ]
      omega
    exact ⟨_, rfl, ⟨hnb, h.cells, ⟨j + 1, hj', hdouble⟩, rfl, hroom.le⟩, hroom⟩
  · have hlt : c.nb.toNat < c.size.toNat := not_le.1 hfull
    rw [if_neg hfull]
    exact ⟨c, rfl, h, h.allocated ▸ hlt⟩

/-- An array with fewer than 32768 entries takes one more. -/
theorem CbArray.Holds.add (h : c.Holds es) (hes : es.length < 32768) (e : CbEntry F cfg.word) :
    ∃ c', c.add cfg e = .ok c' ∧ c'.Holds (es ++ [e]) := by
  obtain ⟨c', hc', h, hroom⟩ := h.reserve hes
  have hnb : (c'.nb + 1).toNat = es.length + 1 := by
    rw [BitVec.toNat_add, h.nb]
    show (es.length + 1) % 65536 = _
    omega
  rw [CbArray.add, hc']
  show ∃ c'', c'.put e = .ok c'' ∧ _
  rw [CbArray.put, if_pos hroom]
  refine ⟨_, rfl, ⟨?_, fun i hi => ?_, h.pow, h.allocated, ?_⟩⟩
  · rw [hnb, List.length_append, List.length_singleton]
  · rw [List.length_append, List.length_singleton] at hi
    by_cases hlast : i = es.length
    · subst hlast
      simp [h.nb]
    · have hlt : i < es.length := by omega
      rw [List.getElem_append_left hlt, ← h.cells i hlt]
      exact Function.update_of_ne (by rwa [h.nb]) ..
  · have hnb' := h.nb
    have hallocated := h.allocated
    show (c'.nb + 1).toNat ≤ c'.size.toNat
    omega

/-- An array with 32768 entries does not take one more. -/
theorem CbArray.Holds.add_error (h : c.Holds es) (hes : 32768 ≤ es.length) (e : CbEntry F cfg.word) :
    ∃ f, c.add cfg e = .error f := by
  obtain ⟨j, hj, hsize⟩ := h.pow
  have hnb := h.nb
  have hroom := h.room
  have hpow : 2 ^ j ≤ 2 ^ 11 := Nat.pow_le_pow_right (by omega) hj
  have hfull : c.nb ≥ c.size := show c.size.toNat ≤ c.nb.toNat by omega
  have hzero : c.size * 2 = 0 := by
    apply BitVec.eq_of_toNat_eq
    rw [BitVec.toNat_mul]
    show c.size.toNat * 2 % 65536 = 0
    omega
  rw [CbArray.add, CbArray.reserve, if_pos hfull, CbArray.grow]
  by_cases hnull : cfg.reallocNull
  · rw [if_pos ⟨hzero, hnull⟩]
    exact ⟨_, rfl⟩
  · rw [if_neg fun h => hnull h.2]
    refine ⟨.outside, ?_⟩
    show CbArray.put _ e = _
    rw [CbArray.put, if_neg]
    rw [hzero]
    exact Nat.not_lt_zero _

/-- The entries are called in the reverse order. -/
theorem CbArray.Holds.runCells (h : c.Holds es) (clock : ℕ) :
    runCells cfg clock c.cells c.nb.toNat = es.reverse.map (CbEntry.run cfg clock) := by
  have hprefix : ∀ n ≤ es.length, TinyStm.runCells cfg clock c.cells n =
      (es.take n).reverse.map (CbEntry.run cfg clock) := by
    intro n hn
    induction n with
    | zero => rfl
    | succ n ih =>
      have hlt : n < es.length := by omega
      rw [TinyStm.runCells, ih (by omega), h.cells n hlt, List.take_succ_eq_append_getElem hlt,
        List.reverse_append]
      rfl
  rw [h.nb, hprefix es.length le_rfl, List.take_length]

/-- The array is emptied. -/
theorem CbArray.Holds.clear (h : c.Holds es) : CbArray.Holds { c with nb := 0 } [] :=
  ⟨rfl, fun _ => nofun, h.pow, h.allocated, Nat.zero_le _⟩

/-- The arrays hold the entries for an abort and for a commit. -/
structure ModCbInfo.Holds {z : WordSize} (icb : ModCbInfo F z) (as cs : List (CbEntry F z)) :
    Prop where
  abort : icb.abort.Holds as
  commit : icb.commit.Holds cs

variable {icb : ModCbInfo F cfg.word} {as cs : List (CbEntry F cfg.word)}

theorem ModCbInfo.Holds.addOnAbort (h : icb.Holds as cs) (has : as.length < 32768)
    (e : CbEntry F cfg.word) :
    ∃ icb', modCbAddOnAbort cfg e icb = .ok icb' ∧ icb'.Holds (as ++ [e]) cs := by
  obtain ⟨c, hc, hholds⟩ := h.abort.add has e
  exact ⟨{ icb with abort := c }, by rw [modCbAddOnAbort, hc]; rfl, hholds, h.commit⟩

theorem ModCbInfo.Holds.addOnCommit (h : icb.Holds as cs) (hcs : cs.length < 32768)
    (e : CbEntry F cfg.word) :
    ∃ icb', modCbAddOnCommit cfg e icb = .ok icb' ∧ icb'.Holds as (cs ++ [e]) := by
  obtain ⟨c, hc, hholds⟩ := h.commit.add hcs e
  exact ⟨{ icb with commit := c }, by rw [modCbAddOnCommit, hc]; rfl, h.abort, hholds⟩

theorem ModCbInfo.Holds.addOnAbort_error (h : icb.Holds as cs) (has : 32768 ≤ as.length)
    (e : CbEntry F cfg.word) : ∃ f, modCbAddOnAbort cfg e icb = .error f := by
  obtain ⟨f, hf⟩ := h.abort.add_error has e
  exact ⟨f, by rw [modCbAddOnAbort, hf]; rfl⟩

theorem ModCbInfo.Holds.addOnCommit_error (h : icb.Holds as cs) (hcs : 32768 ≤ cs.length)
    (e : CbEntry F cfg.word) : ∃ f, modCbAddOnCommit cfg e icb = .error f := by
  obtain ⟨f, hf⟩ := h.commit.add_error hcs e
  exact ⟨f, by rw [modCbAddOnCommit, hf]; rfl⟩

/-! ## The stores of a call -/

/-- An abort runs the entries for it and empties both lists. -/
theorem ModCbInfo.Holds.onAbort (h : icb.Holds as cs) (clock : ℕ) :
    (modCbOnAbort cfg clock icb).1 = as.reverse.map (CbEntry.run cfg clock) ∧
      (modCbOnAbort cfg clock icb).2.Holds [] [] :=
  ⟨h.abort.runCells clock, h.abort.clear, h.commit.clear⟩

/-- A commit runs the entries for it and empties both lists. -/
theorem ModCbInfo.Holds.onCommit (h : icb.Holds as cs) (clock : ℕ) :
    (modCbOnCommit cfg clock icb).1 = cs.reverse.map (CbEntry.run cfg clock) ∧
      (modCbOnCommit cfg clock icb).2.Holds [] [] :=
  ⟨h.commit.runCells clock, h.abort.clear, h.commit.clear⟩

/-- The requests to the transaction do not matter for the lists. -/
theorem ModCbInfo.Holds.stores (h : icb.Holds as cs) (xs : List (Word cfg.word)) :
    ModCbInfo.Holds { icb with stores := xs } as cs :=
  ⟨h.abort, h.commit⟩

variable {tx : CbStores} {r : CbResult F cfg.word} {xs : List (Word cfg.word)} {i : ℕ}

/-- Stores none of which aborts the transaction. -/
theorem storeZeros_of_quiet (hr : r.point ≠ .restarted)
    (hquiet : ∀ j < xs.length, tx.aborts (i + j) = false) :
    storeZeros cfg tx xs i r = { r with icb := { r.icb with stores := r.icb.stores ++ xs } } := by
  induction xs generalizing i r with
  | nil => simp [storeZeros]
  | cons x xs ih =>
    have hx : tx.aborts i = false := hquiet 0 (Nat.succ_pos _)
    have hstore : stmStore2 cfg tx i x r =
        { r with icb := { r.icb with stores := r.icb.stores ++ [x] } } := by
      simp [stmStore2, hx]
    have hrest : ∀ j < xs.length, tx.aborts (i + 1 + j) = false := fun j hj => by
      have := hquiet (j + 1) (Nat.succ_lt_succ hj)
      rwa [Nat.add_assoc, Nat.add_comm 1]
    have hnext := ih (r := { r with icb := { r.icb with stores := r.icb.stores ++ [x] } }) hr hrest
    rw [storeZeros, hstore, if_neg hr, hnext]
    simp

/-- Stores of a transaction that has aborted and is not retried: nothing is left to run. -/
theorem storeZeros_of_aborted (hretry : tx.noRetry = true) (hr : r.point = .aborted)
    (h : r.icb.Holds [] []) :
    (storeZeros cfg tx xs i r).events = r.events ∧ (storeZeros cfg tx xs i r).point = .aborted ∧
      (storeZeros cfg tx xs i r).icb.Holds [] [] := by
  induction xs generalizing i r with
  | nil => exact ⟨rfl, hr, h⟩
  | cons x xs ih =>
    obtain ⟨hevents, hholds⟩ := (h.stores (r.icb.stores ++ [x])).onAbort tx.clock
    have hstore : (stmStore2 cfg tx i x r).events = r.events ∧
        (stmStore2 cfg tx i x r).point = .aborted ∧ (stmStore2 cfg tx i x r).icb.Holds [] [] := by
      cases hx : tx.aborts i with
      | true => simpa [stmStore2, hx, hretry, hevents] using hholds
      | false => simpa [stmStore2, hx, hr] using h.stores (r.icb.stores ++ [x])
    obtain ⟨hsame, hpoint, hholds'⟩ := hstore
    rw [storeZeros, if_neg (by simp [hpoint]), ← hsame]
    exact ih hpoint hholds'

variable (tx i r) in
/-- Stores of which one aborts the transaction. Its callbacks are run once. -/
theorem storeZeros_of_aborts (hr : r.point = .active) (h : r.icb.Holds as cs)
    (habort : ∃ j < xs.length, tx.aborts (i + j) = true) :
    (storeZeros cfg tx xs i r).events = r.events ++ as.reverse.map (CbEntry.run cfg tx.clock) ∧
      (storeZeros cfg tx xs i r).point = (if tx.noRetry then .aborted else .restarted) ∧
      (storeZeros cfg tx xs i r).icb.Holds [] [] := by
  induction xs generalizing i r with
  | nil =>
    obtain ⟨j, hj, -⟩ := habort
    exact absurd hj (Nat.not_lt_zero j)
  | cons x xs ih =>
    obtain ⟨hevents, hholds⟩ := (h.stores (r.icb.stores ++ [x])).onAbort tx.clock
    cases hx : tx.aborts i with
    | true =>
      cases hretry : tx.noRetry with
      | true =>
        have hpoint : (stmStore2 cfg tx i x r).point = .aborted := by simp [stmStore2, hx, hretry]
        have hsame : (stmStore2 cfg tx i x r).events =
            r.events ++ as.reverse.map (CbEntry.run cfg tx.clock) := by
          simp [stmStore2, hx, hevents]
        rw [storeZeros, if_neg (by simp [hpoint]), ← hsame]
        exact storeZeros_of_aborted hretry hpoint (by simpa [stmStore2, hx] using hholds)
      | false =>
        have hpoint : (stmStore2 cfg tx i x r).point = .restarted := by simp [stmStore2, hx, hretry]
        rw [storeZeros, if_pos hpoint]
        exact ⟨by simp [stmStore2, hx, hevents], hpoint, by simpa [stmStore2, hx] using hholds⟩
    | false =>
      have hstore : stmStore2 cfg tx i x r =
          { r with icb := { r.icb with stores := r.icb.stores ++ [x] } } := by
        simp [stmStore2, hx]
      obtain ⟨j, hj, habort⟩ := habort
      cases j with
      | zero => exact absurd (hx.symm.trans habort) (by decide)
      | succ j =>
        rw [storeZeros, hstore, if_neg (by simp [hr])]
        refine ih _ _ hr (h.stores _) ⟨j, Nat.lt_of_succ_lt_succ hj, ?_⟩
        rwa [Nat.add_assoc, Nat.add_comm 1]

/-! ## Calls -/

variable {noRetry : Bool} {clock : ℕ}

/-- What a call does that does not abort the attempt: it registers one entry, for an abort or for a
commit. -/
theorem CbCall.exec_cases (k : CbCall F cfg.word) (h : icb.Holds as cs) (hk : k.aborts = false) :
    ∃ icb' : ModCbInfo F cfg.word, icb'.Holds as cs ∧
      ((∃ e, k.abortEntry = some e ∧ k.commitEntry cfg = none ∧
          k.exec cfg noRetry clock icb = registered (modCbAddOnAbort cfg e icb')) ∨
        ∃ e, k.abortEntry = none ∧ k.commitEntry cfg = some e ∧
          k.exec cfg noRetry clock icb = registered (modCbAddOnCommit cfg e icb')) := by
  cases k with
  | onCommit f arg => exact ⟨icb, h, .inr ⟨_, rfl, rfl, rfl⟩⟩
  | onAbort f arg => exact ⟨icb, h, .inl ⟨_, rfl, rfl, rfl⟩⟩
  | malloc size addr =>
    exact ⟨{ icb with mallocs := (roundUp size, addr) :: icb.mallocs }, ⟨h.abort, h.commit⟩,
      .inl ⟨_, rfl, rfl, rfl⟩⟩
  | calloc nm size addr =>
    exact ⟨{ icb with callocs := (nm, roundUp size, addr) :: icb.callocs }, ⟨h.abort, h.commit⟩,
      .inl ⟨_, rfl, rfl, rfl⟩⟩
  | free2 addr idx size aborts =>
    refine ⟨{ icb with stores := icb.stores ++ freeStores addr idx size }, h.stores _,
      .inr ⟨_, rfl, rfl, ?_⟩⟩
    have hquiet : ∀ j < (freeStores addr idx size).length, aborts (0 + j) = false := by
      simpa [CbCall.aborts] using hk
    rw [CbCall.exec, intStmFree2, storeZeros_of_quiet (by simp) hquiet]
    rfl

variable (noRetry clock) in
/-- What a call does that aborts the attempt: it runs the entries for an abort. If the attempt is not
retried, the call comes back with an entry for the next commit. -/
theorem CbCall.exec_aborts {k : CbCall F cfg.word} (h : icb.Holds as cs) (hk : k.aborts = true) :
    ∃ r, k.exec cfg noRetry clock icb = .ok r ∧ r.point ≠ .active ∧
      (noRetry = false → r.events = as.reverse.map (CbEntry.run cfg clock) ∧ r.icb.Holds [] []) ∧
      (noRetry = true → r.icb.commit.nb ≠ 0) := by
  cases k with
  | onCommit | onAbort | malloc | calloc => cases hk
  | free2 addr idx size aborts =>
    have habort : ∃ j < (freeStores addr idx size).length, aborts (0 + j) = true := by
      simpa [CbCall.aborts] using hk
    obtain ⟨hevents, hpoint, hholds⟩ := storeZeros_of_aborts ⟨noRetry, aborts, clock⟩
      ⟨[], icb, .active⟩ 0 rfl h habort
    rw [CbCall.exec, intStmFree2]
    generalize storeZeros cfg _ _ 0 _ = r at hevents hpoint hholds ⊢
    cases noRetry with
    | false =>
      refine ⟨r, if_pos hpoint, ?_, fun _ => ⟨hevents, hholds⟩, by simp⟩
      rw [hpoint]
      simp
    | true =>
      have hpoint : r.point = .aborted := hpoint
      obtain ⟨icb', hadd, hholds'⟩ := hholds.addOnCommit (by simp)
        ⟨if cfg.epochGc then .epochFree else .free, addr⟩
      refine ⟨{ r with icb := icb' }, ?_, by simp [hpoint], by simp, fun _ hnb => ?_⟩
      · simp only [hpoint, reduceCtorEq, if_false, hadd]
        rfl
      · have hlen := hholds'.commit.nb
        rw [hnb] at hlen
        cases hlen

variable (noRetry clock) in
/-- The calls of an attempt up to the first one that aborts it register their entries, if and only if
there are not too many of a kind. -/
theorem cbCalls_cases (qs ks : List (CbCall F cfg.word)) (hqs : ∀ k ∈ qs, k.aborts = false)
    (h : icb.Holds as cs) (has : as.length ≤ 32768) (hcs : cs.length ≤ 32768) :
    (∃ icb', cbCalls cfg noRetry clock (qs ++ ks) icb = cbCalls cfg noRetry clock ks icb' ∧
        icb'.Holds (as ++ qs.filterMap CbCall.abortEntry)
          (cs ++ qs.filterMap (CbCall.commitEntry cfg)) ∧
        (as ++ qs.filterMap CbCall.abortEntry).length ≤ 32768 ∧
        (cs ++ qs.filterMap (CbCall.commitEntry cfg)).length ≤ 32768) ∨
      (∃ f, cbCalls cfg noRetry clock (qs ++ ks) icb = .error f) ∧
        ¬ ((as ++ qs.filterMap CbCall.abortEntry).length ≤ 32768 ∧
          (cs ++ qs.filterMap (CbCall.commitEntry cfg)).length ≤ 32768) := by
  induction qs generalizing icb as cs with
  | nil => exact .inl ⟨icb, rfl, by simpa using h, by simpa using has, by simpa using hcs⟩
  | cons k qs ih =>
    have hqs' : ∀ k ∈ qs, k.aborts = false := fun k hk => hqs k (List.mem_cons_of_mem _ hk)
    -- a call that has registered its entry leaves the rest to do
    have hnext (icb₂ : ModCbInfo F cfg.word) {f} (hf : f = Except.ok icb₂)
        (hexec : k.exec cfg noRetry clock icb = registered f) :
        cbCalls cfg noRetry clock (k :: qs ++ ks) icb =
          cbCalls cfg noRetry clock (qs ++ ks) icb₂ := by
      rw [List.cons_append, cbCalls, hexec, hf]
      change (cbCalls cfg noRetry clock (qs ++ ks) icb₂ >>= fun r' => pure { r' with
        events := [] ++ r'.events }) = _
      simp
    obtain ⟨icb₁, h₁, ⟨e, habort, hcommit, hexec⟩ | ⟨e, habort, hcommit, hexec⟩⟩ :=
      k.exec_cases h (hqs k List.mem_cons_self)
    · simp only [List.filterMap_cons, habort, hcommit]
      rw [List.append_cons as]
      by_cases hlt : as.length < 32768
      · obtain ⟨icb₂, hadd, h₂⟩ := h₁.addOnAbort hlt e
        rw [hnext icb₂ hadd hexec]
        exact ih hqs' h₂ (by rw [List.length_append]; exact hlt) hcs
      · obtain ⟨f, hf⟩ := h₁.addOnAbort_error (not_lt.1 hlt) e
        refine .inr ⟨⟨f, by rw [List.cons_append, cbCalls, hexec, hf]; rfl⟩, fun hlen => ?_⟩
        have hlen := hlen.1
        simp only [List.length_append, List.length_singleton] at hlen
        omega
    · simp only [List.filterMap_cons, habort, hcommit]
      rw [List.append_cons cs]
      by_cases hlt : cs.length < 32768
      · obtain ⟨icb₂, hadd, h₂⟩ := h₁.addOnCommit hlt e
        rw [hnext icb₂ hadd hexec]
        exact ih hqs' h₂ has (by rw [List.length_append]; exact hlt)
      · obtain ⟨f, hf⟩ := h₁.addOnCommit_error (not_lt.1 hlt) e
        refine .inr ⟨⟨f, by rw [List.cons_append, cbCalls, hexec, hf]; rfl⟩, fun hlen => ?_⟩
        have hlen := hlen.2
        simp only [List.length_append, List.length_singleton] at hlen
        omega

/-! ## Attempts -/

/-- The calls before the one that aborts the attempt do not abort it. -/
theorem CbAttempt.before_quiet {z : WordSize} (a : CbAttempt F z) :
    ∀ k ∈ a.before, k.aborts = false := fun k hk => by
  simpa using List.mem_takeWhile_imp hk

/-- The calls of an attempt: none aborts it, or there is a first one that does. -/
theorem CbAttempt.calls_cases {z : WordSize} (a : CbAttempt F z) :
    (a.calls = a.before ∧ a.calls.all fun k => !k.aborts) ∨
      ∃ k ks, a.calls = a.before ++ k :: ks ∧ k.aborts = true := by
  have hsplit : a.before ++ a.calls.dropWhile (fun k => !k.aborts) = a.calls :=
    List.takeWhile_append_dropWhile ..
  cases hrest : a.calls.dropWhile (fun k => !k.aborts) with
  | nil =>
    rw [hrest, List.append_nil] at hsplit
    refine .inl ⟨hsplit.symm, List.all_eq_true.2 fun k hk => ?_⟩
    simpa using a.before_quiet k (hsplit ▸ hk)
  | cons k ks =>
    rw [hrest] at hsplit
    refine .inr ⟨k, ks, hsplit.symm, ?_⟩
    have hne : a.calls.dropWhile (fun k => !k.aborts) ≠ [] := by simp [hrest]
    have hhead := List.head_dropWhile_not (fun k : CbCall F z => !k.aborts) hne
    simpa [hrest] using hhead

/-- The end of an attempt that no call has aborted. -/
theorem CbOutcome.exec_holds (o : CbOutcome) (h : icb.Holds as cs) (clock : ℕ) :
    (o.exec cfg clock icb).1 =
        (if o.commits then cs else as).reverse.map (CbEntry.run cfg clock) ∧
      (o.exec cfg clock icb).2.Holds [] [] := by
  cases o with
  | commit => exact h.onCommit clock
  | abort => exact h.onAbort clock
  | failedCommit =>
    obtain ⟨hevents, hholds⟩ := h.onAbort clock
    obtain ⟨hevents', hholds'⟩ := hholds.onCommit clock
    refine ⟨?_, hholds'⟩
    change (modCbOnAbort cfg clock icb).1 ++
      (modCbOnCommit cfg clock (modCbOnAbort cfg clock icb).2).1 = _
    rw [hevents, hevents']
    simp [CbOutcome.commits]

/-- An attempt that starts with empty lists runs its entries, if and only if there are not too many and
none of its calls aborts it without a retry. -/
theorem CbAttempt.exec_cases (a : CbAttempt F cfg.word) (h : icb.Holds [] []) :
    ((a.Few cfg ∧ a.Settled) ∧ ∃ icb',
        a.exec cfg icb = .ok ((a.entries cfg).reverse.map (CbEntry.run cfg a.clock), icb') ∧
        icb'.Holds [] []) ∨
      ¬ (a.Few cfg ∧ a.Settled) ∧ ∀ es icb', a.exec cfg icb = .ok (es, icb') → icb'.commit.nb ≠ 0 := by
  obtain ⟨ks, hcalls, hks⟩ : ∃ ks, a.calls = a.before ++ ks ∧
      (ks = [] ∧ (a.calls.all fun k => !k.aborts) ∨ ∃ k ks', ks = k :: ks' ∧ k.aborts = true) := by
    obtain ⟨hbefore, hall⟩ | ⟨k, ks, hbefore, hk⟩ := a.calls_cases
    · exact ⟨[], by simpa using hbefore, .inl ⟨rfl, hall⟩⟩
    · exact ⟨k :: ks, hbefore, .inr ⟨k, ks, rfl, hk⟩⟩
  rcases cbCalls_cases a.noRetry a.clock a.before ks a.before_quiet h
    (Nat.zero_le _) (Nat.zero_le _) with ⟨icb', hrun, hholds, has, hcs⟩ | ⟨⟨f, hf⟩, hnot⟩
  · rw [← hcalls] at hrun
    obtain ⟨rfl, hall⟩ | ⟨k, ks, rfl, hk⟩ := hks
    · -- no call aborts the attempt
      have hsettled : a.Settled := fun _ k hk => by simpa using List.all_eq_true.1 hall k hk
      obtain ⟨hevents, hend⟩ := a.outcome.exec_holds hholds a.clock
      refine .inl ⟨⟨⟨hcs, has⟩, hsettled⟩, (a.outcome.exec cfg a.clock icb').2, ?_, hend⟩
      have hexec : a.exec cfg icb = .ok ([] ++ (a.outcome.exec cfg a.clock icb').1,
          (a.outcome.exec cfg a.clock icb').2) := by
        rw [CbAttempt.exec, hrun]
        rfl
      rw [hexec, List.nil_append, hevents, CbAttempt.entries, CbAttempt.commits, hall, Bool.and_true]
      simp only [List.nil_append]
    · obtain ⟨r, hexec, hpoint, hretried, hleft⟩ := CbCall.exec_aborts a.noRetry a.clock hholds hk
      have hrun' : a.exec cfg icb = .ok (r.events, r.icb) := by
        rw [CbAttempt.exec, hrun, cbCalls, hexec]
        change (if r.point = .active then _ else Except.ok r) >>= _ = _
        rw [if_neg hpoint]
        exact if_neg hpoint
      have hmem : k ∈ a.calls := hcalls ▸ List.mem_append_right _ List.mem_cons_self
      cases hretry : a.noRetry with
      | false =>
        obtain ⟨hevents, hend⟩ := hretried hretry
        have hcommits : a.commits = false := by
          have hall : (a.calls.all fun k => !k.aborts) = false :=
            List.all_eq_false.2 ⟨k, hmem, by simp [hk]⟩
          rw [CbAttempt.commits, hall, Bool.and_false]
        refine .inl ⟨⟨⟨hcs, has⟩, fun hr => absurd (hretry.symm.trans hr) (by decide)⟩, r.icb, ?_, hend⟩
        rw [hrun', hevents, CbAttempt.entries, hcommits]
        rfl
      | true =>
        refine .inr ⟨fun hset => ?_, fun es icb'' hok => ?_⟩
        · exact absurd ((hset.2 hretry k hmem).symm.trans hk) (by decide)
        · obtain ⟨-, rfl⟩ := Prod.mk.inj (Except.ok.inj (hrun'.symm.trans hok))
          exact hleft hretry
  · rw [← hcalls] at hf
    refine .inr ⟨fun hfew => hnot ⟨hfew.1.2, hfew.1.1⟩, fun es icb' hok => ?_⟩
    rw [CbAttempt.exec, hf] at hok
    cases hok

/-- The attempts of a thread, from a state with empty lists. -/
theorem cbExact_iff (as : List (CbAttempt F cfg.word)) (h : icb.Holds [] []) :
    CbExact cfg as icb ↔ ∀ a ∈ as, a.Few cfg ∧ a.Settled := by
  induction as generalizing icb with
  | nil => exact iff_of_true trivial nofun
  | cons a as ih =>
    rw [List.forall_mem_cons]
    rcases a.exec_cases h with ⟨hfew, icb', hexec, hholds⟩ | ⟨hnot, hleft⟩
    · constructor
      · rintro ⟨icb'', hexec', -, -, hrest⟩
        obtain rfl : icb' = icb'' := congrArg Prod.snd (Except.ok.inj (hexec.symm.trans hexec'))
        exact ⟨hfew, (ih hholds).1 hrest⟩
      · rintro ⟨-, hrest⟩
        refine ⟨icb', hexec, ?_, ?_, (ih hholds).2 hrest⟩
        · exact BitVec.eq_of_toNat_eq hholds.commit.nb
        · exact BitVec.eq_of_toNat_eq hholds.abort.nb
    · refine iff_of_false ?_ fun h => hnot h.1
      rintro ⟨icb', hexec, hnb, -⟩
      exact hleft _ _ hexec hnb

theorem CbArray.Holds.new (junk : ℕ → CbEntry F cfg.word) :
    (CbArray.new junk : CbArray F cfg.word).Holds [] :=
  ⟨rfl, fun _ => nofun, ⟨0, Nat.zero_le _, rfl⟩, rfl, Nat.zero_le _⟩

/-- A thread runs each callback and disposes of each block exactly once, in the reverse order, if and only
if no attempt registers more than 32768 entries of a kind and no store of `stm_free2` aborts an attempt that
is not retried. -/
theorem callbacks_exact_iff (junk : ℕ → CbEntry F cfg.word) (as : List (CbAttempt F cfg.word)) :
    CbExact cfg as (modCbOnThreadInit junk) ↔ ∀ a ∈ as, a.Few cfg ∧ a.Settled :=
  cbExact_iff as ⟨.new junk, .new junk⟩

/-- A target. -/
def CbConfig.small : CbConfig := ⟨.eight, false, false, true⟩

/-- A transaction that registers `n` abort callbacks and aborts. -/
def manyCallbacks (n : ℕ) : CbAttempt Unit CbConfig.small.word :=
  ⟨List.replicate n (.onAbort () 0), false, .abort, 0⟩

/-- A transaction that is not retried and is aborted by the first store of `stm_free`, which was to free
the block at 64. -/
def givenUpFree : CbAttempt Unit CbConfig.small.word :=
  ⟨[.free2 64 0 8 fun _ => true], true, .abort, 0⟩

/-- The entries of 32769 callbacks do not fit, and a block is freed by a transaction that has not asked for
it. -/
theorem callbacks_not_exact :
    ¬ CbExact .small [manyCallbacks 32769] (modCbOnThreadInit fun _ => ⟨.free, 0⟩) ∧
      ¬ CbExact .small [givenUpFree, ⟨[], false, .commit, 0⟩]
        (modCbOnThreadInit fun _ => ⟨.free, 0⟩) := by
  rw [cbExact_iff _ ⟨.new _, .new _⟩, cbExact_iff _ ⟨.new _, .new _⟩]
  constructor
  · intro h
    have hfew := (h _ (List.mem_singleton_self _)).1.2
    have hquiet : (manyCallbacks 32769).before = (manyCallbacks 32769).calls :=
      List.takeWhile_eq_self_iff.2 fun k hk => by
        rw [List.eq_of_mem_replicate hk]
        rfl
    have hentries : (manyCallbacks 32769).calls.filterMap CbCall.abortEntry =
        List.replicate 32769 ⟨.user (), 0⟩ := List.filterMap_replicate_of_some rfl
    rw [hquiet, hentries, List.length_replicate] at hfew
    omega
  · intro h
    have hset := (h _ List.mem_cons_self).2 rfl _ List.mem_cons_self
    revert hset
    decide

end TinyStm
