import TinyStm.Bytes.Word

/-!
# The flat memory of bytes

A memory of words of `n` bytes at the addresses that are multiples of `n`, seen as a memory of bytes:
what a range of bytes holds (`slice`), a memory with a range of bytes replaced (`overlay`), and what a
store to a word and a masked store do to the bytes.
-/

/-- A memory of bytes. -/
abbrev ByteMem := ℕ → BitVec 8

namespace ByteMem

/-- The memory with the bytes from address `a` on replaced. -/
def overlay (m : ByteMem) (a : ℕ) (bs : List (BitVec 8)) : ByteMem :=
  fun x => if h : a ≤ x ∧ x - a < bs.length then bs[x - a] else m x

/-- The `k` bytes from address `a` on. -/
def slice (m : ByteMem) (a k : ℕ) : List (BitVec 8) := (List.range k).map fun j => m (a + j)

/-- The memory after the `k` bytes from `src` on are copied to `dst`, as if through a buffer. -/
def memmove (m : ByteMem) (dst src k : ℕ) : ByteMem :=
  fun x => if dst ≤ x ∧ x < dst + k then m (src + (x - dst)) else m x

variable {m : ByteMem} {a j k : ℕ} {bs cs : List (BitVec 8)}

@[simp] theorem length_slice : (m.slice a k).length = k := by simp [slice]

@[simp] theorem getElem_slice (h : j < (m.slice a k).length) : (m.slice a k)[j] = m (a + j) := by
  simp [slice]

@[simp] theorem overlay_nil : m.overlay a [] = m := by
  funext x
  simp [overlay]

/-- Two ranges, one after the other. -/
theorem overlay_append : m.overlay a (bs ++ cs) = (m.overlay a bs).overlay (a + bs.length) cs := by
  funext x
  simp only [overlay, List.length_append]
  by_cases h1 : a ≤ x ∧ x - a < bs.length
  · rw [dif_pos (by omega), dif_neg (by omega), dif_pos h1, List.getElem_append_left h1.2]
  · by_cases h2 : a + bs.length ≤ x ∧ x - (a + bs.length) < cs.length
    · rw [dif_pos (by omega), dif_pos h2, List.getElem_append_right (by omega)]
      simp only [Nat.sub_sub]
    · rw [dif_neg (by omega), dif_neg h2, dif_neg h1]

/-- Two ranges, one after the other. -/
theorem slice_add : m.slice a (j + k) = m.slice a j ++ m.slice (a + j) k := by
  simp [slice, List.range_add, Nat.add_assoc]

/-- A copy through a buffer. -/
theorem overlay_slice (dst src : ℕ) : m.overlay dst (m.slice src k) = m.memmove dst src k := by
  funext x
  simp only [overlay, memmove, length_slice, getElem_slice]
  by_cases h : dst ≤ x ∧ x - dst < k
  · rw [dif_pos h, if_pos (by omega)]
  · rw [dif_neg h, if_neg (by omega)]

/-- A range that has been copied to holds what was copied. -/
theorem slice_overlay_slice {m' : ByteMem} {b : ℕ} (h : j ≤ k) :
    (m.overlay a (m'.slice b k)).slice a j = m'.slice b j := by
  refine List.map_congr_left fun i hi => ?_
  have hlt : i < k := (List.mem_range.1 hi).trans_le h
  simp [overlay, hlt]

/-- Another range is not changed. -/
theorem slice_overlay_of_disjoint {b : ℕ} (h : a + bs.length ≤ b ∨ b + k ≤ a) :
    (m.overlay a bs).slice b k = m.slice b k := by
  refine List.map_congr_left fun j hj => ?_
  have hlt : j < k := List.mem_range.1 hj
  exact dif_neg (by omega)

/-- A range is replaced by what it holds. -/
theorem overlay_self (h : m.slice a k = bs) : m.overlay a bs = m := by
  subst h
  funext x
  simp only [overlay, length_slice, getElem_slice]
  split
  · congr 1
    omega
  · rfl

end ByteMem

/-! ## Memories of words -/

namespace ByteOrder

variable {o : ByteOrder} {n a i j : ℕ} {m : Mem ℕ (8 * n)}

/-- The bytes of a memory of words. -/
def flat (o : ByteOrder) (m : Mem ℕ (8 * n)) : ByteMem := fun x => o.byte (x % n) (m (x / n * n))

/-- A byte of an aligned word. -/
theorem flat_word (ha : n ∣ a) (hj : j < n) : o.flat m (a + j) = o.byte j (m a) := by
  obtain ⟨q, rfl⟩ := ha
  have hn : 0 < n := by omega
  simp only [flat]
  rw [Nat.mul_add_mod, Nat.mod_eq_of_lt hj, Nat.mul_add_div hn, Nat.div_eq_of_lt hj, Nat.add_zero,
    Nat.mul_comm q]

/-- Some bytes of an aligned word. -/
theorem slice_word (ha : n ∣ a) {k : ℕ} (hk : i + k ≤ n) :
    (o.flat m).slice (a + i) k = (List.range k).map fun j => o.byte (i + j) (m a) := by
  refine List.map_congr_left fun j hj => ?_
  have hj := List.mem_range.1 hj
  rw [Nat.add_assoc, flat_word ha (by omega)]

/-- A store to an aligned word that replaces the bytes from `i` on. -/
theorem flat_update (ha : n ∣ a) (hn : 0 < n) {b : List (BitVec 8)} (hi : i + b.length ≤ n)
    {x : BitVec (8 * n)} (hx : ∀ j, j < n → o.byte j x =
      if h : i ≤ j ∧ j - i < b.length then b[j - i] else o.byte j (m a)) :
    o.flat (Function.update m a x) = (o.flat m).overlay (a + i) b := by
  funext y
  simp only [ByteMem.overlay]
  by_cases hy : y / n * n = a
  · have hy' : y = a + y % n := by
      have := Nat.div_add_mod y n
      rw [Nat.mul_comm] at this
      omega
    have hlt : y % n < n := Nat.mod_lt y hn
    simp only [flat, hy, Function.update_self, hx _ hlt]
    by_cases h : i ≤ y % n ∧ y % n - i < b.length
    · rw [dif_pos h, dif_pos (by omega)]
      congr 1
      omega
    · rw [dif_neg h, dif_neg (by omega)]
  · have hout : ¬ (a + i ≤ y ∧ y - (a + i) < b.length) := by
      rintro ⟨h1, h2⟩
      obtain ⟨q, rfl⟩ := ha
      obtain ⟨r, rfl⟩ : ∃ r, y = n * q + r := ⟨y - n * q, by omega⟩
      rw [Nat.mul_add_div hn, Nat.div_eq_of_lt (by omega), Nat.add_zero, Nat.mul_comm] at hy
      exact hy rfl
    rw [dif_neg hout]
    simp only [flat, Function.update_of_ne hy]

/-- A store to an aligned word. -/
theorem flat_store (ha : n ∣ a) (hn : 0 < n) (x : BitVec (8 * n)) :
    o.flat (Function.update m a x) = (o.flat m).overlay a (o.bytesOf x) := by
  have := flat_update (o := o) (m := m) (i := 0) (b := o.bytesOf x) (x := x) ha hn (by simp)
    fun j hj => by simp [hj]
  simpa using this

/-- A masked store to an aligned word that replaces the bytes from `i` on. -/
theorem flat_store2 (ha : n ∣ a) (hn : 0 < n) {b : List (BitVec 8)} (hi : i + b.length ≤ n)
    {v k : BitVec (8 * n)}
    (hk : ∀ j, j < n → o.byte j k = if i ≤ j ∧ j - i < b.length then BitVec.allOnes 8 else 0#8)
    (hv : ∀ j (h : j < b.length), o.byte (i + j) v = b[j]) :
    o.flat (Function.update m a (BitVec.merge (m a) v k)) = (o.flat m).overlay (a + i) b := by
  refine flat_update ha hn hi fun j hj => ?_
  rw [byte_merge, hk j hj]
  by_cases h : i ≤ j ∧ j - i < b.length
  · rw [if_pos h, dif_pos h, BitVec.merge_allOnes, ← hv (j - i) h.2]
    congr 1
    omega
  · rw [if_neg h, dif_neg h, BitVec.merge_zero]

end ByteOrder
