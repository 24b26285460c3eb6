import TinyStm.History.Trace

/-!
# The bytes of a word

A word of `n` bytes as the bytes that its memory representation has in one of the two byte orders, and
the pieces of several bytes that a C union reads and writes.
-/

/-- The byte orders of a word. -/
inductive ByteOrder
  | little
  | big
  deriving DecidableEq

namespace ByteOrder

/-- The lowest bit of the `b` bytes at offset `i` of a word of `n` bytes. -/
def shift (o : ByteOrder) (n b i : ℕ) : ℕ :=
  match o with
  | .little => 8 * i
  | .big => 8 * (n - b - i)

variable {n b : ℕ}

/-- The `b` bytes at offset `i` of a word. -/
def getBytes (o : ByteOrder) (b i : ℕ) (x : BitVec (8 * n)) : BitVec (8 * b) :=
  x.extractLsb' (o.shift n b i) (8 * b)

/-- The word with the `b` bytes at offset `i` replaced. -/
def setBytes (o : ByteOrder) (i : ℕ) (v : BitVec (8 * b)) (x : BitVec (8 * n)) : BitVec (8 * n) :=
  BitVec.merge x (v.setWidth (8 * n) <<< o.shift n b i)
    ((BitVec.allOnes (8 * b)).setWidth (8 * n) <<< o.shift n b i)

/-- The byte at offset `i` of a word. -/
def byte (o : ByteOrder) (i : ℕ) (x : BitVec (8 * n)) : BitVec 8 := o.getBytes 1 i x

variable {o : ByteOrder} {i j : ℕ}

theorem getLsbD_getBytes (x : BitVec (8 * n)) (k : ℕ) : (o.getBytes b i x).getLsbD k =
    (decide (k < 8 * b) && x.getLsbD (o.shift n b i + k)) := by
  simp [getBytes]

theorem getLsbD_byte (x : BitVec (8 * n)) (k : ℕ) : (o.byte i x).getLsbD k =
    (decide (k < 8) && x.getLsbD (o.shift n 1 i + k)) := by
  simp [byte, getLsbD_getBytes]

/-- The bits of a word with some bytes replaced. -/
theorem getLsbD_setBytes (h : i + b ≤ n) (v : BitVec (8 * b)) (x : BitVec (8 * n)) (k : ℕ) :
    (o.setBytes i v x).getLsbD k =
      if o.shift n b i ≤ k ∧ k < o.shift n b i + 8 * b then v.getLsbD (k - o.shift n b i)
      else x.getLsbD k := by
  have hs : o.shift n b i + 8 * b ≤ 8 * n := by
    cases o <;> simp only [shift] <;> omega
  rw [setBytes, BitVec.getLsbD_merge]
  simp only [BitVec.getLsbD_shiftLeft, BitVec.getLsbD_setWidth, BitVec.getLsbD_allOnes]
  by_cases hk : o.shift n b i ≤ k ∧ k < o.shift n b i + 8 * b
  · have h1 : k < 8 * n := by omega
    have h2 : ¬ k < o.shift n b i := by omega
    have h3 : k - o.shift n b i < 8 * n := by omega
    have h4 : k - o.shift n b i < 8 * b := by omega
    simp [h1, h2, h3, h4, hk]
  · rw [if_neg hk, if_neg]
    simp only [Bool.and_eq_true, Bool.not_eq_true', decide_eq_true_eq, decide_eq_false_iff_not]
    omega

/-- The bytes of the bytes at an offset. -/
theorem byte_getBytes (h : i + b ≤ n) (hj : j < b) (x : BitVec (8 * n)) :
    o.byte j (o.getBytes b i x) = o.byte (i + j) x := by
  apply BitVec.eq_of_getLsbD_eq
  intro k hk
  have hs : o.shift n b i + o.shift b 1 j = o.shift n 1 (i + j) := by
    cases o <;> simp only [shift] <;> omega
  have hb : o.shift b 1 j + k < 8 * b := by
    cases o <;> simp only [shift] <;> omega
  rw [getLsbD_byte, getLsbD_byte, getLsbD_getBytes, ← Nat.add_assoc, hs]
  simp [hb]

/-- The bytes of a word with some bytes replaced. -/
theorem byte_setBytes (h : i + b ≤ n) (hj : j < n) (v : BitVec (8 * b)) (x : BitVec (8 * n)) :
    o.byte j (o.setBytes i v x) =
      if i ≤ j ∧ j < i + b then o.byte (j - i) v else o.byte j x := by
  apply BitVec.eq_of_getLsbD_eq
  intro k hk
  rw [getLsbD_byte, getLsbD_setBytes h]
  by_cases hij : i ≤ j ∧ j < i + b
  · have hin : o.shift n b i ≤ o.shift n 1 j + k ∧ o.shift n 1 j + k < o.shift n b i + 8 * b := by
      cases o <;> simp only [shift] <;> omega
    have hs : o.shift n 1 j + k - o.shift n b i = o.shift b 1 (j - i) + k := by
      cases o <;> simp only [shift] at hin ⊢ <;> omega
    rw [if_pos hin, if_pos hij, getLsbD_byte, hs]
  · have hin : ¬ (o.shift n b i ≤ o.shift n 1 j + k ∧
        o.shift n 1 j + k < o.shift n b i + 8 * b) := by
      cases o <;> simp only [shift] <;> omega
    rw [if_neg hin, if_neg hij, getLsbD_byte]

/-- A masked store stores under the bytes of the mask. -/
theorem byte_merge (x v k : BitVec (8 * n)) :
    o.byte j (BitVec.merge x v k) = BitVec.merge (o.byte j x) (o.byte j v) (o.byte j k) := by
  apply BitVec.eq_of_getLsbD_eq
  intro m hm
  simp only [getLsbD_byte, BitVec.getLsbD_merge, hm, decide_true, Bool.true_and]

@[simp] theorem byte_zero : o.byte j (0#(8 * n)) = 0#8 := by
  apply BitVec.eq_of_getLsbD_eq
  simp [getLsbD_byte]

theorem byte_allOnes (hj : j < n) : o.byte j (BitVec.allOnes (8 * n)) = BitVec.allOnes 8 := by
  apply BitVec.eq_of_getLsbD_eq
  intro k hk
  have : o.shift n 1 j + k < 8 * n := by
    cases o <;> simp only [shift] <;> omega
  rw [getLsbD_byte, BitVec.getLsbD_allOnes, BitVec.getLsbD_allOnes]
  simp [hk, this]

/-- The word with the byte at offset `i` replaced. -/
def setByte (o : ByteOrder) (i : ℕ) (v : BitVec 8) (x : BitVec (8 * n)) : BitVec (8 * n) :=
  o.setBytes (b := 1) i v x

/-- A word of one byte. -/
theorem byte_self (v : BitVec 8) : o.byte (n := 1) 0 v = v := by
  apply BitVec.eq_of_getLsbD_eq
  intro k hk
  have : o.shift 1 1 0 = 0 := by cases o <;> rfl
  rw [getLsbD_byte, this]
  simp [hk]

theorem byte_setByte (h : i < n) (hj : j < n) (v : BitVec 8) (x : BitVec (8 * n)) :
    o.byte j (o.setByte i v x) = if j = i then v else o.byte j x := by
  rw [setByte, byte_setBytes (by omega) hj]
  by_cases hji : j = i
  · subst hji
    simp [byte_self]
  · rw [if_neg (by omega), if_neg hji]

/-! ## Words and lists of bytes -/

/-- The bytes of a word, in the order of their addresses. -/
def bytesOf (o : ByteOrder) (x : BitVec (8 * n)) : List (BitVec 8) :=
  (List.range n).map fun i => o.byte i x

/-- The word with the given bytes. -/
def ofBytes (o : ByteOrder) (n : ℕ) (bs : List (BitVec 8)) : BitVec (8 * n) :=
  (List.range n).foldl (fun x i => o.setByte i (bs.getD i 0#8) x) 0#(8 * n)

@[simp] theorem length_bytesOf (x : BitVec (8 * n)) : (o.bytesOf x).length = n := by
  simp [bytesOf]

@[simp] theorem getElem_bytesOf (x : BitVec (8 * n)) (h : j < (o.bytesOf x).length) :
    (o.bytesOf x)[j] = o.byte j x := by
  simp [bytesOf]

/-- The bytes of the word with the given bytes. -/
theorem byte_ofBytes (hj : j < n) (bs : List (BitVec 8)) :
    o.byte j (o.ofBytes n bs) = bs.getD j 0#8 := by
  have prefix_eq : ∀ m ≤ n, o.byte j ((List.range m).foldl
      (fun x i => o.setByte i (bs.getD i 0#8) x) 0#(8 * n)) = if j < m then bs.getD j 0#8 else 0#8 := by
    intro m hm
    induction m with
    | zero => simp
    | succ m ih =>
      rw [List.range_succ, List.foldl_append, List.foldl_cons, List.foldl_nil,
        byte_setByte (by omega) hj, ih (by omega)]
      by_cases hjm : j = m
      · subst hjm
        simp
      · rw [if_neg hjm]
        simp only [show j < m + 1 ↔ j < m by omega]
  rw [ofBytes, prefix_eq n le_rfl, if_pos hj]

/-- The word with the bytes of a word. -/
theorem bytesOf_ofBytes {bs : List (BitVec 8)} (h : bs.length = n) :
    o.bytesOf (o.ofBytes n bs) = bs := by
  refine List.ext_getElem (by simp [h]) fun j h1 h2 => ?_
  rw [getElem_bytesOf, byte_ofBytes (by omega)]
  simp [h2]

/-- A word of equal bytes. -/
theorem byte_ofBytes_replicate (hj : j < n) (b : BitVec 8) :
    o.byte j (o.ofBytes n (List.replicate n b)) = b := by
  rw [byte_ofBytes hj]
  simp [hj]

/-- A word made of two pieces. -/
theorem bytesOf_setBytes {c : ℕ} (h : b + c = n) (x : BitVec (8 * n)) (y : BitVec (8 * b))
    (y' : BitVec (8 * c)) :
    o.bytesOf (o.setBytes b y' (o.setBytes 0 y x)) = o.bytesOf y ++ o.bytesOf y' := by
  refine List.ext_getElem (by simp [h]) fun j h1 h2 => ?_
  have hj : j < n := by simpa using h1
  rw [getElem_bytesOf, byte_setBytes (by omega) hj, byte_setBytes (by omega) hj]
  rcases Nat.lt_or_ge j b with hlt | hge
  · rw [if_neg (by omega), if_pos (by omega), List.getElem_append_left (by simpa)]
    simp
  · rw [if_pos (by omega), List.getElem_append_right (by simpa)]
    simp

/-- A word split into two pieces. -/
theorem bytesOf_getBytes {c : ℕ} (h : b + c = n) (x : BitVec (8 * n)) :
    o.bytesOf x = o.bytesOf (o.getBytes b 0 x) ++ o.bytesOf (o.getBytes c b x) := by
  refine List.ext_getElem (by simp [h]) fun j h1 h2 => ?_
  have hj : j < n := by simpa using h1
  rw [getElem_bytesOf]
  rcases Nat.lt_or_ge j b with hlt | hge
  · rw [List.getElem_append_left (by simpa), getElem_bytesOf, byte_getBytes (by omega) hlt,
      Nat.zero_add]
  · have hc : j - b < c := by omega
    rw [List.getElem_append_right (by simpa), getElem_bytesOf, length_bytesOf,
      byte_getBytes (by omega) hc]
    congr 1
    omega

end ByteOrder
