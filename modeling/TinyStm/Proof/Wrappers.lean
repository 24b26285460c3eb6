import TinyStm.Model.Wrappers

/-!
# What the typed accesses do to the bytes

Each wrapper ends, and it reads or changes exactly the bytes of its range: the first bytes up to a
word boundary, the full words and the last bytes in turn.
-/

namespace TinyStm

variable {σ : Type} {z : WordSize} {o : ByteOrder} {W : WordMemory σ z} {s t : σ} {addr i k : ℕ}

/-- A word has bytes. -/
theorem WordSize.bytes_pos (z : WordSize) : 0 < z.bytes := by cases z <;> decide

/-- The flat memory of bytes in a state. -/
def WordMemory.flat (W : WordMemory σ z) (o : ByteOrder) (s : σ) : ByteMem := o.flat (W.mem s)

/-- The address is aligned down to a word. -/
theorem dvd_alignDown (z : WordSize) (addr : ℕ) : z.bytes ∣ alignDown z addr := Nat.dvd_mul_left ..

/-- An address is that of its word and an offset. -/
theorem alignDown_add_mod (z : WordSize) (addr : ℕ) :
    alignDown z addr + addr % z.bytes = addr := by
  rw [alignDown, Nat.mul_comm]
  exact Nat.div_add_mod ..

/-- The offset is smaller than a word. -/
theorem mod_lt (z : WordSize) (addr : ℕ) : addr % z.bytes < z.bytes := Nat.mod_lt _ z.bytes_pos

/-- An address without an offset is that of a word. -/
theorem dvd_of_mod_eq (h : ¬ addr % z.bytes ≠ 0) : z.bytes ∣ addr :=
  Nat.dvd_of_mod_eq_zero (not_not.1 h)

/-! ## Loads of bytes -/

/-- The bytes that a copying loop has copied. -/
theorem getLoop_eq (val : Word z) : getLoop o val i k =
    (List.range (min (z.bytes - i) k)).map fun j => o.byte (i + j) val := by
  induction k generalizing i with
  | zero => simp [getLoop]
  | succ k ih =>
    rw [getLoop]
    split
    · have hmin : min (z.bytes - i) (k + 1) = min (z.bytes - (i + 1)) k + 1 := by omega
      rw [ih, hmin, List.range_succ_eq_map, List.map_cons, List.map_map]
      simp [Function.comp_def, Nat.add_comm, Nat.add_left_comm]
    · have hmin : min (z.bytes - i) (k + 1) = 0 := by omega
      rw [hmin]
      rfl

/-- A copying loop copies bytes of the flat memory. -/
theorem getLoop_slice {a : ℕ} (ha : z.bytes ∣ a) (hi : i ≤ z.bytes) :
    getLoop o (W.mem s a) i k = (W.flat o s).slice (a + i) (min (z.bytes - i) k) := by
  rw [getLoop_eq, WordMemory.flat, ByteOrder.slice_word ha (by omega)]

/-- The loop takes as many bytes as are asked for, up to the end of the word. -/
theorem length_getLoop (val : Word z) : (getLoop o val i k).length = min (z.bytes - i) k := by
  simp [getLoop_eq]

/-- Where `stm_load_bytes` stands: it has copied the first bytes of the range, and the next ones begin a
word. -/
structure LoadInv (o : ByteOrder) (W : WordMemory σ z) (s : σ) (addr size : ℕ) (pos : LoadPos)
    (t : σ) : Prop where
  mem : W.mem t = W.mem s
  buf : pos.buf = (W.flat o s).slice addr pos.buf.length
  size : pos.buf.length + pos.size = size
  word : pos.size ≠ 0 → z.bytes ∣ pos.a ∧ pos.a = addr + pos.buf.length

/-- The next bytes are copied. -/
theorem LoadInv.next {size : ℕ} {pos : LoadPos} (h : LoadInv o W s addr size pos t) {t' : σ}
    (ht : W.mem t' = W.mem s) {b : List (BitVec 8)} {a : ℕ} (hle : b.length ≤ pos.size)
    (hbs : b = (W.flat o s).slice (addr + pos.buf.length) b.length)
    (hword : pos.size - b.length ≠ 0 → z.bytes ∣ a ∧ a = addr + (pos.buf.length + b.length)) :
    LoadInv o W s addr size ⟨a, pos.buf ++ b, pos.size - b.length⟩ t' where
  mem := ht
  buf := by
    rw [List.length_append, ByteMem.slice_add, ← hbs, ← h.buf]
  size := by
    have := h.size
    simp only [List.length_append]
    omega
  word := by simpa only [List.length_append] using hword

/-- The bytes of the first word, if it is not loaded whole. -/
theorem loadFirst_ends (size : ℕ) :
    (loadFirst o W addr size).Ends (LoadInv o W s addr size) (fun _ => False) s := by
  unfold loadFirst
  dsimp only
  split
  · refine .bind (W.load_ends _ _ (dvd_alignDown ..)) fun val t ⟨hval, ht⟩ => .ret ?_
    have hbuf := getLoop_slice (W := W) (o := o) (s := s) (k := size) (dvd_alignDown z addr)
      (mod_lt z addr).le
    rw [alignDown_add_mod] at hbuf
    have hlen := length_getLoop (o := o) (i := addr % z.bytes) (k := size) val
    have hlt := mod_lt z addr
    have hadd := alignDown_add_mod z addr
    subst hval
    refine ⟨ht, ?_, ?_, fun h => ⟨Nat.dvd_add (dvd_alignDown ..) (dvd_refl _), ?_⟩⟩
    · rw [hlen]
      exact hbuf
    · simp only
      omega
    · simp only at h ⊢
      omega
  · exact .ret ⟨rfl, rfl, Nat.zero_add _, fun _ => ⟨dvd_of_mod_eq ‹_›, rfl⟩⟩

/-- The words that are loaded whole. -/
theorem loadWords_ends {size : ℕ} {pos : LoadPos} (h : LoadInv o W s addr size pos t) :
    (loadWords o W pos).Ends (fun pos t => LoadInv o W s addr size pos t ∧ pos.size < z.bytes)
      (fun _ => False) t := by
  refine .iterate (LoadInv o W s addr size) LoadPos.size (fun pos t h => ?_) h
  have hpos := z.bytes_pos
  split
  · have hword := h.word (by omega)
    refine .bind (W.load_ends _ _ hword.1) fun val t' ⟨hval, ht⟩ => .ret ⟨?_, by
      simp only
      omega⟩
    have hbs : o.bytesOf val = (W.flat o s).slice (addr + pos.buf.length) z.bytes := by
      have := ByteOrder.slice_word (o := o) (m := W.mem s) (i := 0) (k := z.bytes) hword.1 (by omega)
      rw [← hword.2, hval, h.mem]
      simpa [ByteOrder.bytesOf, WordMemory.flat] using this.symm
    have := h.next (ht.trans h.mem) (b := o.bytesOf val) (a := pos.a + z.bytes) (by simpa) (by simpa)
      fun _ => ⟨Nat.dvd_add hword.1 (dvd_refl _), by rw [hword.2]; simp [Nat.add_assoc]⟩
    simpa using this
  · exact .ret ⟨h, by omega⟩

/-- The bytes of the last word. -/
theorem loadLast_ends {size : ℕ} {pos : LoadPos} (h : LoadInv o W s addr size pos t)
    (hlt : pos.size < z.bytes) :
    (loadLast o W pos).Ends (fun buf t => W.mem t = W.mem s ∧ buf = (W.flat o s).slice addr size)
      (fun _ => False) t := by
  unfold loadLast
  have hsize := h.size
  split
  · have hword := h.word (by omega)
    refine .bind (W.load_ends _ _ hword.1) fun val t' ⟨hval, ht⟩ => .ret ⟨ht.trans h.mem, ?_⟩
    have hbs := getLoop_slice (W := W) (o := o) (s := s) (k := pos.size) hword.1 (Nat.zero_le _)
    rw [hval, h.mem, hbs, ← hsize, ByteMem.slice_add, ← h.buf, hword.2]
    congr 2
    omega
  · refine .ret ⟨h.mem, ?_⟩
    rw [h.buf]
    congr 1
    omega

/-- `stm_load_bytes` returns the bytes of its range. -/
theorem stmLoadBytes_ends (size : ℕ) :
    (stmLoadBytes o W addr size).Ends
      (fun buf t => W.mem t = W.mem s ∧ buf = (W.flat o s).slice addr size) (fun _ => False) s := by
  unfold stmLoadBytes
  split
  · subst size
    exact .ret ⟨rfl, rfl⟩
  · exact .bind (loadFirst_ends size) fun _ _ h => .bind (loadWords_ends h) fun _ _ h =>
      loadLast_ends h.1 h.2

/-! ## Stores of bytes -/

/-- What a filling loop has put into the value and into the mask. -/
theorem putLoop_spec {buf : List (BitVec 8)} {val mask : Word z} {j : ℕ} (hj : j < z.bytes) :
    o.byte j (putLoop o i buf val mask).1 = (if h : i ≤ j ∧ j - i < buf.length then buf[j - i]
      else o.byte j val) ∧
    o.byte j (putLoop o i buf val mask).2.1 = (if i ≤ j ∧ j - i < buf.length then 0xFF#8
      else o.byte j mask) := by
  induction buf generalizing i val mask with
  | nil => simp [putLoop]
  | cons b buf ih =>
    rw [putLoop]
    split
    · obtain ⟨h1, h2⟩ := @ih (i + 1) (o.setByte i b val)
        (o.setByte i 0xFF#8 mask)
      rw [h1, h2, ByteOrder.byte_setByte ‹_› hj, ByteOrder.byte_setByte ‹_› hj]
      rcases Nat.lt_or_ge j i with hlt | hge
      · simp [show ¬ i + 1 ≤ j by omega, show ¬ i ≤ j by omega, hlt.ne]
      · obtain ⟨d, rfl⟩ := Nat.exists_eq_add_of_le hge
        cases d with
        | zero => simp
        | succ d =>
          have h3 : i + (d + 1) - (i + 1) = d := by omega
          have h4 : i + (d + 1) - i = d + 1 := by omega
          simp [h3, h4]
    · rw [dif_neg (by omega), if_neg (by omega)]
      exact ⟨rfl, rfl⟩

/-- What a filling loop leaves in the buffer. -/
theorem putLoop_rest {buf : List (BitVec 8)} {val mask : Word z} :
    (putLoop o i buf val mask).2.2 = buf.drop (z.bytes - i) := by
  induction buf generalizing i val mask with
  | nil => simp [putLoop]
  | cons b buf ih =>
    rw [putLoop]
    split
    · rw [ih, show z.bytes - i = (z.bytes - (i + 1)) + 1 by omega, List.drop_succ_cons]
    · rw [show z.bytes - i = 0 by omega]
      rfl

/-- A filling loop and a masked store write bytes of the flat memory. -/
theorem putLoop_store2 {a : ℕ} (ha : z.bytes ∣ a) (hi : i ≤ z.bytes) {buf : List (BitVec 8)} :
    (W.store2 a (putLoop o i buf 0#_ 0#_).1 (putLoop o i buf 0#_ 0#_).2.1).Ends
      (fun _ t => W.flat o t = (W.flat o s).overlay (a + i) (buf.take (z.bytes - i)))
      (fun _ => False) s := by
  refine (W.store2_ends a _ _ s ha).mono (fun _ t ht => ?_) fun _ h => h
  rw [WordMemory.flat, ht]
  refine ByteOrder.flat_store2 ha z.bytes_pos ?_ (fun j hj => ?_) fun j hj => ?_
  · simp only [List.length_take]
    omega
  · rw [(putLoop_spec hj).2, ByteOrder.byte_zero, List.length_take]
    exact if_congr (by omega) rfl rfl
  · simp only [List.length_take] at hj
    rw [(putLoop_spec (by omega)).1, dif_pos (by omega)]
    simp

/-- Where `stm_store_bytes` stands: the first bytes of the buffer are stored, and the next ones go to the
beginning of a word. -/
def StoreInv (o : ByteOrder) (W : WordMemory σ z) (s : σ) (addr : ℕ) (buf : List (BitVec 8))
    (pos : ℕ × List (BitVec 8)) (t : σ) : Prop :=
  ∃ done, buf = done ++ pos.2 ∧ W.flat o t = (W.flat o s).overlay addr done ∧
    (pos.2 ≠ [] → z.bytes ∣ pos.1 ∧ pos.1 = addr + done.length)

/-- The next bytes are stored. -/
theorem StoreInv.next {buf bs rest : List (BitVec 8)} {a a' : ℕ} {t t' : σ}
    (h : StoreInv o W s addr buf (a, bs ++ rest) t) (hne : bs ++ rest ≠ [])
    (ht : W.flat o t' = (W.flat o t).overlay a bs)
    (ha : rest ≠ [] → z.bytes ∣ a' ∧ a' = a + bs.length) :
    StoreInv o W s addr buf (a', rest) t' := by
  obtain ⟨done, hbuf, hflat, hword⟩ := h
  obtain ⟨-, hpos⟩ := hword hne
  simp only at hpos
  refine ⟨done ++ bs, by simp [hbuf], ?_, fun hr => ?_⟩
  · rw [ht, hflat, hpos, ByteMem.overlay_append]
  · obtain ⟨hd, ha⟩ := ha hr
    refine ⟨hd, ?_⟩
    simp only [ha, hpos, List.length_append, Nat.add_assoc]

/-- The bytes of the first word, if it is not stored whole. -/
theorem storeFirst_ends {buf : List (BitVec 8)} :
    (storeFirst o W addr buf).Ends (StoreInv o W s addr buf) (fun _ => False) s := by
  unfold storeFirst
  dsimp only
  have hlt := mod_lt z addr
  have hadd := alignDown_add_mod z addr
  split
  · refine .bind (putLoop_store2 (o := o) (W := W) (s := s) (dvd_alignDown z addr) hlt.le) fun _ t ht =>
      .ret ⟨buf.take (z.bytes - addr % z.bytes), ?_, ?_, fun hne => ?_⟩
    · rw [putLoop_rest, List.take_append_drop]
    · rw [ht, hadd]
    · rw [putLoop_rest] at hne
      have hlen : z.bytes - addr % z.bytes < buf.length := by
        by_contra hle
        exact hne (List.drop_eq_nil_of_le (by omega))
      refine ⟨Nat.dvd_add (dvd_alignDown ..) (dvd_refl _), ?_⟩
      simp only [List.length_take]
      omega
  · exact .ret ⟨[], rfl, by simp, fun _ => ⟨dvd_of_mod_eq ‹_›, rfl⟩⟩

/-- The words that are stored whole. -/
theorem storeWords_ends {buf : List (BitVec 8)} {pos : ℕ × List (BitVec 8)}
    (h : StoreInv o W s addr buf pos t) :
    (storeWords o W pos).Ends
      (fun pos t => StoreInv o W s addr buf pos t ∧ pos.2.length < z.bytes) (fun _ => False) t := by
  refine .iterate (StoreInv o W s addr buf) (fun pos => pos.2.length) (fun pos t h => ?_) h
  obtain ⟨a, rest⟩ := pos
  have hpos := z.bytes_pos
  dsimp only
  split
  · have hne : rest ≠ [] := List.ne_nil_of_length_pos (by omega)
    have hlen : (rest.take z.bytes).length = z.bytes := by simp; omega
    have hd : z.bytes ∣ a := by
      obtain ⟨done, -, -, hword⟩ := h
      exact (hword hne).1
    refine .bind (W.store_ends a _ t hd) fun _ t' ht => .ret ⟨?_, by simp; omega⟩
    rw [← List.take_append_drop z.bytes rest] at h hne
    refine h.next hne ?_ fun _ => ⟨Nat.dvd_add hd (dvd_refl _), by rw [hlen]⟩
    rw [WordMemory.flat, ht, ByteOrder.flat_store hd hpos, ByteOrder.bytesOf_ofBytes hlen]
    rfl
  · exact .ret ⟨h, Nat.lt_of_not_ge ‹_›⟩

/-- The bytes of the last word. -/
theorem storeLast_ends {buf : List (BitVec 8)} {pos : ℕ × List (BitVec 8)}
    (h : StoreInv o W s addr buf pos t) (hlt : pos.2.length < z.bytes) :
    (storeLast o W pos).Ends (fun _ t => W.flat o t = (W.flat o s).overlay addr buf)
      (fun _ => False) t := by
  obtain ⟨a, rest⟩ := pos
  unfold storeLast
  dsimp only at hlt ⊢
  have full : ∀ t', StoreInv o W s addr buf (a, []) t' →
      W.flat o t' = (W.flat o s).overlay addr buf := by
    rintro t' ⟨done, hbuf, hflat, -⟩
    simpa [hbuf] using hflat
  split
  · have hne : rest ≠ [] := List.ne_nil_of_length_pos ‹_›
    have hd : z.bytes ∣ a := by
      obtain ⟨done, -, -, hword⟩ := h
      exact (hword hne).1
    refine (putLoop_store2 (o := o) (W := W) (s := t) hd (Nat.zero_le _)).mono (fun _ t' ht => ?_)
      fun _ h => h
    rw [Nat.sub_zero, List.take_of_length_le hlt.le] at ht
    rw [← List.append_nil rest] at h hne
    exact full t' (h.next hne ht nofun)
  · have : rest = [] := List.length_eq_zero_iff.1 (by omega)
    subst this
    exact .ret (full t h)

/-- `stm_store_bytes` changes the bytes of its range to those of the buffer. -/
theorem stmStoreBytes_ends (buf : List (BitVec 8)) :
    (stmStoreBytes o W addr buf).Ends (fun _ t => W.flat o t = (W.flat o s).overlay addr buf)
      (fun _ => False) s := by
  unfold stmStoreBytes
  split
  · have : buf = [] := List.length_eq_zero_iff.1 ‹_›
    subst this
    exact .ret (by simp)
  · exact .bind storeFirst_ends fun _ _ h => .bind (storeWords_ends h) fun _ _ h =>
      storeLast_ends h.1 h.2

/-! ## Fills -/

/-- A loop that fills a mask, as one that fills a value too. -/
theorem maskLoop_eq (b : BitVec 8) {mask : Word z} (val : Word z) : maskLoop o i k mask =
    ((putLoop o i (List.replicate k b) val mask).2.1,
      (putLoop o i (List.replicate k b) val mask).2.2.length) := by
  induction k generalizing i val mask with
  | zero => rfl
  | succ k ih =>
    rw [maskLoop, List.replicate_succ, putLoop]
    split
    · exact ih _
    · simp

/-- A word of equal bytes and a mask that a loop has filled. -/
theorem maskLoop_store2 {a : ℕ} (ha : z.bytes ∣ a) (hi : i ≤ z.bytes) {val : Word z} {b : BitVec 8}
    (hval : ∀ j < z.bytes, o.byte j val = b) :
    (W.store2 a val (maskLoop o i k 0#_).1).Ends
      (fun _ t => W.flat o t = (W.flat o s).overlay (a + i) ((List.replicate k b).take (z.bytes - i)))
      (fun _ => False) s := by
  refine (W.store2_ends a _ _ s ha).mono (fun _ t ht => ?_) fun _ h => h
  rw [WordMemory.flat, ht]
  refine ByteOrder.flat_store2 ha z.bytes_pos ?_ (fun j hj => ?_) fun j hj => ?_
  · simp only [List.length_take]
    omega
  · rw [maskLoop_eq b val, (putLoop_spec hj).2, ByteOrder.byte_zero, List.length_take]
    exact if_congr (by omega) rfl rfl
  · simp only [List.length_take] at hj
    rw [hval _ (by omega)]
    simp

/-- What a loop leaves of the count. -/
theorem maskLoop_rest {mask : Word z} : (maskLoop o i k mask).2 = k - (z.bytes - i) := by
  rw [maskLoop_eq 0 0, putLoop_rest]
  simp

/-- Where `stm_set_bytes` stands, as `stm_store_bytes` would with a buffer of equal bytes. -/
def SetInv (o : ByteOrder) (W : WordMemory σ z) (s : σ) (addr count : ℕ) (b : BitVec 8) (pos : ℕ × ℕ)
    (t : σ) : Prop :=
  StoreInv o W s addr (List.replicate count b) (pos.1, List.replicate pos.2 b) t

section
variable {val : Word z} {b : BitVec 8} {count : ℕ}

/-- The bytes of the first word, if it is not set whole. -/
theorem setFirst_ends (hval : ∀ j < z.bytes, o.byte j val = b) :
    (setFirst o W addr val count).Ends (SetInv o W s addr count b) (fun _ => False) s := by
  unfold setFirst
  dsimp only
  have hlt := mod_lt z addr
  have hadd := alignDown_add_mod z addr
  split
  · refine .bind (maskLoop_store2 (W := W) (s := s) (dvd_alignDown z addr) hlt.le hval) fun _ t ht =>
      .ret ⟨(List.replicate count b).take (z.bytes - addr % z.bytes), ?_, ?_, fun hne => ?_⟩
    · rw [maskLoop_rest, ← List.drop_replicate, List.take_append_drop]
    · rw [ht, hadd]
    · rw [maskLoop_rest] at hne
      have hlen : z.bytes - addr % z.bytes < count := by
        by_contra hle
        exact hne (by simp; omega)
      refine ⟨Nat.dvd_add (dvd_alignDown ..) (dvd_refl _), ?_⟩
      simp only [List.length_take, List.length_replicate]
      omega
  · exact .ret ⟨[], rfl, by simp, fun _ => ⟨dvd_of_mod_eq ‹_›, rfl⟩⟩

/-- The words that are set whole. -/
theorem setWords_ends (hval : ∀ j < z.bytes, o.byte j val = b) {pos : ℕ × ℕ}
    (h : SetInv o W s addr count b pos t) :
    (setWords W val pos).Ends (fun pos t => SetInv o W s addr count b pos t ∧ pos.2 < z.bytes)
      (fun _ => False) t := by
  refine .iterate (SetInv o W s addr count b) (fun pos => pos.2) (fun pos t h => ?_) h
  obtain ⟨a, k⟩ := pos
  have hpos := z.bytes_pos
  dsimp only
  split
  · have hsplit : List.replicate k b =
        List.replicate z.bytes b ++ List.replicate (k - z.bytes) b := by
      rw [← List.replicate_add]
      congr 1
      omega
    have hne : List.replicate z.bytes b ++ List.replicate (k - z.bytes) b ≠ [] := by simp; omega
    rw [SetInv, hsplit] at h
    have hd : z.bytes ∣ a := by
      obtain ⟨done, -, -, hword⟩ := h
      exact (hword hne).1
    refine .bind (W.store_ends a _ t hd) fun _ t' ht => .ret ⟨?_, by simp only; omega⟩
    refine h.next hne ?_ fun _ => ⟨Nat.dvd_add hd (dvd_refl _), by simp⟩
    rw [WordMemory.flat, ht, ByteOrder.flat_store hd hpos]
    have hbytes : o.bytesOf val = List.replicate z.bytes b :=
      List.ext_getElem (by simp) fun j h1 h2 => by
        rw [ByteOrder.getElem_bytesOf, hval j (by simpa using h2)]
        simp
    rw [hbytes]
    rfl
  · exact .ret ⟨h, Nat.lt_of_not_ge ‹_›⟩

/-- The bytes of the last word. -/
theorem setLast_ends (hval : ∀ j < z.bytes, o.byte j val = b) {pos : ℕ × ℕ}
    (h : SetInv o W s addr count b pos t) (hlt : pos.2 < z.bytes) :
    (setLast o W val pos).Ends
      (fun _ t => W.flat o t = (W.flat o s).overlay addr (List.replicate count b))
      (fun _ => False) t := by
  obtain ⟨a, k⟩ := pos
  unfold setLast
  dsimp only at hlt ⊢
  have full : ∀ t', StoreInv o W s addr (List.replicate count b) (a, []) t' →
      W.flat o t' = (W.flat o s).overlay addr (List.replicate count b) := by
    rintro t' ⟨done, hbuf, hflat, -⟩
    simpa [hbuf] using hflat
  unfold SetInv at h
  split
  · have hne : List.replicate k b ≠ [] := by simp; omega
    have hd : z.bytes ∣ a := by
      obtain ⟨done, -, -, hword⟩ := h
      exact (hword hne).1
    refine (maskLoop_store2 (W := W) (s := t) (k := k) hd (Nat.zero_le _) hval).mono
      (fun _ t' ht => ?_) fun _ h => h
    rw [Nat.sub_zero, List.take_of_length_le (by simp; omega)] at ht
    rw [← List.append_nil (List.replicate k b)] at h hne
    exact full t' (h.next hne ht nofun)
  · have : k = 0 := by omega
    subst this
    exact .ret (full t h)

/-- `stm_set_bytes` changes all bytes of its range to the given one. -/
theorem stmSetBytes_ends (b : BitVec 8) (count : ℕ) :
    (stmSetBytes o W addr b count).Ends
      (fun _ t => W.flat o t = (W.flat o s).overlay addr (List.replicate count b))
      (fun _ => False) s := by
  unfold stmSetBytes
  split
  · subst count
    exact .ret (by simp)
  · have hval : ∀ j < z.bytes, o.byte j (o.ofBytes z.bytes (List.replicate z.bytes b)) = b :=
      fun j hj => ByteOrder.byte_ofBytes_replicate hj b
    exact .bind (setFirst_ends hval) fun _ _ h => .bind (setWords_ends hval h) fun _ _ h =>
      setLast_ends hval h.1 h.2

end

/-- `TM_COPY_BYTES` is `memmove`. -/
theorem tmCopyBytes_ends (dst src size : ℕ) :
    (tmCopyBytes o W dst src size).Ends
      (fun _ t => W.flat o t = (W.flat o s).memmove dst src size) (fun _ => False) s := by
  refine .bind (stmLoadBytes_ends size) fun buf t ⟨ht, hbuf⟩ => (stmStoreBytes_ends buf).mono
    (fun _ u hu => ?_) fun _ h => h
  rw [hu, hbuf, ← ByteMem.overlay_slice]
  simp only [WordMemory.flat, ht]

/-! ## Integers -/

section
variable {b : ℕ}

/-- An aligned integer lies in one word, at its offset. -/
theorem aligned_offset (hn : b ∣ z.bytes) (h : b ∣ addr) :
    addr % z.bytes / b * b = addr % z.bytes ∧ addr % z.bytes + b ≤ z.bytes := by
  have hmod : b ∣ addr % z.bytes := (Nat.dvd_mod_iff hn).2 h
  have hlt := mod_lt z addr
  refine ⟨Nat.div_mul_cancel hmod, ?_⟩
  have := Nat.le_of_dvd (Nat.sub_pos_of_lt hlt) (Nat.dvd_sub hn hmod)
  omega

/-- The bytes of an aligned word. -/
theorem bytesOf_mem (h : z.bytes ∣ addr) :
    o.bytesOf (W.mem s addr) = (W.flat o s).slice addr z.bytes := by
  have := ByteOrder.slice_word (o := o) (m := W.mem s) (i := 0) (k := z.bytes) h (by omega)
  simpa [ByteOrder.bytesOf, WordMemory.flat] using this.symm

/-- A value that does not cross a word is loaded with one word. -/
theorem loadInside_ends (hn : b ∣ z.bytes) (h : b ∣ addr) :
    (loadInside o W b addr).Ends
      (fun v t => W.mem t = W.mem s ∧ o.bytesOf v = (W.flat o s).slice addr b) (fun _ => False) s := by
  obtain ⟨hoff, hle⟩ := aligned_offset hn h
  refine .bind (W.load_ends _ _ (dvd_alignDown ..)) fun val t ⟨hval, ht⟩ => .ret ⟨ht, ?_⟩
  have hslice := ByteOrder.slice_word (o := o) (m := W.mem s) (dvd_alignDown z addr) hle
  rw [alignDown_add_mod] at hslice
  rw [WordMemory.flat, hslice, hoff, hval]
  refine List.map_congr_left fun j hj => ?_
  exact ByteOrder.byte_getBytes hle (List.mem_range.1 hj) _

/-- A value that may cross words is loaded byte by byte. -/
theorem loadMisaligned_ends :
    (loadMisaligned o W b addr).Ends
      (fun v t => W.mem t = W.mem s ∧ o.bytesOf v = (W.flat o s).slice addr b) (fun _ => False) s := by
  refine .bind (stmLoadBytes_ends b) fun buf t ⟨ht, hbuf⟩ => .ret ⟨ht, ?_⟩
  rw [ByteOrder.bytesOf_ofBytes (by simp [hbuf]), hbuf]

/-- A value that does not cross a word is stored under its mask. -/
theorem storeInside_ends (junk : Word z) (hn : b ∣ z.bytes) (h : b ∣ addr)
    (value : BitVec (8 * b)) :
    (storeInside o W junk addr value).Ends
      (fun _ t => W.flat o t = (W.flat o s).overlay addr (o.bytesOf value)) (fun _ => False) s := by
  obtain ⟨hoff, hle⟩ := aligned_offset hn h
  unfold storeInside
  rw [hoff]
  refine (W.store2_ends _ _ _ s (dvd_alignDown ..)).mono (fun _ t ht => ?_) fun _ h => h
  have hstore := ByteOrder.flat_store2 (o := o) (m := W.mem s) (b := o.bytesOf value)
    (i := addr % z.bytes) (v := o.setBytes (addr % z.bytes) value junk)
    (k := o.setBytes (addr % z.bytes) (BitVec.allOnes (8 * b)) 0#_) (dvd_alignDown z addr) z.bytes_pos
    (by simpa using hle) (fun j hj => ?_) fun j hj => ?_
  · rw [alignDown_add_mod] at hstore
    rw [WordMemory.flat, ht, hstore]
    rfl
  · rw [ByteOrder.byte_setBytes hle hj, ByteOrder.byte_zero, ByteOrder.length_bytesOf]
    by_cases hj' : addr % z.bytes ≤ j ∧ j < addr % z.bytes + b
    · rw [if_pos hj', if_pos (by omega), ByteOrder.byte_allOnes (by omega)]
    · rw [if_neg hj', if_neg (by omega)]
  · have hj : j < b := by simpa using hj
    rw [ByteOrder.byte_setBytes hle (by omega), if_pos (by omega), ByteOrder.getElem_bytesOf]
    congr 1
    omega

/-- A value that may cross words is stored byte by byte. -/
theorem storeMisaligned_ends (value : BitVec (8 * b)) :
    (storeMisaligned o W addr value).Ends
      (fun _ t => W.flat o t = (W.flat o s).overlay addr (o.bytesOf value)) (fun _ => False) s :=
  stmStoreBytes_ends _

end

/-- `int_stm_load_u8`. -/
theorem intStmLoadU8_ends : (intStmLoadU8 o W addr).Ends
    (fun v t => W.mem t = W.mem s ∧ o.bytesOf (n := 1) v = (W.flat o s).slice addr 1)
    (fun _ => False) s :=
  loadInside_ends (one_dvd _) (one_dvd _)

/-- `int_stm_load_u16`. -/
theorem intStmLoadU16_ends : (intStmLoadU16 o W addr).Ends
    (fun v t => W.mem t = W.mem s ∧ o.bytesOf (n := 2) v = (W.flat o s).slice addr 2)
    (fun _ => False) s := by
  unfold intStmLoadU16
  split
  · exact loadMisaligned_ends
  · exact loadInside_ends (by cases z <;> decide) (by omega)

/-- `int_stm_load_u32`. -/
theorem intStmLoadU32_ends : (intStmLoadU32 o W addr).Ends
    (fun v t => W.mem t = W.mem s ∧ o.bytesOf (n := 4) v = (W.flat o s).slice addr 4)
    (fun _ => False) s := by
  unfold intStmLoadU32
  split
  · exact loadMisaligned_ends
  · have h4 : 4 ∣ addr := by omega
    cases z with
    | four =>
      refine (W.load_ends addr s h4).mono (fun v t ⟨hv, ht⟩ => ⟨ht, ?_⟩) fun _ h => h
      rw [hv]
      exact bytesOf_mem h4
    | eight => exact loadInside_ends (by decide) h4

/-- `int_stm_load_u64`. -/
theorem intStmLoadU64_ends (junk : BitVec 64) : (intStmLoadU64 o W junk addr).Ends
    (fun v t => W.mem t = W.mem s ∧ o.bytesOf (n := 8) v = (W.flat o s).slice addr 8)
    (fun _ => False) s := by
  unfold intStmLoadU64
  split
  · exact loadMisaligned_ends
  · have h8 : 8 ∣ addr := by omega
    cases z with
    | four =>
      have h4 : WordSize.four.bytes ∣ addr := Nat.dvd_trans (by decide) h8
      have h4' : WordSize.four.bytes ∣ addr + 4 := Nat.dvd_add h4 (by decide)
      refine .bind (W.load_ends addr s h4) fun u0 t ⟨hu0, ht⟩ =>
        .bind (W.load_ends (addr + 4) t h4') fun u1 t' ⟨hu1, ht'⟩ => .ret ⟨ht'.trans ht, ?_⟩
      have hsplit : (W.flat o s).slice addr 8 = o.bytesOf u0 ++ o.bytesOf u1 := by
        rw [hu0, hu1, ht, bytesOf_mem h4, bytesOf_mem h4']
        exact ByteMem.slice_add (j := 4) (k := 4)
      rw [hsplit]
      exact ByteOrder.bytesOf_setBytes rfl ..
    | eight =>
      refine (W.load_ends addr s h8).mono (fun v t ⟨hv, ht⟩ => ⟨ht, ?_⟩) fun _ h => h
      rw [hv]
      exact bytesOf_mem h8

/-- `int_stm_store_u8`. -/
theorem intStmStoreU8_ends (junk : Word z) (value : BitVec 8) : (intStmStoreU8 o W junk addr value).Ends
    (fun _ t => W.flat o t = (W.flat o s).overlay addr (o.bytesOf (n := 1) value))
    (fun _ => False) s :=
  storeInside_ends junk (one_dvd _) (one_dvd _) _

/-- `int_stm_store_u16`. -/
theorem intStmStoreU16_ends (junk : Word z) (value : BitVec 16) :
    (intStmStoreU16 o W junk addr value).Ends
      (fun _ t => W.flat o t = (W.flat o s).overlay addr (o.bytesOf (n := 2) value))
      (fun _ => False) s := by
  unfold intStmStoreU16
  split
  · exact storeMisaligned_ends _
  · exact storeInside_ends junk (by cases z <;> decide) (by omega) _

/-- A store to an aligned word. -/
theorem store_flat (h : z.bytes ∣ addr) (x : Word z) :
    (W.store addr x).Ends (fun _ t => W.flat o t = (W.flat o s).overlay addr (o.bytesOf x))
      (fun _ => False) s := by
  refine (W.store_ends addr x s h).mono (fun _ t ht => ?_) fun _ h => h
  rw [WordMemory.flat, ht, ByteOrder.flat_store h z.bytes_pos]
  rfl

/-- `int_stm_store_u32`. -/
theorem intStmStoreU32_ends (junk : Word z) (value : BitVec 32) :
    (intStmStoreU32 o W junk addr value).Ends
      (fun _ t => W.flat o t = (W.flat o s).overlay addr (o.bytesOf (n := 4) value))
      (fun _ => False) s := by
  unfold intStmStoreU32
  split
  · exact storeMisaligned_ends _
  · have h4 : 4 ∣ addr := by omega
    cases z with
    | four => exact store_flat h4 _
    | eight => exact storeInside_ends junk (by decide) h4 _

/-- `int_stm_store_u64`. -/
theorem intStmStoreU64_ends (value : BitVec 64) : (intStmStoreU64 o W addr value).Ends
    (fun _ t => W.flat o t = (W.flat o s).overlay addr (o.bytesOf (n := 8) value))
    (fun _ => False) s := by
  unfold intStmStoreU64
  split
  · exact storeMisaligned_ends _
  · have h8 : 8 ∣ addr := by omega
    cases z with
    | four =>
      have h4 : WordSize.four.bytes ∣ addr := Nat.dvd_trans (by decide) h8
      have h4' : WordSize.four.bytes ∣ addr + 4 := Nat.dvd_add h4 (by decide)
      refine .bind (store_flat (o := o) h4 _) fun _ t ht =>
        (store_flat (o := o) h4' _).mono (fun _ u hu => ?_) fun _ h => h
      rw [hu, ht, ByteOrder.bytesOf_getBytes (n := 8) (b := 4) (c := 4) rfl value, ByteMem.overlay_append]
      rfl
    | eight => exact store_flat h8 _

end TinyStm
