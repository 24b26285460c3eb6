import TinyStm.Modules.Log

/-!
# Direct writes are undone

An abort puts back what a transaction has logged, unless an entry for one of the types `uint16_t`,
`uint32_t` and `uint64_t`, whose old value is kept in a `char`, is the first one to cover a byte.
The calls of an attempt add patches, and an abort applies them from the last to the first, so a byte
is set to what the first patch that covers it says. That is the old byte unless the old value was
kept in a `char`.
-/

namespace TinyStm

/-- A step of an attempt: a call of `stm_log_*`, or a direct write to some bytes. -/
inductive LogCall
  | log (t : LogType) (addr : ℕ)
  | logBytes (addr size : ℕ)
  | write (addr : ℕ) (bs : List (BitVec 8))

variable (c : LogTarget)

/-- What an entry says. -/
def LogEntry.patch (w : LogEntry c.word) : Patch ℕ (BitVec 8) := fun x =>
  match w with
  | .scalar t a v => if a ≤ x then (c.order.bytesOf (t.restore c v))[x - a]? else none
  | .bytes a v _ => if a ≤ x then v[x - a]? else none

/-- What the entries say. -/
def LogState.patches (s : LogState c.word) : List (Patch ℕ (BitVec 8)) :=
  s.entries.map (LogEntry.patch c)

/-- The byte has been logged. -/
def LogState.Logged (s : LogState c.word) (x : ℕ) : Prop := Patch.first (s.patches c) x ≠ none

/-- A step of an attempt. -/
def LogCall.exec (s : LogState c.word) : LogCall → LogState c.word
  | .log t addr => stmLog c t addr s
  | .logBytes addr size => stmLogBytes c addr size s
  | .write addr bs => { s with mem := s.mem.overlay addr bs }

/-- The bytes that are written have been logged. -/
def LogCall.Legal (s : LogState c.word) : LogCall → Prop
  | .write addr bs => ∀ j < bs.length, s.Logged c (addr + j)
  | _ => True

/-- The entry restores the bytes that it is the first one to cover. -/
def LogCall.Fits (s : LogState c.word) : LogCall → Prop
  | .log t addr => ∀ j < t.width c.word, ¬ s.Logged c (addr + j) →
      c.order.byte j (t.restore c (t.save c.word (s.value c t addr))) = s.mem (addr + j)
  | _ => True

instance (s : LogState c.word) (x : ℕ) : Decidable (s.Logged c x) :=
  inferInstanceAs (Decidable (_ ≠ _))

instance (s : LogState c.word) (k : LogCall) : Decidable (k.Legal c s) := by
  cases k <;> unfold LogCall.Legal <;> infer_instance

instance (s : LogState c.word) (k : LogCall) : Decidable (k.Fits c s) := by
  cases k <;> unfold LogCall.Fits <;> infer_instance

/-- The attempt. -/
def logRun (s : LogState c.word) (calls : List LogCall) : LogState c.word :=
  calls.foldl (LogCall.exec c) s

/-- All steps of an attempt are as `P` says of the state before the step. -/
def LogAll (P : LogState c.word → LogCall → Prop) : LogState c.word → List LogCall → Prop
  | _, [] => True
  | s, k :: ks => P s k ∧ LogAll P (k.exec c s) ks

instance LogAll.decidable (P : LogState c.word → LogCall → Prop) [∀ s k, Decidable (P s k)] :
    (s : LogState c.word) → (ks : List LogCall) → Decidable (LogAll c P s ks)
  | _, [] => .isTrue trivial
  | s, k :: ks =>
    have := LogAll.decidable P (k.exec c s) ks
    inferInstanceAs (Decidable (P s k ∧ LogAll c P (k.exec c s) ks))

/-- The attempt aborts: the bytes that have been logged are as they were when it started, and the other
ones as they were before the abort. -/
def LogUndone (s : LogState c.word) (calls : List LogCall) : Prop :=
  ∀ x, (modLogOnAbort c (logRun c s calls)).mem x =
    if Patch.first ((logRun c s calls).patches c) x = none then (logRun c s calls).mem x else s.mem x

variable {c} {s : LogState c.word} {m : ByteMem}

/-- A range of bytes is replaced. -/
theorem overlay_eq_apply (a : ℕ) (bs : List (BitVec 8)) (m : ByteMem) :
    m.overlay a bs = Patch.apply (fun x => if a ≤ x then bs[x - a]? else none) m := by
  funext x
  simp only [ByteMem.overlay, Patch.apply]
  by_cases h : a ≤ x
  · by_cases h' : x - a < bs.length <;> simp [h, h']
  · simp [h]

/-- The memory after an abort. -/
theorem modLogOnAbort_mem (s : LogState c.word) :
    (modLogOnAbort c s).mem = Patch.undo (s.patches c) s.mem := by
  suffices ∀ ws : List (LogEntry c.word),
      (ws.foldr (LogState.undo c) s).mem = Patch.undo (ws.map (LogEntry.patch c)) s.mem from
    this s.entries
  intro ws
  induction ws with
  | nil => rfl
  | cons w ws ih =>
    rw [List.foldr_cons, List.map_cons, Patch.undo_cons, ← ih]
    cases w with
    | scalar t a v => exact overlay_eq_apply ..
    | bytes a v id => exact overlay_eq_apply ..

/-- An attempt is undone if every byte gets from the first entry that covers it what it had before. -/
theorem logUndone_iff {calls : List LogCall} : LogUndone c s calls ↔
    ∀ x b, Patch.first ((logRun c s calls).patches c) x = some b → b = s.mem x := by
  unfold LogUndone
  refine forall_congr' fun x => ?_
  rw [modLogOnAbort_mem, Patch.undo_apply]
  cases Patch.first ((logRun c s calls).patches c) x with
  | none => simp
  | some b => simp

/-- The bytes of a value. -/
theorem byte_value {t : LogType} {a j : ℕ} (hj : j < t.width c.word) :
    c.order.byte j (s.value c t a) = s.mem (a + j) := by
  rw [LogState.value, ByteOrder.byte_ofBytes hj]
  simp [hj]

/-- The entries that an attempt adds. -/
theorem logRun_patches (s : LogState c.word) (calls : List LogCall) :
    ∃ qs, (logRun c s calls).patches c = s.patches c ++ qs := by
  induction calls generalizing s with
  | nil => exact ⟨[], (List.append_nil _).symm⟩
  | cons k ks ih =>
    obtain ⟨qs, hqs⟩ := ih (k.exec c s)
    have hk : ∃ ps, (k.exec c s).patches c = s.patches c ++ ps := by
      cases k with
      | log t a => exact ⟨_, List.map_append⟩
      | logBytes a size => exact ⟨_, List.map_append⟩
      | write a bs => exact ⟨[], (List.append_nil _).symm⟩
    obtain ⟨ps, hps⟩ := hk
    exact ⟨ps ++ qs, by rw [← List.append_assoc, ← hps]; exact hqs⟩

/-- A call adds an entry: the bytes that it is the first one to cover, and the rest of the attempt. -/
theorem forall_first_push {w : LogEntry c.word} {s' : LogState c.word} {ks : List LogCall}
    (hs' : s'.patches c = s.patches c ++ [w.patch c]) {P : ℕ → BitVec 8 → Prop} :
    (∀ x, ¬ s.Logged c x → ∀ b, Patch.first ((logRun c s' ks).patches c) x = some b → P x b) ↔
      (∀ x, ¬ s.Logged c x → ∀ b, w.patch c x = some b → P x b) ∧
        ∀ x, ¬ s'.Logged c x → ∀ b, Patch.first ((logRun c s' ks).patches c) x = some b → P x b := by
  obtain ⟨qs, hqs⟩ := logRun_patches s' ks
  simp only [LogState.Logged, not_not, hqs, hs', List.append_assoc, List.singleton_append]
  exact Patch.forall_first_append

/-- What is covered before a call is covered after it. -/
theorem not_logged_of_push {w : LogEntry c.word} {s' : LogState c.word}
    (hs' : s'.patches c = s.patches c ++ [w.patch c]) {x : ℕ} (hx : ¬ s'.Logged c x) :
    ¬ s.Logged c x := by
  rw [LogState.Logged, not_not, hs', Patch.first_append] at hx
  exact not_not.2 (Option.or_eq_none_iff.1 hx).1

/-- The bytes that an entry restores. -/
theorem scalar_patch {t : LogType} {a x : ℕ} {v : BitVec (8 * t.member c.word)} {b : BitVec 8} :
    (LogEntry.scalar t a v).patch c x = some b ↔
      ∃ j < t.width c.word, x = a + j ∧ c.order.byte j (t.restore c v) = b := by
  simp only [LogEntry.patch, Option.ite_none_right_eq_some, List.getElem?_eq_some_iff,
    ByteOrder.length_bytesOf, ByteOrder.getElem_bytesOf]
  constructor
  · rintro ⟨hle, hlt, hb⟩
    exact ⟨x - a, hlt, by omega, hb⟩
  · rintro ⟨j, hj, rfl, hb⟩
    rw [Nat.add_sub_cancel_left]
    exact ⟨Nat.le_add_right a j, hj, hb⟩

/-- A range of bytes is restored as it was when it was logged. -/
theorem bytes_patch {a size x id : ℕ} {b : BitVec 8}
    (h : (LogEntry.bytes a (s.mem.slice a size) id : LogEntry c.word).patch c x = some b) :
    b = s.mem x := by
  simp only [LogEntry.patch, Option.ite_none_right_eq_some, List.getElem?_eq_some_iff,
    ByteMem.getElem_slice] at h
  obtain ⟨hle, -, hb⟩ := h
  rw [← hb]
  congr 1
  omega

/-- A byte outside of a range that is replaced. -/
theorem overlay_of_not_logged {a x : ℕ} {bs : List (BitVec 8)}
    (hlegal : ∀ j < bs.length, s.Logged c (a + j)) (hx : ¬ s.Logged c x) :
    s.mem.overlay a bs x = s.mem x := by
  rw [ByteMem.overlay, dif_neg]
  rintro ⟨hle, hlt⟩
  have hx' := hlegal (x - a) hlt
  rw [Nat.add_sub_cancel' hle] at hx'
  exact hx hx'

/-- The first entries of an attempt restore what they are the first ones to cover, if and only if each
call fits, when the bytes that have not been logged are as they were at the start. -/
theorem logAll_fits_iff (s : LogState c.word) (hm : ∀ x, ¬ s.Logged c x → s.mem x = m x)
    (ks : List LogCall) (hks : LogAll c (LogCall.Legal c) s ks) :
    (∀ x, ¬ s.Logged c x → ∀ b, Patch.first ((logRun c s ks).patches c) x = some b → b = m x) ↔
      LogAll c (LogCall.Fits c) s ks := by
  induction ks generalizing s with
  | nil =>
    refine iff_of_true (fun x hx b hb => ?_) trivial
    cases (not_not.1 hx).symm.trans hb
  | cons k ks ih =>
    obtain ⟨hk, hks⟩ := hks
    cases k with
    | log t a =>
      have hs' : (stmLog c t a s).patches c = s.patches c ++ [_] := List.map_append
      have ih := ih (stmLog c t a s) (fun x hx => hm x (not_logged_of_push hs' hx)) hks
      refine (forall_first_push hs').trans (and_congr ?_ ih)
      simp only [scalar_patch, LogCall.Fits]
      constructor
      · intro h j hj hlogged
        rw [hm _ hlogged]
        exact h _ hlogged _ ⟨j, hj, rfl, rfl⟩
      · rintro h _ hlogged b ⟨j, hj, rfl, rfl⟩
        rw [← hm _ hlogged]
        exact h j hj hlogged
    | logBytes a size =>
      have hs' : (stmLogBytes c a size s).patches c = s.patches c ++ [_] := List.map_append
      have ih := ih (stmLogBytes c a size s) (fun x hx => hm x (not_logged_of_push hs' hx)) hks
      refine (forall_first_push hs').trans (and_congr (iff_of_true ?_ trivial) ih)
      intro x hlogged b hb
      rw [← hm x hlogged]
      exact bytes_patch hb
    | write a bs =>
      have hm' (x : ℕ) (hx : ¬ s.Logged c x) : s.mem.overlay a bs x = m x := by
        rw [overlay_of_not_logged hk hx, hm x hx]
      exact (ih _ hm' hks).trans (iff_of_eq (true_and _)).symm

/-- The member of the union keeps the value of each type but the four unsigned ones of fixed size, and that
of a byte. -/
theorem restore_save {t : LogType} (h : t.member c.word = t.width c.word)
    (x : BitVec (8 * t.width c.word)) : t.restore c (t.save c.word x) = x := by
  have hid {n k : ℕ} (h : k = n) (y : BitVec n) :
      (if c.signedChar then (y.setWidth k).signExtend n else (y.setWidth k).setWidth n) = y := by
    subst h
    simp
  exact hid (congrArg _ h) x

/-- An abort undoes the direct writes of an attempt, if and only if each call of `stm_log_u16`,
`stm_log_u32` or `stm_log_u64` finds a value whose `char` has the bytes that the call is the first one to
log. -/
theorem log_undone_iff {s : LogState c.word} {calls : List LogCall} (hs : s.entries = [])
    (hcalls : LogAll c (LogCall.Legal c) s calls) :
    LogUndone c s calls ↔ LogAll c (LogCall.Fits c) s calls := by
  have hnone (x : ℕ) : ¬ s.Logged c x := by
    rw [LogState.Logged, not_not, LogState.patches, hs]
    rfl
  rw [logUndone_iff, ← logAll_fits_iff s (fun _ _ => rfl) calls hcalls]
  exact forall_congr' fun x => ⟨fun h _ => h, fun h => h (hnone x)⟩

/-- A target with signed characters. -/
def LogTarget.small : LogTarget := ⟨.little, .eight, true⟩

/-- The start, with a byte at address 1 that is not zero. -/
def LogState.small : LogState LogTarget.small.word :=
  modLogOnThreadInit _ (Function.update (fun _ => 0#8) 1 0x12#8)

/-- Two bytes are logged and overwritten. -/
def shortCalls (t : LogType) : List LogCall := [.log t 0, .write 0 [0xFF#8, 0xFF#8]]

/-- A value of type `uint16_t` is cut off. -/
theorem log_not_undone : ∃ calls : List LogCall,
    LogAll .small (LogCall.Legal .small) .small calls ∧
      ¬ LogUndone .small .small calls := by
  refine ⟨shortCalls .u16, by decide, fun h => ?_⟩
  have h := h 1
  revert h
  decide

/-- A value of type `unsigned short` is put back. -/
theorem log_undone_short :
    LogUndone .small .small (shortCalls .ushort) :=
  (log_undone_iff (c := .small) rfl (by decide)).2 (by decide)

end TinyStm
