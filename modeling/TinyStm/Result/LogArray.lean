import TinyStm.Modules.LogArray
import TinyStm.Result.Log

/-!
# The bookkeeping of the undo log

The loops that run when a transaction ends look only at the entries of that transaction, and free
each buffer once: the array represents the list of the entries, and `allocated` counts their
buffers. The array is indexed as in the code, and a cell beyond the entries holds what an earlier
attempt left there. The theorem is about every sequence of calls, commits and aborts: no loop reads
such a cell or frees a buffer twice.
-/

namespace TinyStm

variable {z : WordSize} (c : LogTarget)

/-- A call of `stm_log_*`, or a direct write. -/
def LogArray.call (s : LogArray c.word) : LogCall → LogArray c.word
  | .log t addr => s.log c t addr
  | .logBytes addr size => s.logBytes c addr size
  | .write addr bs => { s with mem := s.mem.overlay addr bs }

/-- The array holds the entries of the log. -/
structure LogArray.Represents (s : LogArray z) (t : LogState z) : Prop where
  nbEntries : s.nbEntries = t.entries.length
  cells : ∀ i, i < s.nbEntries → s.cells i = t.entries[i]?
  size : s.size = t.size
  allocated : s.allocated = t.allocated
  mem : s.mem = t.mem
  buffers : s.buffers = t.buffers
  freed : s.freed = t.freed

/-- The buffer of an entry. -/
def LogEntry.bufferId : LogEntry z → Option ℕ
  | .scalar .. => none
  | .bytes _ _ id => some id

/-- The buffers of some entries. -/
def bufferIds (ws : List (LogEntry z)) : List ℕ := ws.filterMap LogEntry.bufferId

/-- `allocated` counts the buffers of the entries, for which there is room, and each buffer that has
been allocated is one of them or has been freed once. -/
structure LogState.Ok (t : LogState z) : Prop where
  allocated : t.allocated = (bufferIds t.entries).length
  room : t.entries.length ≤ t.size
  owned : (bufferIds t.entries ++ t.freed).Perm (List.range t.buffers)

namespace LogArray

variable {c} {s : LogArray c.word} {t : LogState c.word}

theorem represents_init (mem : ByteMem) :
    (onThreadInit z mem).Represents (modLogOnThreadInit z mem) :=
  ⟨rfl, fun _ hi => (Nat.not_lt_zero _ hi).elim, rfl, rfl, rfl, rfl, rfl⟩

theorem Represents.getEntry {s : LogArray z} {t : LogState z} (h : s.Represents t)
    (w : LogEntry z) : (s.getEntry w).Represents (t.push w) := by
  refine
    { nbEntries := ?_, cells := fun i hi => ?_, size := ?_, allocated := h.allocated, mem := h.mem,
      buffers := h.buffers, freed := h.freed }
  · simp [LogArray.getEntry, LogState.push, h.nbEntries]
  · simp only [LogArray.getEntry, LogState.push]
    by_cases hin : i = s.nbEntries
    · rw [hin, Function.update_self, h.nbEntries, List.getElem?_concat_length]
    · have hlt : i < s.nbEntries := Nat.lt_of_le_of_ne (Nat.le_of_lt_succ hi) hin
      rw [Function.update_of_ne hin, h.cells i hlt, List.getElem?_append_left (h.nbEntries ▸ hlt)]
  · simp only [LogArray.getEntry, LogState.push, h.nbEntries, h.size]

theorem Represents.call (h : s.Represents t) (k : LogCall) :
    (s.call c k).Represents (k.exec c t) := by
  cases k with
  | log u a =>
    have hg := h.getEntry (.scalar u a (u.save c.word
      (c.order.ofBytes (u.width c.word) (s.mem.slice a (u.width c.word)))))
    rw [h.mem] at hg
    simp only [LogArray.call, LogArray.log, h.mem]
    exact hg
  | logBytes a n =>
    have hg := h.getEntry (.bytes a (t.mem.slice a n) t.buffers)
    simp only [LogArray.call, LogArray.logBytes, h.mem, h.buffers]
    exact ⟨hg.nbEntries, hg.cells, hg.size, by simp [LogCall.exec, stmLogBytes, h.allocated], hg.mem,
      rfl, hg.freed⟩
  | write a bs =>
    exact ⟨h.nbEntries, h.cells, h.size, h.allocated, by simp [LogArray.call, LogCall.exec, h.mem],
      h.buffers, h.freed⟩

/-! ## The loop of a commit -/

theorem bufferIds_cons (w : LogEntry z) (ws : List (LogEntry z)) :
    bufferIds (w :: ws) = w.bufferId.toList ++ bufferIds ws := by
  cases w <;> rfl

theorem bufferIds_append (ws vs : List (LogEntry z)) :
    bufferIds (ws ++ vs) = bufferIds ws ++ bufferIds vs := List.filterMap_append

/-- The loop stops at the last buffer. -/
theorem commitFrom_eq {ws : List (LogEntry z)} {i : ℕ} {s : LogArray z}
    (hcells : ∀ j, j < ws.length → s.cells (i + j) = ws[j]?)
    (halloc : s.allocated = (bufferIds ws).length) (hpos : 0 < s.allocated) :
    commitFrom ws.length i s =
      some { s with allocated := 0, freed := (bufferIds ws).reverse ++ s.freed } := by
  induction ws generalizing i s with
  | nil => simp [halloc, bufferIds] at hpos
  | cons w ws ih =>
    have hw : s.cells i = some w := hcells 0 (by simp)
    have hrest : ∀ j, j < ws.length → s.cells (i + 1 + j) = ws[j]? := fun j hj => by
      have := hcells (j + 1) (by simpa using hj)
      rwa [List.getElem?_cons_succ, ← Nat.add_assoc, Nat.add_right_comm] at this
    rw [List.length_cons, commitFrom, hw, Option.bind_eq_bind, Option.bind_some]
    cases w with
    | scalar t a v =>
      rw [bufferIds_cons] at halloc ⊢
      rw [if_pos hpos]
      exact ih hrest halloc hpos
    | bytes a v id =>
      rw [bufferIds_cons] at halloc ⊢
      have hlen : (s.freeBuffer id).allocated = (bufferIds ws).length := by
        simp only [LogArray.freeBuffer, halloc, LogEntry.bufferId, Option.toList_some,
          List.singleton_append, List.length_cons]
        omega
      dsimp only
      split
      · next hgt =>
        rw [ih (s := s.freeBuffer id) hrest hlen hgt]
        simp [LogArray.freeBuffer, LogEntry.bufferId]
      · next hle =>
        have hnil : bufferIds ws = [] := List.length_eq_zero_iff.1 (by omega)
        have hzero : s.allocated - 1 = 0 := by simpa [hnil, LogArray.freeBuffer] using hlen
        simp [LogArray.freeBuffer, LogEntry.bufferId, hnil, hzero]

/-- So does the loop over the list of entries. -/
theorem logCommitLoop_eq {ws : List (LogEntry z)} {t : LogState z}
    (halloc : t.allocated = (bufferIds ws).length) (hpos : 0 < t.allocated) :
    logCommitLoop ws t =
      some { t with allocated := 0, freed := (bufferIds ws).reverse ++ t.freed } := by
  induction ws generalizing t with
  | nil => simp [halloc, bufferIds] at hpos
  | cons w ws ih =>
    unfold logCommitLoop
    cases w with
    | scalar u a v =>
      rw [bufferIds_cons] at halloc ⊢
      rw [if_pos hpos]
      exact ih halloc hpos
    | bytes a v id =>
      rw [bufferIds_cons] at halloc ⊢
      have hlen : (t.freeBuffer id).allocated = (bufferIds ws).length := by
        simp [LogState.freeBuffer, halloc, LogEntry.bufferId]
      dsimp only
      split
      · next hgt =>
        rw [ih hlen hgt]
        simp [LogState.freeBuffer, LogEntry.bufferId]
      · next hle =>
        have hnil : bufferIds ws = [] := List.length_eq_zero_iff.1 (by omega)
        simp [LogState.freeBuffer, LogEntry.bufferId, hnil, halloc]

/-- The log after a commit. -/
theorem modLogOnCommit_eq {t : LogState z} (ht : t.Ok) : modLogOnCommit t = some { t with
    entries := [], allocated := 0, freed := (bufferIds t.entries).reverse ++ t.freed } := by
  unfold modLogOnCommit
  split
  · next hpos =>
    rw [logCommitLoop_eq ht.allocated hpos]
    rfl
  · next hle =>
    have hzero : t.allocated = 0 := by omega
    have hnil : bufferIds t.entries = [] := List.length_eq_zero_iff.1 (ht.allocated ▸ hzero)
    simp [hnil, ← hzero]

/-- The commit frees the buffers of the entries, and erases the log. -/
theorem Represents.onCommit {s : LogArray z} {t : LogState z} (h : s.Represents t) (ht : t.Ok) :
    s.onCommit = some { s with
      nbEntries := 0, allocated := 0, freed := (bufferIds t.entries).reverse ++ s.freed } := by
  have halloc : s.allocated = (bufferIds t.entries).length := by rw [h.allocated, ht.allocated]
  unfold LogArray.onCommit
  split
  · next hpos =>
    rw [h.nbEntries, commitFrom_eq (fun j hj => ?_) halloc hpos]
    · rfl
    · rw [Nat.zero_add, h.cells j (h.nbEntries ▸ hj)]
  · next hle =>
    have hnil : bufferIds t.entries = [] := List.length_eq_zero_iff.1 (by omega)
    have hzero : s.allocated = 0 := by simpa [hnil] using halloc
    simp [hnil, ← hzero]

/-! ## The loop of an abort -/

/-- What the entries leave when they are undone, the last one first. -/
theorem undo_fields (ws : List (LogEntry c.word)) (t : LogState c.word) :
    ws.foldr (LogState.undo c) t = { t with
      mem := (ws.foldr (LogState.undo c) t).mem
      allocated := t.allocated - (bufferIds ws).length
      freed := bufferIds ws ++ t.freed } := by
  induction ws with
  | nil => rfl
  | cons w ws ih =>
    rw [List.foldr_cons, bufferIds_cons]
    cases w with
    | scalar u a v =>
      simp only [LogState.undo]
      rw [ih]
      rfl
    | bytes a v id =>
      simp only [LogState.undo, LogState.freeBuffer]
      rw [ih]
      simp [LogEntry.bufferId]
      omega

/-- What one entry leaves. -/
theorem undo_eq (w : LogEntry c.word) (hmem : s.mem = t.mem) : s.undo c w = { s with
    mem := (t.undo c w).mem
    allocated := s.allocated - (bufferIds [w]).length
    freed := bufferIds [w] ++ s.freed } := by
  cases w with
  | scalar u a v =>
    have hids : bufferIds [LogEntry.scalar u a v] = [] := rfl
    simp [LogArray.undo, LogState.undo, hids, hmem]
  | bytes a v id =>
    have hids : bufferIds [LogEntry.bytes (z := c.word) a v id] = [id] := rfl
    simp [LogArray.undo, LogState.undo, LogArray.freeBuffer, LogState.freeBuffer, hids, hmem]

/-- The loop undoes the entries up to index `i`. -/
theorem abortFrom_eq {i : ℕ} {ws : List (LogEntry c.word)} (hlen : ws.length = i + 1)
    (hcells : ∀ j, j < ws.length → s.cells j = ws[j]?) (hmem : s.mem = t.mem) :
    abortFrom c i s = some { s with
      mem := (ws.foldr (LogState.undo c) t).mem
      allocated := s.allocated - (bufferIds ws).length
      freed := bufferIds ws ++ s.freed } := by
  induction i generalizing s t ws with
  | zero =>
    obtain ⟨w, rfl⟩ := List.length_eq_one_iff.1 hlen
    rw [abortFrom, hcells 0 (by simp)]
    exact congrArg some (undo_eq w hmem)
  | succ i ih =>
    obtain rfl | ⟨vs, w, rfl⟩ := List.eq_nil_or_concat ws
    · simp at hlen
    · rw [List.concat_eq_append] at hlen hcells ⊢
      have hvs : vs.length = i + 1 := by simpa using hlen
      have hw : s.cells (i + 1) = some w := by
        rw [hcells (i + 1) (by simp [hvs]), ← hvs, List.getElem?_concat_length]
      have hmem' : (s.undo c w).mem = (t.undo c w).mem := by rw [undo_eq w hmem]
      rw [abortFrom, hw, Option.bind_eq_bind, Option.bind_some,
        ih (t := t.undo c w) hvs (fun j hj => ?_) hmem', undo_eq w hmem, List.foldr_append,
        bufferIds_append]
      · simp only [List.length_append, List.append_assoc, List.foldr_cons, List.foldr_nil,
          Option.some.injEq, LogArray.mk.injEq, true_and, and_true]
        omega
      · rw [undo_eq w hmem]
        have hj' := hcells j (by simp; omega)
        rwa [List.getElem?_append_left hj] at hj'

/-- The abort undoes the entries, frees their buffers and erases the log. -/
theorem Represents.onAbort (h : s.Represents t) (ht : t.Ok) : s.onAbort c = some { s with
    nbEntries := 0, allocated := 0, mem := (modLogOnAbort c t).mem
    freed := bufferIds t.entries ++ s.freed } := by
  have halloc : s.allocated = (bufferIds t.entries).length := by rw [h.allocated, ht.allocated]
  unfold LogArray.onAbort
  split
  · next hpos =>
    have hlen : t.entries.length = s.nbEntries - 1 + 1 := by rw [← h.nbEntries]; omega
    rw [abortFrom_eq hlen (fun j hj => h.cells j (h.nbEntries ▸ hj)) h.mem, halloc, Int.sub_self]
    rfl
  · next hle =>
    have hnil : t.entries = [] := List.length_eq_zero_iff.1 (by rw [← h.nbEntries]; omega)
    have hzero : s.allocated = 0 := by simpa [hnil, bufferIds] using halloc
    simp [hnil, hzero, modLogOnAbort, bufferIds, ← h.mem]

/-- The log after an abort. -/
theorem modLogOnAbort_eq (ht : t.Ok) : modLogOnAbort c t = { t with
    entries := [], allocated := 0, mem := (modLogOnAbort c t).mem
    freed := bufferIds t.entries ++ t.freed } := by
  unfold modLogOnAbort
  rw [undo_fields, ht.allocated]
  simp

end LogArray

/-! ## Runs -/

/-- What a thread does: a step of an attempt, or the end of one. -/
inductive LogAction
  | call (k : LogCall)
  | commit
  | abort

/-- An action; none if a loop looks at an index that holds no entry of the attempt. -/
def LogAction.exec (s : LogArray c.word) : LogAction → Option (LogArray c.word)
  | .call k => some (s.call c k)
  | .commit => s.onCommit
  | .abort => s.onAbort c

/-- The actions of a thread. -/
def logActions : List LogAction → LogArray c.word → Option (LogArray c.word)
  | [], s => some s
  | k :: ks, s => do
    let s ← k.exec c s
    logActions ks s

/-- The entries of the attempt that is running. -/
def LogArray.live (s : LogArray z) : List (LogEntry z) := (List.range s.nbEntries).filterMap s.cells

/-- `allocated` is the number of the entries for which a buffer has been allocated, the array has room
for all entries, and each buffer that has been allocated belongs to one of them or has been freed once. -/
structure LogArray.Kept (s : LogArray z) : Prop where
  initialised : s.live.length = s.nbEntries
  allocated : s.allocated = (bufferIds s.live).length
  room : s.nbEntries ≤ s.size
  owned : (bufferIds s.live ++ s.freed).Perm (List.range s.buffers)

/-- The attempt has ended as `s'`: the log is empty, and the buffers of its entries have been freed. -/
def LogArray.EndsAs (s s' : LogArray z) : Prop :=
  s'.nbEntries = 0 ∧ s'.allocated = 0 ∧ s'.freed.Perm (bufferIds s.live ++ s.freed)

variable {c} {s : LogArray c.word} {t : LogState c.word}

theorem LogArray.Represents.live {s : LogArray z} {t : LogState z} (h : s.Represents t) :
    s.live = t.entries := by
  have hcells : ∀ i ∈ List.range s.nbEntries, s.cells i = t.entries[i]? := fun i hi =>
    h.cells i (List.mem_range.1 hi)
  rw [LogArray.live, List.filterMap_congr hcells, h.nbEntries]
  generalize t.entries = ws
  induction ws using List.reverseRecOn with
  | nil => rfl
  | append_singleton ws w ih =>
    have hinit : ∀ i ∈ List.range ws.length, (ws ++ [w])[i]? = ws[i]? := fun i hi =>
      List.getElem?_append_left (List.mem_range.1 hi)
    rw [List.length_append, List.length_singleton, List.range_succ, List.filterMap_append,
      List.filterMap_congr hinit, ih]
    simp

/-- What the log keeps is kept by the array that represents it. -/
theorem LogArray.Represents.kept {s : LogArray z} {t : LogState z} (h : s.Represents t) (ht : t.Ok) :
    s.Kept where
  initialised := by rw [h.live, h.nbEntries]
  allocated := by rw [h.live, h.allocated, ht.allocated]
  room := by rw [h.nbEntries, h.size]; exact ht.room
  owned := by rw [h.live, h.freed, h.buffers]; exact ht.owned

/-- A new entry finds room. -/
theorem LogState.push_room {t : LogState z} (h : t.entries.length ≤ t.size) (w : LogEntry z) :
    (t.push w).entries.length ≤ (t.push w).size := by
  have hsize : lwSetSize = 1024 := rfl
  simp only [LogState.push, List.length_append, List.length_singleton]
  split
  · split <;> omega
  · omega

/-- A step of an attempt keeps the log. -/
theorem LogState.Ok.call (h : t.Ok) (k : LogCall) : (k.exec c t).Ok := by
  cases k with
  | log u a =>
    have hids : bufferIds (stmLog c u a t).entries = bufferIds t.entries :=
      (LogArray.bufferIds_append _ _).trans (List.append_nil _)
    exact ⟨h.allocated.trans (congrArg List.length hids).symm, LogState.push_room h.room _,
      hids ▸ h.owned⟩
  | logBytes a n =>
    have hids : bufferIds (stmLogBytes c a n t).entries = bufferIds t.entries ++ [t.buffers] :=
      LogArray.bufferIds_append _ _
    refine ⟨?_, LogState.push_room h.room _, ?_⟩
    · rw [LogCall.exec, hids, List.length_append, ← h.allocated]
      rfl
    · have hperm := h.owned.append_right [t.buffers]
      rw [← List.range_succ, List.append_assoc] at hperm
      refine List.Perm.trans ?_ hperm
      rw [LogCall.exec, hids, List.append_assoc]
      exact List.Perm.append_left _ List.perm_append_comm
  | write a bs => exact ⟨h.allocated, h.room, h.owned⟩

/-- The log that an attempt leaves behind is empty. -/
theorem LogState.Ok.ended (h : t.Ok) {m : ByteMem} {ids : List ℕ}
    (hids : ids.Perm (bufferIds t.entries)) : LogState.Ok ({ t with
      entries := [], allocated := 0, mem := m, freed := ids ++ t.freed } : LogState c.word) where
  allocated := rfl
  room := Nat.zero_le _
  owned := (hids.append_right _).trans h.owned

/-- A commit ends the attempt. -/
theorem LogArray.Represents.commit (h : s.Represents t) (ht : t.Ok) :
    ∃ s' t', s.onCommit = some s' ∧ modLogOnCommit t = some t' ∧ s'.Represents t' ∧ t'.Ok ∧
      s.EndsAs s' := by
  refine ⟨_, _, h.onCommit ht, LogArray.modLogOnCommit_eq ht, ?_, ht.ended (List.reverse_perm _), rfl,
    rfl, ?_⟩
  · exact ⟨rfl, fun i hi => (Nat.not_lt_zero i hi).elim, h.size, rfl, h.mem, h.buffers, by
      rw [h.freed]⟩
  · rw [h.live]
    exact (List.reverse_perm _).append_right _

/-- An abort ends the attempt. -/
theorem LogArray.Represents.abort (h : s.Represents t) (ht : t.Ok) :
    ∃ s', s.onAbort c = some s' ∧ s'.Represents (modLogOnAbort c t) ∧ (modLogOnAbort c t).Ok ∧
      s.EndsAs s' := by
  refine ⟨_, h.onAbort ht, ?_, ?_, rfl, rfl, ?_⟩
  · rw [LogArray.modLogOnAbort_eq ht]
    exact ⟨rfl, fun i hi => (Nat.not_lt_zero i hi).elim, h.size, rfl, rfl, h.buffers, by rw [h.freed]⟩
  · rw [LogArray.modLogOnAbort_eq ht]
    exact ht.ended (List.Perm.refl _)
  · rw [h.live]

/-- An action succeeds, and the array represents a log that is kept. -/
theorem LogArray.Represents.exec (h : s.Represents t) (ht : t.Ok) (k : LogAction) :
    ∃ s' t', k.exec c s = some s' ∧ LogArray.Represents s' t' ∧ LogState.Ok t' := by
  cases k with
  | call k => exact ⟨_, _, rfl, h.call k, ht.call k⟩
  | commit =>
    obtain ⟨s', t', hs, -, hr, hok, -⟩ := h.commit ht
    exact ⟨s', t', hs, hr, hok⟩
  | abort =>
    obtain ⟨s', hs, hr, hok, -⟩ := h.abort ht
    exact ⟨s', _, hs, hr, hok⟩

/-- So do all actions of a thread. -/
theorem LogArray.Represents.actions (h : s.Represents t) (ht : t.Ok) (ks : List LogAction) :
    ∃ s' t', logActions c ks s = some s' ∧ LogArray.Represents s' t' ∧ LogState.Ok t' := by
  induction ks generalizing s t with
  | nil => exact ⟨s, t, rfl, h, ht⟩
  | cons k ks ih =>
    obtain ⟨s', t', hs, h', ht'⟩ := h.exec ht k
    rw [logActions, hs]
    exact ih h' ht'

/-- Whatever a thread does, no loop looks outside the entries of the attempt, the log is kept, and the
commit or the abort that ends an attempt frees the buffers of its entries. -/
theorem log_kept (mem : ByteMem) (ks : List LogAction) :
    ∃ s, logActions c ks (LogArray.onThreadInit c.word mem) = some s ∧ s.Kept ∧
      (∃ s', s.onCommit = some s' ∧ s.EndsAs s') ∧ ∃ s', s.onAbort c = some s' ∧ s.EndsAs s' := by
  obtain ⟨s, t, hs, h, ht⟩ := (LogArray.represents_init (z := c.word) mem).actions
    ⟨rfl, Nat.le_refl 0, List.Perm.refl _⟩ ks
  obtain ⟨s1, -, h1, -, -, -, he1⟩ := h.commit ht
  obtain ⟨s2, h2, -, -, he2⟩ := h.abort ht
  exact ⟨s, hs, h.kept ht, ⟨s1, h1, he1⟩, s2, h2, he2⟩

end TinyStm
