import TinyStm.Proof.Rollback
import TinyStm.Unit.Model

/-!
# Unit stores

A unit store that takes the lock gives the location a timestamp greater than all that it has had, and replaces
the whole word, whatever its mask is. The argument has three steps. A thread leaves alone what the lock of another
thread's unit store protects (`Guar`): the lock word, the versions that the lock has had, and the words of the stripe.
So a unit store knows, from its `CAS` until it drops the lock, what the word was when it took the lock (`taken`), and the
timestamp that it draws is newer than the versions of the lock, none of which is later than the clock (`Inv`). What it
has done is recorded when it drops the lock, and is compared with a store under the mask.
-/

namespace TinyStm.UnitTx

variable {Tid Addr Lock : Type} {w : ℕ} [DecidableEq Lock]

/-- The unit store has changed the bits of the mask, and no others, and has given the location a timestamp
greater than all that it has had. -/
structure Stored.Correct (r : Stored Addr w) : Prop where
  after_eq : r.after = BitVec.merge r.before r.value r.mask
  earlier_lt : ∀ v ∈ r.earlier, v < r.version

/-- The value has the bits that the word had outside of the mask. -/
def Pending.Agrees (c : Pending Addr w) : Prop := c.value &&& ~~~c.mask = c.before &&& ~~~c.mask

instance (c : Pending Addr w) : Decidable c.Agrees := inferInstanceAs (Decidable (_ = _))

/-- The version of a lock word that is not `LOCK_UNIT`. -/
def Word.version : Word Tid → Option ℕ
  | .free l | .owned _ l => some l
  | .unit _ => none

/-- The invariant: no timestamp is later than the clock, the ghost set has the locks of unit stores, and
every unit store that is over has stored its whole value under a timestamp that was new. -/
structure Inv (s : State Tid Addr Lock w) : Prop where
  versions : ∀ lock, ∀ v ∈ s.versions lock, v ≤ s.clock
  current : ∀ lock, ∀ l ∈ (s.locks lock).version, lockGetTimestamp l ≤ s.clock
  drawn : ∀ p, s.drawn p ≤ s.clock
  held : ∀ lock p, s.locks lock = .unit p → lock ∈ s.held
  stores : ∀ r ∈ s.stores, r.after = r.value ∧ ∀ v ∈ r.earlier, v < r.version

/-- What a thread may do: it leaves alone what is protected by a lock that another unit store has taken. -/
structure Guar (getLock : Addr → Lock) (p : Tid) (s s' : State Tid Addr Lock w) : Prop where
  lock : ∀ q, q ≠ p → ∀ lock, s.locks lock = .unit q → s'.locks lock = .unit q
  versions : ∀ q, q ≠ p → ∀ lock, s.locks lock = .unit q → s'.versions lock = s.versions lock
  clock : ∀ q, q ≠ p → ∀ lock, s.locks lock = .unit q → s.clock ≤ s'.clock
  mem : ∀ q, q ≠ p → ∀ addr, s.locks (getLock addr) = .unit q → s'.mem addr = s.mem addr
  pending : ∀ q, q ≠ p → s'.pending q = s.pending q

omit [DecidableEq Lock] in
/-- A step that changes nothing. -/
theorem Guar.refl {getLock : Addr → Lock} {p : Tid} {s : State Tid Addr Lock w} : Guar getLock p s s :=
  ⟨fun _ _ _ h => h, fun _ _ _ _ => rfl, fun _ _ _ _ => Nat.le_refl _, fun _ _ _ _ => rfl, fun _ _ => rfl⟩

/-- The protocol. -/
def unitProtocol (getLock : Addr → Lock) : RG (State Tid Addr Lock w) Tid where
  inv := Inv
  guar := Guar getLock
  obs _ := True
  refl _ _ _ := .refl

variable {getLock : Addr → Lock} {p : Tid} {s : State Tid Addr Lock w} {lock : Lock} {l : ℕ}

/-- The thread has taken the lock of a unit store; `φ` holds of the word, and `t` is newer than what the lock has
had. -/
def taken (c : Pending Addr w) (φ : BitVec w → Prop) (t : Option ℕ) :
    Assn (unitProtocol getLock : RG (State Tid Addr Lock w) Tid) p where
  holds s := s.locks (getLock c.addr) = .unit p ∧ s.pending p = some c ∧ φ (s.mem c.addr) ∧
    ∀ v ∈ t, v ≤ s.clock ∧ ∀ v' ∈ s.versions (getLock c.addr), v' < v
  stable q hq s s' _ _ hg h := by
    obtain ⟨hlock, hpending, hφ, ht⟩ := h
    have hp := Ne.symm hq
    rw [hg.pending p hp, hg.mem p hp _ hlock, hg.versions p hp _ hlock]
    exact ⟨hg.lock p hp _ hlock, hpending, hφ, fun v hv => ⟨(ht v hv).1.trans (hg.clock p hp _ hlock), (ht v hv).2⟩⟩

/-! ## Steps -/

/-- A lock is dropped by the thread that has it. -/
theorem Inv.release (h : Inv s) (hl : lockGetTimestamp l ≤ s.clock) : Inv (s.release lock l) where
  versions m v hv := by
    by_cases hm : m = lock
    · subst hm
      have hself : (s.release m l).versions m = lockGetTimestamp l :: s.versions m := Function.update_self ..
      rw [hself] at hv
      rcases List.mem_cons.1 hv with rfl | hv
      · exact hl
      · exact h.versions m v hv
    · have hother : (s.release lock l).versions m = s.versions m := Function.update_of_ne hm ..
      rw [hother] at hv
      exact h.versions m v hv
  current m v hv := by
    by_cases hm : m = lock
    · subst hm
      have hself : (s.release m l).locks m = .free l := Function.update_self ..
      rw [hself] at hv
      cases hv
      exact hl
    · have hother : (s.release lock l).locks m = s.locks m := Function.update_of_ne hm ..
      rw [hother] at hv
      exact h.current m v hv
  drawn := h.drawn
  held m q hm := by
    have hne : m ≠ lock := by
      rintro rfl
      have hself : (s.release m l).locks m = .free l := Function.update_self ..
      nomatch hself.symm.trans hm
    have hother : (s.release lock l).locks m = s.locks m := Function.update_of_ne hne ..
    exact Finset.mem_erase.2 ⟨hne, h.held m q (hother.symm.trans hm)⟩
  stores := h.stores

/-- A lock that no other unit store has may be dropped. -/
theorem release_guar (hlock : ∀ q, q ≠ p → s.locks lock ≠ .unit q) :
    Guar getLock p s (s.release lock l) := by
  have hne {q : Tid} (hq : q ≠ p) {m : Lock} (hm : s.locks m = .unit q) : m ≠ lock := by
    rintro rfl
    exact hlock q hq hm
  constructor
  · intro q hq m hm
    have hother : (s.release lock l).locks m = s.locks m := Function.update_of_ne (hne hq hm) ..
    exact hother.trans hm
  · intro q hq m hm
    exact Function.update_of_ne (hne hq hm) ..
  · intro q hq m hm
    exact Nat.le_refl _
  · intro q hq addr hm
    rfl
  · intro q hq
    rfl

/-- A free lock is taken. -/
theorem Inv.take (h : Inv s) {x : Word Tid} (hx : ∀ l ∈ x.version, lockGetTimestamp l ≤ s.clock)
    (pending : Tid → Option (Pending Addr w)) : Inv { s with
      locks := Function.update s.locks lock x, held := insert lock s.held, pending := pending } where
  versions := h.versions
  current m v hv := by
    by_cases hm : m = lock
    · subst hm
      have hself : Function.update s.locks m x m = x := Function.update_self ..
      exact hx v (hself ▸ hv)
    · have hother : Function.update s.locks lock x m = s.locks m := Function.update_of_ne hm ..
      exact h.current m v (hother ▸ hv)
  drawn := h.drawn
  held m q hq := by
    by_cases hm : m = lock
    · exact hm ▸ Finset.mem_insert_self lock s.held
    · have hother : Function.update s.locks lock x m = s.locks m := Function.update_of_ne hm ..
      exact Finset.mem_insert_of_mem (h.held m q (hother.symm.trans hq))
  stores := h.stores

/-- A lock that is free is not that of another unit store. -/
theorem take_guar (hfree : s.locks lock = .free l) {x : Word Tid}
    {pending : Tid → Option (Pending Addr w)}
    (hpending : ∀ q, q ≠ p → pending q = s.pending q) : Guar getLock p s { s with
      locks := Function.update s.locks lock x, held := insert lock s.held, pending := pending } where
  lock q hq m hm := by
    have hne : m ≠ lock := by
      rintro rfl
      rw [hfree] at hm
      cases hm
    have hother : Function.update s.locks lock x m = s.locks m := Function.update_of_ne hne ..
    exact hother.trans hm
  versions _ _ _ _ := rfl
  clock _ _ _ _ := Nat.le_refl _
  mem _ _ _ _ := rfl
  pending := hpending

omit [DecidableEq Lock] in
/-- The clock is incremented. -/
theorem Inv.tick (h : Inv s) {drawn : Tid → ℕ} (hdrawn : ∀ q, drawn q ≤ s.clock + 1) :
    Inv { s with clock := s.clock + 1, drawn := drawn } where
  versions m v hv := Nat.le_succ_of_le (h.versions m v hv)
  current m v hv := Nat.le_succ_of_le (h.current m v hv)
  drawn := hdrawn
  held := h.held
  stores := h.stores

omit [DecidableEq Lock] in
/-- The clock is not protected by a lock, but it only grows. -/
theorem tick_guar {drawn : Tid → ℕ} :
    Guar getLock p s { s with clock := s.clock + 1, drawn := drawn } where
  lock _ _ _ h := h
  versions _ _ _ _ := rfl
  clock _ _ _ _ := Nat.le_succ _
  mem _ _ _ _ := rfl
  pending _ _ := rfl

omit [DecidableEq Lock] in
/-- A lock that is that of `p`'s unit store is not that of another. -/
theorem unit_ne (hlock : s.locks lock = .unit p) {q : Tid} (hq : q ≠ p) : s.locks lock ≠ .unit q := by
  intro hn
  rw [hlock] at hn
  cases hn
  exact hq rfl

variable [DecidableEq Addr]

omit [DecidableEq Lock] in
/-- A word is stored whose lock no other unit store has. -/
theorem store_guar {addr : Addr} {value : BitVec w}
    (hlock : ∀ q, q ≠ p → s.locks (getLock addr) ≠ .unit q) :
    Guar getLock p s { s with mem := Function.update s.mem addr value } where
  lock _ _ _ h := h
  versions _ _ _ _ := rfl
  clock _ _ _ _ := Nat.le_refl _
  mem q hq a ha := by
    have hne : a ≠ addr := by
      rintro rfl
      exact hlock q hq ha
    exact Function.update_of_ne hne ..
  pending _ _ := rfl

/-! ## Calls -/

section
variable [DecidableEq Tid] {J : Assn (unitProtocol getLock : RG (State Tid Addr Lock w) Tid) p}

omit [DecidableEq Lock] [DecidableEq Addr] in
/-- `stm_unit_load` only reads. -/
theorem stmUnitLoad_spec {addr : Addr} {timestamp : Option ℕ} :
    Triple (unitProtocol getLock : RG (State Tid Addr Lock w) Tid) p (.pure True)
      (stmUnitLoad getLock addr timestamp) (fun _ => .pure True) J := by
  have hread : ∀ {β : Type} (g : State Tid Addr Lock w → β),
      Triple (unitProtocol getLock) p (.pure True) (.read g) (fun _ => .pure True) J := fun g =>
    .read fun _ _ _ => trivial
  refine .iterate (fun _ => .pure True) (fun _ _ _ => trivial) fun l? => ?_
  refine .bind (R := fun _ => .pure True) ?_ fun l => ?_
  · cases l? with
    | none => exact hread _
    | some l => exact .of_ret fun _ _ _ => trivial
  · cases l with
    | owned q l => exact .of_ret fun _ _ _ => trivial
    | unit q => exact .of_ret fun _ _ _ => trivial
    | free l =>
      refine .bind (hread _) fun value => .bind (hread _) fun l2 => ?_
      exact .ite (fun _ => .of_ret fun _ _ _ => trivial) fun _ => .of_ret fun _ _ _ => trivial

omit [DecidableEq Addr] in
/-- A unit store that takes the lock knows what the word is, until it drops the lock. -/
theorem casUnit_spec {addr : Addr} {value mask : BitVec w} :
    Triple (unitProtocol getLock : RG (State Tid Addr Lock w) Tid) p (.pure True)
      (casUnit p (getLock addr) l addr value mask)
      (fun ok => .imp (ok = true) (.ex fun before =>
        taken ⟨addr, value, mask, before⟩ (fun _ => True) none)) J := by
  refine .atomic fun s hs _ => ?_
  by_cases hfree : s.locks (getLock addr) = .free l
  · rw [if_pos hfree]
    refine ⟨?_, ?_, ?_⟩
    · exact hs.inv.take (by nofun) _
    · exact take_guar hfree fun q hq => Function.update_of_ne hq ..
    · intro _
      refine ⟨s.mem addr, Function.update_self .., Function.update_self .., trivial, ?_⟩
      intro v hv
      cases hv
  · rw [if_neg hfree]
    refine ⟨hs.inv, .refl, ?_⟩
    intro hok
    cases hok

omit [DecidableEq Lock] [DecidableEq Tid] in
/-- The word is stored while the unit store has its lock. -/
theorem storeWord_spec {c : Pending Addr w} :
    Triple (unitProtocol getLock : RG (State Tid Addr Lock w) Tid) p (taken c (fun _ => True) none)
      (storeWord c.addr c.value) (fun _ => taken c (· = c.value) none) J := by
  refine .modify fun s hs htaken => ?_
  obtain ⟨hlock, hpending, -, -⟩ := htaken
  have hinv := hs.inv
  refine ⟨⟨hinv.versions, hinv.current, hinv.drawn, hinv.held, hinv.stores⟩, ?_, ?_⟩
  · exact store_guar fun q hq => unit_ne hlock hq
  · refine ⟨hlock, hpending, Function.update_self .., ?_⟩
    intro v hv
    cases hv

omit [DecidableEq Lock] [DecidableEq Addr] [DecidableEq Tid] in
/-- The timestamp is newer than all that the lock has had. -/
theorem fetchIncClock_spec {c : Pending Addr w} :
    Triple (unitProtocol getLock : RG (State Tid Addr Lock w) Tid) p (taken c (· = c.value) none)
      fetchIncClock (fun t => taken c (· = c.value) (some t)) J := by
  refine .atomic fun s hs htaken => ?_
  obtain ⟨hlock, hpending, hmem, -⟩ := htaken
  refine ⟨?_, tick_guar, hlock, hpending, hmem, ?_⟩
  · exact hs.inv.tick fun q => Nat.le_succ_of_le (hs.inv.drawn q)
  · intro v hv
    cases hv
    refine ⟨Nat.le_refl _, fun v' hv' => ?_⟩
    exact Nat.lt_succ_of_le (hs.inv.versions _ v' hv')

omit [DecidableEq Addr] in
/-- The lock is dropped, and the unit store is over. -/
theorem dropUnit_spec {c : Pending Addr w} {t : ℕ} :
    Triple (unitProtocol getLock : RG (State Tid Addr Lock w) Tid) p
      (taken c (· = c.value) (some t)) (dropUnit p (getLock c.addr) t) (fun _ => .pure True) J := by
  refine .modify fun s hs htaken => ?_
  obtain ⟨hlock, hpending, hmem, ht⟩ := htaken
  obtain ⟨hclock, hearlier⟩ := ht t rfl
  have hinv : Inv (s.release (getLock c.addr) (lockSetTimestamp t)) :=
    hs.inv.release (by rwa [lockGetTimestamp_lockSetTimestamp])
  have hguar : Guar getLock p s (s.release (getLock c.addr) (lockSetTimestamp t)) :=
    release_guar fun q hq => unit_ne hlock hq
  refine ⟨⟨hinv.versions, hinv.current, hinv.drawn, hinv.held, ?_⟩, ?_, trivial⟩
  · intro r hr
    simp only [hpending] at hr
    rcases List.mem_cons.1 hr with rfl | hr
    · exact ⟨hmem, hearlier⟩
    · exact hs.inv.stores r hr
  · refine ⟨hguar.lock, hguar.versions, hguar.clock, hguar.mem, ?_⟩
    intro q hq
    exact Function.update_of_ne hq ..

/-- `stm_unit_write` starts again until it finds the lock free and its `CAS` succeeds. -/
theorem stmUnitWrite_spec {addr : Addr} {value mask : BitVec w} {timestamp : Option ℕ} :
    Triple (unitProtocol getLock : RG (State Tid Addr Lock w) Tid) p (.pure True)
      (stmUnitWrite getLock p addr value mask timestamp) (fun _ => .pure True) J := by
  refine .iterate (fun _ => .pure True) (fun _ _ _ => trivial) fun _ => ?_
  refine .bind (R := fun _ => .pure True) (.read fun _ _ _ => trivial) fun l => ?_
  cases l with
  | owned q l => exact .of_ret fun _ _ _ => trivial
  | unit q => exact .of_ret fun _ _ _ => trivial
  | free l =>
    refine .ite (fun _ => .of_ret fun _ _ _ => trivial) fun _ => ?_
    refine .bind casUnit_spec fun ok => ?_
    refine .ite (fun hok => ?_) fun _ => .of_ret fun _ _ _ => trivial
    refine Triple.of_exists (R := fun before => taken ⟨addr, value, mask, before⟩ (fun _ => True) none)
      (fun _ _ h => h hok) fun before => ?_
    refine .bind storeWord_spec fun _ => ?_
    refine .bind fetchIncClock_spec fun t => ?_
    exact .bind dropUnit_spec fun _ => .of_ret fun _ _ _ => trivial

omit [DecidableEq Lock] [DecidableEq Addr] [DecidableEq Tid] in
/-- The accesses of a transaction, and the rollover. -/
theorem step_spec {f : State Tid Addr Lock w → State Tid Addr Lock w}
    (h : ∀ s, Inv s → Inv (f s) ∧ Guar getLock p s (f s)) :
    Triple (unitProtocol getLock) p (.pure True) (.modify f) (fun _ => .pure True) J :=
  .modify fun s hs _ => ⟨(h s hs.inv).1, (h s hs.inv).2, trivial⟩

omit [DecidableEq Addr] [DecidableEq Tid] in
/-- A transaction takes a lock that is free. -/
theorem acquire_spec (h : Inv s) : Inv (s.acquire p lock) ∧ Guar getLock p s (s.acquire p lock) := by
  rw [State.acquire]
  split
  · rename_i l hfree
    refine ⟨h.take (fun v hv => ?_) s.pending, take_guar hfree fun _ _ => rfl⟩
    cases hv
    exact h.current lock l (by rw [hfree]; rfl)
  · exact ⟨h, .refl⟩
  · exact ⟨h, .refl⟩

omit [DecidableEq Lock] in
/-- A transaction stores to a word whose lock it has. -/
theorem txStore_spec (h : Inv s) {addr : Addr} {value : BitVec w} :
    Inv (s.store getLock p addr value) ∧ Guar getLock p s (s.store getLock p addr value) := by
  rw [State.store]
  split
  · rename_i q l howned
    split
    · refine ⟨⟨h.versions, h.current, h.drawn, h.held, h.stores⟩, store_guar fun r _ hr => ?_⟩
      nomatch howned.symm.trans hr
    · exact ⟨h, .refl⟩
  · exact ⟨h, .refl⟩
  · exact ⟨h, .refl⟩

omit [DecidableEq Addr] in
/-- A transaction drops a lock that it has. -/
theorem drop_spec (h : Inv s) {f : ℕ → ℕ} (hf : ∀ l, lockGetTimestamp l ≤ s.clock → lockGetTimestamp (f l) ≤ s.clock) :
    Inv (s.drop p lock f) ∧ Guar getLock p s (s.drop p lock f) := by
  rw [State.drop]
  split
  · rename_i q l howned
    split
    · refine ⟨h.release (hf l (h.current lock l (by rw [howned]; rfl))), release_guar fun r _ hr => ?_⟩
      nomatch howned.symm.trans hr
    · exact ⟨h, .refl⟩
  · exact ⟨h, .refl⟩
  · exact ⟨h, .refl⟩

/-- A transaction that aborts keeps the timestamp of the lock word. -/
theorem lockGetTimestamp_nextIncarnation (l : ℕ) : lockGetTimestamp (nextIncarnation l) = lockGetTimestamp l := by
  rw [nextIncarnation]
  split
  · rfl
  · rename_i hle
    exact lockGetTimestamp_lockUpdIncarnation (Nat.not_lt.1 hle)

omit [DecidableEq Addr] [DecidableEq Tid] in
/-- The clock is set back only while all locks are free. -/
theorem rollover_spec (h : Inv s) : Inv s.rollover ∧ Guar getLock p s s.rollover := by
  rw [State.rollover]
  split
  · rename_i hheld
    have hunit (q : Tid) (lock : Lock) : s.locks lock ≠ .unit q := by
      intro hq
      have hmem := h.held lock q hq
      rw [hheld] at hmem
      exact Finset.notMem_empty lock hmem
    constructor
    · constructor
      · intro lock v hv
        exact (List.mem_singleton.1 hv).le
      · intro lock l hl
        cases hl
        exact Nat.le_refl 0
      · exact fun _ => Nat.le_refl 0
      · intro lock q hq
        cases hq
      · exact h.stores
    · constructor
      · exact fun q _ m hm => (hunit q m hm).elim
      · exact fun q _ m hm => (hunit q m hm).elim
      · exact fun q _ m hm => (hunit q m hm).elim
      · exact fun _ _ _ _ => rfl
      · exact fun _ _ => rfl
  · exact ⟨h, .refl⟩

/-- Every call keeps the invariant. -/
theorem exec_spec (p : Tid) (cmd : Cmd Addr Lock w) : Triple (unitProtocol getLock) p (.pure True)
    (exec getLock p cmd) (fun _ => .pure True) (.pure True) := by
  cases cmd with
  | unitLoad addr timestamp => exact .bind stmUnitLoad_spec fun _ => .of_ret fun _ _ _ => trivial
  | unitStore addr value timestamp => exact .bind stmUnitWrite_spec fun _ => .of_ret fun _ _ _ => trivial
  | unitStore2 addr value mask timestamp => exact .bind stmUnitWrite_spec fun _ => .of_ret fun _ _ _ => trivial
  | acquire lock => exact step_spec fun s h => acquire_spec h
  | store addr value => exact step_spec fun s h => txStore_spec h
  | draw =>
    refine step_spec fun s h => ⟨h.tick fun q => ?_, tick_guar⟩
    by_cases hq : q = p
    · rw [hq, Function.update_self]
    · rw [Function.update_of_ne hq]
      exact Nat.le_succ_of_le (h.drawn q)
  | commit lock =>
    refine step_spec fun s h => drop_spec h fun l _ => ?_
    rw [lockGetTimestamp_lockSetTimestamp]
    exact h.drawn p
  | restore lock => exact step_spec fun s h => drop_spec h fun _ hl => hl
  | reincarnate lock => exact step_spec fun s h => drop_spec h fun l hl => by rwa [lockGetTimestamp_nextIncarnation]
  | rollover => exact step_spec fun s h => rollover_spec h

end

/-! ## Runs -/

omit [DecidableEq Lock] [DecidableEq Addr] in
/-- The invariant holds when the library has been initialised. -/
theorem inv_init (m₀ : Addr → BitVec w) : Inv (State.init m₀ : State Tid Addr Lock w) where
  versions _ _ hv := (List.mem_singleton.1 hv).le
  current _ l hl := by
    cases hl
    exact Nat.le_refl 0
  drawn _ := Nat.le_refl 0
  held := nofun
  stores := nofun

/-- A store of the whole value is a store under the mask. -/
theorem eq_merge_iff (old value mask : BitVec w) :
    value = BitVec.merge old value mask ↔ value &&& ~~~mask = old &&& ~~~mask := by
  constructor
  · intro h
    refine BitVec.eq_of_getLsbD_eq fun i hi => ?_
    have hbit := congrArg (BitVec.getLsbD · i) h
    simp only [BitVec.getLsbD_merge] at hbit
    simp only [BitVec.getLsbD_and, BitVec.getLsbD_not, hi, decide_true, Bool.true_and]
    cases hm : mask.getLsbD i with
    | true => simp
    | false =>
      rw [hm] at hbit
      rw [hbit]
      rfl
  · intro h
    refine BitVec.eq_of_getLsbD_eq fun i hi => ?_
    have hbit := congrArg (BitVec.getLsbD · i) h
    simp only [BitVec.getLsbD_and, BitVec.getLsbD_not, hi, decide_true, Bool.true_and] at hbit
    rw [BitVec.getLsbD_merge]
    cases hm : mask.getLsbD i with
    | true => rfl
    | false => simpa [hm] using hbit

/-- In every run, a unit store that has taken the lock changes the bits of the mask and no others exactly when the
value has the bits that the word had outside of the mask; the new timestamp is always the greatest. -/
theorem unit_store_correct_iff [DecidableEq Tid] {m₀ : Addr → BitVec w} {T : Pool (State Tid Addr Lock w) Tid}
    (h : Pool.Reaches (exec getLock) Called (Pool.init (State.init m₀)) T) :
    ∀ r ∈ T.st.stores, (r.Correct ↔ r.Agrees) ∧ ∀ v ∈ r.earlier, v < r.version := by
  have hinv : Inv T.st := (Pool.sound (S := Pool.init (State.init m₀)) (B := fun _ => .pure True) exec_spec
    (fun _ _ _ _ _ _ => trivial) (inv_init m₀) (fun _ => Pool.atOutline_init trivial) h fun _ _ _ => trivial).1
  intro r hr
  obtain ⟨hafter, hearlier⟩ := hinv.stores r hr
  have hiff : r.after = BitVec.merge r.before r.value r.mask ↔ r.Agrees := by
    rw [hafter]
    exact eq_merge_iff r.before r.value r.mask
  exact ⟨⟨fun hc => hiff.1 hc.after_eq, fun ha => ⟨hiff.2 ha, hearlier⟩⟩, hearlier⟩

/-- A word is stored whole, and then its low byte. -/
def lowByte : List (Pool.Label (Fin 2) (Cmd (Fin 1) (Fin 1) 64)) :=
  Pool.Label.calls 8 [(0, .unitStore 0 0x1122 none), (1, .unitStore2 0 0x33 0xff none)]

/-- The stores of that run. -/
def afterLowByte : Pool (State (Fin 2) (Fin 1) (Fin 1) 64) (Fin 2) :=
  Pool.follow (exec id) (Pool.init (State.init fun _ => 0)) lowByte

set_option maxRecDepth 10000 in
theorem unit_store_correct_iff_lowByte : afterLowByte.st.stores =
      [⟨⟨0, 0x33, 0xff, 0x1122⟩, 0x33, 2, [1, 0]⟩, ⟨⟨0, 0x1122, BitVec.allOnes 64, 0⟩, 0x1122, 1, [0]⟩] ∧
    ∀ r ∈ afterLowByte.st.stores, (r.Correct ↔ r.Agrees) ∧ ∀ v ∈ r.earlier, v < r.version :=
  ⟨by decide, unit_store_correct_iff (Pool.Follows.reaches (by decide))⟩

set_option maxRecDepth 10000 in
/-- The other bytes of the word are lost. -/
theorem unit_store2_loses_bytes :
    Pool.Reaches (exec id) Called (Pool.init (State.init fun _ => 0)) afterLowByte ∧
      ∃ r ∈ afterLowByte.st.stores, r.mask = 0xff ∧ r.before = 0x1122 ∧ r.after = 0x33 ∧ ¬ r.Correct := by
  have hstored : (⟨⟨0, 0x33, 0xff, 0x1122⟩, 0x33, 2, [1, 0]⟩ : Stored (Fin 1) 64) ∈ afterLowByte.st.stores := by
    decide
  exact ⟨Pool.Follows.reaches (by decide), _, hstored, rfl, rfl, rfl, fun h => absurd h.after_eq (by decide)⟩

end TinyStm.UnitTx
