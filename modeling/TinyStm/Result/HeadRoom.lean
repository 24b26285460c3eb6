import TinyStm.Quiesce.Check
import TinyStm.Result.Encoding
import TinyStm.Result.Exclusive

/-!
# The head-room of the clock

`VERSION_MAX` leaves room for `MAX_THREADS` timestamps above it: a thread that increments the clock to
`VERSION_MAX` or beyond waits in the barrier before it starts another transaction, so an attempt that
increments the clock once does so at most once beyond (`TinyStm.Quiesce.Check`). The room is exceeded by the
paths that increment the clock without a check before: a unit store looks at the clock only after it has
incremented it, and a failing commit in write-through draws one timestamp for itself and another one when
an incarnation overflows in its rollback. `headRoom_suffices` says how many of those the room allows, and
`headRoom_exceeded` is a run in which every thread makes one unit store.
-/

namespace TinyStm.Quiesce

/-- What decides `VERSION_MAX`: the size of `stm_word_t`, and the number of owned bits in a lock word, which
depends on the contention manager. The head-room fits in a word. -/
structure Build where
  bits : ℕ
  modular : Bool
  gc : Option GcConfig
  room : maxThreads + 2 ≤ 2 ^ (bits - Encoding.lockBits modular)

/-- `VERSION_MAX` of the build. -/
def Build.versionMax (B : Build) : BitVec B.bits := Encoding.versionMax B.modular

/-- The build options. -/
def Build.config (B : Build) : Config := ⟨B.versionMax.toNat, B.gc⟩

variable {Tid Addr : Type} {B : Build} {cfg : Config}

/-- The clock is at most `MAX_THREADS` beyond `VERSION_MAX`, and every timestamp that it has given can be
read back from a lock word. -/
structure State.HeadRoom (B : Build) (s : State Tid Addr) : Prop where
  clock : s.gc.clock ≤ B.versionMax.toNat + maxThreads
  stamps : ∀ t ∈ s.stamps, (Encoding.lockGetTimestamp B.modular
    (Encoding.lockSetTimestamp B.modular (.ofNat B.bits t))).toNat = t

/-! ## Timestamps in lock words -/

/-- The bits of a word that are above those of the lock. -/
theorem ones_shiftRight (w b : ℕ) : (2 ^ w - 1) >>> b = 2 ^ (w - b) - 1 := by
  refine Nat.eq_of_testBit_eq fun i => ?_
  rw [Nat.testBit_shiftRight, Nat.testBit_two_pow_sub_one, Nat.testBit_two_pow_sub_one]
  exact decide_eq_decide.2 (by omega)

/-- `MAX_THREADS` as a word. -/
theorem Build.maxThreads_toNat (B : Build) :
    (Encoding.maxThreads : BitVec B.bits).toNat = maxThreads := by
  have hroom := B.room
  have hle : 2 ^ (B.bits - Encoding.lockBits B.modular) ≤ 2 ^ B.bits :=
    Nat.pow_le_pow_right (by decide) (Nat.sub_le ..)
  rw [Encoding.maxThreads, BitVec.toNat_ofNat, Nat.mod_eq_of_lt (by omega)]

/-- The head-room ends with the last timestamp that fits above the bits of the lock. -/
theorem Build.versionMax_toNat (B : Build) :
    B.versionMax.toNat + maxThreads = 2 ^ (B.bits - Encoding.lockBits B.modular) - 1 := by
  have hroom := B.room
  have hmax : (~~~0#B.bits >>> Encoding.lockBits B.modular).toNat =
      2 ^ (B.bits - Encoding.lockBits B.modular) - 1 := by
    rw [BitVec.toNat_ushiftRight, BitVec.toNat_not, ← ones_shiftRight]
    rfl
  rw [Build.versionMax, Encoding.versionMax, BitVec.toNat_sub_of_le, hmax, B.maxThreads_toNat]
  · omega
  · rw [BitVec.le_def, hmax, B.maxThreads_toNat]
    omega

/-- A timestamp within the head-room is read back from a lock word. -/
theorem Build.timestamp_roundTrip {t : ℕ} (h : t ≤ B.versionMax.toNat + maxThreads) :
    (Encoding.lockGetTimestamp B.modular
      (Encoding.lockSetTimestamp B.modular (.ofNat B.bits t))).toNat = t := by
  have hmax := B.versionMax_toNat
  have hpow : 2 ^ (B.bits - Encoding.lockBits B.modular) ≤ 2 ^ B.bits :=
    Nat.pow_le_pow_right (by decide) (Nat.sub_le ..)
  have hroom := B.room
  have ht : (BitVec.ofNat B.bits t).toNat = t := by
    rw [BitVec.toNat_ofNat, Nat.mod_eq_of_lt (by omega)]
  have hle : BitVec.ofNat B.bits t ≤ B.versionMax + Encoding.maxThreads := by
    rw [BitVec.le_def, ht, BitVec.toNat_add, B.maxThreads_toNat, Nat.mod_eq_of_lt (by omega)]
    exact h
  rw [Encoding.timestamp_of_set hle, ht]

/-! ## The bound -/

/-- Every timestamp that the clock has given is within the head-room. -/
def Room.InRoom (cfg : Config) (r : Room Tid) : Prop := ∀ t ∈ r.stamps, t ≤ cfg.versionMax + maxThreads

/-- The clock is within the head-room, if the crew and the overdraws are. -/
theorem Room.Bounded.le {r : Room Tid} (h : r.Bounded cfg) (ho : r.crew + r.overdraws ≤ maxThreads) :
    r.clock ≤ cfg.versionMax + maxThreads := by
  by_cases hmax : cfg.versionMax ≤ r.clock
  · have hclock := h.clock hmax
    omega
  · omega

/-- A step gives no timestamp beyond the head-room. -/
theorem Draw.inRoom [DecidableEq Tid] {p : Tid} {r r' : Room Tid} (h : Draw cfg p r r')
    (hr : r.InRoom cfg) (hle : r'.clock ≤ cfg.versionMax + maxThreads) : r'.InRoom cfg := by
  cases h with
  | tick =>
    intro t ht
    rcases List.mem_cons.1 ht with rfl | ht
    · exact hle
    · exact hr t ht
  | keep | register | unregister | rollover | check => exact hr

/-- The clock does not leave its head-room, and every timestamp can be read back from a lock word, in every
run in which the threads that were registered when the clock got to `VERSION_MAX` and the overdraws since
are together at most `MAX_THREADS`. An overdraw is an increment to `VERSION_MAX` or beyond in a unit store, in
a rollback after the commit has drawn a timestamp, or in a rollback of an attempt that has been given up, by
a thread that has incremented the clock since it got to `VERSION_MAX`, or was not registered then. -/
theorem headRoom_suffices [DecidableEq Tid] {T : Pool (State Tid Addr) Tid}
    (h : QRun B.config (fun s => s.crew + s.overdraws ≤ maxThreads) T) : T.st.HeadRoom B := by
  have hv : 0 < B.config.versionMax := by
    have hmax := B.versionMax_toNat
    have hroom := B.room
    show 0 < B.versionMax.toNat
    omega
  obtain ⟨hbounded, hstamps⟩ := room_bounded hv (J := Room.InRoom B.config)
    (O := fun s : State Tid Addr => s.crew + s.overdraws ≤ maxThreads) nofun
    (fun p s s' hdraw hbounded ho hstamps => hdraw.inRoom hstamps (hbounded.le ho)) h
  exact ⟨hbounded.le h.obs, fun t ht => B.timestamp_roundTrip (hstamps t ht)⟩

/-! ## Two timestamps each -/

section
variable [DecidableEq Tid] {p : Tid} {s : State Tid Addr} {k : ℕ} {R A : Tid → Prop}

/-- Nobody waits and no transaction is irrevocable; `R` are registered and `A` in a transaction. -/
structure State.Peaceful (s : State Tid Addr) (k : ℕ) (R A : Tid → Prop) : Prop where
  mutex : s.mutex = none
  quiesce : s.quiesce = 0
  mode : ∀ q, (s.txs q).mode = 0
  clock : s.gc.clock = k
  registered : ∀ q, q ∈ s.threads ↔ R q
  active : ∀ q, (s.txs q).status.isActive = true ↔ A q

/-- A thread changes its descriptor. -/
theorem State.Peaceful.setTx (h : s.Peaceful k R A) {tx : Tx} {A' : Tid → Prop} (hmode : tx.mode = 0)
    (hp : tx.status.isActive = true ↔ A' p) (hA : ∀ q, q ≠ p → (A q ↔ A' q)) :
    State.Peaceful { s with txs := Function.update s.txs p tx } k R A' := by
  refine ⟨h.mutex, h.quiesce, fun q => ?_, h.clock, h.registered, fun q => ?_⟩
  all_goals
    dsimp only
    by_cases hq : q = p
  · subst hq
    rwa [Function.update_self]
  · rw [Function.update_of_ne hq]
    exact h.mode q
  · subst hq
    rwa [Function.update_self]
  · rw [Function.update_of_ne hq]
    exact (h.active q).trans (hA q hq)

omit [DecidableEq Tid] in
theorem lockMutex_ends {Q : Unit → State Tid Addr → Prop} {J : State Tid Addr → Prop}
    (hmutex : s.mutex = none) (hQ : Q () { s with mutex := some p }) :
    (lockMutex p).Ends Q J s := by
  refine .leave (.access (.ret ?_))
  rw [if_pos hmutex]
  exact ⟨(), rfl, hQ⟩

/-- A thread changes its descriptor, but neither its mode nor whether it is active. -/
theorem modifyTx_ends {f : Tx → Tx} {c : Unit → QProg Tid Addr Unit}
    {Q : Unit → State Tid Addr → Prop} {J : State Tid Addr → Prop} (h : s.Peaceful k R A)
    (hmode : ∀ tx, (f tx).mode = tx.mode)
    (hactive : ∀ tx, (f tx).status.isActive = tx.status.isActive)
    (hc : ∀ t : State Tid Addr, t.Peaceful k R A → (c ()).Ends Q J t) :
    (modifyTx p f >>= c).Ends Q J s :=
  .access (hc _ (h.setTx ((hmode _).trans (h.mode p)) (by rw [hactive]; exact h.active p)
    fun _ _ => .rfl))

/-- `int_stm_init_thread`, without the collector. -/
theorem initThread_ends (hgc : cfg.gc = none) (h : s.Peaceful k R A) (hp : ¬ A p) :
    (intStmInitThread cfg p).Ends (fun _ t => t.Peaceful k (fun q => R q ∨ q = p) A)
      (fun _ => False) s := by
  refine .access ?_
  have h' : State.Peaceful { s with
      window := p :: s.window, exposed := s.exposed || decide (s.rolling ≠ none) } k R A := { h with }
  refine Prog.Ends.bind (Q := fun _ t => t.Peaceful k R A) ?_ fun _ t ht => ?_
  · refine modifyTx_ends h' (fun _ => rfl) (fun _ => rfl) fun t ht => ?_
    rw [callGc, hgc]
    exact .atomic (ht.setTx (ht.mode p) (ht.active p) fun _ _ => .rfl)
  refine .access (.bind (lockMutex_ends ht.mutex (Q := fun _ u => u =
    { t.setTx p (fun _ => .init) with mutex := some p }) rfl) fun _ u hu => ?_)
  subst hu
  have ht' : (t.setTx p fun _ => .init).Peaceful k R A :=
    ht.setTx rfl (iff_of_false nofun hp) fun _ _ => .rfl
  refine .access (.atomic { ht' with mutex := rfl, registered := fun q => ?_ })
  refine List.mem_cons.trans ?_
  rw [or_comm]
  exact or_congr (ht'.registered q) .rfl

/-- `stm_check_quiesce`, when nobody quiesces. -/
theorem checkQuiesce_ends (h : s.Peaceful k R A) :
    (stmCheckQuiesce p).Ends (fun _ t => t.Peaceful k R A) (fun _ => False) s := by
  have hquiesce : s.quiesce ≠ 2 := by
    rw [h.quiesce]
    decide
  refine .access ?_
  dsimp only
  rw [if_neg hquiesce, if_neg hquiesce]
  exact .ret (h.setTx (h.mode p) (h.active p) fun _ _ => .rfl)

/-- The outermost `int_stm_start`, before the clock gets to its end. -/
theorem start_ends (hgc : cfg.gc = none) (h : s.Peaceful k R A) (hk : k < cfg.versionMax) :
    (intStmStart cfg p false).Ends (fun _ t => t.Peaceful k R fun q => A q ∨ q = p)
      (fun _ => False) s := by
  refine modifyTx_ends h (fun _ => rfl) (fun _ => rfl) fun s h => ?_
  refine modifyTx_ends h (fun _ => rfl) (fun _ => rfl) fun s h => ?_
  refine Prog.Ends.bind (Q := fun _ t => t.Peaceful k R A) (.leave (.access ?_)) fun _ t ht => ?_
  · dsimp only
    rw [h.clock, if_neg (Nat.not_le.2 hk)]
    have h' : (s.setTx p fun tx => { tx with start := k }).Peaceful k R A :=
      h.setTx (h.mode p) (h.active p) fun _ _ => .rfl
    exact .ret ⟨(), rfl, { h' with }⟩
  refine .access ?_
  dsimp only
  rw [callGc, hgc, ht.mode p]
  have ht' : (t.setTx p fun tx => { tx with status := .active }).Peaceful k R fun q => A q ∨ q = p :=
    ht.setTx (ht.mode p) (iff_of_true rfl (.inr rfl)) fun q hq => (or_iff_left hq).symm
  exact .access (checkQuiesce_ends ht')

/-- The outermost `int_stm_commit` of an update transaction. -/
theorem commit_ends (h : s.Peaceful k R A) :
    (intStmCommit cfg p (.committed true) ([] : List Addr)).Ends
      (fun _ t => t.Peaceful (k + 1) R fun q => A q ∧ q ≠ p) (fun _ => False) s := by
  refine Prog.Ends.bind (Q := fun _ t => t.Peaceful (k + 1) R A) (.access (.ret ?_)) fun _ t ht => ?_
  · exact { h with clock := congrArg (· + 1) h.clock }
  refine Prog.Ends.bind (Q := fun _ t => t.Peaceful (k + 1) R A) (.access ?_) fun _ t ht => ?_
  · dsimp only
    rw [if_neg (not_not.2 (ht.mode p))]
    exact .ret ht
  · exact .access (.ret (ht.setTx (ht.mode p) (iff_of_false nofun fun h => h.2 rfl)
      fun q hq => (and_iff_left hq).symm))

end

section
variable {n k : ℕ} {s : State (Fin (n + 1)) Unit}

theorem State.Peaceful.congr {R R' A A' : Fin (n + 1) → Prop} (h : s.Peaceful k R A)
    (hR : ∀ q, R q ↔ R' q) (hA : ∀ q, A q ↔ A' q) : s.Peaceful k R' A' :=
  { h with
    registered := fun q => (h.registered q).trans (hR q)
    active := fun q => (h.active q).trans (hA q) }

/-- Thread `i` of `n + 1`. -/
def nth (n i : ℕ) : Fin (n + 1) := Fin.ofNat (n + 1) i

theorem eq_nth {i : ℕ} (hi : i < n + 1) (q : Fin (n + 1)) : q = nth n i ↔ q.val = i := by
  rw [Fin.ext_iff]
  simp [nth, Nat.mod_eq_of_lt hi]

theorem init_peaceful : (State.init cfg : State (Fin (n + 1)) Unit).Peaceful 0 (fun q => q.val < 0)
    fun _ => False where
  mutex := rfl
  quiesce := rfl
  mode _ := rfl
  clock := rfl
  registered _ := iff_of_false nofun (Nat.not_lt_zero _)
  active _ := iff_of_false nofun id

theorem called_start {R A : Fin (n + 1) → Prop} {q : Fin (n + 1)} (h : s.Peaceful k R A) (hR : R q)
    (hA : ¬ A q) : Called q (.start false) s :=
  ⟨(h.registered q).2 hR, Bool.eq_false_iff.2 (mt (h.active q).1 hA)⟩

theorem called_commit {R A : Fin (n + 1) → Prop} {q : Fin (n + 1)} (h : s.Peaceful k R A) (hA : A q) :
    Called q (.commit (.committed true) []) s :=
  (h.active q).2 hA

/-- All threads are registered, and one of them commits `k` times. -/
theorem reach_clock (hgc : cfg.gc = none) (hk : k < cfg.versionMax) :
    ∃ T : Pool (State (Fin (n + 1)) Unit) (Fin (n + 1)), QRun cfg (fun _ => True) T ∧ T.AllDone ∧
      T.st.Peaceful k (fun _ => True) fun _ => False := by
  induction k with
  | zero =>
    have hstep : ∀ i < n + 1, ∀ s : State (Fin (n + 1)) Unit,
        s.Peaceful 0 (fun q => q.val < i) (fun _ => False) → Called (nth n i) .initThread s ∧
        (exec cfg (nth n i) .initThread).Ends
          (fun _ t => t.Peaceful 0 (fun q => q.val < i + 1) fun _ => False) (fun _ => False) s := by
      intro i hi s hs
      refine ⟨(hs.registered (nth n i)).not.2 (by simp [nth, Nat.mod_eq_of_lt hi]), ?_⟩
      refine (initThread_ends hgc hs id).mono (fun _ t ht => ht.congr (fun q => ?_) fun _ => .rfl)
        fun _ h => h
      rw [eq_nth hi]
      omega
    have hS : QRun cfg (fun _ => True)
        (Pool.init (State.init cfg : State (Fin (n + 1)) Unit) : Pool _ (Fin (n + 1))) := .refl trivial
    obtain ⟨T, hT, hdone, hP⟩ := hS.calls (n := n + 1) (p := nth n) (k := .initThread)
      (P := fun i s => s.Peaceful 0 (fun q => q.val < i) fun _ => False) hstep (fun _ => trivial)
      init_peaceful
    exact ⟨T, hT, hdone, hP.congr (fun q => iff_true_intro q.isLt) fun _ => .rfl⟩
  | succ k ih =>
    obtain ⟨T, hT, hdone, hP⟩ := ih (by omega)
    obtain ⟨U, hU, hdone, hP⟩ := hT.call hdone (called_start (q := 0) hP trivial id)
      (start_ends hgc hP (by omega))
    obtain ⟨V, hV, hdone, hP⟩ := hU.call hdone (called_commit hP (.inr rfl)) (commit_ends hP)
    exact ⟨V, hV, hdone, hP.congr (fun _ => .rfl) fun q => by simp⟩

/-- Every thread starts a transaction before the clock gets to `VERSION_MAX`, and commits it. -/
theorem reach_commits (hgc : cfg.gc = none) (hk : k < cfg.versionMax) :
    ∃ T : Pool (State (Fin (n + 1)) Unit) (Fin (n + 1)), QRun cfg (fun _ => True) T ∧ T.AllDone ∧
      T.st.Peaceful (k + (n + 1)) (fun _ => True) fun _ => False := by
  have hval {i : ℕ} (hi : i < n + 1) : (nth n i).val = i := Nat.mod_eq_of_lt hi
  have hstart : ∀ i < n + 1, ∀ s : State (Fin (n + 1)) Unit,
      s.Peaceful k (fun _ => True) (fun q => q.val < i) → Called (nth n i) (.start false) s ∧
      (exec cfg (nth n i) (.start false)).Ends
        (fun _ t => t.Peaceful k (fun _ => True) fun q => q.val < i + 1) (fun _ => False) s := by
    intro i hi s hs
    refine ⟨called_start hs trivial (by rw [hval hi]; exact lt_irrefl i), ?_⟩
    refine (start_ends hgc hs hk).mono (fun _ t ht => ht.congr (fun _ => .rfl) fun q => ?_)
      fun _ h => h
    rw [eq_nth hi]
    omega
  have hcommit : ∀ i < n + 1, ∀ s : State (Fin (n + 1)) Unit,
      s.Peaceful (k + i) (fun _ => True) (fun q => i ≤ q.val) →
      Called (nth n i) (.commit (.committed true) []) s ∧
      (exec cfg (nth n i) (.commit (.committed true) [])).Ends
        (fun _ t => t.Peaceful (k + (i + 1)) (fun _ => True) fun q => i + 1 ≤ q.val)
        (fun _ => False) s := by
    intro i hi s hs
    refine ⟨called_commit hs (hval hi).ge, ?_⟩
    refine (commit_ends hs).mono (fun _ t ht => ht.congr (fun _ => .rfl) fun q => ?_) fun _ h => h
    rw [ne_eq, eq_nth hi]
    omega
  obtain ⟨T, hT, hdone, hP⟩ := reach_clock (n := n) hgc hk
  obtain ⟨U, hU, hdone, hP⟩ := hT.calls hstart hdone
    (hP.congr (fun _ => .rfl) fun q => iff_of_false id (Nat.not_lt_zero _))
  obtain ⟨V, hV, hdone, hP⟩ := hU.calls hcommit hdone
    (hP.congr (fun _ => .rfl) fun q => iff_of_true q.isLt (Nat.zero_le _))
  exact ⟨V, hV, hdone, hP.congr (fun _ => .rfl) fun q => iff_of_false (Nat.not_le.2 q.isLt) id⟩

/-- Every thread increments the clock once more in a unit store, before one of them waits. -/
theorem reach_unitStores (hgc : cfg.gc = none) (hk : k < cfg.versionMax) :
    ∃ T : Pool (State (Fin (n + 1)) Unit) (Fin (n + 1)), QRun cfg (fun _ => True) T ∧
      T.st.gc.clock = k + (n + 1) + (n + 1) := by
  suffices ∀ i ≤ n + 1, ∃ T : Pool (State (Fin (n + 1)) Unit) (Fin (n + 1)),
      QRun cfg (fun _ => True) T ∧ (∀ q, i ≤ q.val → (T.ctl q).Done) ∧
      T.st.Peaceful (k + (n + 1) + i) (fun _ => True) fun _ => False by
    obtain ⟨T, hT, -, hP⟩ := this (n + 1) le_rfl
    exact ⟨T, hT, hP.clock⟩
  intro i hi
  induction i with
  | zero =>
    obtain ⟨T, hT, hdone, hP⟩ := reach_commits (n := n) hgc hk
    exact ⟨T, hT, fun q _ => hdone q, hP⟩
  | succ i ih =>
    obtain ⟨T, hT, hdone, hP⟩ := ih (by omega)
    have hval : (nth n i).val = i := Nat.mod_eq_of_lt (Nat.lt_of_succ_le hi)
    have hinactive : Called (nth n i) (.unitStore : Cmd Unit) T.st :=
      Bool.eq_false_iff.2 (hP.active _).1
    have hcall := hT.tail (.invoke (nth n i) .unitStore) ⟨hdone _ hval.ge, hinactive⟩ trivial
    refine ⟨_, hcall.tail (.exec (nth n i)) trivial trivial, fun q hq => ?_, ?_⟩
    · have hne : q ≠ nth n i := (eq_nth (Nat.lt_of_succ_le hi) q).not.2 (by omega)
      simp only [Pool.next, Function.update_of_ne hne]
      exact hdone q (by omega)
    · simp only [Pool.next, Function.update_self]
      exact { hP with clock := congrArg (· + 1) hP.clock }

end

/-- A 64-bit build without a modular contention manager or the collector. -/
def Build.large : Build := ⟨64, false, none, by decide⟩

set_option maxRecDepth 10000 in
/-- The clock leaves its head-room when each of 8192 threads commits and then stores in a unit
transaction. -/
theorem headRoom_exceeded : ∃ T : Pool (State (Fin maxThreads) Unit) (Fin maxThreads),
    QRun Build.large.config (fun _ => True) T ∧ ¬ T.st.HeadRoom .large := by
  have hpos : 0 < Build.large.versionMax.toNat := by decide
  have hk : Build.large.versionMax.toNat - 1 < Build.large.config.versionMax :=
    Nat.sub_lt hpos Nat.one_pos
  obtain ⟨T, hT, hclock⟩ :=
    reach_unitStores (n := 8191) (show Build.large.config.gc = none from rfl) hk
  refine ⟨T, hT, fun h => ?_⟩
  have hle := h.clock
  rw [hclock, maxThreads] at hle
  omega

/-- Thread 0 commits, and thread 1 stores in a unit transaction. -/
def drawing : List (Pool.Label (Fin 2) (Cmd Unit)) :=
  Pool.Label.calls 20 [(0, .initThread), (1, .initThread), (0, .start false),
    (0, .commit (.committed true) []), (1, .unitStore)]

set_option maxRecDepth 10000 in
/-- They draw one timestamp each. -/
theorem headRoom_suffices_drawing : (after Build.large.config drawing).st.stamps = [2, 1] ∧
    (after Build.large.config drawing).st.HeadRoom .large :=
  ⟨by decide, headRoom_suffices
    (show QRun Build.large.config _ _ from Pool.FollowsIn.reaches (by decide))⟩

end TinyStm.Quiesce
