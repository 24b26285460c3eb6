import TinyStm.Quiesce.Model

/-!
# What moves the clock

The clock is incremented by `FETCH_INC_CLOCK` only, and set by `rollover_clock` only; a thread is registered
and unregistered by `stm_quiesce_enter_thread` and `stm_quiesce_exit_thread`. `Draw` lists these steps on the
words that decide how far the clock gets, and `Room.Bounded` is the account of the head-room that they keep:
beyond `VERSION_MAX` the clock is incremented once by each thread that was registered when it got there, and
by the overdraws.

All other functions are `Idle`: each of their actions leaves these words alone, and the status of every
transaction, but that the clock may be rolled over. This needs no invariant of the mutex, of the barrier or
of the token, so it holds in the runs in which these go wrong, too.
-/

namespace TinyStm.Quiesce

variable {Tid Addr : Type} [DecidableEq Tid] {cfg : Config} {p q : Tid}

/-! ## The head-room that is left -/

/-- The words that decide how far the clock gets. -/
structure Room (Tid : Type) where
  clock : ℕ
  threads : List Tid
  stamps : List ℕ
  checked : Tid → Bool
  crew : ℕ
  spare : List Tid
  overdraws : ℕ

/-- These words of the state. -/
def State.room (s : State Tid Addr) : Room Tid :=
  ⟨s.gc.clock, s.threads, s.stamps, s.checked, s.crew, s.spare, s.overdraws⟩

/-- `State.entitled`. -/
def Room.entitled (cfg : Config) (r : Room Tid) : List Tid :=
  if r.clock + 1 = cfg.versionMax then r.threads else r.spare

/-- `State.tick`. -/
def Room.tick (cfg : Config) (p : Tid) (unchecked : Bool) (r : Room Tid) : Room Tid :=
  { r with
    clock := r.clock + 1, stamps := (r.clock + 1) :: r.stamps
    checked := Function.update r.checked p false
    crew := if r.clock + 1 = cfg.versionMax then r.threads.length else r.crew
    spare := (r.entitled cfg).erase p
    overdraws :=
      if unchecked ∧ cfg.versionMax ≤ r.clock + 1 ∧ p ∉ r.entitled cfg then r.overdraws + 1
      else r.overdraws }

/-- `rollover_clock`. -/
def Room.rollover (r : Room Tid) : Room Tid :=
  { r with clock := 0, crew := 0, spare := [], overdraws := 0 }

/-- What thread `p` may do to these words. -/
inductive Draw (cfg : Config) (p : Tid) : Room Tid → Room Tid → Prop
  | keep {r : Room Tid} : Draw cfg p r r
  | register {r : Room Tid} : Draw cfg p r { r with threads := p :: r.threads }
  | unregister {r : Room Tid} : Draw cfg p r { r with
      threads := r.threads.erase p, checked := Function.update r.checked p false }
  | rollover {r : Room Tid} : Draw cfg p r r.rollover
  | check {r : Room Tid} : p ∈ r.threads → Draw cfg p r { r with
      checked := Function.update r.checked p (decide (r.clock < cfg.versionMax)) }
  | tick {r : Room Tid} {unchecked : Bool} : unchecked = true ∨ r.checked p = true →
      Draw cfg p r (r.tick cfg p unchecked)

/-- Once the clock has got to `VERSION_MAX`, it has been incremented once by each thread of the crew that is
not spare, and by the overdraws; and a thread that has checked it is registered, and spare. -/
structure Room.Bounded (cfg : Config) (r : Room Tid) : Prop where
  clock : cfg.versionMax ≤ r.clock →
    r.clock + r.spare.length + 1 ≤ cfg.versionMax + r.crew + r.overdraws
  checked : ∀ q, r.checked q = true → q ∈ r.threads ∧ (cfg.versionMax ≤ r.clock → q ∈ r.spare)

/-- Only the thread itself changes whether it has checked the clock and whether it is registered. -/
theorem Draw.other {r r' : Room Tid} (h : Draw cfg p r r') (hq : q ≠ p) :
    r'.checked q = r.checked q ∧ (q ∈ r'.threads ↔ q ∈ r.threads) := by
  have hupdate (b : Bool) : Function.update r.checked p b q = r.checked q := Function.update_of_ne hq ..
  cases h with
  | keep | rollover => exact ⟨rfl, .rfl⟩
  | register => exact ⟨rfl, by simp [hq]⟩
  | unregister => exact ⟨hupdate false, List.mem_erase_of_ne hq⟩
  | check => exact ⟨hupdate _, .rfl⟩
  | tick => exact ⟨hupdate false, .rfl⟩

/-- A thread that has checked the clock after `p` has set whether it has. -/
theorem checked_update {f : Tid → Bool} {b : Bool} (h : Function.update f p b q = true) :
    q = p ∧ b = true ∨ q ≠ p ∧ f q = true := by
  by_cases hq : q = p
  · subst hq
    rw [Function.update_self] at h
    exact .inl ⟨rfl, h⟩
  · rw [Function.update_of_ne hq] at h
    exact .inr ⟨hq, h⟩

omit [DecidableEq Tid] in
/-- A thread that has checked the clock may increment it. -/
theorem Room.Bounded.entitled {r : Room Tid} (h : r.Bounded cfg) (hp : r.checked p = true)
    (hmax : cfg.versionMax ≤ r.clock + 1) : p ∈ r.entitled cfg := by
  obtain ⟨hthreads, hspare⟩ := h.checked p hp
  unfold Room.entitled
  by_cases hreach : r.clock + 1 = cfg.versionMax
  · rwa [if_pos hreach]
  · rw [if_neg hreach]
    exact hspare (by omega)

/-- The clock is incremented. -/
theorem Room.Bounded.tick {r : Room Tid} {unchecked : Bool} (h : r.Bounded cfg)
    (hp : unchecked = true ∨ r.checked p = true) : (r.tick cfg p unchecked).Bounded cfg := by
  -- the thread is taken from those that are entitled, or is counted as an overdraw
  have hspent (hmax : cfg.versionMax ≤ r.clock + 1) :
      (r.tick cfg p unchecked).spare.length + 1 + r.overdraws ≤
        (r.entitled cfg).length + (r.tick cfg p unchecked).overdraws := by
    simp only [Room.tick]
    by_cases hin : p ∈ r.entitled cfg
    · have hlength := List.length_erase_of_mem hin
      have hpos := List.length_pos_of_mem hin
      rw [if_neg fun hover => hover.2.2 hin]
      omega
    · have hun : unchecked = true := hp.resolve_right fun hc => hin (h.entitled hc hmax)
      rw [if_pos ⟨hun, hmax, hin⟩, List.erase_of_not_mem hin]
      omega
  refine ⟨fun hmax => ?_, fun q hq => ?_⟩
  · have hmax : cfg.versionMax ≤ r.clock + 1 := hmax
    have hspent := hspent hmax
    simp only [Room.entitled] at hspent
    show r.clock + 1 + (r.tick cfg p unchecked).spare.length + 1 ≤ cfg.versionMax +
      (if r.clock + 1 = cfg.versionMax then r.threads.length else r.crew) +
        (r.tick cfg p unchecked).overdraws
    by_cases hreach : r.clock + 1 = cfg.versionMax
    · rw [if_pos hreach] at hspent ⊢
      omega
    · rw [if_neg hreach] at hspent ⊢
      have hclock := h.clock (by omega)
      omega
  · obtain ⟨hqp, hq⟩ := (checked_update hq).resolve_left fun h => by cases h.2
    exact ⟨(h.checked q hq).1, fun hmax => (List.mem_erase_of_ne hqp).2 (h.entitled hq hmax)⟩

/-- A step keeps the account. -/
theorem Draw.bounded {r r' : Room Tid} (h : Draw cfg p r r') (hv : 0 < cfg.versionMax)
    (hr : r.Bounded cfg) : r'.Bounded cfg := by
  cases h with
  | keep => exact hr
  | register =>
    exact ⟨hr.clock, fun q hq => ⟨List.mem_cons_of_mem _ (hr.checked q hq).1, (hr.checked q hq).2⟩⟩
  | unregister =>
    refine ⟨hr.clock, fun q hq => ?_⟩
    obtain ⟨hqp, hq⟩ := (checked_update hq).resolve_left fun h => by cases h.2
    have hq := hr.checked q hq
    exact ⟨(List.mem_erase_of_ne hqp).2 hq.1, hq.2⟩
  | rollover =>
    exact ⟨fun hmax => absurd hmax (Nat.not_le.2 hv),
      fun q hq => ⟨(hr.checked q hq).1, fun hmax => absurd hmax (Nat.not_le.2 hv)⟩⟩
  | check hp =>
    refine ⟨hr.clock, fun q hq => ?_⟩
    rcases checked_update hq with ⟨rfl, hlt⟩ | ⟨-, hq⟩
    · exact ⟨hp, fun hmax => absurd (of_decide_eq_true hlt) (Nat.not_lt.2 hmax)⟩
    · exact hr.checked q hq
  | tick hp => exact hr.tick hp

/-! ## The functions of the collector -/

/-- The collector does not set the clock. -/
abbrev ClockKept {α : Type} (c : GcProg Tid (Block Tid Addr) α) : Prop :=
  c.Actions fun g g' => g'.clock = g.clock

omit [DecidableEq Tid] in
/-- Blocks are given back. -/
theorem gcCleanBlocks_clock (bs : List (Block Tid Addr × ℕ)) :
    ClockKept (gcCleanBlocks bs : GcProg Tid (Block Tid Addr) Unit) := by
  induction bs with
  | nil => trivial
  | cons b bs ih => exact Prog.actions_access (fun _ => rfl) fun _ => ih

omit [DecidableEq Tid] in
/-- The blocks of regions are given back. -/
theorem gcCleanRegions_clock (rs : List (GcRegion (Block Tid Addr))) :
    ClockKept (gcCleanRegions rs : GcProg Tid (Block Tid Addr) Unit) := by
  induction rs with
  | nil => trivial
  | cons r rs ih => exact (gcCleanBlocks_clock r.blocks).bind fun _ => ih

omit [DecidableEq Tid] in
/-- `gc_compute_min` only reads. -/
theorem gcComputeMin_clock (g : GcConfig) (now : ℕ) :
    ClockKept (gcComputeMin g now : GcProg Tid (Block Tid Addr) ℕ) := by
  refine Prog.actions_iterate fun (i, min) => ?_
  refine Prog.actions_ite (Prog.actions_access (fun _ => rfl) fun used => ?_) trivial
  cases used with
  | busy => exact Prog.actions_access (fun _ => rfl) fun _ => Prog.actions_ite trivial trivial
  | null | freeEmpty | freeFull => trivial

omit [DecidableEq Tid] in
/-- `gc_cleanup_thread`. -/
theorem gcCleanupThread_clock (idx min : ℕ) :
    ClockKept (gcCleanupThread idx min : GcProg Tid (Block Tid Addr) Unit) := by
  refine Prog.actions_iterate fun _ => Prog.actions_access (fun _ => rfl) fun regions => ?_
  cases regions with
  | nil => trivial
  | cons head rest =>
    exact Prog.actions_ite ((gcCleanBlocks_clock head.blocks).bind fun _ =>
      Prog.actions_access (fun _ => rfl) fun _ => trivial) trivial

omit [DecidableEq Tid] in
/-- `gc_cleanup`. -/
theorem gcCleanup_clock (g : GcConfig) (p : Tid) :
    ClockKept (gcCleanup g p : GcProg Tid (Block Tid Addr) Unit) := by
  refine Prog.actions_access (fun _ => rfl) fun idx => Prog.actions_access (fun _ => rfl) fun _ => ?_
  refine Prog.actions_ite trivial (Prog.actions_access (fun _ => rfl) fun now => ?_)
  exact (gcComputeMin_clock g now).bind fun min => gcCleanupThread_clock idx min

omit [DecidableEq Tid] in
/-- `gc_free`. -/
theorem gcFree_clock (g : GcConfig) (p : Tid) (b : Block Tid Addr) (e : ℕ) :
    ClockKept (gcFree g p b e) := by
  refine Prog.actions_access (fun _ => rfl) fun idx => Prog.actions_access (fun _ => rfl) fun _ => ?_
  refine Prog.actions_access (fun _ => rfl) fun _ => ?_
  cases g.cleanupFrequency with
  | none => trivial
  | some frequency =>
    exact Prog.actions_access (fun _ => rfl) fun _ => Prog.actions_ite (gcCleanup_clock g p) trivial

omit [DecidableEq Tid] in
/-- `gc_reset`. -/
theorem gcReset_clock (g : GcConfig) :
    ClockKept (gcReset g : GcProg Tid (Block Tid Addr) Unit) := by
  refine Prog.actions_iterate fun i => Prog.actions_ite ?_ trivial
  refine Prog.actions_access (fun _ => rfl) fun used => Prog.actions_ite trivial ?_
  refine Prog.actions_access (fun _ => rfl) fun regions => ?_
  refine (gcCleanRegions_clock regions).bind fun _ => ?_
  exact Prog.actions_access (fun _ => rfl) fun _ => trivial

/-- `gc_init_thread`. -/
theorem gcInitThread_clock (g : GcConfig) (p : Tid) :
    ClockKept (gcInitThread g p : GcProg Tid (Block Tid Addr) Unit) := by
  refine Prog.actions_access (fun _ => rfl) fun nb => Prog.actions_ite trivial ?_
  refine (Prog.actions_iterate fun i => ?_).bind fun idx => ⟨fun _ => rfl, fun _ => trivial⟩
  refine Prog.actions_access (fun _ => rfl) fun used => Prog.actions_ite ?_ trivial
  refine Prog.actions_access (fun s => ?_) fun ok => Prog.actions_ite ?_ trivial
  · split
    · rfl
    · rfl
  · exact Prog.actions_access (fun _ => rfl) fun _ => Prog.actions_access (fun _ => rfl) fun _ => trivial

omit [DecidableEq Tid] in
/-- `gc_exit_thread`. -/
theorem gcExitThread_clock (g : GcConfig) (p : Tid) :
    ClockKept (gcExitThread g p : GcProg Tid (Block Tid Addr) Unit) :=
  Prog.actions_access (fun _ => rfl) fun _ => Prog.actions_access (fun _ => rfl) fun _ =>
    Prog.actions_access (fun _ => rfl) fun _ => ⟨fun _ => rfl, fun _ => trivial⟩

/-- `gc_set_epoch`. -/
theorem gcSetEpoch_clock (g : GcConfig) (p : Tid) (epoch : ℕ) :
    ClockKept (gcSetEpoch g p epoch : GcProg Tid (Block Tid Addr) Unit) :=
  Prog.actions_access (fun _ => rfl) fun _ =>
    Prog.actions_ite trivial ⟨fun _ => rfl, fun _ => trivial⟩

/-! ## The functions of the library -/

/-- A step that leaves these words and the statuses alone, but that the clock may be rolled over. -/
def Still (s s' : State Tid Addr) : Prop :=
  (∀ q, (s'.txs q).status = (s.txs q).status) ∧ (s'.room = s.room ∨ s'.room = s.room.rollover)

/-- The same, but for the status of `p`. -/
def Loose (p : Tid) (s s' : State Tid Addr) : Prop :=
  (∀ q, q ≠ p → (s'.txs q).status = (s.txs q).status) ∧ (s'.room = s.room ∨ s'.room = s.room.rollover)

/-- Every action is such a step, and there is no non-local exit. -/
abbrev Idle {α : Type} (c : QProg Tid Addr α) : Prop := c.Within Still

section
variable {s s' : State Tid Addr}

omit [DecidableEq Tid] in
/-- A step that leaves the descriptors and the room alone. -/
theorem Still.of_eq (htxs : s'.txs = s.txs) (hroom : s'.room = s.room) : Still s s' :=
  ⟨fun q => by rw [htxs], .inl hroom⟩

/-- A thread changes its descriptor, but not its status. -/
theorem Still.setTx {tx : Tx} (htxs : s'.txs = Function.update s.txs p tx) (hroom : s'.room = s.room)
    (hstatus : tx.status = (s.txs p).status) : Still s s' := by
  refine ⟨fun q => ?_, .inl hroom⟩
  rw [htxs]
  by_cases hq : q = p
  · subst hq
    rwa [Function.update_self]
  · rw [Function.update_of_ne hq]

/-- A thread changes its descriptor. -/
theorem Loose.setTx {tx : Tx} (htxs : s'.txs = Function.update s.txs p tx)
    (hroom : s'.room = s.room) : Loose p s s' := by
  refine ⟨fun q hq => ?_, .inl hroom⟩
  rw [htxs, Function.update_of_ne hq]

/-- Such a step is one that the protocol allows. -/
theorem Loose.guar (h : Loose p s s') :
    Draw cfg p s.room s'.room ∧ ∀ q, q ≠ p → (s'.txs q).status = (s.txs q).status := by
  refine ⟨?_, h.1⟩
  rcases h.2 with hroom | hroom
  · exact hroom ▸ .keep
  · exact hroom ▸ .rollover

omit [DecidableEq Tid] in
/-- A step that changes nothing that matters is a loose one. -/
theorem Still.loose (h : Still s s') : Loose p s s' := ⟨fun q _ => h.1 q, h.2⟩

end

/-! ### Idle functions -/

omit [DecidableEq Tid] in
/-- A call of the collector. -/
theorem callGc_idle {c : GcConfig → GcProg Tid (Block Tid Addr) Unit} (h : ∀ g, ClockKept (c g)) :
    Idle (callGc cfg c) := by
  unfold callGc
  cases cfg.gc with
  | none => trivial
  | some g =>
    refine (h g).zoom_within fun s t ht => ?_
    have hroom : ({ s with gc := t } : State Tid Addr).room = s.room := by
      simp only [State.room, ht]
    exact .of_eq rfl hroom

/-- A call of the collector by a thread that is inside it. -/
theorem insideGc_idle {c : GcConfig → GcProg Tid (Block Tid Addr) Unit}
    (h : ∀ g, ClockKept (c g)) : Idle (insideGc cfg p c) :=
  Prog.within_access (fun _ => .setTx rfl rfl rfl) fun _ => (callGc_idle h).bind fun _ =>
    Prog.within_atomic fun _ => .setTx rfl rfl rfl

/-- The epoch of a block is read. -/
theorem freeEpoch_idle : Idle (freeEpoch p : QProg Tid Addr ℕ) :=
  Prog.within_atomic fun _ => .setTx rfl rfl rfl

/-- A block is handed to the collector. -/
theorem freeAt_idle (e : ℕ) (b : Block Tid Addr) : Idle (freeAt cfg p e b) :=
  Prog.within_access (fun _ => .of_eq rfl rfl) fun _ => insideGc_idle fun g => gcFree_clock g p b e

/-- Blocks are handed to the collector. -/
theorem freeNow_idle (bs : List (Block Tid Addr)) : Idle (freeNow cfg p bs) := by
  induction bs with
  | nil => trivial
  | cons b bs ih =>
    exact freeEpoch_idle.bind fun e => (freeAt_idle e b).bind fun _ =>
      Prog.within_access (fun _ => .setTx rfl rfl rfl) fun _ => ih

omit [DecidableEq Tid] in
/-- The mutex is taken, or not. -/
theorem tryLockMutex_idle : Idle (tryLockMutex p : QProg Tid Addr Bool) := by
  refine Prog.within_atomic fun s => ?_
  split
  · exact .of_eq rfl rfl
  · exact .of_eq rfl rfl

omit [DecidableEq Tid] in
/-- The mutex is waited for. -/
theorem lockMutex_idle : Idle (lockMutex p : QProg Tid Addr Unit) :=
  Prog.within_iterate fun _ => tryLockMutex_idle.bind fun _ => trivial

omit [DecidableEq Tid] in
/-- The mutex is given back. -/
theorem unlockMutex_idle : Idle (unlockMutex : QProg Tid Addr Unit) :=
  Prog.within_atomic fun _ => .of_eq rfl rfl

/-- The thread sleeps. -/
theorem condWait_idle : Idle (condWait p : QProg Tid Addr Unit) := by
  refine Prog.within_access (fun _ => .of_eq rfl rfl) fun _ => Prog.Within.bind ?_ fun _ => lockMutex_idle
  exact Prog.within_iterate fun _ => Prog.within_access (fun _ => .of_eq rfl rfl) fun _ => trivial

omit [DecidableEq Tid] in
/-- `rollover_clock` sets the clock back, and no thread holds a timestamp. -/
theorem rolloverClock_idle : Idle (rolloverClock cfg p : QProg Tid Addr Unit) :=
  Prog.within_access (fun _ => ⟨fun _ => rfl, .inr rfl⟩) fun _ => callGc_idle gcReset_clock

/-- `stm_quiesce_barrier`. -/
theorem stmQuiesceBarrier_idle : Idle (stmQuiesceBarrier cfg p : QProg Tid Addr Unit) := by
  refine lockMutex_idle.bind fun _ => Prog.within_access (fun _ => .of_eq rfl rfl) fun _ => ?_
  refine Prog.Within.bind (Prog.within_iterate fun _ => ?_) fun _ =>
    Prog.within_access (fun _ => .of_eq rfl rfl) fun _ => unlockMutex_idle
  refine Prog.within_access (fun _ => .of_eq rfl rfl) fun (quiesce, nb) =>
    Prog.within_ite trivial ?_
  refine Prog.within_ite (rolloverClock_idle.bind fun _ => ?_) (condWait_idle.bind fun _ => trivial)
  exact Prog.within_access (fun _ => .of_eq rfl rfl) fun _ => trivial

/-- The other transactions are waited for. -/
theorem waitInactive_idle (ts : List Tid) : Idle (waitInactive p ts : QProg Tid Addr Unit) := by
  induction ts with
  | nil => trivial
  | cons t ts ih =>
    refine Prog.within_ite ih (Prog.Within.bind ?_ fun _ => ih)
    exact Prog.within_iterate fun _ => Prog.within_access (fun _ => .of_eq rfl rfl) fun _ => trivial

/-- `stm_quiesce`. -/
theorem stmQuiesce_idle : Idle (stmQuiesce p : QProg Tid Addr Bool) := by
  refine Prog.within_access (fun _ => .of_eq rfl rfl) fun tx => Prog.Within.bind ?_ fun ok => ?_
  · exact Prog.within_ite tryLockMutex_idle (lockMutex_idle.bind fun _ => trivial)
  · refine Prog.within_ite (Prog.within_access (fun _ => .of_eq rfl rfl) fun _ => ?_) trivial
    exact Prog.within_access (fun _ => .of_eq rfl rfl) fun ts => (waitInactive_idle ts).bind fun _ => trivial

/-- The token is taken, or not. -/
theorem tryToken_idle : Idle (tryToken p : QProg Tid Addr Bool) := by
  refine Prog.within_access (fun _ => .of_eq rfl rfl) fun i => Prog.within_ite trivial ?_
  refine Prog.within_atomic fun s => ?_
  split
  · exact .setTx rfl rfl rfl
  · exact .of_eq rfl rfl

/-- The token is waited for. -/
theorem waitToken_idle : Idle (waitToken p : QProg Tid Addr Unit) :=
  Prog.within_access (fun _ => .setTx rfl rfl rfl) fun _ => Prog.within_iterate fun _ =>
    tryToken_idle.bind fun _ => trivial

/-- Serial mode begins. -/
theorem grantSerial_idle : Idle (grantSerial p : QProg Tid Addr Unit) :=
  Prog.within_atomic fun _ => .setTx rfl rfl rfl

/-- The transaction becomes irrevocable. -/
theorem grantMode_idle : Idle (grantMode p : QProg Tid Addr Unit) :=
  Prog.within_atomic fun _ => .setTx rfl rfl rfl

/-- The transaction becomes irrevocable at its restart. -/
theorem grantRestart_idle : Idle (grantRestart p : QProg Tid Addr Unit) :=
  Prog.within_access (fun _ => .of_eq rfl rfl) fun _ =>
    Prog.within_ite (stmQuiesce_idle.bind fun _ => grantSerial_idle) grantMode_idle

/-- The request of `int_stm_prepare`. -/
theorem setIrrevocableRestart_idle : Idle (setIrrevocableRestart p : QProg Tid Addr Unit) :=
  Prog.within_access (fun _ => .of_eq rfl rfl) fun _ => Prog.within_ite trivial
    (Prog.within_ite (waitToken_idle.bind fun _ => grantRestart_idle) grantRestart_idle)

/-- A request is noted. -/
theorem requestIrrevocable_idle (serial : Bool) :
    Idle (requestIrrevocable p serial : QProg Tid Addr Unit) :=
  Prog.within_atomic fun _ => .setTx rfl rfl rfl

/-- The abort callbacks. -/
theorem abortHandlers_idle (request : Option Bool) :
    Idle (abortHandlers p request : QProg Tid Addr Unit) := by
  cases request with
  | none => trivial
  | some serial => exact requestIrrevocable_idle serial

/-- A `no_retry` transaction gives up. -/
theorem giveUp_idle : Idle (giveUp p : QProg Tid Addr Unit) :=
  Prog.within_atomic fun _ => .setTx rfl rfl rfl

/-- The token is given back. -/
theorem releaseToken_idle : Idle (releaseToken p : QProg Tid Addr Unit) := by
  refine Prog.within_access (fun _ => .of_eq rfl rfl) fun tx => Prog.within_ite ?_ trivial
  refine Prog.within_access (fun _ => .setTx rfl rfl rfl) fun _ => Prog.Within.bind ?_ fun _ =>
    Prog.within_atomic fun _ => .setTx rfl rfl rfl
  exact Prog.within_ite (Prog.within_access (fun _ => .of_eq rfl rfl) fun _ => unlockMutex_idle) trivial

/-- The descriptor is given to the collector. -/
theorem freeThread_idle : Idle (freeThread cfg p : QProg Tid Addr Unit) := by
  refine freeEpoch_idle.bind fun t => (freeAt_idle t _).bind fun _ => (freeAt_idle t _).bind fun _ => ?_
  refine (freeAt_idle t _).bind fun _ => ?_
  exact Prog.within_access (fun _ => .setTx rfl rfl rfl) fun _ =>
    insideGc_idle fun g => gcExitThread_clock g p

end TinyStm.Quiesce
