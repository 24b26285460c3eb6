import TinyStm.Gc.Proof

/-!
# Memory is reclaimed late enough

Whatever the threads do with the collector, a block is given back to the system only when every
thread that has a slot has published, and can only publish, an epoch above the one at which the
block was freed. A thread computes the least epoch slot by slot while others register, publish and
exit. What it has found of a slot stays true until it uses the minimum, since a slot publishes only
epochs that are not older than the clock was when the scan began.
-/

namespace TinyStm

variable {Tid Addr : Type} [DecidableEq Tid] {cfg : GcConfig}

/-- Every thread that has a slot has published an epoch above `e`, and so are those that it may publish
next: no thread that has started at or before `e` is left. -/
def GcState.Unreachable (s : GcState Tid Addr) (e : ℕ) : Prop :=
  ∀ p i, s.holder i = .thread p → e < (s.slots i).ts ∧ ∀ v ∈ s.reads p, e < v

/-- The runs of the collector from `gc_init` on, when the clock shows `clock`. -/
abbrev GcRun (cfg : GcConfig) (clock : ℕ) (T : Pool (GcState Tid Addr) Tid) : Prop :=
  Pool.Reaches (gcExec cfg) GcCalled (Pool.init (GcState.init cfg clock)) T

omit [DecidableEq Tid] in
theorem gcInv_init {clock : ℕ} (h : clock ≤ cfg.epochMax) :
    GcInv cfg (GcState.init cfg clock : GcState Tid Addr) where
  clock := h
  held _ := by simp [GcState.init]
  idle _ _ := rfl
  cleaned _ _ h := by cases h
  reads _ _ h := by cases h
  ts _ _ h := by cases h
  next _ _ _ _ := rfl
  bound _ _ := rfl
  sorted _ _ h := by cases h
  freed _ h := by cases h

/-- What a call of the collector may assume. -/
def gcPre (p : Tid) : GcCmd Addr → Assn (gcProtocol cfg : RG (GcState Tid Addr) Tid) p
  | .setEpoch epoch =>
    gcHas fun o => (∃ t, o.slots o.idx = some (.thread p, t)) ∧ epoch ∈ o.reads
  | .free _ _ | .cleanup | .exitThread => gcHas fun o => ∃ t, o.slots o.idx = some (.thread p, t)
  | .initThread | .readClock | .cleanupAll | .tick _ => .pure True

theorem gcExec_spec (p : Tid) (cmd : GcCmd Addr) :
    Triple (gcProtocol cfg) p (gcPre p cmd) (gcExec cfg p cmd) (fun _ => .pure True)
      (.pure True) := by
  cases cmd with
  | initThread => exact gcInitThread_spec
  | readClock =>
    exact gcAct_spec (fun _ => .pure True) (fun _ hs _ => ⟨hs.readClock, trivial⟩) fun _ =>
      .of_ret fun _ _ _ => trivial
  | setEpoch epoch => exact gcSetEpoch_spec
  | free addr epoch => exact gcFree_spec
  | cleanup => exact gcCleanup_spec
  | cleanupAll => exact gcCleanupAll_spec
  | exitThread => exact gcExitThread_spec
  | tick now =>
    refine .last (gcAct_spec (fun _ => .pure True) (fun s hs _ => ⟨?_, trivial⟩) fun _ =>
      .of_ret fun _ _ _ => trivial)
    exact hs.tick (Nat.le_max_left ..) (Nat.max_le.2 ⟨hs.clock, Nat.min_le_right ..⟩)

theorem gcPre_of_called {p : Tid} {cmd : GcCmd Addr} {s : GcState Tid Addr}
    (h : GcCalled p cmd s) : (gcPre p cmd : Assn (gcProtocol cfg) p) s := by
  have hslot (hr : s.Registered p) : ∃ t, (s.own p).slots (s.own p).idx = some (.thread p, t) :=
    ⟨_, own_slots.2 ⟨.inl rfl, hr, rfl⟩⟩
  cases cmd with
  | initThread => exact trivial
  | readClock => exact trivial
  | setEpoch epoch => exact ⟨hslot h.1, h.2⟩
  | free addr epoch => exact hslot h
  | cleanup => exact hslot h
  | cleanupAll => exact trivial
  | exitThread => exact hslot h
  | tick now => exact trivial

/-- The invariant holds in every run. -/
theorem gcInv_of_run {clock : ℕ} (hclock : clock ≤ cfg.epochMax)
    {T : Pool (GcState Tid Addr) Tid} (h : GcRun cfg clock T) : GcInv cfg T.st :=
  have hsound := Pool.sound (G := gcProtocol cfg) (S := Pool.init (GcState.init cfg clock))
    gcExec_spec (fun _ _ _ _ _ hC => gcPre_of_called hC) (gcInv_init hclock)
    (fun _ => Pool.atOutline_init trivial) h fun _ _ _ => trivial
  hsound.1

/-- A block freed at epoch `e` is given back to the system only when no thread that has started at or
before `e` is left. -/
theorem gc_reclaims {clock : ℕ} (hclock : clock ≤ cfg.epochMax)
    {T : Pool (GcState Tid Addr) Tid} (h : GcRun cfg clock T) {a : Addr} {e : ℕ}
    (hfreed : (a, e) ∈ T.st.freed) : T.st.Unreachable e := by
  have hinv := gcInv_of_run hclock h
  intro p i hi
  have hbusy : (T.st.slots i).used = .busy := (hinv.held i).1 (by rw [hi]; nofun)
  have habove := (hinv.freed _ hfreed).2 i hbusy
  exact ⟨habove.1, fun v hv => habove.2 p hi v hv⟩

/-- Two threads; the first one frees a block at epoch 5, which it gives back when both have started
later. -/
def reclaiming : List (Fin 2 × GcCmd (Fin 1)) :=
  [(0, .initThread), (1, .initThread), (0, .tick 5), (0, .free 0 5), (0, .tick 6), (0, .readClock),
    (0, .setEpoch 6), (1, .readClock), (0, .cleanup), (1, .setEpoch 6), (0, .cleanup)]

/-- The collector with two slots. -/
def GcConfig.two : GcConfig := ⟨2, 100, some 1⟩

/-- The state after these calls. -/
def reclaimed : Pool (GcState (Fin 2) (Fin 1)) (Fin 2) :=
  Pool.follow (gcExec .two) (Pool.init (GcState.init .two 0)) (Pool.Label.calls 40 reclaiming)

set_option maxRecDepth 10000 in
/-- The block is given back, and both threads have started at epoch 6. -/
theorem gc_reclaims_reclaiming : (0, 5) ∈ reclaimed.st.freed ∧ reclaimed.st.Unreachable 5 :=
  ⟨by decide, gc_reclaims (by decide)
    (Pool.Follows.reaches (by decide)) (by decide : (0, 5) ∈ reclaimed.st.freed)⟩

end TinyStm
