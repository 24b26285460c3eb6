import TinyStm.Conc.Pool
import TinyStm.Quiesce.Backoff

/-!
# The backoff slots

A thread is given the slot whose index is the number of threads that are registered and not in the
barrier, which goes down when any of them leaves. So the slot may belong to another thread, or be beyond the
end of `delay_time`. The slots are sound in exactly the runs in which each thread that registers finds its
slot vacant.
-/

namespace TinyStm.Backoff

open Quiesce (QProg)

variable {Tid Addr : Type} [DecidableEq Tid] {cfg : Quiesce.Config} {p q : Tid} {s s' : State Tid Addr}

/-- No access has been beyond the end of `delay_time`, and no two registered threads have one slot. -/
structure State.Slots (s : State Tid Addr) : Prop where
  inside : s.outside = false
  unique : ∀ p ∈ s.base.threads, ∀ q ∈ s.base.threads, s.threadIdx p = s.threadIdx q → p = q

/-! ## What registers a thread -/

/-- Thread `p` registers no thread, and unregisters no other one. -/
def Unregisters (p : Tid) (b b' : Quiesce.State Tid Addr) : Prop :=
  (∀ q ∈ b'.threads, q ∈ b.threads) ∧ ∀ q, q ≠ p → q ∈ b.threads → q ∈ b'.threads

/-- The actions of the program leave the list of the threads alone, but that `p` may leave it. -/
abbrev Quits (p : Tid) {α : Type} (c : QProg Tid Addr α) : Prop := c.Actions (Unregisters p)

omit [DecidableEq Tid] in
/-- A step that leaves the registered threads alone. -/
theorem Unregisters.of_eq {b b' : Quiesce.State Tid Addr} (h : b'.threads = b.threads) :
    Unregisters p b b' := by
  rw [Unregisters, h]
  exact ⟨fun _ hq => hq, fun _ _ hq => hq⟩

omit [DecidableEq Tid] in
/-- An action that leaves the registered threads alone, and what follows it. -/
theorem quits_access {α β : Type} {g : Quiesce.State Tid Addr → α × Quiesce.State Tid Addr}
    {f : α → QProg Tid Addr β} (h : ∀ b, (g b).2.threads = b.threads) (hf : ∀ a, Quits p (f a)) :
    Quits p (.atomic g >>= f) :=
  Prog.actions_access (fun b => .of_eq (h b)) hf

omit [DecidableEq Tid] in
/-- An action that leaves the registered threads alone. -/
theorem quits_atomic {α : Type} {g : Quiesce.State Tid Addr → α × Quiesce.State Tid Addr}
    (h : ∀ b, (g b).2.threads = b.threads) : Quits p (.atomic g) :=
  ⟨fun b => .of_eq (h b), fun _ => trivial⟩

omit [DecidableEq Tid] in
/-- A call of the collector. -/
theorem callGc_quits (c : GcConfig → GcProg Tid (Quiesce.Block Tid Addr) Unit) :
    Quits p (Quiesce.callGc cfg c) := by
  unfold Quiesce.callGc
  cases cfg.gc with
  | none => trivial
  | some g => exact (Prog.actions_true (c g)).zoom fun _ _ _ => .of_eq rfl

/-- A call of the collector by a thread that is inside it. -/
theorem insideGc_quits (c : GcConfig → GcProg Tid (Quiesce.Block Tid Addr) Unit) :
    Quits p (Quiesce.insideGc cfg p c) :=
  quits_access (fun _ => rfl) fun _ => (callGc_quits c).bind fun _ => quits_atomic fun _ => rfl

/-- A block is handed to the collector. -/
theorem freeAt_quits (e : ℕ) (b : Quiesce.Block Tid Addr) : Quits p (Quiesce.freeAt cfg p e b) :=
  quits_access (fun _ => rfl) fun _ => insideGc_quits _

omit [DecidableEq Tid] in
/-- The mutex is waited for. -/
theorem lockMutex_quits : Quits p (Quiesce.lockMutex p : QProg Tid Addr Unit) := by
  refine Prog.actions_iterate fun _ => quits_access (fun b => ?_) fun _ => trivial
  split
  · rfl
  · rfl

/-- The thread sleeps. -/
theorem condWait_quits : Quits p (Quiesce.condWait p : QProg Tid Addr Unit) := by
  refine quits_access (fun _ => rfl) fun _ => Prog.Actions.bind ?_ fun _ => lockMutex_quits
  exact Prog.actions_iterate fun _ => quits_access (fun _ => rfl) fun _ => trivial

/-- `stm_quiesce_barrier`. -/
theorem stmQuiesceBarrier_quits :
    Quits p (Quiesce.stmQuiesceBarrier cfg p : QProg Tid Addr Unit) := by
  refine lockMutex_quits.bind fun _ => quits_access (fun _ => rfl) fun _ => ?_
  refine Prog.Actions.bind (Prog.actions_iterate fun _ => ?_) fun _ =>
    quits_access (fun _ => rfl) fun _ => quits_atomic fun _ => rfl
  refine quits_access (fun _ => rfl) fun (quiesce, nb) => Prog.actions_ite trivial ?_
  refine Prog.actions_ite ?_ (condWait_quits.bind fun _ => trivial)
  refine Prog.Actions.bind (quits_access (fun _ => rfl) fun _ => callGc_quits _) fun _ => ?_
  exact quits_access (fun _ => rfl) fun _ => trivial

/-- `int_stm_exit_thread` removes its own thread. -/
theorem intStmExitThread_quits (pick : ℕ) :
    Quits p (Quiesce.intStmExitThread cfg p pick : QProg Tid Addr Unit) := by
  refine Prog.Actions.bind ?_ fun _ => Prog.Actions.bind ?_ fun _ => quits_atomic fun _ => rfl
  · refine lockMutex_quits.bind fun _ => Prog.actions_access (fun b => ?_) fun _ =>
      quits_atomic fun _ => rfl
    exact ⟨fun q hq => List.mem_of_mem_erase hq, fun q hq hqb => (List.mem_erase_of_ne hq).2 hqb⟩
  · refine quits_access (fun _ => rfl) fun t => (freeAt_quits t _).bind fun _ => ?_
    refine (freeAt_quits t _).bind fun _ => (freeAt_quits t _).bind fun _ => ?_
    exact quits_access (fun _ => rfl) fun _ => insideGc_quits _

/-- The part of `stm_init_thread` before the thread is registered. -/
theorem prepareThread_quits : Quits p (prepareThread cfg p : QProg Tid Addr Unit) :=
  quits_access (fun _ => rfl) fun _ => (insideGc_quits _).bind fun _ => quits_atomic fun _ => rfl

/-! ## The slots are sound -/

/-- As long as every thread that registered found its slot vacant, the slots are sound and within
`delay_time`. -/
structure Sound (s : State Tid Addr) : Prop where
  slots : s.Slots
  within : ∀ p ∈ s.base.threads, s.InDelayTime (s.threadIdx p)

/-- A thread leaves the other threads registered, and the flag `crowded` set. -/
def protocol : RG (State Tid Addr) Tid where
  inv s := s.crowded = false → Sound s
  guar p s s' := (∀ q, q ≠ p → q ∈ s.base.threads → q ∈ s'.base.threads) ∧
    (s'.crowded = false → s.crowded = false)
  obs _ := True
  refl _ _ _ := ⟨fun _ _ h => h, fun h => h⟩

/-- The thread is registered. -/
def registered : Assn (protocol : RG (State Tid Addr) Tid) p where
  holds s := p ∈ s.base.threads
  stable _ hq _ _ _ _ hg h := hg.1 p (Ne.symm hq) h

omit [DecidableEq Tid] in
/-- The slots stay sound when nobody is registered. -/
theorem Sound.quit (h : Sound s) {b : Quiesce.State Tid Addr}
    (hb : ∀ q ∈ b.threads, q ∈ s.base.threads) : Sound { s with base := b } where
  slots :=
    { inside := h.slots.inside
      unique := fun p hp q hq => h.slots.unique p (hb p hp) q (hb q hq) }
  within := fun p hp => h.within p (hb p hp)

/-- The slots stay sound when a thread registers that finds its slot vacant. -/
theorem Sound.enter (h : Sound s) (hv : s.Vacant p) : Sound (s.enter p) := by
  obtain ⟨hin, hfree⟩ := hv
  have hidx : ∀ {q}, q ≠ p → (s.enter p).threadIdx q = s.threadIdx q := fun hq =>
    Function.update_of_ne hq ..
  have hself : (s.enter p).threadIdx p = s.base.threadsNb + 1 := Function.update_self ..
  have hthreads : ∀ {q}, q ≠ p → q ∈ (s.enter p).base.threads → q ∈ s.base.threads := fun hq hmem =>
    (List.mem_cons.1 hmem).resolve_left hq
  have hdelay : ∀ {i}, s.InDelayTime i → (s.enter p).InDelayTime i := by
    intro i hi
    simpa [State.InDelayTime, State.enter, State.setDelay] using hi
  refine ⟨⟨?_, fun a ha b hb hab => ?_⟩, fun a ha => ?_⟩
  · simp [State.enter, State.setDelay, h.slots.inside, hin]
  · by_cases hap : a = p
    · by_cases hbp : b = p
      · rw [hap, hbp]
      · rw [hap, hself, hidx hbp] at hab
        exact (hfree b (hthreads hbp hb) hbp hab.symm).elim
    · by_cases hbp : b = p
      · rw [hbp, hself, hidx hap] at hab
        exact (hfree a (hthreads hap ha) hap hab).elim
      · rw [hidx hap, hidx hbp] at hab
        exact h.slots.unique a (hthreads hap ha) b (hthreads hbp hb) hab
  · by_cases hap : a = p
    · rw [hap, hself]
      exact hdelay hin
    · rw [hidx hap]
      exact hdelay (h.within a (hthreads hap ha))

omit [DecidableEq Tid] in
/-- A program that does not touch `delay_time`. -/
theorem onBase_spec {c : QProg Tid Addr Unit} {J : Assn protocol p} (h : Quits p c) :
    Triple protocol p (.pure True) (onBase c) (fun _ => .pure True) J := by
  have hin : (onBase c : BProg Tid Addr Unit).Within fun s s' =>
      ∃ b, Unregisters p s.base b ∧ s' = { s with base := b } :=
    h.zoom_within fun s b hb => ⟨b, hb, rfl⟩
  refine .of_within hin fun s s' hs ⟨b, hb, hs'⟩ _ => ?_
  subst hs'
  exact ⟨fun hc => (hs.inv hc).quit hb.1, ⟨hb.2, fun hc => hc⟩, trivial⟩

/-- `stm_quiesce_enter_thread`. -/
theorem stmQuiesceEnterThread_spec {J : Assn protocol p} :
    Triple protocol p (.pure True) (stmQuiesceEnterThread p : BProg Tid Addr Unit)
      (fun _ => .pure True) J := by
  refine .bind (onBase_spec lockMutex_quits) fun _ => .bind (Triple.modify fun s hs _ => ?_) fun _ =>
    onBase_spec (quits_atomic fun _ => rfl)
  have hcrowded : (s.enter p).crowded = false → s.crowded = false ∧ s.Vacant p := by
    simp [State.enter]
  refine ⟨fun hc => ?_, ⟨fun q _ hq => List.mem_cons_of_mem _ hq, fun hc => (hcrowded hc).1⟩, trivial⟩
  exact (hs.inv (hcrowded hc).1).enter (hcrowded hc).2

omit [DecidableEq Tid] in
/-- A registered thread finds its slot within `delay_time`. -/
theorem backoff_spec {J : Assn protocol p} :
    Triple protocol p registered (backoff p : BProg Tid Addr ℕ) (fun _ => .pure True) J := by
  refine .atomic fun s hs hp => ⟨fun hc => ?_, ⟨fun _ _ hq => hq, fun hc => hc⟩, trivial⟩
  have hs : Sound s := hs.inv hc
  refine ⟨⟨?_, hs.slots.unique⟩, hs.within⟩
  simp [hs.slots.inside, hs.within p hp]

/-- What a call assumes. -/
def Cmd.pre (p : Tid) : Cmd → Assn (protocol : RG (State Tid Addr) Tid) p
  | .rollback => registered
  | _ => .pure True

/-- Every call. -/
theorem Cmd.prog_spec (p : Tid) (k : Cmd) :
    Triple (protocol : RG (State Tid Addr) Tid) p (k.pre p) (k.prog cfg p) (fun _ => .pure True)
      (.pure True) := by
  cases k with
  | initThread =>
    exact .bind (onBase_spec prepareThread_quits) fun _ => stmQuiesceEnterThread_spec
  | exitThread pick => exact onBase_spec (intStmExitThread_quits pick)
  | barrier => exact onBase_spec stmQuiesceBarrier_quits
  | rollback => exact .bind backoff_spec fun _ => .of_ret fun _ _ h => h

omit [DecidableEq Tid] in
/-- A call that is made finds what it needs. -/
theorem Cmd.Called.pre {k : Cmd} (h : k.Called p s) : k.pre p s := by
  cases k with
  | rollback => exact h
  | initThread | exitThread _ | barrier => trivial

/-! ## Runs -/

/-- What a step does to the flag `crowded`. -/
def Registers (p : Tid) (s s' : State Tid Addr) : Prop := s'.crowded = s.crowded ∨ s' = s.enter p

/-- The calls of the barrier register nobody. -/
theorem onBase_registers {α : Type} (c : QProg Tid Addr α) : (onBase c).Actions (Registers p) :=
  (Prog.actions_true c).zoom fun _ _ _ => .inl rfl

/-- Every call. -/
theorem Cmd.prog_registers (p : Tid) (k : Cmd) :
    (k.prog cfg p : BProg Tid Addr Unit).Actions (Registers p) := by
  cases k with
  | initThread =>
    refine (onBase_registers _).bind fun _ => (onBase_registers _).bind fun _ => ?_
    exact Prog.actions_access (fun _ => .inr rfl) fun _ => onBase_registers _
  | exitThread pick => exact onBase_registers _
  | barrier => exact onBase_registers _
  | rollback => exact Prog.actions_access (fun _ => .inl rfl) fun _ => trivial

/-- A thread whose slot is not vacant gets one that is not sound. -/
theorem vacant_of_slots (h : (s.enter p).Slots) : s.Vacant p := by
  refine ⟨?_, fun q hq hqp hidx => hqp ?_⟩
  · have hinside := h.inside
    simp only [State.enter, State.setDelay, Bool.or_eq_false_iff, Bool.not_eq_false',
      decide_eq_true_eq] at hinside
    exact hinside.2
  · refine h.unique q (List.mem_cons_of_mem _ hq) p List.mem_cons_self ?_
    simp [State.enter, hqp, hidx]

/-- The pool of threads that has not been used. -/
abbrev start (Addr : Type) (cfg : Quiesce.Config) : Pool (State Tid Addr) Tid := Pool.init (.init cfg)

/-- The pool after a schedule. -/
abbrev after (Addr : Type) (cfg : Quiesce.Config) (ls : List (Pool.Label Tid Cmd)) :
    Pool (State Tid Addr) Tid :=
  Pool.follow (Cmd.prog cfg) (start Addr cfg) ls

/-- The schedule is a run: a thread makes one call after the other. -/
abbrev Runs (Addr : Type) (cfg : Quiesce.Config) (ls : List (Pool.Label Tid Cmd)) : Prop :=
  Pool.Follows (Cmd.prog cfg) Cmd.Called (start Addr cfg) ls

/-- The schedule is a run whose states all have sound slots. -/
abbrev RunsInSlots (Addr : Type) (cfg : Quiesce.Config) (ls : List (Pool.Label Tid Cmd)) : Prop :=
  Pool.FollowsIn (Cmd.prog cfg) Cmd.Called State.Slots (start Addr cfg) ls

/-- The invariant after a schedule. -/
theorem after_sound {ls : List (Pool.Label Tid Cmd)} (h : Runs Addr cfg ls) :
    protocol.inv (after Addr cfg ls).st ∧
      ∀ p, Pool.AtOutline (G := protocol) (fun _ => .pure True) (after Addr cfg ls) p := by
  have hinit : Sound (State.init cfg : State Tid Addr) := ⟨⟨rfl, nofun⟩, nofun⟩
  exact Pool.sound (G := protocol) Cmd.prog_spec (fun _ _ _ _ _ hk => hk.pre) (fun _ => hinit)
    (fun _ => Pool.atOutline_init trivial) h.reaches fun _ _ _ => trivial

/-- The slots are sound in all states of a run if and only if each thread that registered in it found its
slot vacant. -/
theorem slots_iff (cfg : Quiesce.Config) (ls : List (Pool.Label Tid Cmd)) (h : Runs Addr cfg ls) :
    RunsInSlots Addr cfg ls ↔ (after Addr cfg ls).st.crowded = false := by
  constructor
  · intro hslots
    refine (hslots.reaches.preserves_actions (r := Registers) (J := fun s => s.crowded = false)
      (fun _ _ => .inl rfl) Cmd.prog_registers (fun _ => by trivial) rfl ?_).1
    rintro p s s' (hcrowded | rfl) hs' hs
    · exact hcrowded.trans hs
    · simp [State.enter, hs, vacant_of_slots hs']
  · intro hcrowded
    refine h.followsIn fun ls' ⟨ls'', hls⟩ => ?_
    subst hls
    obtain ⟨h', h''⟩ := Pool.follows_append.1 h
    obtain ⟨hinv, hout⟩ := after_sound h'
    rw [after, Pool.follow_append] at hcrowded
    -- once the flag is set it is set until the end of the run
    have hback := Pool.sound_rel (G := protocol) (R := fun s t => t.crowded = false → s.crowded = false)
      (fun _ h => h) (fun _ _ _ h h' hu => h (h' hu)) (fun _ _ _ _ _ hg => hg.2) Cmd.prog_spec
      (fun _ _ _ _ _ hk => hk.pre) hinv hout h''.reaches fun _ _ _ => trivial
    exact (hinv (hback hcrowded)).slots

/-- The schedule of the calls of two threads, one after the other. -/
def calls (ks : List (Fin 2 × Cmd)) : List (Pool.Label (Fin 2) Cmd) := Pool.Label.calls 20 ks

set_option maxRecDepth 10000 in
/-- Two threads register, one aborts, and they roll the clock over. -/
theorem slots_twoThreads : RunsInSlots Unit ⟨0, none⟩ (calls [(0, .initThread), (1, .initThread),
    (0, .rollback), (1, .barrier), (0, .barrier)]) :=
  (slots_iff ⟨0, none⟩ _ (by decide)).2 (by decide)

set_option maxRecDepth 10000 in
/-- A thread that leaves and registers again gets the slot of the one that has stayed. -/
theorem not_slots_again : ¬ ∀ ls : List (Pool.Label (Fin 2) Cmd), Runs Unit ⟨0, none⟩ ls →
    (after Unit ⟨0, none⟩ ls).st.Slots := by
  intro h
  have hunique := (h (calls [(0, .initThread), (1, .initThread), (0, .exitThread 0),
    (0, .initThread)]) (by decide)).unique 0 (by decide) 1 (by decide) (by decide)
  exact absurd hunique (by decide)

end TinyStm.Backoff
