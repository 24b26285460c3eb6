import TinyStm.Result.Exclusive

/-!
# The rollover barrier

A thread that sleeps in `stm_quiesce_barrier` is woken up by the last thread that arrives there or by
the next one that exits, unless a serial irrevocable transaction has released the quiescence in the
meantime. It does not wait for a thread that waits for the irrevocability token, unless it has this
token.
-/

namespace TinyStm.Quiesce

variable {Tid Addr : Type} [DecidableEq Tid] {cfg : Config} {p q : Tid} {s s' : State Tid Addr}

/-- When a thread sleeps in the barrier, the next thread that exits signals a thread that sleeps; and when all
threads in the barrier sleep, another thread may still arrive. -/
def State.Awaited (s : State Tid Addr) : Prop :=
  s.sleepers ≠ [] → s.quiesce ≠ 0 ∧ ((∀ q ∈ s.barrier, q ∈ s.sleepers) → s.threadsNb ≠ 0)

/-- The barrier is in use while threads sleep, and when nobody is counted one of its threads is awake. -/
structure State.Sleep (s : State Tid Addr) : Prop where
  used : s.sleepers ≠ [] → s.quiesce ≠ 0
  awake : s.sleepers ≠ [] → s.threadsNb = 0 → ∃ q ∈ s.barrier, q ∉ s.sleepers

omit [DecidableEq Tid] in
theorem State.Sleep.awaited (h : s.Sleep) : s.Awaited := by
  intro hsleepers
  refine ⟨h.used hsleepers, fun hall hnb => ?_⟩
  obtain ⟨q, hq, hawake⟩ := h.awake hsleepers hnb
  exact hawake (hall q hq)

omit [DecidableEq Tid] in
/-- Nobody sleeps. -/
theorem State.Sleep.of_nil (h : s.sleepers = []) : s.Sleep := ⟨fun h' => (h' h).elim, fun h' => (h' h).elim⟩

omit [DecidableEq Tid] in
theorem State.Sleep.congr (h : s.Sleep) (hsleepers : s'.sleepers = s.sleepers)
    (hquiesce : s'.quiesce = s.quiesce) (hnb : s'.threadsNb = s.threadsNb)
    (hbarrier : s'.barrier = s.barrier) : s'.Sleep := by
  refine ⟨?_, ?_⟩ <;> rw [hsleepers]
  · exact hquiesce ▸ h.used
  · rw [hnb, hbarrier]
    exact h.awake

/-- One of the sleepers is awake after a signal. -/
theorem exists_woken (pick : ℕ) {l : List Tid} (hl : l ≠ []) (hnodup : l.Nodup) :
    ∃ q ∈ l, q ∉ wake pick l := by
  have hlt : pick % l.length < l.length := Nat.mod_lt _ (List.length_pos_iff.2 hl)
  refine ⟨l[pick % l.length], List.getElem_mem hlt, ?_⟩
  rw [wake, ← hnodup.erase_getElem]
  exact hnodup.not_mem_erase

omit [DecidableEq Tid] in
/-- The threads in the barrier are registered, so as many are counted as are not there. -/
theorem Inv.count_nonneg (h : Inv cfg s) (hu : s.uncounted = false) : 0 ≤ s.threadsNb := by
  have hsub := h.counted.resolve_left (by simp [hu])
  have hle := (h.barrier.subperm hsub).length_le
  have hcount := h.count
  omega

/-- A step strands no thread, if it does not release the quiescence beside threads that sleep. -/
theorem State.Sleep.step (h : s.Sleep) (hs : Inv cfg s) (hact : Act cfg p s s')
    (hu : s'.uncounted = false) (hstranded : s'.stranded = false) : s'.Sleep := by
  cases hact with
  | spurious pick =>
    have hsub := wake_sublist pick s.sleepers
    have hne (h' : wake pick s.sleepers ≠ []) : s.sleepers ≠ [] := fun hnil =>
      h' (List.sublist_nil.1 (hnil ▸ hsub))
    refine ⟨fun h' => h.used (hne h'), fun h' hnb => ?_⟩
    obtain ⟨q, hq, hawake⟩ := h.awake (hne h') hnb
    exact ⟨q, hq, fun hq' => hawake (hsub.subset hq')⟩
  | register =>
    refine ⟨h.used, fun _ hnb => ?_⟩
    have := hs.count_nonneg hu
    dsimp only at hnb
    omega
  | unregister pick =>
    by_cases hnil : s.sleepers = []
    · exact .of_nil (by simp [hnil, wake])
    · have hquiesce := h.used hnil
      obtain ⟨q, hq, hawake⟩ := exists_woken pick hnil hs.sleepers
      refine ⟨fun _ => hquiesce, fun _ _ => ⟨q, hs.asleep q hq, ?_⟩⟩
      dsimp only
      rwa [if_pos hquiesce]
  | arrive _ _ hbarrier =>
    refine ⟨fun _ => ?_, fun _ _ => ⟨p, List.mem_cons_self, fun hp => hbarrier (hs.asleep p hp)⟩⟩
    dsimp only
    split <;> simp [*]
  | sleep _ _ _ _ _ hquiesce hnb => exact ⟨fun _ => hquiesce, fun _ h' => (hnb h').elim⟩
  | depart _ _ _ _ hquiesce =>
    exact .of_nil (not_not.1 fun h' => h.used h' hquiesce)
  | endRollover => exact .of_nil rfl
  | quiesce => exact ⟨fun _ => nofun, h.awake⟩
  | release =>
    exact .of_nil (not_not.1 (of_decide_eq_false (Bool.or_eq_false_iff.1 hstranded).2))
  | _ => exact h.congr rfl rfl rfl rfl

/-- No thread is stranded in the barrier, in every run in which the threads that enter it are registered
and no serial irrevocable transaction releases the quiescence beside threads that sleep there. -/
theorem barrier_awaited {T : Pool (State Tid Addr) Tid}
    (h : QRun cfg (fun s => s.misreleased = false ∧ s.uncounted = false ∧ s.stranded = false) T) :
    T.st.Awaited :=
  (h.preserves (fun _ h => h.1) (J := State.Sleep) (.of_nil rfl)
    fun _ _ _ hs hact ho hJ => hJ.step hs hact ho.2.1 ho.2.2).2.awaited

/-- The build of the runs below. -/
def Config.rolling : Config := ⟨1, none⟩

/-- Thread 0 starts a transaction when the clock has reached its maximum, and thread 1 has one. -/
def sleeping : List (Pool.Label (Fin 2) (Cmd Unit)) :=
  Pool.Label.calls 20 [(0, .initThread), (1, .initThread), (1, .start false), (0, .start false),
    (0, .commit (.committed true) []), (0, .start false)]

/-- That of thread 1 becomes serial irrevocable and commits. -/
def stranding : List (Pool.Label (Fin 2) (Cmd Unit)) :=
  sleeping ++ Pool.Label.calls 20 [(1, .setIrrevocable true true false .plain),
    (1, .commit (.committed false) [])]

set_option maxRecDepth 10000 in
/-- A serial irrevocable transaction strands a thread in the barrier. -/
theorem barrier_stranded : ∃ T : Pool (State (Fin 2) Unit) (Fin 2),
    QRun .rolling (fun _ => True) T ∧ ¬ T.st.Awaited := by
  refine ⟨after .rolling stranding, Pool.FollowsIn.reaches (by decide), fun h => ?_⟩
  have hquiesce := (h (by decide)).1
  revert hquiesce
  decide

set_option maxRecDepth 10000 in
/-- Until then somebody is waited for. -/
theorem barrier_awaited_sleeping :
    (after .rolling sleeping).st.sleepers = [0] ∧ (after .rolling sleeping).st.Awaited :=
  ⟨by decide, barrier_awaited
    (show QRun .rolling _ _ from Pool.FollowsIn.reaches (by decide))⟩

/-! ## The token and the barrier -/

/-- No thread waits in the barrier with the token while another one spins for it in `int_stm_prepare`. -/
def State.NoCycle (s : State Tid Addr) : Prop :=
  ∀ p q, p ∈ s.barrier → 2 ≤ (s.txs p).mode → q ∈ s.threads → q ≠ p → (s.txs q).point ≠ .spinning

/-- No thread waits in the barrier with the token. -/
def State.Empty (s : State Tid Addr) : Prop := ∀ q ∈ s.barrier, (s.txs q).mode < 2

omit [DecidableEq Tid] in
theorem State.Empty.noCycle (h : s.Empty) : s.NoCycle := fun p _ hp hmode _ _ =>
  ((h p hp).not_ge hmode).elim

/-- A step leaves the barrier without the token, if no thread enters it with the token. -/
theorem State.Empty.step (h : s.Empty) (hs : Inv cfg s) (hact : Act cfg p s s')
    (hhalted : s'.halted = false) : s'.Empty := by
  intro q hq
  by_cases hqp : q = p
  · subst hqp
    cases hact with
    | arrive => exact not_le.1 (of_decide_eq_false (Bool.or_eq_false_iff.1 hhalted).2)
    | depart => exact h q (List.mem_of_mem_erase hq)
    | grantSerial _ _ _ _ hbarrier | pass _ _ _ hbarrier | restore _ _ hbarrier
    | takeToken _ _ _ hbarrier | returnToken _ hbarrier | request _ hbarrier | giveUp hbarrier
    | move _ hbarrier | start _ hbarrier | epoch _ hbarrier => exact (hbarrier hq).elim
    | _ => exact h q hq
  · have hown := hact.own hs hqp
    have htx : s'.txs q = s.txs q := congrArg Own.tx hown
    have hbarrier : q ∈ s.barrier := (congrArg Own.waiting hown).mp hq
    rw [htx]
    exact h q hbarrier

/-- The token and the barrier do not wait for each other, in every run in which no thread enters the
barrier with the token. -/
theorem token_barrier {T : Pool (State Tid Addr) Tid}
    (h : QRun cfg (fun s => s.misreleased = false ∧ s.halted = false) T) : T.st.NoCycle :=
  (h.preserves (fun _ h => h.1) (J := State.Empty) nofun
    fun _ _ _ hs hact ho hJ => hJ.step hs hact ho.2).2.noCycle

/-- Thread 0 takes the token, and thread 1 starts a transaction that waits for it. -/
def spinning : List (Pool.Label (Fin 2) (Cmd Unit)) :=
  Pool.Label.calls 20 [(0, .initThread), (1, .initThread), (0, .start false)] ++
    [.invoke 0 (.setIrrevocable false false false ⟨true, false, false, none⟩)] ++
    List.replicate 4 (.exec 0) ++
    Pool.Label.calls 20 [(1, .setIrrevocable false false false .plain), (1, .start false)]

/-- The validation of thread 0 fails, and it restarts. -/
def halting : List (Pool.Label (Fin 2) (Cmd Unit)) := spinning ++ List.replicate 20 (.exec 0)

set_option maxRecDepth 10000 in
/-- A thread restarts with the token and waits in the barrier for one that spins for the token. -/
theorem token_barrier_cycle : ∃ T : Pool (State (Fin 2) Unit) (Fin 2),
    QRun .rolling (fun _ => True) T ∧ T.st.sleepers = [0] ∧ ¬ T.st.NoCycle := by
  refine ⟨after .rolling halting, Pool.FollowsIn.reaches (by decide), by decide,
    fun h => ?_⟩
  have hpoint := h 0 1 (by decide) (by decide) (by decide) (by decide)
  revert hpoint
  decide

set_option maxRecDepth 10000 in
/-- Until then it has not entered the barrier. -/
theorem token_barrier_spinning :
    ((after .rolling spinning).st.txs 1).point = .spinning ∧ (after .rolling spinning).st.NoCycle :=
  ⟨by decide, token_barrier
    (show QRun .rolling _ _ from Pool.FollowsIn.reaches (by decide))⟩

end TinyStm.Quiesce
