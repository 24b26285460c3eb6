import TinyStm.Conc.Pool
import TinyStm.Quiesce.Clock

/-!
# The check of the clock

A thread looks at the clock in `int_stm_prepare`, and waits in the barrier as long as it is at `VERSION_MAX` or
beyond. So a transaction that is active has found it below, and its thread is one of those that were
registered when it got there. An attempt that increments the clock once uses this up, and the next one
has to look again.

The protocol of this module is about the clock alone: what a thread has to itself is the status of its
transaction, whether it has looked at the clock, and whether it is registered. The specification of a
function says how it uses up the check: `setStart` establishes it, and `fetchIncClock` requires it unless it
is called `unchecked`. The paths on which it is are those of a unit store, of a rollback after a commit that
has drawn a timestamp, and of a rollback of an attempt that has been given up.
-/

namespace TinyStm.Quiesce

variable {Tid Addr : Type} [DecidableEq Tid] {cfg : Config} {p q : Tid}

/-! ## The protocol -/

/-- What a thread has to itself: the status of its transaction, whether it has checked the clock, and whether
it is registered. -/
structure Pace where
  status : Status
  checked : Bool
  registered : Prop

/-- What thread `p` has to itself. -/
def State.pace (s : State Tid Addr) (p : Tid) : Pace := ⟨(s.txs p).status, s.checked p, p ∈ s.threads⟩

omit [DecidableEq Tid] in
/-- A step that changes the status of `p` only leaves it the rest of what it has to itself. -/
theorem Loose.pace {s s' : State Tid Addr} (h : Loose p s s') :
    s'.pace p = { s.pace p with status := (s'.txs p).status } := by
  have hroom : s'.checked = s.checked ∧ s'.threads = s.threads := by
    rcases h.2 with hroom | hroom
    · exact ⟨congrArg Room.checked hroom, congrArg Room.threads hroom⟩
    · exact ⟨congrArg Room.checked hroom, congrArg Room.threads hroom⟩
  simp only [State.pace, hroom]

/-- A thread keeps to `Draw`, and sets its own status only. The clock is allowed some timestamps. -/
def clockProtocol (cfg : Config) : RG (State Tid Addr) Tid where
  inv s := s.room.Bounded cfg
  guar p s s' := Draw cfg p s.room s'.room ∧ ∀ q, q ≠ p → (s'.txs q).status = (s.txs q).status
  obs _ := 0 < cfg.versionMax
  refl _ _ _ := ⟨.keep, fun _ _ => rfl⟩

/-- An assertion about what thread `p` has to itself. -/
def paced (φ : Pace → Prop) : Assn (clockProtocol cfg : RG (State Tid Addr) Tid) p where
  holds s := φ (s.pace p)
  stable q hq s s' _ _ hg h := by
    obtain ⟨hchecked, hthreads⟩ := hg.1.other (Ne.symm hq)
    have hpace : s'.pace p = s.pace p := by
      simp only [State.pace, hg.2 p (Ne.symm hq), Pace.mk.injEq, true_and]
      exact ⟨hchecked, propext hthreads⟩
    rwa [hpace]

/-! ## The functions of the library -/

section
variable {α : Type} {φ ψ : Pace → Prop} {J : Assn (clockProtocol cfg : RG (State Tid Addr) Tid) p}
  {Q : α → Assn (clockProtocol cfg : RG (State Tid Addr) Tid) p}

/-- A function that changes the status of its own transaction only. -/
theorem loose_spec {c : QProg Tid Addr α} (hc : c.Within (Loose p))
    (hφ : ∀ o st, φ o → φ { o with status := st }) :
    Triple (clockProtocol cfg) p (paced φ) c (fun _ => paced φ) J := by
  refine .of_within hc fun s s' hs h hP => ⟨h.guar.1.bounded hs.obs hs.inv, h.guar, ?_⟩
  show φ (s'.pace p)
  rw [h.pace]
  exact hφ _ _ hP

/-- An idle function. -/
theorem idle_spec {c : QProg Tid Addr α} (hc : Idle c) :
    Triple (clockProtocol cfg) p (paced φ) c (fun _ => paced φ) J := by
  refine .of_within hc fun s s' hs h hP => ?_
  have hloose : Loose p s s' := h.loose
  have hpace : s'.pace p = s.pace p := by
    rw [hloose.pace, h.1 p]
    rfl
  refine ⟨hloose.guar.1.bounded hs.obs hs.inv, hloose.guar, ?_⟩
  show φ (s'.pace p)
  rwa [hpace]

/-- A thread reads its descriptor. -/
theorem getTx_paced {c : Tx → QProg Tid Addr α}
    (hc : ∀ tx, Triple (clockProtocol cfg) p (paced fun o => φ o ∧ o.status = tx.status) (c tx) Q J) :
    Triple (clockProtocol cfg) p (paced φ) (getTx p >>= c) Q J :=
  .act (fun tx => paced fun o => φ o ∧ o.status = tx.status)
    (fun _ hs h => ⟨hs.inv, ⟨.keep, fun _ _ => rfl⟩, h, rfl⟩) hc

/-- A thread sets its status. -/
theorem modifyTx_paced {f : Tx → Tx} (st : Status) {c : Unit → QProg Tid Addr α}
    (hf : ∀ tx, (f tx).status = st) (hφ : ∀ o, φ o → ψ { o with status := st })
    (hc : Triple (clockProtocol cfg) p (paced ψ) (c ()) Q J) :
    Triple (clockProtocol cfg) p (paced φ) (modifyTx p f >>= c) Q J := by
  refine .act (fun _ => paced ψ) (fun s hs h => ?_) fun _ => hc
  have hloose : Loose p s (s.setTx p f) := .setTx rfl rfl
  refine ⟨hs.inv, hloose.guar, ?_⟩
  have hstatus : ((s.setTx p f).txs p).status = st := by simp [State.setTx, hf]
  show ψ ((s.setTx p f).pace p)
  rw [hloose.pace, hstatus]
  exact hφ _ h

/-- The transaction is not active. -/
def Pace.Inactive (o : Pace) : Prop := o.status.isActive = false

/-- The thread is registered, and has checked the clock since it incremented it. -/
def Pace.Checked (o : Pace) : Prop := o.registered ∧ o.checked = true

/-- A thread between two calls: it has checked the clock, if its transaction is active. -/
def Pace.Rest (o : Pace) : Prop := o.status.isActive = true → o.Checked

theorem Pace.Inactive.rest {o : Pace} (h : o.Inactive) : o.Rest :=
  fun hactive => by cases hactive.symm.trans h

/-- `FETCH_INC_CLOCK`, in a thread that has checked the clock or on a path that does not rest upon that. -/
theorem fetchIncClock_spec {unchecked : Bool}
    (hφ : ∀ o, φ o → (unchecked = true ∨ o.checked = true) ∧ ψ { o with checked := false })
    {c : ℕ → QProg Tid Addr α} (hc : ∀ t, Triple (clockProtocol cfg) p (paced ψ) (c t) Q J) :
    Triple (clockProtocol cfg) p (paced φ) (fetchIncClock cfg p unchecked >>= c) Q J := by
  refine .act (fun _ => paced ψ) (fun s hs h => ?_) hc
  obtain ⟨hmay, hψ⟩ := hφ _ h
  have hdraw : Draw cfg p s.room (s.tick cfg p unchecked).room := .tick hmay
  refine ⟨hdraw.bounded hs.obs hs.inv, ⟨hdraw, fun _ _ => rfl⟩, ?_⟩
  have hpace : (s.tick cfg p unchecked).pace p = { s.pace p with checked := false } := by
    simp only [State.pace, State.tick, Function.update_self]
  show ψ ((s.tick cfg p unchecked).pace p)
  rwa [hpace]

/-- A timestamp may be drawn. -/
theorem incClock_paced {unchecked tick : Bool}
    (hφ : ∀ o, φ o → (unchecked = true ∨ o.checked = true) ∧ ψ o ∧ ψ { o with checked := false }) :
    Triple (clockProtocol cfg) p (paced φ) (incClock cfg p unchecked tick : QProg Tid Addr Unit)
      (fun _ => paced ψ) J :=
  .ite (fun _ => fetchIncClock_spec (fun o h => ⟨(hφ o h).1, (hφ o h).2.2⟩) fun _ =>
    .of_ret fun _ _ h => h) fun _ => .of_ret fun _ _ h => (hφ _ h).2.1

/-- The start timestamp is below `VERSION_MAX`. -/
theorem setStart_paced : Triple (clockProtocol cfg) p (paced Pace.registered)
    (setStart cfg p : QProg Tid Addr Unit) (fun _ => paced Pace.Checked) J := by
  refine .iterate (fun _ => paced Pace.registered) (fun _ _ h => h) fun _ => ?_
  refine .act (fun now => paced fun o => o.registered ∧ (now < cfg.versionMax → o.checked = true))
    (fun s hs h => ?_) fun now => .ite (fun _ => ?_) fun hnow => .of_ret fun _ _ h =>
    ⟨h.1, h.2 (Nat.lt_of_not_le hnow)⟩
  · have hdraw : Draw cfg p s.room { s.room with
        checked := Function.update s.checked p (decide (s.gc.clock < cfg.versionMax)) } := .check h
    refine ⟨hdraw.bounded hs.obs hs.inv, ⟨hdraw, fun q hq => ?_⟩, h, fun hlt => ?_⟩
    · exact congrArg Tx.status (Function.update_of_ne hq ..)
    · exact (Function.update_self ..).trans (decide_eq_true hlt)
  · exact .bind (idle_spec stmQuiesceBarrier_idle) fun _ => .of_ret fun _ _ h => h.1

theorem stmCheckQuiesce_loose :
    (stmCheckQuiesce p : QProg Tid Addr Unit).Within (Loose p) := by
  refine Prog.within_access (fun s => ?_) fun quiesce => Prog.within_ite ?_ trivial
  · dsimp only
    split
    · exact (Still.of_eq rfl rfl).loose
    · exact .setTx rfl rfl
  refine Prog.within_access (fun _ => (Still.of_eq rfl rfl).loose) fun tx => Prog.within_ite
    (Prog.within_atomic fun _ => .setTx rfl rfl) (Prog.within_access (fun _ => .setTx rfl rfl) fun _ => ?_)
  refine Prog.Within.bind (Prog.within_iterate fun _ => ?_) fun _ => Prog.within_atomic fun _ =>
    .setTx rfl rfl
  exact Prog.within_access (fun _ => (Still.of_eq rfl rfl).loose) fun _ => trivial

theorem setActive_loose (mode : ℕ) : (setActive p mode : QProg Tid Addr Unit).Within (Loose p) :=
  Prog.within_ite ((setIrrevocableRestart_idle.mono fun _ _ => Still.loose).bind fun _ =>
    Prog.within_atomic fun _ => .setTx rfl rfl) (Prog.within_atomic fun _ => .setTx rfl rfl)

/-- `int_stm_prepare`: a transaction that has begun has found the clock below `VERSION_MAX`. -/
theorem intStmPrepare_paced : Triple (clockProtocol cfg) p (paced Pace.registered)
    (intStmPrepare cfg p : QProg Tid Addr Unit) (fun _ => paced Pace.Checked) J := by
  refine .bind (R := fun _ => paced Pace.registered) (idle_spec (Prog.within_atomic fun _ =>
    .setTx rfl rfl rfl)) fun _ => .bind setStart_paced fun _ => ?_
  refine loose_spec ?_ fun _ _ h => h
  refine Prog.within_access (fun _ => (Still.of_eq rfl rfl).loose) fun tx => ?_
  refine ((callGc_idle fun g => gcSetEpoch_clock g p _).mono fun _ _ => Still.loose).bind fun _ => ?_
  exact (setActive_loose _).bind fun _ => stmCheckQuiesce_loose

/-- `stm_rollback`. -/
theorem stmRollback_paced (unchecked noRetry : Bool) (a : Abort) :
    Triple (clockProtocol cfg) p
      (paced fun o => o.registered ∧ (unchecked = true ∨ o.checked = true))
      (stmRollback cfg p unchecked noRetry a : QProg Tid Addr Unit)
      (fun _ => paced fun o => o.registered ∧ o.Inactive) (paced Pace.Rest) := by
  refine .bind (incClock_paced (ψ := Pace.registered) fun o h => ⟨h.2, h.1, h.1⟩) fun _ =>
    .bind (idle_spec (freeNow_idle _)) fun _ => ?_
  refine modifyTx_paced .aborted (fun _ => rfl) (ψ := fun o => o.registered ∧ o.Inactive)
    (fun o h => ⟨h, rfl⟩) ?_
  refine .bind (idle_spec (freeNow_idle _)) fun _ => .bind (idle_spec (abortHandlers_idle _)) fun _ => ?_
  refine getTx_paced fun tx => .ite (fun _ => ?_) fun _ => ?_
  · exact (idle_spec giveUp_idle).post (fun _ _ _ h => h.1) fun _ _ h => h
  · exact .bind (intStmPrepare_paced.pre fun _ _ h => h.1.1) fun _ => .jump fun _ _ h _ => h

/-- `stm_rollback`, of an attempt that has not drawn a timestamp. -/
theorem stmRollback_checked (noRetry : Bool) (a : Abort) :
    Triple (clockProtocol cfg) p (paced Pace.Checked)
      (stmRollback cfg p false noRetry a : QProg Tid Addr Unit)
      (fun _ => paced fun o => o.registered ∧ o.Inactive) (paced Pace.Rest) := by
  have hpre (s : State Tid Addr) (h : (s.pace p).Checked) :
      (s.pace p).registered ∧ (false = true ∨ (s.pace p).checked = true) := ⟨h.1, .inr h.2⟩
  exact (stmRollback_paced false noRetry a).pre fun s _ h => hpre s h

/-- A load or a store. -/
theorem access_paced (unchecked : Bool) (es : List Event) :
    Triple (clockProtocol cfg) p
      (paced fun o => o.registered ∧ (unchecked = true ∧ o.Inactive ∨ o.checked = true))
      (access cfg p unchecked es : QProg Tid Addr Unit) (fun _ => paced Pace.Rest)
      (paced Pace.Rest) := by
  induction es generalizing unchecked with
  | nil => exact .of_ret fun s _ h => h.2.elim (fun h => h.2.rest) fun hc _ => ⟨h.1, hc⟩
  | cons e es ih =>
    cases e with
    | grow => exact .bind (idle_spec (freeNow_idle _)) fun _ => ih unchecked
    | abort a =>
      refine .bind ((stmRollback_paced unchecked false a).pre fun s _ h =>
        ⟨h.1, h.2.imp And.left id⟩) fun _ => (ih true).pre fun s _ h => ?_
      exact ⟨h.1, .inl ⟨rfl, h.2⟩⟩

/-- The commit function of the design. -/
theorem designCommit_paced (outcome : Outcome) :
    Triple (clockProtocol cfg) p (paced Pace.Checked)
      (designCommit cfg p outcome : QProg Tid Addr Unit) (fun _ => paced Pace.registered)
      (paced Pace.Rest) := by
  cases outcome with
  | committed tick => exact incClock_paced fun o h => ⟨.inr h.2, h.1, h.1⟩
  | aborted tick a =>
    cases tick with
    | false =>
      refine .bind (R := fun _ => paced Pace.Checked) (.of_ret fun _ _ h => h) fun _ => ?_
      exact (stmRollback_checked false a).post (fun _ _ _ h => h.1) fun _ _ h => h
    | true =>
      refine .bind (incClock_paced (ψ := Pace.registered) fun o h => ⟨.inr h.2, h.1, h.1⟩) fun _ => ?_
      exact ((stmRollback_paced true false a).pre fun _ _ h => ⟨h, .inl rfl⟩).post
        (fun _ _ _ h => h.1) fun _ _ h => h

/-- The outermost `int_stm_commit`. -/
theorem intStmCommit_paced (outcome : Outcome) (frees : List Addr) :
    Triple (clockProtocol cfg) p (paced Pace.Checked) (intStmCommit cfg p outcome frees)
      (fun _ => paced Pace.Rest) (paced Pace.Rest) := by
  refine .bind (designCommit_paced outcome) fun _ => .bind (idle_spec releaseToken_idle) fun _ => ?_
  refine modifyTx_paced .committed (fun _ => rfl) (ψ := Pace.Inactive) (fun _ _ => rfl) ?_
  exact (idle_spec (freeNow_idle _)).post (fun _ _ _ h => h.rest) fun _ _ h => h

/-- `int_stm_set_irrevocable` goes on with the token. -/
theorem goIrrevocable_paced (a : Abort) :
    Triple (clockProtocol cfg) p (paced Pace.Checked)
      (goIrrevocable cfg p a : QProg Tid Addr Unit) (fun _ => paced Pace.Rest) (paced Pace.Rest) := by
  refine .bind (R := fun _ => paced Pace.Checked) (idle_spec (Prog.within_atomic fun _ =>
    .of_eq rfl rfl)) fun tx => .ite (fun _ => ?_) fun _ => ?_
  · refine .bind (idle_spec stmQuiesce_idle) fun ok => .ite (fun _ => ?_) fun _ => ?_
    · exact (idle_spec grantSerial_idle).post (fun _ _ _ h _ => h) fun _ _ h => h
    · exact (stmRollback_checked false a).post (fun _ _ _ h => h.2.rest) fun _ _ h => h
  · exact (idle_spec grantMode_idle).post (fun _ _ _ h _ => h) fun _ _ h => h

/-- `int_stm_set_irrevocable`. -/
theorem intStmSetIrrevocable_paced (serial valid hasWrites : Bool) (a : Abort) :
    Triple (clockProtocol cfg) p (paced Pace.Rest)
      (intStmSetIrrevocable cfg p serial valid hasWrites a : QProg Tid Addr Unit)
      (fun _ => paced Pace.Rest) (paced Pace.Rest) := by
  refine getTx_paced fun tx => .ite (fun _ => ?_) fun hactive => ?_
  · exact (idle_spec (requestIrrevocable_idle serial)).post (fun _ _ _ h => h.1) fun _ _ h => h
  refine .pre (P := paced Pace.Checked) ?_ fun s _ h => h.1 (by
    rw [h.2]
    exact Bool.not_eq_false _ ▸ hactive)
  refine .ite (fun _ => .of_ret fun _ _ h _ => h) fun _ => .ite (fun _ => ?_) fun _ => .ite
    (fun _ => .bind (idle_spec waitToken_idle) fun _ => goIrrevocable_paced a) fun _ =>
    goIrrevocable_paced a
  refine .bind (R := fun _ => paced Pace.Checked) (idle_spec (Prog.within_atomic fun _ =>
    .setTx rfl rfl rfl)) fun _ => .bind (idle_spec tryToken_idle) fun ok => ?_
  refine .ite (fun _ => goIrrevocable_paced a) fun _ => ?_
  exact (stmRollback_checked false a).post (fun _ _ _ h => h.2.rest) fun _ _ h => h

/-- `int_stm_init_thread`. -/
theorem intStmInitThread_paced : Triple (clockProtocol cfg) p (paced fun _ => True)
    (intStmInitThread cfg p : QProg Tid Addr Unit) (fun _ => paced Pace.Rest) J := by
  refine .bind (R := fun _ => paced fun _ => True) (idle_spec (Prog.within_atomic fun _ =>
    .of_eq rfl rfl)) fun _ => .bind (idle_spec (insideGc_idle fun g => gcInitThread_clock g p)) fun _ => ?_
  refine modifyTx_paced .idle (fun _ => rfl) (ψ := Pace.Inactive) (fun _ _ => rfl) ?_
  refine .bind (idle_spec lockMutex_idle) fun _ => .act (fun _ => paced Pace.Inactive)
    (fun s hs h => ?_) fun _ => (idle_spec unlockMutex_idle).post (fun _ _ _ h => h.rest) fun _ _ h => h
  have hdraw : Draw cfg p s.room { s.room with threads := p :: s.threads } := .register
  exact ⟨hdraw.bounded hs.obs hs.inv, ⟨hdraw, fun _ _ => rfl⟩, h⟩

/-- `int_stm_exit_thread`. -/
theorem intStmExitThread_paced (pick : ℕ) : Triple (clockProtocol cfg) p (paced Pace.Inactive)
    (intStmExitThread cfg p pick : QProg Tid Addr Unit) (fun _ => paced Pace.Rest) J := by
  refine .bind (R := fun _ => paced Pace.Inactive) (.bind (idle_spec lockMutex_idle) fun _ =>
    .act (fun _ => paced Pace.Inactive) (fun s hs h => ?_) fun _ => idle_spec unlockMutex_idle)
    fun _ => .bind (idle_spec freeThread_idle) fun _ => ?_
  · have hdraw : Draw cfg p s.room { s.room with
        threads := s.threads.erase p, checked := Function.update s.checked p false } := .unregister
    exact ⟨hdraw.bounded hs.obs hs.inv, ⟨hdraw, fun _ _ => rfl⟩, h⟩
  · exact (idle_spec (Prog.within_atomic fun _ => .of_eq rfl rfl)).post (fun _ _ _ h => h.rest)
      fun _ _ h => h

/-- `stm_unit_write`. -/
theorem stmUnitWrite_paced : Triple (clockProtocol cfg) p (paced Pace.Inactive)
    (stmUnitWrite cfg p : QProg Tid Addr Unit) (fun _ => paced Pace.Rest) J := by
  refine fetchIncClock_spec (ψ := Pace.Inactive) (fun _ h => ⟨.inl rfl, h⟩) fun t =>
    .ite (fun _ => ?_) fun _ => .of_ret fun _ _ h => h.rest
  exact (idle_spec stmQuiesceBarrier_idle).post (fun _ _ _ h => h.rest) fun _ _ h => h

end

/-! ## Runs -/

/-- What a call may assume. -/
def Pace.Before : Cmd Addr → Pace → Prop
  | .initThread => fun _ => True
  | .exitThread _ | .unitStore => Pace.Inactive
  | .start _ => Pace.registered
  | .access _ | .commit _ _ | .abort _ _ => Pace.Checked
  | .setIrrevocable .. | .spurious _ => Pace.Rest

theorem exec_paced (p : Tid) (cmd : Cmd Addr) :
    Triple (clockProtocol cfg) p (paced (Pace.Before cmd)) (exec cfg p cmd) (fun _ => paced Pace.Rest)
      (paced Pace.Rest) := by
  cases cmd with
  | initThread => exact intStmInitThread_paced
  | exitThread pick => exact intStmExitThread_paced pick
  | start noRetry =>
    refine .bind (R := fun _ => paced Pace.registered) (idle_spec (Prog.within_atomic fun _ =>
      .setTx rfl rfl rfl)) fun _ => ?_
    exact intStmPrepare_paced.post (fun _ _ _ h _ => h) fun _ _ h => h
  | access events => exact (access_paced false events).pre fun _ _ h => ⟨h.1, .inr h.2⟩
  | commit outcome frees => exact intStmCommit_paced outcome frees
  | abort noRetry a =>
    exact (stmRollback_checked noRetry a).post (fun _ _ _ h => h.2.rest) fun _ _ h => h
  | setIrrevocable serial valid hasWrites a => exact intStmSetIrrevocable_paced ..
  | unitStore => exact stmUnitWrite_paced
  | spurious pick => exact idle_spec (Prog.within_atomic fun _ => .of_eq rfl rfl)

omit [DecidableEq Tid] in
theorem Pace.before_of_called {cmd : Cmd Addr} {s : State Tid Addr} (hrest : (s.pace p).Rest)
    (h : Called p cmd s) : Pace.Before cmd (s.pace p) := by
  cases cmd with
  | initThread => trivial
  | exitThread pick => exact h.2
  | start noRetry => exact h.1
  | access events => exact hrest h
  | commit outcome frees => exact hrest h
  | abort noRetry a => exact hrest h
  | unitStore => exact h
  | setIrrevocable serial valid hasWrites a => exact hrest
  | spurious pick => exact hrest

/-- In every run the account of the head-room is kept, and what a step preserves that keeps to `Draw` is
preserved. -/
theorem room_bounded (hv : 0 < cfg.versionMax) {O : State Tid Addr → Prop} {J : Room Tid → Prop}
    (hJ : J (State.init cfg : State Tid Addr).room)
    (hstep : ∀ p (s s' : State Tid Addr), Draw cfg p s.room s'.room → s'.room.Bounded cfg → O s' →
      J s.room → J s'.room)
    {T : Pool (State Tid Addr) Tid}
    (h : Pool.ReachesIn (exec cfg) Called O (Pool.init (.init cfg)) T) :
    T.st.room.Bounded cfg ∧ J T.st.room := by
  have hinit : (State.init cfg : State Tid Addr).room.Bounded cfg :=
    ⟨fun hmax => absurd hmax (Nat.not_le.2 hv), nofun⟩
  have hB : ∀ p, Pool.AtOutline (fun p => (paced Pace.Rest : Assn (clockProtocol cfg) p))
      (Pool.init (State.init cfg : State Tid Addr)) p := fun p => Pool.atOutline_init nofun
  have hC : ∀ p cmd (s : State Tid Addr), (clockProtocol cfg).Ok s →
      (paced Pace.Rest : Assn (clockProtocol cfg) p) s → Called p cmd s →
      (paced (Pace.Before cmd) : Assn (clockProtocol cfg) p) s :=
    fun _ _ _ _ hrest hcalled => Pace.before_of_called hrest hcalled
  have hs : (clockProtocol cfg).inv (Pool.init (State.init cfg : State Tid Addr) : Pool _ Tid).st := hinit
  refine ⟨(Pool.ReachesIn.sound (fun _ _ => hv) exec_paced hC hs hB h).1, ?_⟩
  exact Pool.ReachesIn.preserves (J := fun s => J s.room) (fun _ _ => hv) exec_paced hC hs hB hJ
    (fun p s s' hinv hg hO hJ => hstep p s s' hg.1 (hg.1.bounded hv hinv) hO hJ) h

end TinyStm.Quiesce
