import TinyStm.Quiesce.Attempt

/-!
# Calls keep to the protocol

One specification for each call that a thread may make. Between two calls a thread is registered,
and its transaction is running or over, or it is not registered. The specifications are put together
from those of the functions, and they are what the results on runs use: which calls a thread may
make next, and what it has to itself when one has returned.
-/

namespace TinyStm.Quiesce

variable {Tid Addr : Type} [DecidableEq Tid] {cfg : Config} {p q : Tid}
  {J : Assn (protocol cfg : RG (State Tid Addr) Tid) p}

/-! ## Calls of a transaction -/

/-- A transaction between two calls. -/
def Between (tx : Tx) : Prop := Run tx ∨ Over (fun _ => True) tx

/-- A load or a store. -/
theorem access_spec (unchecked : Bool) (es : List Event) :
    Triple (protocol cfg) p (has (At cfg Between))
      (access cfg p unchecked es : QProg Tid Addr Unit) (fun _ => has (At cfg Between))
      (has (At cfg Run)) := by
  induction es generalizing unchecked with
  | nil => exact .of_ret fun _ _ h => h
  | cons e es ih =>
    cases e with
    | grow => exact .bind (freeNow_at _) fun _ => ih unchecked
    | abort a =>
      refine .bind ((stmRollback_spec (μ := fun _ => True) trivial unchecked false a).pre fun s _ h =>
        At.mono h fun tx h => ⟨?_, trivial⟩) fun _ => (ih true).pre fun s _ h =>
          At.mono h fun _ h => .inr h
      exact h.imp (fun h => h.1) fun h => h.1

/-- `int_stm_start`. -/
theorem intStmStart_spec (noRetry : Bool) :
    Triple (protocol cfg) p (has (At cfg (Over fun _ => True)))
      (intStmStart cfg p noRetry : QProg Tid Addr Unit) (fun _ => has (At cfg Run)) J := by
  refine modifyTx_spec (ψ := Stopped) (fun tx h hsane => ?_) (fun _ => ⟨rfl, rfl⟩) intStmPrepare_spec
  exact ⟨.attr _ h.1, ⟨hsane.asked, hsane.bounded⟩, .inl h.1, h.2.1⟩

/-- A transaction that commits holds the token or has not asked for it, unless an abort handler has
asked for it in a commit that failed. -/
def Ending (mode : ℕ) : Prop := mode = 0 ∨ mode = 1 ∨ mode = 3

/-- The commit function of the design. -/
theorem designCommit_spec (outcome : Outcome) : Triple (protocol cfg) p (has (At cfg Run))
    (designCommit cfg p outcome : QProg Tid Addr Unit) (fun _ => has (At cfg (Aborting Ending)))
    (has (At cfg Run)) := by
  have hrun {tx : Tx} (h : Run tx) : Aborting Ending tx := ⟨.inl h.1, h.2.2.imp id .inr⟩
  cases outcome with
  | committed tick =>
    exact (incClock_spec false tick).post (fun _ s _ h => At.mono h fun _ => hrun) fun _ _ h => h
  | aborted tick a =>
    refine .bind (incClock_spec false tick) fun _ => ?_
    refine ((stmRollback_spec (μ := Ending) (.inr (.inl rfl)) tick false a).pre fun s _ h =>
      At.mono h fun _ => hrun).post (fun _ s _ h => At.mono h fun tx h => ?_) fun _ _ h => h
    exact ⟨.inr h.1, h.2.2⟩

/-- A transaction has returned a token that it did not hold. -/
def misreleasing : Assn (protocol cfg : RG (State Tid Addr) Tid) p where
  holds s := s.misreleased = true
  stable q hq s s' _ _ hg h := by
    cases hg with
    | returnToken => exact Bool.or_eq_true_iff.2 (.inl h)
    | _ => exact h

/-- The token is returned. -/
theorem releaseToken_spec : Triple (protocol cfg) p (has (At cfg (Aborting Ending)))
    (releaseToken p : QProg Tid Addr Unit) (fun _ => has (At cfg fun tx => tx.mode = 0)) J := by
  refine getTx_spec fun tx htx hsane => .ite (fun hmode => ?_) fun hmode => .of_ret fun s _ h =>
    At.mono h fun _ h => by rw [h]; exact not_not.1 hmode
  let releasing (tx' : Tx) : Prop := tx'.point = .releasing ∧ tx'.serial = tx.serial
  refine act_spec (fun _ => if tx.mode = 1 then misreleasing else
    has fun o => At cfg releasing o ∧ (tx.serial = true → o.granted)) (fun s hs h => ⟨?_, ?_⟩) fun _ => ?_
  · have htx' : s.txs p = tx := h.2
    exact .returnToken h.1.registered h.1.waiting (by rwa [htx']) (by rw [htx']; exact htx.1)
  · have htx' : s.txs p = tx := h.2
    by_cases hm : tx.mode = 1
    · rw [if_pos hm]
      exact Bool.or_eq_true_iff.2 (.inr (by simp [htx', hm]))
    · rw [if_neg hm]
      have hm : tx.mode = 3 := (htx.2.resolve_left hmode).resolve_left hm
      have hpresent := h.1.setTx (t := { s.txs p with point := .releasing }) rfl rfl
        ⟨h.1.sane.asked, h.1.sane.bounded⟩
      refine ⟨show At cfg releasing (State.own (s.setTx p fun tx => { tx with point := .releasing }) p)
        from ?_, fun hserial => hs.serial p ?_ ?_ ?_⟩
      · have hserial : (s.txs p).serial = tx.serial := congrArg Tx.serial htx'
        rw [own_setTx]
        exact ⟨hpresent, rfl, hserial⟩
      · rw [htx', hm]
      · rw [htx', hserial]
      · rw [htx']
        rcases htx.1 with h | h <;> rw [h] <;> nofun
  by_cases hm : tx.mode = 1
  · rw [if_pos hm]
    -- the run is not considered from here on
    exact .of_fact (φ := False) (fun s hs h => by cases hs.obs.symm.trans h) False.elim
  rw [if_neg hm]
  refine .bind (R := fun _ => has (At cfg releasing)) (.ite (fun hserial => ?_) fun _ =>
    .of_ret fun _ _ h => h.1) fun _ => .last (modifyTx_spec (fun tx h hsane => ?_)
      (fun _ => ⟨rfl, rfl⟩) (.of_ret fun _ _ h => h))
  · refine act_spec (fun _ => (has fun o => At cfg releasing o ∧ ¬ o.granted ∧ ¬ o.rolls) ⊓ holdsMutex)
      (fun s hs h => ?_) fun _ => unlockMutex_spec
    have hgranted : s.granted = some p := h.2 hserial
    obtain ⟨hpresent, hreleasing⟩ := h.1
    refine ⟨.release hgranted hreleasing.1, ⟨⟨{ hpresent with }, hreleasing⟩, nofun, hpresent.rolls⟩,
      (hs.granted p hgranted).1, trivial⟩
  · exact ⟨.forget h.1, ⟨fun _ => rfl, Nat.zero_le 3⟩, rfl⟩

/-- `int_stm_commit`. -/
theorem intStmCommit_spec (outcome : Outcome) (frees : List Addr) :
    Triple (protocol cfg) p (has (At cfg Run)) (intStmCommit cfg p outcome frees)
      (fun _ => has (At cfg (Over fun _ => True))) (has (At cfg Run)) := by
  refine .bind (designCommit_spec outcome) fun _ => .bind releaseToken_spec fun _ => ?_
  refine modifyTx_spec (ψ := Over fun _ => True) (fun tx h hsane => ?_) (fun _ => ⟨rfl, rfl⟩) ?_
  · exact ⟨.commit h, ⟨hsane.asked, hsane.bounded⟩, rfl, rfl, trivial⟩
  · exact freeNow_at _

/-- `int_stm_set_irrevocable` goes on with the token. -/
theorem goIrrevocable_spec (a : Abort) :
    Triple (protocol cfg) p
      (has (At cfg fun tx => tx.point = .running ∧ tx.status.isActive = true ∧ tx.mode = 2))
      (goIrrevocable cfg p a : QProg Tid Addr Unit) (fun _ => has (At cfg Between))
      (has (At cfg Run)) := by
  refine getTx_spec fun tx htx hsane => .ite (fun hserial => ?_) fun hserial => ?_
  · refine .bind (stmQuiesce_spec (b := true) fun o h => ?_) fun ok => .ite (fun hok => ?_)
      fun hok => ?_
    · rw [h.2]
      exact htx.2.1
    · refine (grantSerial_spec (χ := fun tx' => tx' = tx) (ψ := Between) fun tx' h => ?_).pre
        fun s _ h => ⟨h.1.1, h.1.2 hok⟩
      subst h
      exact ⟨htx.2.2, .inl ⟨htx.1, htx.2.1, .inr rfl⟩⟩
    · refine .pre ((stmRollback_spec (μ := fun _ => True) trivial false false a).post
        (fun _ s _ h => At.mono h fun _ h => .inr h) fun _ _ h => h) fun s _ h => At.mono h.1.1 ?_
      rintro _ rfl
      exact ⟨.inl htx.1, trivial⟩
  · refine grantMode_spec fun tx' h => ?_
    subst h
    exact ⟨Bool.eq_false_iff.2 hserial, htx.2.2, .inl ⟨htx.1, htx.2.1, .inr rfl⟩⟩

/-- `int_stm_set_irrevocable`. -/
theorem intStmSetIrrevocable_spec (serial valid hasWrites : Bool) (a : Abort) :
    Triple (protocol cfg) p (has (At cfg Between))
      (intStmSetIrrevocable cfg p serial valid hasWrites a : QProg Tid Addr Unit)
      (fun _ => has (At cfg Between)) (has (At cfg Run)) := by
  refine getTx_spec fun tx htx hsane => .ite (fun hactive => ?_) fun hactive => ?_
  · have hover : tx.point = .outside := by
      rcases htx with htx | htx
      · cases htx.2.1.symm.trans hactive
      · exact htx.1
    refine ((requestIrrevocable_spec (χ := Over fun _ => True) serial fun tx h =>
      ⟨.inl h.1, h.1, h.2.1, trivial⟩).pre fun s _ h => At.mono h ?_).post
      (fun _ s _ h => At.mono h fun _ h => .inr h) fun _ _ h => h
    rintro _ rfl
    exact ⟨hover, hactive, trivial⟩
  have hrun : Run tx := htx.resolve_right fun h => hactive h.2.1
  refine .ite (fun _ => .of_ret fun s _ h => At.mono h ?_) fun hmode3 => .ite (fun hmode => ?_)
    fun hmode => ?_
  · rintro _ rfl
    exact htx
  · let asking (tx : Tx) : Prop :=
      tx.point = .running ∧ tx.status.isActive = true ∧ tx.mode = 1
    let holding (tx : Tx) : Prop :=
      tx.point = .running ∧ tx.status.isActive = true ∧ tx.mode = 2
    refine modifyTx_spec (ψ := asking) (fun tx' h hsane' => ?_) (fun _ => ⟨rfl, rfl⟩) ?_
    · subst h
      exact ⟨.first serial hmode, ⟨nofun, Nat.le_add_left 1 2⟩, hrun.1, hrun.2.1, rfl⟩
    refine .bind (tryToken_spec (χ := asking) (ψ := holding) fun tx h =>
      ⟨.inr ⟨h.1, h.2.1⟩, h.2.2, ?_⟩) fun ok => .ite (fun hok => ?_) fun hok => ?_
    · refine ⟨?_, h.2.1, rfl⟩
      dsimp only
      rw [h.1]
      rfl
    · rw [if_pos hok.1]
      exact goIrrevocable_spec a
    · refine ((stmRollback_spec (μ := fun _ => True) trivial false false a).pre fun s _ h => ?_).post
        (fun _ s _ h => At.mono h fun _ h => .inr h) fun _ _ h => h
      cases ok with
      | true => exact At.mono h fun tx h => ⟨.inl h.1, trivial⟩
      | false => exact At.mono h fun tx h => ⟨.inl h.1, trivial⟩
  · exact (hrun.2.2.elim hmode hmode3).elim

/-! ## Threads -/

/-- A thread that is not registered. -/
structure Absent (o : Own) : Prop where
  registered : ¬ o.registered
  waiting : ¬ o.waiting
  rolls : ¬ o.rolls
  gc : o.tx.inGc = false
  freeing : o.tx.freeing = none
  sane : o.tx.Sane
  ended : Over (fun _ => True) o.tx

/-- A thread that takes a slot of the collector or gives it back, while it is not registered. -/
def Windowed (o : Own) : Prop := Absent o ∧ o.windowed

/-- A thread that has a slot of the collector and is not registered. -/
def Slotted (cfg : Config) (o : Own) : Prop := Windowed o ∧ (cfg.gc ≠ none → o.slotted)

theorem Windowed.near {o : Own} (h : Windowed o) : Near o :=
  ⟨.inl h.2, h.1.waiting, fun hp => (hp h.1.ended.1).elim⟩

theorem Slotted.near {o : Own} (h : Slotted cfg o) : Near o ∧ (cfg.gc ≠ none → o.slotted) :=
  ⟨h.1.near, h.2⟩

theorem Windowed.setSlotted {o : Own} (h : Windowed o) (b : Prop) :
    Windowed { o with slotted := b } :=
  ⟨{ h.1 with }, h.2⟩

theorem Windowed.setTx {o : Own} (h : Windowed o) {t : Tx} (hgc : t.inGc = false)
    (hfreeing : t.freeing = none) (hsane : t.Sane) (hover : Over (fun _ => True) t) :
    Windowed { o with tx := t } :=
  ⟨{ h.1 with gc := hgc, freeing := hfreeing, sane := hsane, ended := hover }, h.2⟩

/-- Inside the collector, a thread that is not registered calls it. -/
theorem Windowed.calling {o : Own} (h : Calm none true Windowed o) :
    Calling none (Calm none true Windowed) o :=
  ⟨h.2.2.near, h.1, h.1, h.2.1, h.2.2.setSlotted True⟩

theorem Windowed.of_calling {o : Own} (h : Calling none (Calm none true Windowed) o) :
    Calm none true Windowed o :=
  ⟨h.2.1, h.2.2.2.1, h.2.2.2.2.setSlotted o.slotted⟩

/-- `gc_init_thread`. -/
theorem gcInitThread_spec : Triple (protocol cfg) p (has (Calm none false Windowed))
    (insideGc cfg p fun g => gcInitThread g p : QProg Tid Addr Unit)
    (fun _ => has (Calm none false (Slotted cfg))) J := by
  refine insideGc_spec (fun _ h => h.near) (fun _ h => h.near.1) ?_
  unfold callGc
  cases hg : cfg.gc with
  | none => exact .of_ret fun _ _ h => ⟨h.1, h.2.1, h.2.2, fun h => (h hg).elim⟩
  | some g =>
    refine .pre ((zoomGc_spec hg gcInitThread_shared).post (fun _ s _ h => ?_) fun _ _ h => h)
      fun s _ h => ⟨Windowed.calling h, trivial⟩
    obtain ⟨h, i, hidx, hheld⟩ := h
    have h := Windowed.of_calling h
    refine ⟨h.1, h.2.1, h.2.2, fun _ => ?_⟩
    rw [← hidx] at hheld
    exact hheld

/-- `gc_exit_thread`. -/
theorem gcExitThread_spec : Triple (protocol cfg) p (has (Calm none false (Slotted cfg)))
    (insideGc cfg p fun g => gcExitThread g p : QProg Tid Addr Unit)
    (fun _ => has (Calm none false Windowed)) J := by
  refine insideGc_spec (fun _ h => h.near.1) (fun _ h => h.near) ?_
  unfold callGc
  cases hg : cfg.gc with
  | none => exact .of_ret fun _ _ h => ⟨h.1, h.2.1, h.2.2.1⟩
  | some g =>
    refine .of_exists (R := fun i => has (Calling none (Calm none true Windowed)) ⊓
      (gcSlots (GcOwns i)).pull (·.gc) (gc_stable hg)) (fun s _ h => ?_) fun i =>
      (zoomGc_spec hg (K := .pure True) gcExitThread_shared).post (fun _ s _ h => ?_) fun _ _ h => h
    · refine ⟨s.gc.idx p, Windowed.calling ⟨h.1, h.2.1, h.2.2.1⟩, rfl, h.2.2.2 ?_⟩
      rw [hg]
      nofun
    · exact Windowed.of_calling h.1

/-- `stm_quiesce_enter_thread`. -/
theorem stmQuiesceEnterThread_spec : Triple (protocol cfg) p (has (Slotted cfg))
    (stmQuiesceEnterThread p : QProg Tid Addr Unit) (fun _ => has (At cfg (Over fun _ => True))) J := by
  refine .bind (.pre (lockMutex_spec (φ := Slotted cfg) (F := .pure True) fun _ h => h)
    fun _ _ h => ⟨h, trivial⟩) fun _ => ?_
  refine act_spec (fun _ => (has fun o => At cfg (Over fun _ => True) o ∧ ¬ o.granted ∧ ¬ o.rolls) ⊓
    holdsMutex) (fun s hs h => ?_) fun _ => unlockMutex_spec
  obtain ⟨⟨⟨hslotted, hgranted, hrolls⟩, -⟩, hmutex, -⟩ := h
  obtain ⟨habsent, -⟩ := hslotted.1
  refine ⟨.register hmutex hrolls habsent.registered habsent.waiting,
    ⟨⟨{ habsent with registered := List.mem_cons_self, windowed := ?_, slotted := hslotted.2 },
      habsent.ended⟩, hgranted, hrolls⟩, hmutex, trivial⟩
  exact fun h => of_decide_eq_true (List.mem_filter.1 h).2 rfl

/-- `int_stm_init_thread`. -/
theorem intStmInitThread_spec :
    Triple (protocol cfg) p (has fun o => Absent o ∧ ¬ o.windowed)
      (intStmInitThread cfg p : QProg Tid Addr Unit) (fun _ => has (At cfg (Over fun _ => True))) J := by
  have hcalm {o : Own} : Windowed o ↔ Calm none false Windowed o :=
    calm_iff fun _ h => ⟨h.1.gc, h.1.freeing⟩
  have hcalm' {o : Own} : Slotted cfg o ↔ Calm none false (Slotted cfg) o :=
    calm_iff fun _ h => ⟨h.1.1.gc, h.1.1.freeing⟩
  refine act_spec (fun _ => has Windowed)
    (fun s hs h => ⟨.enterWindow, { h.1 with }, List.mem_cons_self⟩) fun _ => ?_
  refine .bind (gcInitThread_spec.pre fun _ _ h => hcalm.1 h) fun _ => ?_
  refine act_spec (fun _ => has (Slotted cfg)) (fun s hs h => ?_) fun _ => stmQuiesceEnterThread_spec
  have h : Slotted cfg (s.own p) := hcalm'.2 h
  refine ⟨.move (f := fun _ => .init) (.init h.1.1.ended.1) h.1.1.waiting (fun h => (h rfl).elim)
    (fun h => (h.elim nofun fun h => h rfl).elim), ?_⟩
  show Slotted cfg (State.own (s.setTx p fun _ => .init) p)
  rw [own_setTx]
  exact ⟨h.1.setTx rfl rfl ⟨fun _ => rfl, Nat.zero_le 3⟩ ⟨rfl, rfl, trivial⟩, h.2⟩

/-- `stm_quiesce_exit_thread`. -/
theorem stmQuiesceExitThread_spec (pick : ℕ) :
    Triple (protocol cfg) p (has (At cfg (Over fun _ => True)))
      (stmQuiesceExitThread p pick : QProg Tid Addr Unit) (fun _ => has (Slotted cfg)) J := by
  refine .bind (.pre (lockMutex_spec (φ := At cfg (Over fun _ => True)) (F := .pure True) fun _ h => h)
    fun _ _ h => ⟨h, trivial⟩) fun _ => ?_
  refine act_spec (fun _ => (has fun o => Slotted cfg o ∧ ¬ o.granted ∧ ¬ o.rolls) ⊓ holdsMutex)
    (fun s hs h => ?_) fun _ => unlockMutex_spec
  obtain ⟨⟨⟨⟨hpresent, hover⟩, hgranted, hrolls⟩, -⟩, hmutex, -⟩ := h
  refine ⟨.unregister pick hmutex hrolls hpresent.registered hpresent.waiting hover.1 hover.2.1,
    ⟨⟨⟨{ hpresent with registered := ?_, ended := hover }, List.mem_cons_self⟩, hpresent.slotted⟩,
      hgranted, hrolls⟩, hmutex, trivial⟩
  exact hs.threads.not_mem_erase

/-- The memory of a thread is given to the collector. -/
theorem freeThread_spec : Triple (protocol cfg) p (has (Slotted cfg))
    (freeThread cfg p : QProg Tid Addr Unit) (fun _ => has Windowed) J := by
  have hcalm {o : Own} : Slotted cfg o ↔ Calm none false (Slotted cfg) o :=
    calm_iff fun _ h => ⟨h.1.1.gc, h.1.1.freeing⟩
  have hnear : ∀ o, Slotted cfg o → Near o := fun o h => h.near.1
  refine .pre (freeEpoch_spec hnear fun t => ?_) fun _ _ h => hcalm.1 h
  refine .bind (freeAt_spec fun o h => h.near) fun _ => .bind (freeAt_spec fun o h => h.near) fun _ =>
    .bind (freeAt_spec fun o h => h.near) fun _ => freed_spec hnear ?_
  refine gcExitThread_spec.post (fun _ s _ h => ?_) fun _ _ h => h
  exact (calm_iff fun _ h => ⟨h.1.gc, h.1.freeing⟩).2 h

/-- `int_stm_exit_thread`. -/
theorem intStmExitThread_spec (pick : ℕ) :
    Triple (protocol cfg) p (has (At cfg (Over fun _ => True)))
      (intStmExitThread cfg p pick : QProg Tid Addr Unit)
      (fun _ => has fun o => Absent o ∧ ¬ o.windowed) J := by
  refine .bind (stmQuiesceExitThread_spec pick) fun _ => .bind freeThread_spec fun _ => .last ?_
  refine act_spec (fun _ => has fun o => Absent o ∧ ¬ o.windowed) (fun s hs h => ?_) fun _ =>
    .of_ret fun _ _ h => h
  refine ⟨.leaveWindow h.1.gc h.1.freeing, { h.1 with }, ?_⟩
  exact fun h => of_decide_eq_true (List.mem_filter.1 h).2 rfl

/-! ## Runs -/

/-- A thread between two calls. -/
def Rest (cfg : Config) (o : Own) : Prop := At cfg Between o ∨ Absent o ∧ ¬ o.windowed

/-- A unit store. -/
theorem stmUnitWrite_spec :
    Triple (protocol cfg) p (has fun o => Rest cfg o ∧ o.tx.status.isActive = false)
      (stmUnitWrite cfg p : QProg Tid Addr Unit) (fun _ => has (Rest cfg)) J := by
  refine act_spec (fun _ => has fun o => Rest cfg o ∧ o.tx.status.isActive = false)
    (fun s hs h => ⟨.tick true, h⟩) fun now => .ite (fun _ => ?_) fun _ => .of_ret fun _ _ h => h.1
  refine (stmQuiesceBarrier_spec fun o h => ?_).post (fun _ _ _ h => h.1) fun _ _ h => h
  rcases h with ⟨⟨hpresent, hrun | hover⟩ | ⟨habsent, -⟩, hinactive⟩
  · cases hrun.2.1.symm.trans hinactive
  · exact ⟨hpresent.waiting, hpresent.rolls, .inl hover.1, hpresent.gc, hpresent.freeing⟩
  · exact ⟨habsent.waiting, habsent.rolls, .inl habsent.ended.1, habsent.gc, habsent.freeing⟩

/-- What a call may assume. -/
def Before (cfg : Config) : Cmd Addr → Own → Prop
  | .initThread => fun o => Absent o ∧ ¬ o.windowed
  | .exitThread _ | .start _ => At cfg (Over fun _ => True)
  | .access _ | .setIrrevocable .. => At cfg Between
  | .commit _ _ | .abort _ _ => At cfg Run
  | .unitStore => fun o => Rest cfg o ∧ o.tx.status.isActive = false
  | .spurious _ => Rest cfg

theorem exec_spec (p : Tid) (cmd : Cmd Addr) :
    Triple (protocol cfg) p (has (Before cfg cmd)) (exec cfg p cmd) (fun _ => has (Rest cfg))
      (has (Rest cfg)) := by
  have hrun {s : State Tid Addr} (h : (has (At cfg Run) : Assn (protocol cfg) p) s) :
      (has (Rest cfg) : Assn (protocol cfg) p) s :=
    .inl (At.mono h fun _ => .inl)
  have hover {s : State Tid Addr} (h : (has (At cfg (Over fun _ => True)) : Assn (protocol cfg) p) s) :
      (has (Rest cfg) : Assn (protocol cfg) p) s :=
    .inl (At.mono h fun _ => .inr)
  cases cmd with
  | initThread => exact intStmInitThread_spec.post (fun _ _ _ => hover) fun _ _ => id
  | exitThread pick => exact (intStmExitThread_spec pick).post (fun _ _ _ h => .inr h) fun _ _ => id
  | start noRetry => exact (intStmStart_spec noRetry).post (fun _ _ _ => hrun) fun _ _ => id
  | access events => exact (access_spec false events).post (fun _ _ _ h => .inl h) fun _ _ => hrun
  | commit outcome frees =>
    exact (intStmCommit_spec outcome frees).post (fun _ _ _ => hover) fun _ _ => hrun
  | abort noRetry a =>
    exact ((stmRollback_spec (μ := fun _ => True) trivial false noRetry a).pre fun s _ h =>
      At.mono h fun tx h => ⟨.inl h.1, trivial⟩).post (fun _ _ _ => hover) fun _ _ => hrun
  | setIrrevocable serial valid hasWrites a =>
    exact (intStmSetIrrevocable_spec serial valid hasWrites a).post (fun _ _ _ h => .inl h)
      fun _ _ => hrun
  | unitStore => exact stmUnitWrite_spec
  | spurious pick =>
    exact .last (act_spec (fun _ => has (Rest cfg)) (fun s hs h => ⟨.spurious pick, h⟩) fun _ =>
      .of_ret fun _ _ h => h)

omit [DecidableEq Tid] in
theorem before_of_called {cmd : Cmd Addr} {s : State Tid Addr} (hrest : Rest cfg (s.own p))
    (h : Called p cmd s) : Before cfg cmd (s.own p) := by
  have hover (hp : p ∈ s.threads) (hs : (s.txs p).status.isActive = false) :
      At cfg (Over fun _ => True) (s.own p) := by
    rcases hrest with ⟨hpresent, hrun | hover⟩ | habsent
    · cases hs.symm.trans hrun.2.1
    · exact ⟨hpresent, hover⟩
    · exact (habsent.1.registered hp).elim
  have hrun (hs : (s.txs p).status.isActive = true) : At cfg Run (s.own p) := by
    rcases hrest with ⟨hpresent, hrun | hover⟩ | habsent
    · exact ⟨hpresent, hrun⟩
    · cases hs.symm.trans hover.2.1
    · cases hs.symm.trans habsent.1.ended.2.1
  have hbetween (hp : p ∈ s.threads) : At cfg Between (s.own p) :=
    hrest.resolve_right fun h => h.1.registered hp
  cases cmd with
  | initThread => exact hrest.resolve_left fun h' => h h'.1.registered
  | exitThread pick => exact hover h.1 h.2
  | start noRetry => exact hover h.1 h.2
  | access events => exact ⟨(hrun h).1, .inl (hrun h).2⟩
  | commit outcome frees => exact hrun h
  | abort noRetry a => exact hrun h
  | setIrrevocable serial valid hasWrites a => exact hbetween h
  | unitStore => exact ⟨hrest, h⟩
  | spurious pick => exact hrest

/-- The runs of the library from `stm_init` on all of whose states satisfy `O`. -/
abbrev QRun (cfg : Config) (O : State Tid Addr → Prop) (T : Pool (State Tid Addr) Tid) : Prop :=
  Pool.ReachesIn (exec cfg) Called O (Pool.init (.init cfg)) T

omit [DecidableEq Tid] in
theorem inv_init : Inv cfg (State.init cfg : State Tid Addr) where
  active _ h := by cases h
  registered _ h := (h rfl).elim
  granted _ h := by cases h
  serial _ h := by cases h
  threads := List.nodup_nil
  barrier := List.nodup_nil
  sleepers := List.nodup_nil
  asleep _ h := by cases h
  counted := .inr fun _ h => by cases h
  count := rfl
  rolling _ h := by cases h
  busy _ h := by cases h with
    | inl h => cases h
    | inr h => exact (h rfl).elim
  waits _ h := by cases h
  shape c _ := ⟨fun _ => by simp [State.init, GcState.init], fun _ _ _ _ => rfl, fun _ _ => rfl,
    fun _ _ => rfl⟩

/-- What every step preserves holds in every run in which no transaction returns a token that it does not
hold. -/
theorem QRun.preserves {O : State Tid Addr → Prop} (hO : ∀ s, O s → s.misreleased = false)
    {J : State Tid Addr → Prop} (hJ : J (.init cfg))
    (hstep : ∀ p s s', Inv cfg s → Act cfg p s s' → O s' → J s → J s')
    {T : Pool (State Tid Addr) Tid} (h : QRun cfg O T) : Inv cfg T.st ∧ J T.st := by
  have hB : ∀ p, Pool.AtOutline (fun p => (has (Rest cfg) : Assn (protocol cfg) p))
      (Pool.init (State.init cfg : State Tid Addr)) p := fun p =>
    Pool.atOutline_init (.inr ⟨⟨nofun, nofun, nofun, rfl, rfl, ⟨fun _ => rfl, Nat.zero_le 3⟩, rfl, rfl,
      trivial⟩, nofun⟩)
  have hC : ∀ p cmd (s : State Tid Addr), (protocol cfg).Ok s →
      (has (Rest cfg) : Assn (protocol cfg) p) s → Called p cmd s →
      (has (Before cfg cmd) : Assn (protocol cfg) p) s :=
    fun _ _ _ _ hrest hcalled => before_of_called hrest hcalled
  have hinit : (protocol cfg).inv (Pool.init (State.init cfg : State Tid Addr) : Pool _ Tid).st :=
    inv_init
  exact ⟨(Pool.ReachesIn.sound hO exec_spec hC hinit hB h).1,
    Pool.ReachesIn.preserves hO exec_spec hC hinit hB hJ hstep h⟩

end TinyStm.Quiesce
