import TinyStm.Quiesce.Collect

/-!
# Attempts keep to the protocol

The functions that start, abort and commit a transaction and that make it irrevocable, and those by
which a thread comes and goes. Between the attempts a thread looks at `quiesce`, and it waits with
its status set to a value that the thread in serial mode does not wait for.
-/

namespace TinyStm.Quiesce

variable {Tid Addr : Type} [DecidableEq Tid] {cfg : Config} {p q : Tid}

/-- What the bits of `irrevocable` may be. -/
structure Tx.Sane (tx : Tx) : Prop where
  asked : tx.mode = 0 → tx.serial = false
  bounded : tx.mode ≤ 3

/-- A registered thread that is not in the barrier nor in the collector. -/
structure Present (cfg : Config) (o : Own) : Prop where
  registered : o.registered
  waiting : ¬ o.waiting
  windowed : ¬ o.windowed
  rolls : ¬ o.rolls
  slotted : cfg.gc ≠ none → o.slotted
  gc : o.tx.inGc = false
  freeing : o.tx.freeing = none
  sane : o.tx.Sane

/-- Such a thread, with a descriptor as `χ` says. -/
def At (cfg : Config) (χ : Tx → Prop) (o : Own) : Prop := Present cfg o ∧ χ o.tx

section
variable {α β : Type} {χ ψ : Tx → Prop} {J : Assn (protocol cfg : RG (State Tid Addr) Tid) p}
  {Q : α → Assn (protocol cfg : RG (State Tid Addr) Tid) p}

theorem At.mono {s : State Tid Addr} (h : (has (At cfg χ) : Assn (protocol cfg) p) s)
    (hχ : ∀ tx, χ tx → ψ tx) : (has (At cfg ψ) : Assn (protocol cfg) p) s :=
  ⟨h.1, hχ _ h.2⟩

/-- The descriptor of a thread is changed. -/
theorem Present.setTx {o : Own} (h : Present cfg o) {t : Tx} (hgc : t.inGc = o.tx.inGc)
    (hfreeing : t.freeing = o.tx.freeing) (hsane : t.Sane) : Present cfg { o with tx := t } :=
  ⟨h.registered, h.waiting, h.windowed, h.rolls, h.slotted, hgc.trans h.gc, hfreeing.trans h.freeing,
    hsane⟩

/-- A thread changes its descriptor by a step of `Act`. -/
theorem setTx_spec {g : State Tid Addr → β × State Tid Addr} {f : Tx → Tx}
    {c : β → QProg Tid Addr α}
    (hown : ∀ s, (g s).2.own p = (s.setTx p f).own p)
    (hf : ∀ tx, χ tx → tx.Sane → (f tx).inGc = tx.inGc ∧ (f tx).freeing = tx.freeing ∧ (f tx).Sane ∧
      ψ (f tx))
    (hact : ∀ s, Inv cfg s → At cfg χ (s.own p) → Act cfg p s (g s).2)
    (hc : ∀ b, Triple (protocol cfg) p (has (At cfg ψ)) (c b) Q J) :
    Triple (protocol cfg) p (has (At cfg χ)) (.atomic g >>= c) Q J := by
  refine act_spec (fun _ => has (At cfg ψ)) (fun s hs h => ⟨hact s hs h, ?_⟩) hc
  obtain ⟨hgc, hfreeing, hsane, hχ⟩ := hf _ h.2 h.1.sane
  show At cfg ψ ((g s).2.own p)
  rw [hown, own_setTx]
  exact ⟨h.1.setTx hgc hfreeing hsane, hχ⟩

/-- A thread makes a move. -/
theorem modifyTx_spec {f : Tx → Tx} {c : Unit → QProg Tid Addr α}
    (hmove : ∀ tx, χ tx → tx.Sane → Move tx (f tx) ∧ (f tx).Sane ∧ ψ (f tx))
    (hkeep : ∀ tx, (f tx).inGc = tx.inGc ∧ (f tx).freeing = tx.freeing)
    (hc : Triple (protocol cfg) p (has (At cfg ψ)) (c ()) Q J) :
    Triple (protocol cfg) p (has (At cfg χ)) (modifyTx p f >>= c) Q J := by
  refine setTx_spec (fun _ => rfl) (fun tx h hsane => ⟨(hkeep tx).1, (hkeep tx).2,
    (hmove tx h hsane).2⟩) (fun s hs h => ?_) fun _ => hc
  refine .move (hmove _ h.2 h.1.sane).1 h.1.waiting (fun _ => h.1.registered) fun hbusy => ?_
  exact .inr ⟨h.1.registered, h.1.waiting⟩

/-- A thread reads its descriptor. -/
theorem getTx_spec {c : Tx → QProg Tid Addr α}
    (hc : ∀ tx, χ tx → tx.Sane →
      Triple (protocol cfg) p (has (At cfg fun tx' => tx' = tx)) (c tx) Q J) :
    Triple (protocol cfg) p (has (At cfg χ)) (getTx p >>= c) Q J := by
  refine read_spec (fun tx => has (At cfg fun tx' => tx' = tx) ⊓ .pure (χ tx ∧ tx.Sane))
    (fun s _ h => ⟨⟨h.1, rfl⟩, h.2, h.1.sane⟩) fun tx => .of_fact (fun _ _ h => h.2) fun h => ?_
  exact (hc tx h.1 h.2).pre fun _ _ h => h.1

end

/-! ## `stm_check_quiesce` -/

/-- A transaction that is running. -/
def Run (tx : Tx) : Prop :=
  tx.point = .running ∧ tx.status.isActive = true ∧ (tx.mode = 0 ∨ tx.mode = 3)

/-- A transaction that is active but has not got past `stm_check_quiesce`. -/
def Checking (tx : Tx) : Prop :=
  tx.point = .preparing ∧ tx.status.isActive = true ∧ (tx.mode = 0 ∨ tx.mode = 3)

section
variable {J : Assn (protocol cfg : RG (State Tid Addr) Tid) p}

/-- `stm_check_quiesce`. -/
theorem stmCheckQuiesce_spec : Triple (protocol cfg) p (has (At cfg Checking))
    (stmCheckQuiesce p : QProg Tid Addr Unit) (fun _ => has (At cfg Run)) J := by
  have hrun {tx : Tx} (h : Checking tx) : Run { tx with point := .running } := ⟨rfl, h.2⟩
  refine act_spec (fun quiesce => if quiesce = 2 then has (At cfg Checking) else has (At cfg Run))
    (fun s hs h => ?_) fun quiesce => .ite (fun hq => ?_) fun hq => ?_
  · by_cases hq : s.quiesce = 2
    · simp only [if_pos hq]
      exact ⟨.stutter, h⟩
    · simp only [if_neg hq]
      refine ⟨.pass h.2.1 h.2.2.1 (.inl hq) h.1.waiting, show At cfg Run _ from ?_⟩
      rw [own_setTx]
      exact ⟨h.1.setTx rfl rfl ⟨h.1.sane.asked, h.1.sane.bounded⟩, hrun h.2⟩
  · rw [if_pos hq]
    refine getTx_spec fun tx htx hsane => .ite (fun hserial => ?_) fun hserial => ?_
    · refine .last (setTx_spec (f := fun tx => { tx with point := .running }) (ψ := Run)
        (fun _ => rfl) (fun tx' h hsane' => ?_) (fun s hs h => ?_) fun _ =>
        .of_ret fun _ _ h => h)
      · subst h
        exact ⟨rfl, rfl, ⟨hsane.asked, hsane.bounded⟩, hrun htx⟩
      · obtain ⟨hpresent, rfl⟩ := h
        refine .pass htx.1 htx.2.1 (.inr ?_) hpresent.waiting
        refine hs.serial p (htx.2.2.resolve_left fun hmode => ?_) hserial fun h => by
          cases htx.1.symm.trans h
        cases (hsane.asked hmode).symm.trans hserial
    · refine modifyTx_spec (ψ := fun tx' => tx' = { tx with status := .idle })
        (fun tx' h hsane' => ?_) (fun _ => ⟨rfl, rfl⟩) (.bind (R := fun _ =>
          has (At cfg fun tx' => tx' = { tx with status := .idle })) (.iterate
          (fun _ => has (At cfg fun tx' => tx' = { tx with status := .idle })) (fun _ _ h => h)
          fun _ => ?_) fun _ => .last ?_)
      · subst h
        exact ⟨.idle htx.1, ⟨hsane.asked, hsane.bounded⟩, rfl⟩
      · refine read_spec (fun _ => has (At cfg fun tx' => tx' = { tx with status := .idle }))
          (fun _ _ h => h) fun quiesce => ?_
        split
        · exact .of_ret fun _ _ h => h
        · exact .of_ret fun _ _ h => h
      · refine setTx_spec (f := fun tx' => { tx' with status := tx.status, point := .running })
          (ψ := Run) (fun _ => rfl) (fun tx' h hsane' => ?_) (fun s hs h => ?_) fun _ =>
          .of_ret fun _ _ h => h
        · subst h
          exact ⟨rfl, rfl, ⟨hsane.asked, hsane.bounded⟩, hrun htx⟩
        · exact .restore ((congrArg Tx.point h.2).trans htx.1) htx.2.1 h.1.waiting
  · rw [if_neg hq]
    exact .of_ret fun _ _ h => h

/-! ## The token -/

/-- The token is taken if it is free. -/
theorem tryToken_spec {χ : Tx → Prop} {ψ : Tx → Prop}
    (hχ : ∀ tx, χ tx → (tx.point = .spinning ∨ tx.point = .running ∧ tx.status.isActive = true) ∧
      tx.mode = 1 ∧
      ψ { tx with
        mode := 2, point := if tx.point = .spinning then .preparing else tx.point }) :
    Triple (protocol cfg) p (has (At cfg χ)) (tryToken p : QProg Tid Addr Bool)
      (fun ok => if ok then has (At cfg ψ) else has (At cfg χ)) J := by
  refine read_spec (fun _ => has (At cfg χ)) (fun _ _ h => h) fun i => .ite
    (fun _ => .of_ret fun _ _ h => h) fun _ => .last (act_spec (fun ok => if ok then has (At cfg ψ)
      else has (At cfg χ)) (fun s hs h => ?_) fun _ => .of_ret fun _ _ h => h)
  by_cases hi : s.irrevocable = 0
  · simp only [if_pos hi]
    obtain ⟨hpoint, hmode, hψ⟩ := hχ _ h.2
    refine ⟨.takeToken hi hmode hpoint h.1.waiting, ?_⟩
    have hmode' : (s.txs p).mode = 1 := hmode
    change At cfg ψ (State.own (s.setTx p fun tx => { tx with
      mode := tx.mode + 1, point := if tx.point = .spinning then .preparing else tx.point }) p)
    rw [own_setTx, hmode']
    exact ⟨h.1.setTx rfl rfl ⟨fun h => absurd h (Nat.succ_ne_zero 1), Nat.le_succ 2⟩, hψ⟩
  · simp only [if_neg hi]
    exact ⟨.stutter, h⟩

/-- A transaction that is not active in `int_stm_prepare`. -/
def Preparing (mode : ℕ → Prop) (tx : Tx) : Prop :=
  tx.point = .preparing ∧ tx.status.isActive = false ∧ mode tx.mode

/-- The token is waited for in `int_stm_prepare`. -/
theorem waitToken_spec : Triple (protocol cfg) p (has (At cfg (Preparing (· = 1))))
    (waitToken p : QProg Tid Addr Unit) (fun _ => has (At cfg (Preparing (· = 2)))) J := by
  let spinning (tx : Tx) : Prop :=
    tx.point = .spinning ∧ tx.status.isActive = false ∧ tx.mode = 1
  refine modifyTx_spec (ψ := spinning) (fun tx h hsane => ?_) (fun _ => ⟨rfl, rfl⟩) ?_
  · exact ⟨.spin h.2.2 h.2.1, ⟨hsane.asked, hsane.bounded⟩, rfl, h.2⟩
  refine .iterate (fun _ => has (At cfg spinning)) (fun _ _ h => h) fun _ => ?_
  refine .bind (tryToken_spec (ψ := Preparing (· = 2)) fun tx h => ⟨.inl h.1, h.2.2, ?_⟩) fun ok => ?_
  · exact ⟨if_pos h.1, h.2.1, rfl⟩
  · cases ok with
    | true => exact .of_ret fun _ _ h => h
    | false => exact .of_ret fun _ _ h => h

/-- A transaction that holds the token and has made the other threads wait is serial irrevocable. -/
theorem grantSerial_spec {χ ψ : Tx → Prop}
    (hχ : ∀ tx, χ tx → tx.mode = 2 ∧ ψ { tx with mode := 3 }) :
    Triple (protocol cfg) p (has (At cfg χ) ⊓ .ex fun threads => quiesced threads (· ∈ threads))
      (grantSerial p : QProg Tid Addr Unit) (fun _ => has (At cfg ψ)) J := by
  refine .last (act_spec (fun _ => has (At cfg ψ)) (fun s hs ⟨h, threads, hq, hinside⟩ => ?_)
    fun _ => .of_ret fun _ _ h => h)
  obtain ⟨hmode, hψ⟩ := hχ _ h.2
  refine ⟨.grantSerial hq.1 hq.2.1 hmode ?_ h.1.waiting, ?_⟩
  · by_cases ho : s.overtaken = true
    · exact .inl ho
    · refine .inr fun q hq' hqp => (hinside q hqp ?_).resolve_left ho
      exact hq.2.2 ▸ hq'
  · have hmode' : (s.txs p).mode = 2 := hmode
    have hpresent := h.1.setTx (t := { s.txs p with mode := 3 }) rfl rfl
      ⟨fun h => absurd h (Nat.succ_ne_zero 2), le_rfl⟩
    refine ⟨⟨hpresent.registered, hpresent.waiting, hpresent.windowed, hpresent.rolls,
      hpresent.slotted, ?_, ?_, ?_⟩, ?_⟩
    all_goals simp only [State.own, State.setTx, Function.update_self, hmode']
    · exact h.1.gc
    · exact h.1.freeing
    · exact ⟨fun h => absurd h (Nat.succ_ne_zero 2), le_rfl⟩
    · exact hψ

/-- A transaction that holds the token is irrevocable. -/
theorem grantMode_spec {χ ψ : Tx → Prop}
    (hχ : ∀ tx, χ tx → tx.serial = false ∧ tx.mode = 2 ∧ ψ { tx with mode := 3 }) :
    Triple (protocol cfg) p (has (At cfg χ)) (grantMode p : QProg Tid Addr Unit)
      (fun _ => has (At cfg ψ)) J := by
  refine .last (modifyTx_spec (ψ := ψ) (fun tx h hsane => ?_) (fun _ => ⟨rfl, rfl⟩)
    (.of_ret fun _ _ h => h))
  obtain ⟨hserial, hmode, hψ⟩ := hχ tx h
  refine ⟨.grant hserial hmode, ?_⟩
  rw [hmode]
  exact ⟨⟨nofun, le_rfl⟩, hψ⟩

/-- `int_stm_set_irrevocable` at a restart goes on with the token. -/
theorem grantRestart_spec : Triple (protocol cfg) p (has (At cfg (Preparing (· = 2))))
    (grantRestart p : QProg Tid Addr Unit) (fun _ => has (At cfg (Preparing (· = 3)))) J := by
  refine getTx_spec fun tx htx hsane => .ite (fun hserial => ?_) fun hserial => ?_
  · refine .bind (stmQuiesce_spec (b := false) fun o h => ?_) fun ok => ?_
    · rw [h.2]
      exact htx.2.1
    · refine (grantSerial_spec (χ := fun tx' => tx' = tx) fun tx' h => ?_).pre fun s _ h =>
        ⟨h.1.1, h.1.2 (h.2 rfl)⟩
      subst h
      exact ⟨htx.2.2, htx.1, htx.2.1, rfl⟩
  · refine grantMode_spec fun tx' h => ?_
    subst h
    exact ⟨Bool.eq_false_iff.2 hserial, htx.2.2, htx.1, htx.2.1, rfl⟩

/-- `int_stm_set_irrevocable` at a restart. -/
theorem setIrrevocableRestart_spec : Triple (protocol cfg) p (has (At cfg (Preparing (· ≠ 0))))
    (setIrrevocableRestart p : QProg Tid Addr Unit) (fun _ => has (At cfg (Preparing (· = 3)))) J := by
  refine getTx_spec fun tx htx hsane => .ite (fun hmode => .of_ret fun s _ h => At.mono h ?_) fun hmode =>
    .ite (fun hmode' => ?_) fun hmode' => ?_
  · rintro _ rfl
    exact ⟨htx.1, htx.2.1, hmode⟩
  · refine .bind (waitToken_spec.pre fun s _ h => At.mono h ?_) fun _ => grantRestart_spec
    rintro _ rfl
    exact ⟨htx.1, htx.2.1, hmode'⟩
  · refine grantRestart_spec.pre fun s _ h => At.mono h ?_
    rintro _ rfl
    have hbounded := hsane.bounded
    have hne := htx.2.2
    exact ⟨htx.1, htx.2.1, by omega⟩

/-! ## The start of an attempt -/

omit [DecidableEq Tid] in
theorem Own.calm_eq {o : Own} (hgc : o.tx.inGc = false) (hfreeing : o.tx.freeing = none) :
    o.calm = o := by
  obtain ⟨⟨status, mode, serial, noRetry, start, point, inGc, freeing⟩, _⟩ := o
  dsimp only at hgc hfreeing
  subst hgc hfreeing
  rfl

theorem calm_iff {φ : Own → Prop} (hφ : ∀ o, φ o → o.tx.inGc = false ∧ o.tx.freeing = none)
    {o : Own} : φ o ↔ Calm none false φ o := by
  refine ⟨fun h => ⟨(hφ o h).2, (hφ o h).1, ?_⟩, fun ⟨hfreeing, hgc, h⟩ => ?_⟩
  · rwa [Own.calm_eq (hφ o h).1 (hφ o h).2]
  · rwa [Own.calm_eq hgc hfreeing] at h

theorem At.calm {χ : Tx → Prop} {o : Own} : At cfg χ o ↔ Calm none false (At cfg χ) o :=
  calm_iff fun _ h => ⟨h.1.gc, h.1.freeing⟩

theorem At.near {χ : Tx → Prop} {o : Own} (h : At cfg χ o) :
    Near o ∧ (cfg.gc ≠ none → o.slotted) :=
  ⟨⟨.inr h.1.registered, h.1.waiting, fun _ => h.1.registered⟩, h.1.slotted⟩

/-- The start timestamp. -/
theorem setStart_spec {mode : ℕ → Prop} : Triple (protocol cfg) p (has (At cfg (Preparing mode)))
    (setStart cfg p : QProg Tid Addr Unit) (fun _ => has (At cfg (Preparing mode))) J := by
  refine .iterate (fun _ => has (At cfg (Preparing mode))) (fun _ _ h => h) fun _ => ?_
  refine act_spec (fun _ => has (At cfg (Preparing mode))) (fun s hs h => ?_) fun now =>
    .ite (fun _ => ?_) fun _ => .of_ret fun _ _ h => h
  · refine ⟨.start h.1.registered h.1.waiting, ?_⟩
    show At cfg _ (State.own (s.setTx p fun tx => { tx with start := s.gc.clock }) p)
    rw [own_setTx]
    exact ⟨h.1.setTx rfl rfl ⟨h.1.sane.asked, h.1.sane.bounded⟩, h.2⟩
  · refine .bind (stmQuiesceBarrier_spec fun o h => ?_) fun _ => .of_ret fun _ _ h => h
    exact ⟨h.1.waiting, h.1.rolls, .inr h.2.1, h.1.gc, h.1.freeing⟩

/-- A transaction that has not begun, or that has been aborted. -/
def Stopped (tx : Tx) : Prop :=
  (tx.point = .outside ∨ tx.point = .aborting) ∧ tx.status.isActive = false

/-- The transaction becomes active. -/
theorem setActive_spec {m : ℕ} : Triple (protocol cfg) p (has (At cfg (Preparing (· = m))))
    (setActive p m : QProg Tid Addr Unit) (fun _ => has (At cfg Checking)) J := by
  refine .ite (fun hm => ?_) fun hm => .last ?_
  · refine .bind (setIrrevocableRestart_spec.pre fun s _ h => At.mono h fun tx h =>
      ⟨h.1, h.2.1, h.2.2 ▸ hm⟩) fun _ => .last ?_
    refine modifyTx_spec (ψ := Checking) (fun tx h hsane => ?_) (fun _ => ⟨rfl, rfl⟩)
      (.of_ret fun _ _ h => h)
    exact ⟨.irrevocable h.1, ⟨hsane.asked, hsane.bounded⟩, h.1, rfl, .inr h.2.2⟩
  · refine modifyTx_spec (ψ := Checking) (fun tx h hsane => ?_) (fun _ => ⟨rfl, rfl⟩)
      (.of_ret fun _ _ h => h)
    exact ⟨.activate h.1, ⟨hsane.asked, hsane.bounded⟩, h.1, rfl, .inl (h.2.2.trans (not_not.1 hm))⟩

/-- `int_stm_prepare`. -/
theorem intStmPrepare_spec : Triple (protocol cfg) p (has (At cfg Stopped))
    (intStmPrepare cfg p : QProg Tid Addr Unit) (fun _ => has (At cfg Run)) J := by
  refine modifyTx_spec (ψ := Preparing fun _ => True) (fun tx h hsane => ?_) (fun _ => ⟨rfl, rfl⟩) ?_
  · exact ⟨.prepare h.1, ⟨hsane.asked, hsane.bounded⟩, rfl, h.2, trivial⟩
  refine .bind setStart_spec fun _ => getTx_spec fun tx htx hsane => ?_
  refine .bind (callGc_spec (e := none) (fun o h => ?_) fun g i => gcSetEpoch_shared) fun _ => ?_
  · exact ⟨h.near.1, h.1.freeing, h.near.2⟩
  refine .bind (setActive_spec.pre fun s _ h => At.mono h ?_) fun _ => stmCheckQuiesce_spec
  rintro _ rfl
  exact ⟨htx.1, htx.2.1, rfl⟩

/-! ## Aborts -/

/-- `FETCH_INC_CLOCK`. -/
theorem incClock_spec {φ : Own → Prop} (unchecked tick : Bool) : Triple (protocol cfg) p (has φ)
    (incClock cfg p unchecked tick : QProg Tid Addr Unit) (fun _ => has φ) J :=
  .ite (fun _ => act_spec (fun _ => has φ) (fun _ _ h => ⟨.tick unchecked, h⟩) fun _ =>
    .of_ret fun _ _ h => h) fun _ => .of_ret fun _ _ h => h

/-- A request for irrevocability. -/
theorem requestIrrevocable_spec {χ : Tx → Prop} (serial : Bool)
    (hχ : ∀ tx, χ tx → (tx.point = .outside ∨ tx.point = .aborting) ∧
      χ { tx with mode := 1, serial := serial }) :
    Triple (protocol cfg) p (has (At cfg χ)) (requestIrrevocable p serial : QProg Tid Addr Unit)
      (fun _ => has (At cfg χ)) J :=
  .last (setTx_spec (f := fun tx => { tx with mode := 1, serial := serial }) (ψ := χ)
    (fun _ => rfl) (fun tx h _ => ⟨rfl, rfl, ⟨nofun, Nat.le_add_left 1 2⟩, (hχ tx h).2⟩)
    (fun _ _ h => .request serial h.1.waiting (hχ _ h.2).1) fun _ => .of_ret fun _ _ h => h)

/-- Memory is freed by a registered thread. -/
theorem freeNow_at {χ : Tx → Prop} (bs : List (Block Tid Addr)) :
    Triple (protocol cfg) p (has (At cfg χ)) (freeNow cfg p bs) (fun _ => has (At cfg χ)) J :=
  ((freeNow_spec bs fun _ h => h.near).pre fun _ _ h => At.calm.1 h).post
    (fun _ _ _ h => At.calm.2 h) fun _ _ h => h

/-- A transaction that has been aborted. -/
def Aborted (mode : ℕ → Prop) (tx : Tx) : Prop :=
  tx.point = .aborting ∧ tx.status.isActive = false ∧ mode tx.mode

/-- A transaction that has been given up, or a thread without one. -/
def Over (mode : ℕ → Prop) (tx : Tx) : Prop :=
  tx.point = .outside ∧ tx.status.isActive = false ∧ mode tx.mode

/-- A transaction that may abort: it is running, or it goes on after a rollback that has returned. -/
def Aborting (mode : ℕ → Prop) (tx : Tx) : Prop :=
  (tx.point = .running ∨ tx.point = .outside) ∧ mode tx.mode

/-- `stm_rollback`. -/
theorem stmRollback_spec {μ : ℕ → Prop} (hμ : μ 1) (unchecked noRetry : Bool) (a : Abort) :
    Triple (protocol cfg) p (has (At cfg (Aborting μ)))
      (stmRollback cfg p unchecked noRetry a : QProg Tid Addr Unit) (fun _ => has (At cfg (Over μ)))
      (has (At cfg Run)) := by
  refine .bind (incClock_spec unchecked a.tick) fun _ => .bind (freeNow_at _) fun _ => ?_
  refine modifyTx_spec (ψ := Aborted μ) (fun tx h hsane => ?_) (fun _ => ⟨rfl, rfl⟩) ?_
  · exact ⟨.abort h.1, ⟨hsane.asked, hsane.bounded⟩, rfl, rfl, h.2⟩
  refine .bind (freeNow_at _) fun _ => .bind
    (R := fun _ => has (At cfg (Aborted μ))) ?_ fun _ => getTx_spec fun tx htx _ => ?_
  · cases a.request with
    | none => exact .of_ret fun _ _ h => h
    | some serial =>
      exact requestIrrevocable_spec serial fun tx h => ⟨.inr h.1, h.1, h.2.1, hμ⟩
  · refine .ite (fun _ => ?_) fun _ => .bind (intStmPrepare_spec.pre fun s _ h => At.mono h ?_)
      fun _ => .jump fun _ _ h => h
    · refine .last (setTx_spec (f := fun tx => { tx with point := .outside }) (ψ := Over μ)
        (fun _ => rfl) (fun tx' h hsane => ?_) (fun _ _ h => ?_) fun _ => .of_ret fun _ _ h => h)
      · subst h
        exact ⟨rfl, rfl, ⟨hsane.asked, hsane.bounded⟩, rfl, htx.2⟩
      · refine .giveUp h.1.waiting ((congrArg Tx.point h.2).trans htx.1) ?_
        exact (congrArg (fun tx : Tx => tx.status.isActive) h.2).trans htx.2.1
    · rintro _ rfl
      exact ⟨.inr htx.1, htx.2.1⟩

end

end TinyStm.Quiesce
