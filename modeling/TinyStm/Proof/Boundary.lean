import TinyStm.Proof.Rollback

/-!
# Between two calls

Where no call is running, a thread is idle (`idleAsn`: it owns no lock) or it has an active attempt
(`activeAsn`: a snapshot and a write set). `stm_rollback` ends in one of the two. Both are
assertions that the other threads keep, and they are the pre- and the postcondition of every call,
so a run of calls is one induction.
-/

namespace TinyStm

section
variable {Tid Addr Lock : Type} {w : ℕ} [DecidableEq Addr]

/-- The descriptor of an active attempt that has not begun to commit. -/
structure TxLive (S : Premises Addr Lock w) (tx : StmTx Addr Lock w) : Prop where
  active : tx.status.isActive = true
  attr : S.attrs tx.attr
  phase : tx.phase = .running
  irr : tx.irrevocable = 0 ∨ tx.irrevocable = 3
  version : ∀ r ∈ tx.rSet, r.version ≤ tx.end_
  hint : S.hint → tx.attr.readOnly = true → tx.wSet.entries = []
  mask : ∀ e ∈ tx.wSet.entries, S.mask e.mask

/-- The descriptor of an active attempt between two calls. -/
structure TxActive (S : Premises Addr Lock w) (tx : StmTx Addr Lock w) : Prop
    extends TxLive S tx where
  nesting : 1 ≤ tx.nesting ∧ tx.nesting < 2 ^ 32

/-- The descriptor of an idle thread between two calls. -/
structure TxIdle (tx : StmTx Addr Lock w) : Prop where
  inactive : tx.status.isActive = false
  phase : tx.phase = .running
  irr : tx.irrevocable ≤ 3
  nesting : tx.nesting = 0

/-- The clock is at least `n`. -/
def clockGe (S : Setting Tid Addr Lock w) (p : Tid) (n : ℕ) : VAsn S p where
  holds v := n ≤ v.clock
  stable _ _ _ _ _ _ hg h := h.trans hg.clock

/-- The loads of `tx` rest on the memory `m`. -/
def snap (S : Setting Tid Addr Lock w) (p : Tid) (tx : StmTx Addr Lock w) (m : Mem Addr w) :
    VAsn S p where
  holds v := v.Snap S.toPremises p tx m
  stable _ hq _ _ hv _ hg h := h.stable hv hq hg

/-- The write set of `tx`. -/
def wset (S : Setting Tid Addr Lock w) (p : Tid) (tx : StmTx Addr Lock w) : VAsn S p :=
  heldAsn S p (·.Ws S p tx) fun _ _ => View.Ws.congr

/-- What a rollback of `tx` needs. -/
def undo (S : Setting Tid Addr Lock w) (p : Tid) (tx : StmTx Addr Lock w) : VAsn S p :=
  heldAsn S p (·.Undo S p tx) fun _ _ => View.Undo.congr

/-- An active attempt between two calls. -/
def activeAsn (S : Setting Tid Addr Lock w) (p : Tid) : Asn S p :=
  .ex fun tx => .pure (TxActive S.toPremises tx) ⊓ At tx (.ex (snap S p tx) ⊓ wset S p tx)

/-- An idle thread between two calls. -/
def idleAsn (S : Setting Tid Addr Lock w) (p : Tid) : Asn S p :=
  .ex fun tx => .pure (TxIdle tx) ⊓ At tx (noLocks S p)

/-- An idle thread, with the irrevocability `n` if no abort callback has requested more (`unasked`). -/
def idleWith (S : Setting Tid Addr Lock w) (p : Tid) (n : ℕ) (unasked : Prop) : Asn S p :=
  .ex fun tx => .pure (TxIdle tx ∧ (unasked → tx.irrevocable = n)) ⊓ At tx (noLocks S p)

/-- A thread between two calls. -/
def boundary (S : Setting Tid Addr Lock w) (p : Tid) : Asn S p := idleAsn S p ⊔ activeAsn S p

end

variable {Tid Addr Lock : Type} {w : ℕ} [DecidableEq Tid] [DecidableEq Addr] [DecidableEq Lock]
  {S : Setting Tid Addr Lock w} {p : Tid} {tx : StmTx Addr Lock w} {J : Asn S p}

omit [DecidableEq Tid] in
/-- All designs' rollbacks release all locks; they change at most the phase and `nb_acquired`. -/
theorem stmDesignRollback_spec (hph : ∀ t, tx.phase ≠ .installing t) [DecidableEq Tid] :
    Triple (protocol S) p (At tx (undo S p tx)) (stmDesignRollback S.cfg p)
      (fun _ => .ex fun n =>
        At { tx with phase := .aborting, wSet := { tx.wSet with nbAcquired := n } } (noLocks S p))
      J := by
  have hself : ∀ s, At { tx with phase := .aborting } (noLocks S p) s → Assn.ex (fun n =>
      At { tx with phase := .aborting, wSet := { tx.wSet with nbAcquired := n } } (noLocks S p)) s :=
    fun s h => ⟨tx.wSet.nbAcquired, h⟩
  refine .modifyPhase (Ψ := undo S p { tx with phase := .aborting }) (.inr rfl) rfl rfl
    (.inl ⟨hph, fun _ => rfl⟩) (fun v hl h => ?_) (.getTx ?_)
  · exact View.Undo.congr (.self hl.inv rfl rfl rfl rfl le_rfl) h
  dsimp only
  cases hS : S.cfg.designOf tx.attr with
  | writeBackCtl =>
    refine .getTx ?_
    refine .fact (φ := tx.wSet.nbAcquired = (tx.wSet.entries.filter fun e => !e.noDrop).length)
      (fun v _ h => ?_) fun hn => ?_
    · have h : v.Undo S p tx := h
      simp only [View.Undo, hS] at h
      exact h.2
    · have hlen : (tx.wSet.entries.filter fun e => !e.noDrop).length =
          (tx.wSet.entries.reverse.filter fun e => !e.noDrop).length := by
        rw [List.filter_reverse, List.length_reverse]
      rw [hn, hlen]
      refine .weaken (wbctlDropLocks_spec _ _ (by simp [hS]) rfl) fun v _ h => ?_
      have h : v.Undo S p tx := h
      simp only [View.Undo, hS] at h
      refine ⟨⟨fun ℓ => (h.1.drops.holds ℓ).trans (by simp), ?_⟩, fun e he =>
        h.1.version e (List.mem_reverse.1 he)⟩
      exact List.pairwise_reverse.2 (h.1.drops.distinct.imp fun h he hf hl => h hf he hl.symm)
  | writeThrough =>
    refine .getTx (.post (.weaken (wtUndo_spec (by exact hS) rfl _ 0) fun v _ h => ?_)
      (fun _ s _ h => hself s h) fun _ _ h => h)
    have h : v.Undo S p tx := h
    simp only [View.Undo, hS] at h
    exact ⟨h, fun h0 => (h0 rfl).elim⟩
  | writeBackEtl =>
    refine .getTx (.post (.weaken (wbetlDropLocks_spec (by simp [hS]) rfl _) fun v _ h => ?_)
      (fun _ s _ h => hself s h) fun _ _ h => h)
    have h : v.Undo S p tx := h
    simp only [View.Undo, hS] at h
    exact h
  | modular =>
    refine .getTx (.post (.weaken (wbetlDropLocks_spec (by simp [hS]) rfl _) fun v _ h => ?_)
      (fun _ s _ h => hself s h) fun _ _ h => h)
    have h : v.Undo S p tx := h
    simp only [View.Undo, hS] at h
    exact h

/-- The loop that waits for the token ends with the token. -/
theorem acquireToken_spec {Φ : VAsn S p} (he : S.tokens)
    (hΦ : ∀ v t k, Φ v → Φ { v with token := t, irr := Function.update v.irr p k }) :
    Triple (protocol S) p (At tx Φ) (acquireToken p)
      (fun _ => At { tx with irrevocable := tx.irrevocable + 1 } Φ) J := by
  refine .iterate (fun _ => At tx Φ) (fun _ _ h => h) fun _ => ?_
  refine .loadIrrevocable fun n => .ite (fun _ => .of_ret fun _ _ h => h) fun _ => ?_
  refine .casIrrevocable he (fun v _ h => hΦ v 1 _ h) ?_ ?_
  · exact .of_ret fun _ _ h => h
  · exact .of_ret fun _ _ h => h

/-- At a restart a thread that wants to be irrevocable becomes so. -/
theorem setIrrevocableRestart_spec {Φ : VAsn S p} (he : S.tokens)
    (h1 : 1 ≤ tx.irrevocable) (h3 : tx.irrevocable ≤ 3)
    (hΦ : ∀ v t k, Φ v → Φ { v with token := t, irr := Function.update v.irr p k }) :
    Triple (protocol S) p (At tx Φ) (setIrrevocableRestart p)
      (fun _ => At { tx with irrevocable := 3 } Φ) J := by
  refine .getTx ?_
  have hmod : tx.irrevocable % 8 = tx.irrevocable := Nat.mod_eq_of_lt (by omega)
  rw [hmod]
  by_cases hi3 : tx.irrevocable = 3
  · rw [if_pos hi3]
    refine .of_ret fun s _ h => ?_
    rw [← hi3]
    exact h
  · rw [if_neg hi3]
    by_cases hi1 : tx.irrevocable = 1
    · rw [if_pos hi1]
      refine .bind (acquireToken_spec he hΦ) fun _ => .last ?_
      refine .modifyIrr he (by simp [hi1]) rfl rfl (fun v _ h => hΦ v v.token _ h) ?_
      exact .of_ret fun s _ h => by simpa [hi1] using h
    · rw [if_neg hi1]
      have hi2 : tx.irrevocable = 2 := by omega
      refine .last (.modifyIrr he (by simp [hi2]) rfl rfl (fun v _ h => hΦ v v.token _ h) ?_)
      exact .of_ret fun s _ h => by simpa [hi2] using h

omit [DecidableEq Tid] in
/-- The start timestamp is a time of the clock. -/
theorem setStart_spec {Φ : VAsn S p} [DecidableEq Tid] :
    Triple (protocol S) p (At tx Φ) (setStart S.cfg p)
      (fun _ => .ex fun n => At { tx with start := n, end_ := n } (Φ ⊓ clockGe S p n)) J := by
  refine .iterate (fun _ => .ex fun b : ℕ × ℕ => At { tx with start := b.1, end_ := b.2 } Φ)
    (fun s _ h => ⟨(tx.start, tx.end_), h⟩) fun _ => ?_
  refine .of_ex fun b => .getClock (fun n => Φ ⊓ clockGe S p n)
    (fun v _ h => ⟨h, le_refl _⟩) fun n => .modifyTx rfl rfl rfl (.of_ret fun s _ h => ?_)
  by_cases hn : n ≥ S.cfg.versionMax
  · rw [if_pos hn]
    exact ⟨(n, n), h.1, h.2.1⟩
  · rw [if_neg hn]
    exact ⟨n, h⟩

omit [DecidableEq Tid] [DecidableEq Lock] in
/-- An attempt that has loaded and stored nothing yet. -/
theorem activeAsn_of_nil {n : ℕ} {s : State Tid Addr Lock w}
    (hP : At tx (noLocks S p ⊓ clockGe S p n) s) (hs : tx.start = n) (hn : tx.end_ = n)
    (h : TxActive S.toPremises tx) (he : tx.wSet.entries = [])
    (hna : tx.wSet.nbAcquired = 0) (ht : tx.trace = []) : activeAsn S p s :=
  ⟨tx, h, hP.1, ⟨fun _ => 0#w, View.Snap.nil ht (by omega) (hn ▸ hP.2.2) _⟩,
    View.Ws.nil (S.cfg.designOf_ne_modular _) he ht hna hP.2.1⟩

/-- `int_stm_prepare` starts an attempt. -/
theorem intStmPrepare_spec (hattr : S.attrs tx.attr) (hph : tx.phase = .running) (hirr : tx.irrevocable ≤ 3)
    (hn : 1 ≤ tx.nesting ∧ tx.nesting < 2 ^ 32) :
    Triple (protocol S) p (At tx (noLocks S p)) (intStmPrepare S.cfg p)
      (fun _ => activeAsn S p) J := by
  refine .modifyTx rfl rfl rfl (.bind setStart_spec fun _ => .of_ex fun n => .getTx ?_)
  by_cases hi : tx.irrevocable = 0
  · rw [if_neg (not_not.2 hi)]
    refine .last (.modifyTx rfl rfl rfl (.of_ret fun s _ h => ?_))
    refine activeAsn_of_nil h rfl rfl ⟨⟨rfl, hattr, hph, .inl hi, ?_, fun _ _ => rfl, ?_⟩, hn⟩ rfl
      rfl rfl
    · exact fun r hr => nomatch hr
    · exact fun e he => nomatch he
  · rw [if_pos hi]
    refine .fact (φ := S.tokens) (fun v hl _ => ?_) fun he => ?_
    · by_contra he
      exact hi (hl.irr.symm.trans ((hl.inv.off he).2 p))
    · refine .bind (setIrrevocableRestart_spec he (Nat.pos_of_ne_zero hi) hirr
        fun v t k h => ⟨h.1, h.2⟩) fun _ => ?_
      refine .last (.modifyTx rfl rfl rfl (.of_ret fun s _ h => ?_))
      refine activeAsn_of_nil h rfl rfl ⟨⟨rfl, hattr, hph, .inr rfl, ?_, fun _ _ => rfl, ?_⟩, hn⟩
        rfl rfl rfl
      · exact fun r hr => nomatch hr
      · exact fun e he => nomatch he

omit [DecidableEq Tid] [DecidableEq Lock] in
theorem idleWith_of_noLocks {n : ℕ} {unasked : Prop} {s : State Tid Addr Lock w}
    (hP : At tx (noLocks S p) s) (h : TxIdle tx) (hn : unasked → tx.irrevocable = n) :
    idleWith S p n unasked s :=
  ⟨tx, ⟨h, hn⟩, hP⟩

omit [DecidableEq Tid] [DecidableEq Lock] in
theorem idleWith_mono {n : ℕ} {unasked unasked' : Prop} {s : State Tid Addr Lock w}
    (h : idleWith S p n unasked s) (hu : unasked' → unasked) : idleWith S p n unasked' s := by
  obtain ⟨tx, ⟨hidle, hn⟩, hAt⟩ := h
  exact ⟨tx, ⟨hidle, fun h => hn (hu h)⟩, hAt⟩

omit [DecidableEq Tid] [DecidableEq Lock] in
theorem idleAsn_of_idleWith {n : ℕ} {unasked : Prop} {s : State Tid Addr Lock w}
    (h : idleWith S p n unasked s) : idleAsn S p s :=
  have ⟨tx, ⟨hidle, _⟩, hAt⟩ := h
  ⟨tx, hidle, hAt⟩

/-- The wait for the contended lock. -/
theorem waitCLock_spec {Φ : VAsn S p} :
    Triple (protocol S) p (At tx Φ) (waitCLock S.cfg p)
      (fun _ => .ex fun c => At { tx with cLock := c } Φ) J := by
  refine .getTx ?_
  split
  · refine .bind (R := fun _ => At tx Φ) (.iterate (fun _ => At tx Φ) (fun _ _ h => h) fun _ => ?_)
      fun _ => .last (.modifyTx rfl rfl rfl (.of_ret fun s _ h => ⟨none, h⟩))
    refine .loadLock (fun _ => Φ) (fun _ _ h => h) fun l => ?_
    cases l with
    | owned q i => exact .of_ret fun _ _ h => h
    | free l => exact .of_ret fun _ _ h => h
  · exact .of_ret fun s _ h => ⟨tx.cLock, h⟩

/-- No abort callback requests irrevocability when a transaction that has aborted `n` times is given up for the
reason. -/
def Config.Unasked (cfg : Config Addr Lock) (n : ℕ) (reason : Reason) : Prop :=
  cfg.requests reason.code (statSucc n) = false

/-- The abort callbacks, one of which may request irrevocability. -/
theorem runAbortCallbacks_spec {Φ : VAsn S p} {α : Type} {Q : α → Asn S p}
    {k : Unit → M Tid Addr Lock w α} (hirr : tx.irrevocable ≤ 3) (reason : Reason)
    (hΦ : ∀ v n, Φ v → Φ { v with irr := Function.update v.irr p n })
    (hk : ∀ n ≤ 3, (S.cfg.requests reason.code tx.statAborts = false → n = tx.irrevocable) →
      Triple (protocol S) p
        (At { tx with calls := tx.calls ++ S.cfg.abortCb, irrevocable := n } Φ) (k ()) Q J) :
    Triple (protocol S) p (At tx Φ) (runAbortCallbacks S.cfg p reason >>= k) Q J := by
  cases hr : S.cfg.requests reason.code tx.statAborts with
  | true =>
    refine .modifyIrr (Ψ := Φ) (S.tokens_of_requests _ _ hr) (by simp [hr]) rfl rfl
      (fun v _ h => hΦ v _ h) ?_
    simpa only [hr, if_true] using hk 1 (by omega) fun hno => absurd (hr.symm.trans hno) (by decide)
  | false =>
    refine .modifyTx rfl (by simp [hr]) rfl ?_
    simpa only [hr, Bool.false_eq_true, if_false] using hk tx.irrevocable hirr fun _ => rfl

/-- The condition under which `stm_rollback` returns. -/
def NotRetried (tx : StmTx Addr Lock w) (reason : Reason) : Prop :=
  tx.attr.noRetry = true ∨ reason.code &&& stmAbortNoRetry = stmAbortNoRetry

omit [DecidableEq Tid] [DecidableEq Addr] [DecidableEq Lock] in
/-- Only the application gives up a transaction that is retried otherwise. -/
theorem NotRetried.noRetry {reason : Reason} (h : NotRetried tx reason)
    (hr : reason.code &&& stmAbortNoRetry ≠ stmAbortNoRetry) : tx.attr.noRetry = true :=
  h.resolve_right hr

/-- `stm_rollback` leaves an idle thread, or it jumps back to the start of a new attempt. -/
theorem stmRollback_spec (hattr : S.attrs tx.attr)
    (hph : ∀ t, tx.phase ≠ .installing t) (hirr : tx.irrevocable ≤ 3) (reason : Reason) :
    Triple (protocol S) p (At tx (undo S p tx)) (stmRollback S.cfg p reason)
      (fun _ => .pure (NotRetried tx reason) ⊓
        idleWith S p tx.irrevocable (S.cfg.Unasked tx.statAborts reason))
      (boundary S p) := by
  refine .bind (stmDesignRollback_spec hph) fun _ => .of_ex fun n => ?_
  refine .modifyPhase (Ψ := noLocks S p) (.inl rfl) rfl rfl (.inr fun v _ h => h) (fun v _ h => h) ?_
  refine runAbortCallbacks_spec (Φ := noLocks S p) (by exact hirr) reason (fun v n h => h) fun k hk hnone => ?_
  refine .bind waitCLock_spec fun _ => .of_ex fun c => .getTx ?_
  refine .ite (fun hr => ?_) fun _ => ?_
  · refine .last (.modifyTx rfl rfl rfl (.of_ret fun s _ h => ⟨hr, ?_⟩))
    exact idleWith_of_noLocks h ⟨rfl, rfl, hk, rfl⟩ hnone
  · refine .bind (intStmPrepare_spec hattr rfl hk ⟨le_rfl, by simp⟩) fun _ => .jump fun s _ h => ?_
    exact .inr h

/-- The contended lock is set. -/
theorem setCLock_spec {Φ : VAsn S p} (lock : Lock) :
    Triple (protocol S) p (At tx Φ) (setCLock S.cfg p lock)
      (fun _ => .ex fun c => At { tx with cLock := c } Φ) J := by
  refine .ite (fun _ => ?_) fun _ => .of_ret fun s _ h => ⟨tx.cLock, h⟩
  exact .last (.modifyTx rfl rfl rfl (.of_ret fun s _ h => ⟨some lock, h⟩))

end TinyStm
