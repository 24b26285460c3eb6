import TinyStm.Proof.Wbetl
import TinyStm.Proof.Wbctl
import TinyStm.Proof.Wt

/-!
# The operations of the library

Every call goes from a thread between two calls to a thread between two calls: one triple for each
function of `TinyStm.Model.Stm`, whatever the design. The triples are put together from those of the
three designs and of the rollback by a case distinction on the design of the transaction. A call
that is made without an active attempt returns at once.
-/

namespace TinyStm

variable {Tid Addr Lock : Type} {w : ℕ} [DecidableEq Tid] [DecidableEq Addr] [DecidableEq Lock]
  {S : Setting Tid Addr Lock w} {p : Tid} {tx : StmTx Addr Lock w} {m : Mem Addr w}
  {J : Asn S p} {a : Addr} {x k : BitVec w}

/-! ## Loads and stores -/

/-- What a load asks of the transaction: in a strict run, and of an irrevocable transaction with
commit-time locking. -/
structure MayLoad (S : Setting Tid Addr Lock w) (p : Tid) (tx : StmTx Addr Lock w) (a : Addr)
    (v : View Tid Addr Lock w) : Prop where
  strict : v.StrictLoad S p a tx
  merged : S.cfg.designOf tx.attr = .writeBackCtl → ¬ View.Blind S tx → tx.irrevocable ≠ 0 →
    ∀ e ∈ tx.wSet.entries, e.addr = a → e.mask = BitVec.allOnes w ∨ e.mask = 0#w

/-- What a store asks of the transaction. -/
structure MayStore (S : Premises Addr Lock w) (tx : StmTx Addr Lock w) (a : Addr)
    (k : BitVec w) : Prop where
  hint : S.hint → tx.attr.readOnly = false
  mask : S.mask k
  room : S.cfg.designOf tx.attr ≠ .writeBackCtl → HasRoom S.cfg.getLock tx a k
  head : S.cfg.designOf tx.attr = .writeThrough → k ≠ 0#w → HeadSaved S.cfg.getLock tx a

/-- `int_stm_load`. -/
theorem intStmLoad_spec (hact : TxActive S.toPremises tx)
    (hmerged : S.cfg.designOf tx.attr = .writeBackCtl → ¬ View.Blind S tx → tx.irrevocable ≠ 0 →
      ∀ e ∈ tx.wSet.entries, e.addr = a → e.mask = BitVec.allOnes w ∨ e.mask = 0#w) :
    Triple (protocol S) p (At tx (live S p tx m ⊓ strictLoad S p a tx)) (intStmLoad S.cfg p a)
      (afterLoad S p a) (boundary S p) := by
  refine .getTx ?_
  cases hd : S.cfg.designOf tx.attr with
  | writeBackEtl =>
    exact stmWbetlReadInvisible_spec.pre fun s _ h => ⟨tx, m, ⟨hact, hd⟩, h.1, h.2, trivial⟩
  | writeBackCtl => exact .weaken (stmWbctlRead_spec hd hact (hmerged hd)) fun v _ h => h.1
  | writeThrough => exact stmWtRead_spec.pre fun s _ h => ⟨tx, m, ⟨hact, hd⟩, h.1, h.2, trivial⟩
  | modular => exact (S.cfg.designOf_ne_modular _ hd).elim

/-- `stm_write`. -/
theorem stmWrite_spec (hact : TxActive S.toPremises tx)
    (hst : MayStore S tx a k) :
    Triple (protocol S) p (At tx (live S p tx m)) (stmWrite S.cfg p a x k)
      (fun _ => afterStore S p a x k) (boundary S p) := by
  refine .getTx ?_
  cases hd : S.cfg.designOf tx.attr with
  | writeBackEtl =>
    exact stmWbetlWrite_spec hd hact hst.hint hst.mask
      (hst.room (by simp [hd]))
  | writeBackCtl => exact stmWbctlWrite_spec hd hact hst.hint hst.mask
  | writeThrough =>
    exact stmWtWrite_spec hd hact hst.hint hst.mask
      (hst.room (by simp [hd])) (hst.head hd)
  | modular => exact (S.cfg.designOf_ne_modular _ hd).elim

/-! ## Start -/

theorem nestingSucc_of_lt {n : ℕ} (h : n + 1 < 2 ^ 32) : nestingSucc n = n + 1 :=
  Nat.mod_eq_of_lt h

theorem nestingPred_of_pos {n : ℕ} (h : 1 ≤ n ∧ n < 2 ^ 32) : nestingPred n = n - 1 := by
  unfold nestingPred
  omega

/-- The callbacks do not touch the attempt. -/
theorem runCallbacks_active (cbs : List ℕ) :
    Triple (protocol S) p (activeAsn S p) (runCallbacks p cbs) (fun _ => activeAsn S p) J := by
  refine .of_ex fun tx => .of_fact (fun _ _ h => h.1) fun hact => .pre (.last (.modifyTx rfl rfl rfl (.of_ret
    fun s _ h => ⟨{ tx with calls := tx.calls ++ cbs }, { hact with }, h⟩))) fun s _ h => ?_
  obtain ⟨-, htx, ⟨m, hsnap⟩, hws⟩ := h
  exact ⟨htx, ⟨m, hsnap.congr rfl rfl rfl rfl rfl rfl⟩, hws.of_eq rfl rfl rfl⟩

/-- A nested start. -/
theorem intStmStart_nested (hact : TxActive S.toPremises tx) (hn : tx.nesting + 1 < 2 ^ 32) (attr : Attr) :
    Triple (protocol S) p (At tx (live S p tx m)) (intStmStart S.cfg p attr)
      (fun _ => boundary S p) J := by
  refine .getTx (.modifyTx rfl rfl rfl ?_)
  rw [if_pos (show tx.nesting > 0 by have := hact.nesting; omega)]
  refine .of_ret fun s _ h => .inr ⟨_, ?_, h.1, ⟨m, ?_⟩, ?_⟩
  · refine { hact with nesting := ?_ }
    exact (nestingSucc_of_lt hn).symm ▸ ⟨Nat.succ_le_succ (Nat.zero_le _), hn⟩
  · exact h.2.1.congr rfl rfl rfl rfl rfl rfl
  · exact h.2.2.of_eq rfl rfl rfl

/-- The start of a transaction. -/
theorem intStmStart_idle (hidle : TxIdle tx) {attr : Attr}
    (hattr : S.attrs attr) :
    Triple (protocol S) p (At tx (noLocks S p)) (intStmStart S.cfg p attr)
      (fun _ => boundary S p) J := by
  have hn : 1 ≤ nestingSucc tx.nesting ∧ nestingSucc tx.nesting < 2 ^ 32 := by
    rw [hidle.nesting, nestingSucc_of_lt (by omega)]
    omega
  refine .getTx (.modifyTx rfl rfl rfl ?_)
  rw [if_neg (show ¬ tx.nesting > 0 by have := hidle.nesting; omega)]
  refine .modifyAttr (Ψ := noLocks S p) rfl rfl (fun v _ h => h) (fun v _ h => h) ?_
  exact .bind (intStmPrepare_spec hattr hidle.phase hidle.irr hn) fun _ =>
    (runCallbacks_active _).post (fun _ _ _ h => .inr h) fun _ _ h => h

/-! ## Commit -/

/-- The design's commit function. -/
theorem stmDesignCommit_spec (hlive : TxLive S.toPremises tx)
    (hne : tx.wSet.entries ≠ []) :
    Triple (protocol S) p (At tx (live S p tx m)) (stmDesignCommit S.cfg p) (afterCommit S p tx)
      (boundary S p) := by
  refine .getTx ?_
  cases hd : S.cfg.designOf tx.attr with
  | writeBackEtl => exact stmWbetlCommit_spec hd hlive hne
  | writeBackCtl => exact stmWbctlCommit_spec hd hlive hne
  | writeThrough => exact stmWtCommit_spec hd hlive hne
  | modular => exact (S.cfg.designOf_ne_modular _ hd).elim

omit [DecidableEq Tid] [DecidableEq Lock] in
/-- The commit of a transaction that has written nothing. -/
theorem recordReadOnly_spec (hlive : TxLive S.toPremises tx) (he : tx.wSet.entries = []) :
    Triple (protocol S) p (At tx (live S p tx m)) (recordReadOnly p)
      (fun _ => At tx (noLocks S p)) J := by
  refine .last (.recordReadOnly (Ψ := noLocks S p) (fun v hl h => ?_)
    (.of_ret fun _ _ h => h))
  obtain ⟨hsnap, hws⟩ := h
  obtain ⟨hno, hwr⟩ := View.Ws.of_entries_nil hws he
  refine ⟨hwr, hsnap.end_le, fun n hn => ⟨fun hh => ?_, hno⟩⟩
  have hb : ¬ View.Blind S tx := View.not_blind_of_hint hh
  -- the values read are the memory at the place of the commit, and no commit under way changes them
  have hgood : ∀ a ∈ tx.trace.reads, v.memAt S n a = m a ∧
      ∀ q t', v.phase q = .ticket t' → v.Holds q (S.cfg.getLock a) → n < t' := by
    intro a ha
    have hq : ∀ q, v.Holds q (S.cfg.getLock a) → q ≠ p := fun q hh hqp => hno _ (hqp ▸ hh)
    rcases hsnap.good hb a ha with ⟨ho, -⟩ | ⟨-, hi, hs⟩ | ⟨-, hi, hf, -⟩
    · exact (hno _ ho.2).elim
    · rw [if_neg (by omega)] at hn
      subst hn
      refine ⟨hs.eq, fun q t' ht hh => (hs.early q (hq q hh) hh ?_).elim⟩
      rw [ht]
      trivial
    · rw [if_pos (hlive.irr.resolve_right hi)] at hn
      subst hn
      exact ⟨hf.eq, fun q t' ht hh => hf.late q t' (hq q hh) ht hh⟩
  exact ⟨(hsnap.cons hb).congr fun a ha => ((hgood a ha).1).symm, fun a ha => (hgood a ha).2⟩

/-- The thread has ended its transaction and owns no lock. Where that matters, it has the token or has
not asked for it. -/
def ended (S : Setting Tid Addr Lock w) (p : Tid) : Asn S p :=
  .ex fun tx => .pure (tx.nesting = 0 ∧ (S.hint → tx.irrevocable = 0 ∨ tx.irrevocable = 3)) ⊓
    At tx (noLocks S p)

/-- What the end of a transaction asks of it, where that matters: if it is not retried and its commit may
fail, no abort callback requests irrevocability then. -/
def MayEnd (S : Setting Tid Addr Lock w) (tx : StmTx Addr Lock w) : Prop :=
  S.hint → tx.attr.noRetry = true → tx.irrevocable = 0 → tx.wSet.entries ≠ [] →
    S.cfg.UnaskedCommit tx.statAborts

/-- What a commit asks of the transaction: it is nested or may end. -/
def MayCommit (S : Setting Tid Addr Lock w) (tx : StmTx Addr Lock w) : Prop :=
  tx.nesting = 1 → MayEnd S tx

/-- The writes are installed, unless the commit fails. -/
theorem commitWriteSet_spec (hlive : TxLive S.toPremises tx)
    (hmay : MayEnd S tx) (hn : tx.nesting = 0) :
    Triple (protocol S) p (At tx (live S p tx m)) (commitWriteSet S.cfg p tx)
      (fun _ => ended S p) (boundary S p) := by
  refine .ite (fun he => ?_) fun he => .bind (stmDesignCommit_spec hlive he) fun ok => .of_ret
    fun s _ h => ?_
  · exact (recordReadOnly_spec hlive he).post (fun _ s _ h => ⟨tx, ⟨hn, fun _ => hlive.irr⟩, h⟩)
      fun _ _ h => h
  · cases ok with
    | true =>
      obtain ⟨tx', ⟨hn', hi'⟩, h⟩ := h
      exact ⟨tx', ⟨hn'.trans hn, fun _ => hi' ▸ hlive.irr⟩, h⟩
    | false =>
      obtain ⟨⟨hretry, hi0⟩, tx', ⟨hidle, hi⟩, h⟩ := h
      exact ⟨tx', ⟨hidle.nesting, fun hh => .inl (hi (hmay hh hretry hi0 he))⟩, h⟩

omit [DecidableEq Lock] in
/-- The token is given back. -/
theorem releaseToken_spec (hi : S.hint → tx.irrevocable = 0 ∨ tx.irrevocable = 3) :
    Triple (protocol S) p (At tx (noLocks S p)) (releaseToken p tx)
      (fun _ => At { tx with irrevocable := 0 } (noLocks S p)) J := by
  refine .ite (fun hi0 => ?_) fun hi0 => .of_ret fun s _ h => ?_
  · refine .last (.releaseIrrevocable (Ψ := noLocks S p) (fun hh => ?_) (fun v _ h => h)
      (.of_ret fun _ _ h => h))
    have := (hi hh).resolve_left hi0
    omega
  · have hi0 := not_not.1 hi0
    rw [← hi0]
    exact h

/-- `int_stm_commit`. -/
theorem intStmCommit_spec (hact : TxActive S.toPremises tx)
    (hmay : MayCommit S tx) :
    Triple (protocol S) p (At tx (live S p tx m)) (intStmCommit S.cfg p)
      (fun _ => boundary S p) (boundary S p) := by
  have hpred := nestingPred_of_pos hact.nesting
  refine .modifyTx rfl rfl rfl ?_
  generalize nestingPred tx.nesting = n at hpred ⊢
  refine .getTx (.ite (fun hn => .of_ret fun s _ h => .inr ?_) fun hn => ?_)
  · refine ⟨{ tx with nesting := n }, { hact with nesting := ?_ }, h.1,
      ⟨m, h.2.1.congr rfl rfl rfl rfl rfl rfl⟩, h.2.2.of_eq rfl rfl rfl⟩
    obtain ⟨h1, h2⟩ := hact.nesting
    exact ⟨hn, show n < 2 ^ 32 by omega⟩
  · have hn : n = 0 := Nat.eq_zero_of_not_pos hn
    refine .modifyTx rfl rfl rfl (.bind (R := fun _ => ended S p) (.weaken (commitWriteSet_spec (m := m) ?_
      ?_ hn) fun v _ h => ⟨h.1.congr rfl rfl rfl rfl rfl rfl, h.2.of_eq rfl rfl rfl⟩) fun _ => ?_)
    · exact { hact.toTxLive with }
    · have hone : tx.nesting = 1 := by
        have := hact.nesting.1
        omega
      exact fun hh hretry hirr hne => hmay hone hh hretry hirr hne
    refine .of_ex fun tx => .of_fact (fun _ _ h => h.1) fun ⟨hn, hi⟩ => .pre ?_ fun _ _ h => h.2
    refine .modifyTx rfl rfl rfl (.getTx (.bind (releaseToken_spec hi) fun _ => ?_))
    refine .modifyPhase (Ψ := noLocks S p) (.inl rfl) rfl rfl (.inr fun v _ h => h) (fun v _ h => h)
      (.modifyTx rfl rfl rfl ?_)
    generalize htx : (StmTx.mk _ _ _ _ _ _ _ _ _ _ _ _ _ _ _ _ : StmTx Addr Lock w) = tx'
    refine .of_ret fun s _ h => .inl ⟨tx', ?_, h⟩
    subst htx
    exact ⟨rfl, rfl, Nat.zero_le 3, hn⟩

/-! ## Irrevocability -/

/-- The words of the stripe of `ℓ` that `tx` has read are current, for good. -/
def secured (S : Setting Tid Addr Lock w) (p : Tid) (tx : StmTx Addr Lock w) (m : Mem Addr w)
    (ℓ : Lock) : VAsn S p :=
  .all fun a => .imp (S.hint ∧ a ∈ tx.trace.reads ∧ S.cfg.getLock a = ℓ)
    (heldAsn S p (fun v => v.Own S p tx a) (fun _ _ h ho => ⟨ho.1, h.holds_iff.2 ho.2⟩) ⊔
      safe S p a (m a))

omit [DecidableEq Tid] [DecidableEq Lock] in
/-- A lock that passes the validation of a transaction that has the token. -/
theorem secured_of_fresh {v : View Tid Addr Lock w} {r : REntry Lock} (hl : Linked S p tx v)
    (hi : tx.irrevocable = 2) (h : live S p tx m v) (hr : r.version ≤ tx.end_)
    (hf : v.Fresh S p tx r) : secured S p tx m r.lock v := by
  rintro a ⟨hh, ha, hal⟩
  by_cases ho : v.Own S p tx a
  · exact .inl ho
  · right
    have hfix : v.FixedAt S p tx.end_ a (m a) := by
      rcases h.1.good (View.not_blind_of_hint hh) a ha with ⟨ho', -⟩ | ⟨-, hi', -⟩ | ⟨-, -, hfix, -⟩
      · exact (ho ho').elim
      · omega
      · exact hfix
    rcases hf with ⟨l, hlock, hlr⟩ | ⟨hheld, hd⟩
    · have hcur : v.cur S a = m a := by
        rw [← hfix.eq]
        exact (hl.inv.settled_of_free (hal ▸ hlock) (by omega)).symm
      exact hcur ▸ .of_free hh (hal ▸ hlock) (by rw [hl.irr, hi])
    · by_cases hS : S.cfg.designOf tx.attr = .writeBackCtl
      · exact ((h.2.ctl hS).noLocks _ hheld).elim
      · exact (ho ⟨hS, hal ▸ hheld⟩).elim

/-- The validation of a transaction that has the token. -/
theorem setIrrevocableValidate_spec (hcfg : S.hint → S.cfg.design ≠ .modular)
    (hver : ∀ r ∈ tx.rSet, r.version ≤ tx.end_) (hi : tx.irrevocable = 2) :
    Triple (protocol S) p (At tx (live S p tx m)) (setIrrevocableValidate S.cfg p)
      (fun ok => At tx (live S p tx m ⊓ .imp (ok = true)
        (.all fun r => .imp (r ∈ tx.rSet) (secured S p tx m r.lock)))) J := by
  have hvalid : ∀ test, Triple (protocol S) p (At tx (live S p tx m))
      (getTx p >>= fun tx => validateEntries p test tx.rSet)
      (fun ok => At tx (live S p tx m ⊓ .imp (ok = true)
        (.all fun r => .imp (r ∈ tx.rSet) (secured S p tx m r.lock)))) J := by
    refine fun test => .getTx (validateEntries_spec (fun r => secured S p tx m r.lock)
      (fun hd v _ h i r hl => ?_) _ fun r hr v hl h hf => secured_of_fresh hl hi h (hver r hr) hf)
    exact ((h.2.ctl hd).noLocks _ ⟨i, hl⟩).elim
  unfold setIrrevocableValidate
  split
  · exact hvalid _
  · exact hvalid _
  · exact hvalid _
  case h_4 hmod =>
    -- the result of the test is inverted, so nothing is known of the words
    have hno : ¬ S.hint := fun hh => hcfg hh hmod
    have hinv : ∀ test, Triple (protocol S) p (At tx (live S p tx m))
        ((getTx p >>= fun tx => validateEntries p test tx.rSet) >>= fun ok => pure !ok)
        (fun ok => At tx (live S p tx m ⊓ .imp (ok = true)
          (.all fun r => .imp (r ∈ tx.rSet) (secured S p tx m r.lock)))) J := fun test =>
      .bind (hvalid test) fun ok => .of_ret fun s _ h =>
        ⟨h.1, h.2.1, fun _ r _ a ha => (hno ha.1).elim⟩
    refine .getTx ?_
    cases S.cfg.designOf tx.attr with
    | writeBackEtl => exact hinv _
    | writeBackCtl => exact hinv _
    | writeThrough => exact hinv _
    | modular => exact hinv _

omit [DecidableEq Tid] [DecidableEq Lock] in
/-- The snapshot of a transaction on its way to irrevocability. -/
theorem View.Snap.of_irr {v : View Tid Addr Lock w} {n : ℕ} (h : v.Snap S p tx m)
    (hi : tx.irrevocable = 0) (hn : n ≠ 3) : v.Snap S p { tx with irrevocable := n } m := by
  have hb' : ¬ View.Blind S { tx with irrevocable := n } → ¬ View.Blind S tx :=
    fun hb => View.not_blind_of_irrevocable hb rfl (by simp [hi])
  refine ⟨fun hb => h.cons (hb' hb), fun hb a ha => ?_, h.start_le, h.end_le⟩
  rcases h.good (hb' hb) a ha with ⟨ho, hx, hs⟩ | ⟨-, hi', -⟩ | ⟨ho, -, hf, hr⟩
  · exact .inl ⟨ho, hx, fun hS => .inr ((hs hS).resolve_left (by simp [hi]))⟩
  · omega
  · exact .inr (.inr ⟨ho, hn, hf, hr⟩)

omit [DecidableEq Lock] in
/-- A change of the token and of the thread's own irrevocability. -/
theorem live_of_irr {v : View Tid Addr Lock w} (h : live S p tx m v) (t n : ℕ)
    (hn : tx.irrevocable = 3 → 2 ≤ n) :
    live S p tx m { v with token := t, irr := Function.update v.irr p n } := by
  have hsame : View.SameHeld S p v { v with token := t, irr := Function.update v.irr p n } :=
    ⟨fun _ _ => Iff.rfl, fun _ _ => rfl, fun _ _ => rfl, fun _ _ => rfl⟩
  refine ⟨⟨h.1.cons, fun hb a ha => ?_, h.1.start_le, h.1.end_le⟩, View.Ws.congr hsame h.2⟩
  rcases h.1.good hb a ha with ⟨ho, hx, hs⟩ | ⟨ho, hi, hs⟩ | ⟨ho, hi, hf, hr⟩
  · exact .inl ⟨ho, hx, hs⟩
  · exact .inr (.inl ⟨ho, hi, ⟨hs.hint, by simpa using hn hi, hs.eq, hs.early⟩⟩)
  · exact .inr (.inr ⟨ho, hi, ⟨hf.le, hf.eq, hf.late⟩, hr⟩)

/-- The token is taken if it is free. -/
theorem tryToken_spec {Φ : VAsn S p} (he : S.tokens)
    (hΦ : ∀ v t n, Φ v → Φ { v with token := t, irr := Function.update v.irr p n }) :
    Triple (protocol S) p (At tx Φ) (tryToken p)
      (fun ok => if ok then At { tx with irrevocable := tx.irrevocable + 1 } Φ else At tx Φ) J := by
  refine .loadIrrevocable fun n => .ite (fun _ => .of_ret fun _ _ h => h) fun _ => ?_
  refine .last (.casIrrevocable he (fun v _ h => hΦ v 1 _ h) ?_ ?_)
  · exact .of_ret fun _ _ h => h
  · exact .of_ret fun _ _ h => h

/-- `int_stm_set_irrevocable` of an active transaction. -/
theorem intStmSetIrrevocable_active (hcfg : S.hint → S.cfg.design ≠ .modular)
    (he : S.tokens) (hact : TxActive S.toPremises tx)
    (hro : S.hint → tx.attr.readOnly = false) :
    Triple (protocol S) p (At tx (live S p tx m)) (intStmSetIrrevocable S.cfg p)
      (fun _ => boundary S p) (boundary S p) := by
  have hret : ∀ s, At tx (live S p tx m) s → boundary S p s :=
    fun s h => .inr ⟨tx, hact, h.1, ⟨m, h.2.1⟩, h.2.2⟩
  refine .getTx ?_
  rw [if_neg (by simp [hact.active])]
  refine .ite (fun _ => .of_ret fun s _ h => hret s h) fun hi3 => ?_
  have hi : tx.irrevocable = 0 := hact.irr.resolve_right fun h => hi3 (by rw [h])
  rw [if_pos hi]
  -- the rollback of the transaction with irrevocability `n`
  have hroll : ∀ n reason, n ≤ 2 → Triple (protocol S) p
      (At { tx with irrevocable := n } (live S p { tx with irrevocable := n } m))
      (stmRollback S.cfg p reason >>= fun _ => pure false) (fun _ => boundary S p)
      (boundary S p) := by
    intro n reason hn
    refine .weaken (Ψ := undo S p { tx with irrevocable := n }) (.bind (stmRollback_spec ?_
      (fun t ht => ?_) ?_ reason) fun _ => .of_ret fun s _ h => .inl (idleAsn_of_idleWith h.2))
      fun v _ h => h.2.undo
    · exact hact.attr
    · rw [show tx.phase = .running from hact.phase] at ht
      cases ht
    · exact hn.trans (by omega)
  have hirr : ∀ n v, n ≠ 3 → live S p tx m v → live S p { tx with irrevocable := n } m v :=
    fun n v hn h => ⟨h.1.of_irr hi hn, h.2.of_eq rfl rfl rfl⟩
  refine .modifyIrr (Ψ := live S p { tx with irrevocable := 1 } m) he (by simp) rfl rfl
    (fun v _ h => live_of_irr (hirr 1 v (by decide) h) v.token 1 (by simp))
    (.bind (tryToken_spec he fun v t n h => live_of_irr h t n (by simp)) fun got => ?_)
  cases got with
  | false => exact hroll 1 _ (by decide)
  | true =>
    have h12 : ∀ v, live S p { tx with irrevocable := 1 } m v →
        live S p { tx with irrevocable := 2 } m v := by
      have hb' : ¬ View.Blind S { tx with irrevocable := 2 } →
          ¬ View.Blind S { tx with irrevocable := 1 } :=
        fun hb => View.not_blind_of_irrevocable hb rfl (by simp)
      refine fun v h => ⟨⟨fun hb => h.1.cons (hb' hb), fun hb a ha => ?_, h.1.start_le,
        h.1.end_le⟩, h.2.of_eq rfl rfl rfl⟩
      rcases h.1.good (hb' hb) a ha with ⟨ho, hx, hs⟩ | ⟨-, hi', -⟩ | ⟨ho, -, hf, hr⟩
      · exact .inl ⟨ho, hx, fun _ => .inl (by simp)⟩
      · cases hi'
      · exact .inr (.inr ⟨ho, by simp, hf, hr⟩)
    refine .weaken (Ψ := live S p { tx with irrevocable := 2 } m) (.bind
      (setIrrevocableValidate_spec hcfg ?_ rfl) fun ok => ?_) fun v _ h => h12 v h
    · exact hact.version
    cases ok with
    | false => exact .weaken (hroll 2 _ le_rfl) fun v _ h => h.1
    | true =>
      refine .modifyIrr (Ψ := live S p { tx with irrevocable := 3 } m) he (by simp) rfl rfl
        (fun v hl h => ?_) (.of_ret fun s _ h => .inr ⟨{ tx with irrevocable := 3 },
          { hact with irr := .inr rfl }, h.1, ⟨m, h.2.1⟩, h.2.2⟩)
      obtain ⟨⟨hsnap, hws⟩, hsec⟩ := h
      have hsnap3 := hsnap.irrevocable (by simp) fun hh a ha ho => by
        rcases hsnap.good (View.not_blind_of_hint hh) a ha with ⟨ho', -⟩ | ⟨-, hi', -⟩ | ⟨-, -, -, hc⟩
        · exact (ho ho').elim
        · cases hi'
        · obtain ⟨r, hr, hrl, -⟩ := hc.resolve_left (by simp [hro hh])
          exact ((hsec rfl r hr) a ⟨hh, ha, hrl.symm⟩).resolve_left ho
      have hlive3 : live S p { tx with irrevocable := 3 } m v := ⟨hsnap3, hws.of_eq rfl rfl rfl⟩
      exact live_of_irr hlive3 v.token 3 fun _ => by decide

/-- `int_stm_set_irrevocable` of an idle thread: its next transaction will be irrevocable. -/
theorem intStmSetIrrevocable_idle (he : S.tokens) (hidle : TxIdle tx) :
    Triple (protocol S) p (At tx (noLocks S p)) (intStmSetIrrevocable S.cfg p)
      (fun _ => boundary S p) J := by
  refine .getTx ?_
  rw [if_pos hidle.inactive]
  refine .modifyIrr (Ψ := noLocks S p) he (by simp) rfl rfl (fun v _ h => h)
    (.of_ret fun s _ h => .inl ⟨{ tx with irrevocable := 1 }, ?_, h⟩)
  exact ⟨hidle.inactive, hidle.phase, show 1 ≤ 3 by decide, hidle.nesting⟩

end TinyStm
