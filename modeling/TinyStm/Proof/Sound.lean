import TinyStm.Conc.Pool
import TinyStm.Proof.Stm

/-!
# Runs

The soundness of the protocol for runs of the library: in every state that a run reaches, the
invariant holds and every thread is at a point of its proof outline, whatever the interleaving and
as long as the clients make no calls but those of `Admits`. It is the general soundness theorem of
thread pools at the protocol of the library, and every result about runs goes through it.
-/

namespace TinyStm

section
variable {Tid Addr Lock : Type} {w : ℕ} [DecidableEq Addr] [DecidableEq Lock]

/-- The calls that thread `p` may make in a state. Between two calls a transaction is active or the
thread is idle; all functions but `stm_start` and `stm_set_irrevocable` are for active transactions. -/
def Admits (S : Setting Tid Addr Lock w) (p : Tid) (cmd : Cmd Addr w)
    (s : State Tid Addr Lock w) : Prop :=
  let tx := s.txs p
  let active := tx.status.isActive = true
  match cmd with
  | .start attr => S.attrs attr ∧ tx.nesting + 1 < 2 ^ 32
  | .load a => active ∧ MayLoad S p tx a s.view
  | .store a _ => active ∧ MayStore S tx a (BitVec.allOnes w)
  | .store2 a _ k => active ∧ MayStore S tx a k
  | .commit => active ∧ MayCommit S tx
  | .abort _ => active
  | .setIrrevocable => S.tokens ∧
      (S.hint → S.cfg.design ≠ .modular ∧ (active → tx.attr.readOnly = false))

omit [DecidableEq Lock] in
/-- An active attempt with a property of its descriptor and of the view. -/
def activeWith (S : Setting Tid Addr Lock w) (p : Tid) (φ : StmTx Addr Lock w → Prop)
    (Φ : StmTx Addr Lock w → VAsn S p) : Asn S p :=
  .ex fun tx => .ex fun m => .pure (TxActive S.toPremises tx ∧ φ tx) ⊓ At tx (live S p tx m ⊓ Φ tx)

/-- The precondition of a call. -/
def pre (S : Setting Tid Addr Lock w) (p : Tid) : Cmd Addr w → Asn S p
  | .start attr => .pure (S.attrs attr) ⊓
      (idleAsn S p ⊔ activeWith S p (fun tx => tx.nesting + 1 < 2 ^ 32) fun _ => .pure True)
  | .load a => activeWith S p (fun tx => S.cfg.designOf tx.attr = .writeBackCtl → ¬ View.Blind S tx →
      tx.irrevocable ≠ 0 → ∀ e ∈ tx.wSet.entries, e.addr = a →
        e.mask = BitVec.allOnes w ∨ e.mask = 0#w)
      (strictLoad S p a)
  | .store a _ => activeWith S p (MayStore S · a (BitVec.allOnes w)) fun _ => .pure True
  | .store2 a _ k => activeWith S p (MayStore S · a k) fun _ => .pure True
  | .commit => activeWith S p (MayCommit S) fun _ => .pure True
  | .abort _ => activeWith S p (fun _ => True) fun _ => .pure True
  | .setIrrevocable => .pure (S.tokens ∧ (S.hint → S.cfg.design ≠ .modular)) ⊓
      (idleAsn S p ⊔ activeWith S p
        (fun tx => S.hint → tx.attr.readOnly = false)
        fun _ => .pure True)

end

variable {Tid Addr Lock : Type} {w : ℕ} [DecidableEq Tid] [DecidableEq Addr] [DecidableEq Lock]
  {S : Setting Tid Addr Lock w}

omit [DecidableEq Tid] in
/-- Between two calls the precondition of a call that is admitted holds. -/
theorem pre_of_admits (p : Tid) (cmd : Cmd Addr w) (s : State Tid Addr Lock w)
    (h : boundary S p s) (hC : Admits S p cmd s) : pre S p cmd s := by
  have hidle : (s.txs p).status.isActive = false → idleAsn S p s := fun hi => by
    rcases h with h | ⟨tx, hact, htx, -⟩
    · exact h
    · rw [htx, hact.active] at hi
      cases hi
  have hactive : (s.txs p).status.isActive = true → ∀ (φ : StmTx Addr Lock w → Prop)
      (Φ : StmTx Addr Lock w → VAsn S p), φ (s.txs p) → Φ (s.txs p) s.view →
      activeWith S p φ Φ s := fun ha φ Φ hφ hΦ => by
    rcases h with ⟨tx, hidle, htx, -⟩ | ⟨tx, hact, htx, ⟨m, hsnap⟩, hws⟩
    · rw [htx, hidle.inactive] at ha
      cases ha
    · rw [htx] at hφ hΦ
      exact ⟨tx, m, ⟨hact, hφ⟩, htx, ⟨hsnap, hws⟩, hΦ⟩
  cases cmd with
  | start attr =>
    refine ⟨hC.1, ?_⟩
    cases ha : (s.txs p).status.isActive with
    | false => exact .inl (hidle ha)
    | true => exact .inr (hactive ha _ _ hC.2 trivial)
  | load a => exact hactive hC.1 _ _ hC.2.merged hC.2.strict
  | store a x => exact hactive hC.1 _ _ hC.2 trivial
  | store2 a x k => exact hactive hC.1 _ _ hC.2 trivial
  | commit => exact hactive hC.1 _ _ hC.2 trivial
  | abort reason => exact hactive hC _ _ trivial trivial
  | setIrrevocable =>
    refine ⟨⟨hC.1, fun hh => (hC.2 hh).1⟩, ?_⟩
    cases ha : (s.txs p).status.isActive with
    | false => exact .inl (hidle ha)
    | true => exact .inr (hactive ha _ _ (fun hh => (hC.2 hh).2 ha) trivial)

omit [DecidableEq Tid] [DecidableEq Lock] in
/-- A program that starts with an active attempt. -/
theorem activeWith_spec {α : Type} {p : Tid} {φ : StmTx Addr Lock w → Prop}
    {Φ : StmTx Addr Lock w → VAsn S p} {c : M Tid Addr Lock w α} {Q : α → Asn S p} {J : Asn S p}
    (h : ∀ tx m, TxActive S.toPremises tx → φ tx →
      Triple (protocol S) p (At tx (live S p tx m ⊓ Φ tx)) c Q J) :
    Triple (protocol S) p (activeWith S p φ Φ) c Q J :=
  .of_ex fun tx => .of_ex fun m => .of_fact (fun _ _ h => h.1) fun ⟨hact, hφ⟩ =>
    .pre (h tx m hact hφ) fun _ _ h => h.2

/-- Every call goes from the precondition of the call to a thread between two calls. -/
theorem exec_spec (p : Tid) (cmd : Cmd Addr w) :
    Triple (protocol S) p (pre S p cmd) (exec S.cfg p cmd) (fun _ => boundary S p)
      (boundary S p) := by
  cases cmd with
  | start attr =>
    refine .of_fact (fun _ _ h => h.1) fun hattr => .pre (.of_sup ?_ ?_) fun _ _ h => h.2
    · refine .of_ex fun tx => .of_fact (fun _ _ h => h.1) fun hidle => ?_
      exact .pre (intStmStart_idle hidle hattr) fun _ _ h => h.2
    · exact activeWith_spec fun tx m hact hn =>
        .weaken (intStmStart_nested (m := m) hact hn attr) fun v _ h => h.1
  | load a =>
    exact activeWith_spec fun tx m hact hm =>
      .bind (intStmLoad_spec hact hm) fun x => recordLoad_spec
  | store a x =>
    exact activeWith_spec fun tx m hact hst => .bind
      (.weaken (stmWrite_spec (m := m) hact hst) fun v _ h => h.1) fun _ => recordStore_spec
  | store2 a x k =>
    exact activeWith_spec fun tx m hact hst => .bind
      (.weaken (stmWrite_spec (m := m) hact hst) fun v _ h => h.1) fun _ => recordStore_spec
  | commit =>
    exact activeWith_spec fun tx m hact hmay => .bind
      (.weaken (intStmCommit_spec (m := m) hact hmay) fun v _ h => h.1)
      fun _ => .of_ret fun _ _ h => h
  | abort reason =>
    exact activeWith_spec fun tx m hact _ => .weaken ((abort_spec (m := m) hact.toTxLive
      _).post (fun _ s _ h => .inl (idleAsn_of_idleWith h.2)) fun _ _ h => h) fun v _ h => h.1
  | setIrrevocable =>
    refine .of_fact (fun _ _ h => h.1) fun ⟨he, hcfg⟩ => .pre (.of_sup ?_ ?_) fun _ _ h => h.2
    · refine .of_ex fun tx => .of_fact (fun _ _ h => h.1) fun hidle => ?_
      exact .bind (.pre (intStmSetIrrevocable_idle he hidle) fun _ _ h => h.2)
        fun _ => .of_ret fun _ _ h => h
    · exact activeWith_spec fun tx m hact hro => .bind (.weaken
        (intStmSetIrrevocable_active (m := m) hcfg he hact hro) fun v _ h => h.1)
        fun _ => .of_ret fun _ _ h => h

/-! ## The initial state -/

omit [DecidableEq Tid] [DecidableEq Lock] in
/-- The invariant holds at the start. -/
theorem inv_init (S : Setting Tid Addr Lock w) (size : ℕ) :
    (State.init S.mem₀ size : State Tid Addr Lock w).view.Inv S where
  ordered := ⟨.nil, nofun, nofun⟩
  consistent _ := nofun
  ts_le := nofun
  ticket p t h := nomatch h
  ticket_inj p q t h := nomatch h
  settled a n _ := by
    cases n with
    | zero => rfl
    | succ n => exact congrFun (History.memAt_eq_of_le (Nat.zero_le _) fun _ hc => (List.not_mem_nil hc).elim) a
  due_le ℓ := by
    rw [View.due_of_free (l := 0) rfl]
    exact Nat.zero_le _
  late ℓ p i t h := nomatch h
  apart p t h := nomatch h
  mem a _ := rfl
  token _ p h := nomatch h
  token_inj _ p q h := nomatch h
  off _ := ⟨rfl, fun _ => rfl⟩
  inside := rfl
  decided _ _ h := nomatch h
  owner p ℓ h := have ⟨_, hi⟩ := h; nomatch hi
  plain ℓ := .inl (by
    rw [View.lastWord_of_free (l := 0) rfl]
    exact plain_lockSetTimestamp 0)

omit [DecidableEq Tid] [DecidableEq Lock] in
/-- Every thread is idle at the start. -/
theorem boundary_init (S : Setting Tid Addr Lock w) (size : ℕ) (p : Tid) :
    boundary S p (State.init S.mem₀ size) :=
  .inl ⟨.init size, ⟨rfl, rfl, Nat.zero_le 3, rfl⟩, rfl, fun _ ⟨_, hi⟩ => nomatch hi⟩

/-! ## Soundness -/

/-- The runs of the library from the initial state in which the clients make only calls that satisfy
`C`. -/
abbrev Run (cfg : Config Addr Lock) (m₀ : Mem Addr w) (size : ℕ)
    (C : Tid → Cmd Addr w → State Tid Addr Lock w → Prop)
    (T : Pool (State Tid Addr Lock w) Tid) : Prop :=
  Pool.Reaches (exec cfg) C (Pool.init (State.init m₀ size)) T

/-- In every state that a run reaches the invariant holds, and every thread is at a point of its
outline. -/
theorem Run.sound {C : Tid → Cmd Addr w → State Tid Addr Lock w → Prop}
    (hC : ∀ p cmd s, s.view.Inv S → boundary S p s → C p cmd s → Admits S p cmd s) {size : ℕ}
    {T : Pool (State Tid Addr Lock w) Tid} (h : Run S.cfg S.mem₀ size C T)
    (ho : ∀ U, Run S.cfg S.mem₀ size C U → Pool.Reaches (exec S.cfg) C U T → S.obs U.st.view) :
    T.st.view.Inv S ∧ ∀ p, Pool.AtOutline (G := protocol S) (boundary S) T p :=
  Pool.sound (S := Pool.init (State.init S.mem₀ size)) exec_spec
    (fun p k s hs hB hk => pre_of_admits p k s hB (hC p k s hs.inv hB hk)) (inv_init S size)
    (fun p => Pool.atOutline_init (boundary_init S size p)) h ho

/-- A preorder on views that contains the steps of all threads contains the runs. -/
theorem Run.sound_rel
    {C : Tid → Cmd Addr w → State Tid Addr Lock w → Prop}
    (hC : ∀ p cmd s, s.view.Inv S → boundary S p s → C p cmd s → Admits S p cmd s)
    {R : State Tid Addr Lock w → State Tid Addr Lock w → Prop} (hR : ∀ s, R s s)
    (hR' : ∀ s t u, R s t → R t u → R s u)
    (hG : ∀ p s s', s.view.Inv S → s'.view.Inv S → (protocol S).guar p s s' → R s s') {size : ℕ}
    {T U : Pool (State Tid Addr Lock w) Tid} (hT : Run S.cfg S.mem₀ size C T)
    (h : Pool.Reaches (exec S.cfg) C T U) (ho : ∀ v, S.obs v) : R T.st U.st := by
  have h' := Run.sound hC hT fun _ _ _ => ho _
  exact Pool.sound_rel hR hR' hG exec_spec
    (fun p k s hs hB hk => pre_of_admits p k s hB (hC p k s hs.inv hB hk)) h'.1 h'.2 h
    fun _ _ _ => ho _

omit [DecidableEq Tid] [DecidableEq Lock] in
/-- Between two calls an active descriptor is one of an attempt. -/
theorem active_of_boundary {p : Tid} {s : State Tid Addr Lock w} (h : boundary S p s)
    (ha : (s.txs p).status.isActive = true) : TxActive S.toPremises (s.txs p) := by
  rcases h with ⟨tx, hidle, htx, -⟩ | ⟨tx, hact, htx, -⟩
  · rw [htx, hidle.inactive] at ha
    cases ha
  · exact htx.symm ▸ hact

end TinyStm
