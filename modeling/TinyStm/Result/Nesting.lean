import TinyStm.Proof.Levels
import TinyStm.Proof.Stm
import TinyStm.Result.Calls

/-!
# Flat nesting

The calls of one thread, whatever the other threads do, and the levels that it has open. The nesting
counter is the number of open levels, unless `stm_commit` is called for a level of an attempt that
has been given up: the counter is 0 then, and it wraps around. The session of a thread is a sequence
of starts, accesses, aborts and commits with interference of the other threads between the steps.
The counter is compared with the levels that an observer of the calls would count.
-/

namespace TinyStm

variable {Tid Addr Lock : Type} {w : ℕ} [DecidableEq Tid] [DecidableEq Addr] [DecidableEq Lock]
  {cfg : Config Addr Lock} {p : Tid} {C : ℕ → State Tid Addr Lock w → Cmd Addr w → Prop}
  {n : ℕ} {s s₀ t : State Tid Addr Lock w}

/-- The calls of which flat nesting speaks. -/
def Cmd.isAccess : Cmd Addr w → Bool
  | .load _ | .store _ _ | .store2 _ _ _ | .abort _ => true
  | .start _ | .commit | .setIrrevocable => false

/-- The program returns `x` in the state `t`; other threads act in between. -/
def Returns {α : Type} (p : Tid) (c : M Tid Addr Lock w α) (s : State Tid Addr Lock w) (x : α)
    (t : State Tid Addr Lock w) : Prop :=
  Prog.Steps (Others p) (fun _ => True) c s (.ret x) t

omit [DecidableEq Addr] [DecidableEq Lock] in
/-- A program that returns when it runs alone. -/
theorem returns_run {α : Type} {c : M Tid Addr Lock w α} {x : α} (h : (Prog.run n c s).1 = .ret x) :
    Returns p c s x (Prog.run n c s).2 := by
  rw [Returns, ← h]
  exact .run n c s

/-- The states of thread `p` between its calls, with the number of levels that are open: `stm_start`
opens one and `stm_commit` closes one, a jump goes back to the outermost one, and an attempt that is
given up leaves none. `C` are the calls that the thread may make. -/
inductive Session (cfg : Config Addr Lock) (p : Tid)
    (C : ℕ → State Tid Addr Lock w → Cmd Addr w → Prop) (s₀ : State Tid Addr Lock w) :
    ℕ → State Tid Addr Lock w → Prop
  | init : Session cfg p C s₀ 0 s₀
  | others {n : ℕ} {s t : State Tid Addr Lock w} : Session cfg p C s₀ n s → Others p s t →
      Session cfg p C s₀ n t
  | start {n : ℕ} {s t : State Tid Addr Lock w} {attr : Attr} : Session cfg p C s₀ n s →
      C n s (.start attr) → Returns p (intStmStart cfg p attr) s () t → Session cfg p C s₀ (n + 1) t
  | access {n : ℕ} {s t : State Tid Addr Lock w} {cmd : Cmd Addr w} : Session cfg p C s₀ n s →
      C n s cmd → cmd.isAccess = true → Returns p (exec cfg p cmd) s () t →
      Session cfg p C s₀ (if (t.txs p).status.isActive then n else 0) t
  | jump {n : ℕ} {s t : State Tid Addr Lock w} {cmd : Cmd Addr w} : Session cfg p C s₀ n s →
      C n s cmd → cmd.isAccess = true ∨ cmd = .commit →
      Prog.Steps (Others p) (fun _ => True) (exec cfg p cmd) s .jump t → Session cfg p C s₀ 1 t
  | commit {n : ℕ} {s t : State Tid Addr Lock w} {ok : Bool} : Session cfg p C s₀ n s →
      C n s .commit → Returns p (intStmCommit cfg p) s ok t → Session cfg p C s₀ (n - 1) t

/-- What a thread has to itself, at the nesting level `n`. -/
def Own.atLevel (o : Own Tid Addr Lock w) (n : ℕ) : Own Tid Addr Lock w :=
  { o with tx := { o.tx with nesting := n } }

/-- Between `s` and `t` thread `p` has changed nothing but its nesting level, to `n`. -/
def OnlyNesting (p : Tid) (n : ℕ) (s t : State Tid Addr Lock w) : Prop :=
  t.own p = (s.own p).atLevel n

/-- What a call of `stm_start` does when `n` levels are open: the outermost one prepares. -/
def StartsLevel (p : Tid) (n : ℕ) (s t : State Tid Addr Lock w) : Prop :=
  if n = 0 then Fresh (t.txs p) else OnlyNesting p (n + 1) s t

/-- What a call of `stm_commit` does when `n` levels are open: the outermost one commits, and one for a
level of an attempt that has been given up returns 0. -/
def EndsLevel (p : Tid) (n : ℕ) (s : State Tid Addr Lock w) (ok : Bool) (t : State Tid Addr Lock w) :
    Prop :=
  if n = 0 then ok = false ∧ OnlyNesting p 0 s t
  else if n = 1 then (t.txs p).status = .committed ∧ (t.txs p).nesting = 0
  else ok = true ∧ OnlyNesting p (n - 1) s t

/-- The nesting counter is the number of open levels, and the calls that may follow do what is expected
of them. -/
structure Accounted (cfg : Config Addr Lock) (p : Tid)
    (C : ℕ → State Tid Addr Lock w → Cmd Addr w → Prop) (n : ℕ) (s : State Tid Addr Lock w) :
    Prop where
  nesting : (s.txs p).nesting = n
  start : ∀ attr t, C n s (.start attr) → Returns p (intStmStart cfg p attr) s () t →
    StartsLevel p n s t
  commit : ∀ ok t, C n s .commit → Returns p (intStmCommit cfg p) s ok t → EndsLevel p n s ok t

/-- Flat nesting, for the sessions of a thread from `s₀`. -/
def Flat (cfg : Config Addr Lock) (p : Tid) (C : ℕ → State Tid Addr Lock w → Cmd Addr w → Prop)
    (s₀ : State Tid Addr Lock w) : Prop :=
  ∀ n s, Session cfg p C s₀ n s → Accounted cfg p C n s

/-- A call of `stm_commit` ends a level that is open, and the counter does not overflow. -/
structure Levelled (C : ℕ → State Tid Addr Lock w → Cmd Addr w → Prop) (n : ℕ)
    (s : State Tid Addr Lock w) : Prop where
  commit : C n s .commit → 0 < n
  start : ∀ attr, C n s (.start attr) → n + 1 < 2 ^ 32

/-! ## Nested calls -/

omit [DecidableEq Addr] [DecidableEq Lock] in
/-- What is known of the part of a thread that has it to itself. -/
theorem returns_own {α : Type} {c : M Tid Addr Lock w α} {x : α} {ψ : α → Own Tid Addr Lock w → Prop}
    (h : Triple (alone p) true (Has fun o => o = s.own p) c (fun x => Has (ψ x)) (.pure True))
    (hr : Returns p c s x t) : ψ x (t.own p) :=
  h.steps_ret (fun _ _ => Others.rely) hr trivial rfl

/-- The nesting level is changed by `f`, to `m`. -/
theorem triple_nesting {α : Type} {f : ℕ → ℕ} {m : ℕ} (hm : f (s.txs p).nesting = m)
    {c : Unit → M Tid Addr Lock w α} {Q : α → Assn (alone p : RG (State Tid Addr Lock w) Bool) true}
    {J : Assn (alone p : RG (State Tid Addr Lock w) Bool) true}
    (hc : Triple (alone p) true (Has fun o => o = (s.own p).atLevel m) (c ()) Q J) :
    Triple (alone p) true (Has fun o => o = s.own p)
      (modifyTx p (fun tx => { tx with nesting := f tx.nesting }) >>= c) Q J := by
  refine .ownModifyTx (fun o _ ho => ⟨trivial, ?_⟩) hc
  subst ho
  subst hm
  rfl

/-- `stm_start` inside a transaction. -/
theorem start_nested (hn : 0 < n) (hlt : n + 1 < 2 ^ 32) (h : (s.txs p).nesting = n) {attr : Attr}
    (hr : Returns p (intStmStart cfg p attr) s () t) : OnlyNesting p (n + 1) s t := by
  refine returns_own (ψ := fun _ o => o = (s.own p).atLevel (n + 1)) (.ownGetTx fun tx => ?_) hr
  refine .ownFact (q := tx.nesting = n) (fun o _ ⟨ho, hs⟩ => ?_) fun htx => ?_
  · rw [← ho, hs]
    exact h
  · have hsucc : nestingSucc (s.txs p).nesting = n + 1 := by rw [h, nestingSucc_of_lt hlt]
    refine .ownPre (triple_nesting (f := nestingSucc) hsucc ?_) fun _ _ h => h.2
    rw [if_pos (by omega)]
    exact .of_ret fun _ _ h => h

/-- `stm_commit` inside a transaction. -/
theorem commit_nested (hn : 1 < n) (hlt : n < 2 ^ 32) (h : (s.txs p).nesting = n)
    {J : Assn (alone p : RG (State Tid Addr Lock w) Bool) true} :
    Triple (alone p) true (Has fun o => o = s.own p) (intStmCommit cfg p)
      (fun ok => Has fun o => ok = true ∧ o = (s.own p).atLevel (n - 1)) J := by
  have hpred : nestingPred (s.txs p).nesting = n - 1 := by
    rw [h, nestingPred_of_pos ⟨hn.le, hlt⟩]
  refine triple_nesting (f := nestingPred) hpred (.ownGetTx fun tx => ?_)
  refine .ownFact (q := tx.nesting = n - 1) (fun o _ ⟨ho, hs⟩ => ?_) fun htx => ?_
  · rw [← ho, hs]
    rfl
  · rw [if_pos (by omega)]
    exact .of_ret fun _ _ h => ⟨rfl, h.2⟩

/-! ## Outermost calls -/

/-- `stm_start` outside of a transaction. -/
theorem start_outermost (h : (s.txs p).nesting = 0) {attr : Attr}
    (hr : Returns p (intStmStart cfg p attr) s () t) : Fresh (t.txs p) := by
  have htriple : Triple (bounded p 1 : RG (State Tid Addr Lock w) Bool) true
      (Has fun o => o.tx.nesting = 0) (intStmStart cfg p attr) (fun _ => restarted p 1) (.pure True) := by
    have hset : ∀ {f : ℕ → ℕ} (hf : f 0 = 1) {c : Unit → M Tid Addr Lock w Unit},
        Triple (bounded p 1) true (Has fun o => o.tx.nesting = 1) (c ()) (fun _ => restarted p 1)
          (.pure True) →
        Triple (bounded p 1) true (Has fun o => o.tx.nesting = 0)
          (modifyTx p (fun tx => { tx with nesting := f tx.nesting }) >>= c)
          (fun _ => restarted p 1) (.pure True) := by
      intro f hf c hc
      refine .ownModifyTx (ψ := fun o => o.tx.nesting = 1) (fun o _ ho => ?_) hc
      have : f o.tx.nesting = 1 := by rw [ho, hf]
      exact ⟨this.le, this⟩
    refine .ownGetTx fun tx => .ownFact (q := tx.nesting = 0) (fun o _ ⟨ho, hs⟩ => ho ▸ hs)
      fun htx => .ownPre (hset (f := nestingSucc) (nestingSucc_of_lt (by decide)) ?_) fun _ _ h => h.2
    rw [if_neg (by omega)]
    refine .ownModifyTx (ψ := fun o => o.tx.nesting = 1) (fun o hI h => ⟨hI, h⟩)
      (.bind intStmPrepare_fresh fun _ => .last (.ownModifyTx (ψ := fun o => Fresh o.tx)
        (fun o hI h => ⟨hI, ⟨h.level.nesting, h.level.active⟩, h.rSet, h.entries, h.trace⟩)
        (.of_ret fun _ _ h => h)))
  exact htriple.steps_ret (fun _ _ => Others.rely) hr (Nat.le_of_eq h |>.trans (by decide)) h

/-- `stm_commit` at the outermost level. -/
theorem intStmCommit_levels :
    Triple (bounded p 1 : RG (State Tid Addr Lock w) Bool) true (Has fun o => o.tx.nesting = 1)
      (intStmCommit cfg p) (fun _ => Has fun o => o.tx.status = .committed ∧ o.tx.nesting = 0)
      (restarted p 1) := by
  have hzero : Admissible 1 fun tx : Control Addr w => tx.nesting = 0 := ⟨le_rfl, fun _ h => h.nesting⟩
  have hset : ∀ {f : ℕ → ℕ} (hf : f 1 = 0) {c : Unit → M Tid Addr Lock w Bool}
      {Q : Bool → Assn (bounded p 1 : RG (State Tid Addr Lock w) Bool) true},
      Triple (bounded p 1) true (Has fun o => o.tx.nesting = 0) (c ()) Q (restarted p 1) →
      Triple (bounded p 1) true (Has fun o => o.tx.nesting = 1)
        (modifyTx p (fun tx => { tx with nesting := f tx.nesting }) >>= c) Q (restarted p 1) := by
    intro f hf c Q hc
    refine .ownModifyTx (ψ := fun o => o.tx.nesting = 0) (fun o _ ho => ?_) hc
    have : f o.tx.nesting = 0 := by rw [ho, hf]
    exact ⟨this.le.trans (Nat.zero_le 1), this⟩
  refine hset (f := nestingPred) (nestingPred_of_pos ⟨le_rfl, by decide⟩) (.ownGetTx fun tx =>
    .ownFact (q := tx.nesting = 0) (fun o _ ⟨ho, hs⟩ => ho ▸ hs) fun htx => ?_)
  rw [if_neg (by omega)]
  refine .ownModifyTx (ψ := fun o => o.tx.nesting = 0) (fun o hI h => ⟨hI, h.2⟩)
    (.bind (commitWriteSet_levels hzero tx) fun _ => ?_)
  refine .ownModifyTx (ψ := fun o => o.tx.nesting = 0) (fun o hI h => ⟨hI, h⟩) (.ownGetTx fun tx =>
    .bind (R := fun _ => Has fun o => o.tx.nesting = 0) (.ite (fun _ => ?_) fun _ =>
      .of_ret fun _ _ h => h.2) fun _ => ?_)
  · refine .last (.ownAct (fun _ o => o.tx.nesting = 0) (fun s hO hI h => ?_) fun _ =>
      .of_ret fun _ _ h => h)
    have : ((s.setTx p fun tx => { tx with irrevocable := 0 }).txs p).nesting = (s.txs p).nesting := by
      simp [State.setTx]
    exact ⟨this.trans_le hI, this.trans h.2⟩
  · exact .ownModifyTx (ψ := fun o => o.tx.status = .committed ∧ o.tx.nesting = 0)
      (fun o hI h => ⟨hI, rfl, h⟩) (.ownModifyTx
      (ψ := fun o => o.tx.status = .committed ∧ o.tx.nesting = 0) (fun o hI h => ⟨hI, h⟩)
      (.of_ret fun _ _ h => h))

/-! ## Calls that break the count -/

omit [DecidableEq Addr] [DecidableEq Lock] in
/-- `stm_start` inside a transaction adds 1 to the counter. -/
theorem start_counts (h : 0 < (s.txs p).nesting) {attr : Attr} :
    ∃ t, Returns p (intStmStart cfg p attr) s () t ∧
      (t.txs p).nesting = nestingSucc (s.txs p).nesting := by
  have hmay : (intStmStart cfg p attr).May (Others p) (fun c t => c = .ret () ∧
      (t.txs p).nesting = nestingSucc (s.txs p).nesting) s := by
    refine .access (.access ?_)
    dsimp only
    rw [if_pos h]
    exact .here ⟨rfl, by simp [State.setTx]⟩
  obtain ⟨c, t, hsteps, rfl, ht⟩ := hmay.steps
  exact ⟨t, hsteps, ht⟩

/-- `stm_commit` outside of a transaction returns 1. -/
theorem commit_counts (h : (s.txs p).nesting = 0) : ∃ t, Returns p (intStmCommit cfg p) s true t := by
  have hwrap : ∀ {f : ℕ → ℕ} (hf : 0 < f 0) {c : StmTx Addr Lock w → M Tid Addr Lock w Bool},
      (modifyTx p (fun tx => { tx with nesting := f tx.nesting }) >>= fun _ => do
        let tx ← getTx p
        if tx.nesting > 0 then pure true else c tx).May (Others p) (fun c _ => c = .ret true) s := by
    intro f hf c
    have hpos : 0 < ((s.setTx p fun tx => { tx with nesting := f tx.nesting }).txs p).nesting := by
      simpa [State.setTx, h] using hf
    refine .access (.access ?_)
    rw [if_pos hpos]
    exact .here rfl
  have hpred : 0 < nestingPred 0 := by decide
  have hmay : (intStmCommit cfg p).May (Others p) (fun c _ => c = .ret true) s :=
    hwrap (f := nestingPred) hpred
  obtain ⟨c, t, hsteps, rfl⟩ := hmay.steps
  exact ⟨t, hsteps⟩

/-! ## The sessions of a thread -/

/-- `n` levels are open, or the attempt has been given up. -/
def Open (n : ℕ) (tx : Control Addr w) : Prop := Level n tx ∨ Level 0 tx

/-- A load, a store or an abort keeps the levels open. -/
theorem exec_levels {cmd : Cmd Addr w} (hcmd : cmd.isAccess = true) :
    KeepsLevels p (n + 1) (Open n) (exec cfg p cmd : M Tid Addr Lock w Unit) := by
  have hopen : Admissible (n + 1) (Open n : Control Addr w → Prop) := ⟨by omega, fun _ h => .inr h⟩
  have hrecord : ∀ e : Event Addr w,
      KeepsLevels p (n + 1) (Open n) (record p e : M Tid Addr Lock w Unit) := fun e =>
    .last (.ownModifyTx (ψ := fun o => Open n o.tx.control) (fun o hI h => by
      split
      · exact ⟨hI, h.imp (fun h => ⟨h.nesting, h.active⟩) fun h => ⟨h.nesting, h.active⟩⟩
      · exact ⟨hI, h⟩) (.of_ret fun _ _ h => h))
  cases cmd with
  | load a => exact .bind (intStmLoad_levels hopen) fun x => hrecord _
  | store a x => exact .bind (stmWrite_levels hopen) fun _ => hrecord _
  | store2 a x k => exact .bind (stmWrite_levels hopen) fun _ => hrecord _
  | abort reason => exact rollback_levels hopen _
  | start attr => cases hcmd
  | commit => cases hcmd
  | setIrrevocable => cases hcmd

/-- A thread at whose calls the count holds. -/
theorem Level.open_of_access {s t : State Tid Addr Lock w} {cmd : Cmd Addr w}
    (h : Level n (s.txs p).control) (hcmd : cmd.isAccess = true)
    (hr : Returns p (exec cfg p cmd) s () t) :
    Level (if (t.txs p).status.isActive then n else 0) (t.txs p).control := by
  have hopen : Open n (t.txs p).control := (exec_levels hcmd).steps_ret (fun _ _ => Others.rely) hr
    (h.nesting.le.trans (Nat.le_succ n)) (.inl h)
  rcases hopen with ht | ht
  · split
    · exact ht
    · next hact =>
      have hn : n = 0 := by
        by_contra hn
        exact hact (ht.active.2 (Nat.pos_of_ne_zero hn))
      exact hn ▸ ht
  · rw [if_neg (by simpa [StmTx.control] using ht.active)]
    exact ht

/-- A jump goes back to the outermost level. -/
theorem Level.of_jump {s t : State Tid Addr Lock w} {cmd : Cmd Addr w}
    (h : Level n (s.txs p).control) (hlt : n < 2 ^ 32) (hcmd : cmd.isAccess = true ∨ cmd = .commit)
    (hcommit : cmd = .commit → 0 < n)
    (hj : Prog.Steps (Others p) (fun _ => True) (exec cfg p cmd) s .jump t) :
    Level 1 (t.txs p).control := by
  rcases hcmd with hcmd | rfl
  · exact Fresh.level ((exec_levels hcmd).steps_jump (fun _ _ => Others.rely) hj
      (h.nesting.le.trans (Nat.le_succ n)) (.inl h))
  · have hn := hcommit rfl
    rcases Nat.lt_or_ge 1 n with h1 | h1
    · have htriple : Triple (alone p) true (Has fun o => o = s.own p)
          (exec cfg p .commit : M Tid Addr Lock w Unit) (fun _ => .pure True) (.pure False) :=
        .bind (commit_nested h1 hlt h.nesting) fun _ => .of_ret fun _ _ _ => trivial
      exact (htriple.steps_jump (fun _ _ => Others.rely) hj trivial rfl).elim
    · have h1 : (s.txs p).nesting = 1 := h.nesting.trans (by omega)
      have htriple : Triple (bounded p 1) true (Has fun o => o.tx.nesting = 1)
          (exec cfg p .commit : M Tid Addr Lock w Unit) (fun _ => .pure True) (restarted p 1) :=
        .bind intStmCommit_levels fun _ => .of_ret fun _ _ _ => trivial
      exact Fresh.level (htriple.steps_jump (fun _ _ => Others.rely) hj h1.le h1)

/-- A call of `stm_start`. -/
theorem Level.start {s t : State Tid Addr Lock w} {attr : Attr} (h : Level n (s.txs p).control)
    (hlt : n + 1 < 2 ^ 32) (hr : Returns p (intStmStart cfg p attr) s () t) :
    StartsLevel p n s t ∧ Level (n + 1) (t.txs p).control := by
  unfold StartsLevel
  split
  · next hn =>
    subst hn
    have hfresh := start_outermost h.nesting hr
    exact ⟨hfresh, hfresh.level⟩
  · next hn =>
    have ht := start_nested (Nat.pos_of_ne_zero hn) hlt h.nesting hr
    have htx : t.txs p = { s.txs p with nesting := n + 1 } := congrArg Own.tx ht
    refine ⟨ht, ?_⟩
    rw [htx]
    exact ⟨rfl, by simpa [StmTx.control, Nat.pos_of_ne_zero hn] using h.active⟩

/-- A call of `stm_commit` that ends a level that is open. -/
theorem Level.commit {s t : State Tid Addr Lock w} {ok : Bool} (h : Level n (s.txs p).control)
    (hlt : n < 2 ^ 32) (hn : 0 < n) (hr : Returns p (intStmCommit cfg p) s ok t) :
    EndsLevel p n s ok t ∧ Level (n - 1) (t.txs p).control := by
  unfold EndsLevel
  rw [if_neg hn.ne']
  split
  · next h1 =>
    subst h1
    have ht : (t.txs p).status = .committed ∧ (t.txs p).nesting = 0 :=
      intStmCommit_levels.steps_ret (fun _ _ => Others.rely) hr h.nesting.le h.nesting
    exact ⟨ht, ht.2, by simp [StmTx.control, ht.1, Status.isActive]⟩
  · next h1 =>
    have ht : ok = true ∧ OnlyNesting p (n - 1) s t :=
      returns_own (commit_nested (by omega) hlt h.nesting) hr
    have htx : t.txs p = { s.txs p with nesting := n - 1 } := congrArg Own.tx ht.2
    refine ⟨ht, ?_⟩
    rw [htx]
    refine ⟨rfl, ?_⟩
    have := h.active
    simp only [StmTx.control] at this ⊢
    rw [this]
    omega

/-- The levels of a session whose calls do not break the count. -/
theorem Session.level (h₀ : Level 0 (s₀.txs p).control)
    (hC : ∀ n s, Session cfg p C s₀ n s → Levelled C n s) (h : Session cfg p C s₀ n s) :
    Level n (s.txs p).control ∧ n < 2 ^ 32 := by
  induction h with
  | init => exact ⟨h₀, by decide⟩
  | @others n s t h ho ih =>
    have htx : t.txs p = s.txs p := congrArg Own.tx ho
    exact ⟨htx ▸ ih.1, ih.2⟩
  | start h hc hr ih =>
    have hlt := (hC _ _ h).start _ hc
    exact ⟨(ih.1.start hlt hr).2, hlt⟩
  | access h hc hcmd hr ih =>
    refine ⟨ih.1.open_of_access hcmd hr, ?_⟩
    split
    · exact ih.2
    · decide
  | jump h hc hcmd hj ih =>
    exact ⟨ih.1.of_jump ih.2 hcmd (fun heq => (hC _ _ h).commit (heq ▸ hc)) hj, by decide⟩
  | commit h hc hr ih =>
    exact ⟨(ih.1.commit ih.2 ((hC _ _ h).commit hc) hr).2, by omega⟩

/-- The sessions of a thread that starts outside of a transaction keep the count and behave as expected if
and only if `stm_commit` is never called for a level of an attempt that has been given up, and the counter
does not overflow. -/
theorem nesting_flat (h₀ : Level 0 (s₀.txs p).control) :
    Flat cfg p C s₀ ↔ ∀ n s, Session cfg p C s₀ n s → Levelled C n s := by
  constructor
  · refine fun hflat n s h => ⟨fun hc => ?_, fun attr hc => ?_⟩
    · by_contra hn
      obtain rfl : n = 0 := by omega
      obtain ⟨t, ht⟩ := commit_counts (hflat 0 s h).nesting
      exact absurd ((hflat 0 s h).commit true t hc ht).1 (by decide)
    · by_contra hlt
      have hs := (hflat n s h).nesting
      obtain ⟨t, ht, hcount⟩ : ∃ t, Returns p (intStmStart cfg p attr) s () t ∧
          (t.txs p).nesting = nestingSucc (s.txs p).nesting := start_counts (by omega)
      have hsucc := (hflat _ t (.start h hc ht)).nesting
      have hmod : nestingSucc (s.txs p).nesting < 2 ^ 32 := Nat.mod_lt _ (by decide)
      omega
  · intro hC n s h
    obtain ⟨hlevel, hlt⟩ := h.level h₀ hC
    exact ⟨hlevel.nesting, fun attr t hc hr => (hlevel.start ((hC n s h).start attr hc) hr).1,
      fun ok t hc hr => (hlevel.commit hlt ((hC n s h).commit hc) hr).1⟩

/-- The thread calls `stm_commit` for the levels that are open. -/
def levelCalls (n : ℕ) (_ : State (Fin 1) (Fin 2) (Fin 2) 8) (cmd : Cmd (Fin 2) 8) : Prop :=
  (cmd = .commit → 0 < n) ∧ n + 1 < 2 ^ 32

theorem nesting_flat_levelCalls :
    Flat (.plain .writeBackEtl id) (0 : Fin 1) levelCalls (State.init (fun _ => 0#8) 4) :=
  (nesting_flat ⟨rfl, by decide⟩).2 fun _ _ _ => ⟨fun h => h.1 rfl, fun _ h => h.2⟩

/-- The thread also calls `stm_commit` for the levels of an attempt that has been given up. -/
def unwindingCalls (n : ℕ) (s : State (Fin 1) (Fin 2) (Fin 2) 8) (cmd : Cmd (Fin 2) 8) : Prop :=
  (cmd = .commit → 0 < n ∨ (s.txs 0).status = .aborted) ∧ n + 1 < 2 ^ 32

/-- After the start of a transaction that is not retried. -/
def startedOnce : State (Fin 1) (Fin 2) (Fin 2) 8 :=
  (Prog.run 30 (intStmStart (.plain .writeBackEtl id) 0 .once) (State.init (fun _ => 0#8) 4)).2

/-- After its abort. -/
def abortedOnce : State (Fin 1) (Fin 2) (Fin 2) 8 :=
  (Prog.run 30 (exec (.plain .writeBackEtl id) 0 (.abort 0)) startedOnce).2

set_option maxRecDepth 10000 in
/-- A transaction that is not retried is aborted, and its level is then ended by `stm_commit`. -/
theorem nesting_not_flat :
    ¬ Flat (.plain .writeBackEtl id) (0 : Fin 1) unwindingCalls (State.init (fun _ => 0#8) 4) := by
  intro hflat
  have hstart : Returns 0 (intStmStart (.plain .writeBackEtl id) 0 .once)
      (State.init (fun _ => 0#8) 4) () startedOnce := returns_run (n := 30) rfl
  have habort : Returns 0 (exec (.plain .writeBackEtl id) 0 (.abort 0)) startedOnce () abortedOnce :=
    returns_run (n := 30) rfl
  have hstatus : (abortedOnce.txs 0).status = .aborted := by decide
  have hcall : unwindingCalls 1 startedOnce (.abort 0) := ⟨nofun, by decide⟩
  have hsession := Session.access (.start .init ⟨nofun, by decide⟩ hstart) hcall rfl habort
  rw [hstatus, if_neg (by decide)] at hsession
  obtain ⟨t, ht⟩ := commit_counts (hflat 0 _ hsession).nesting
  exact absurd ((hflat 0 _ hsession).commit true t ⟨fun _ => .inr hstatus, by decide⟩ ht).1
    (by decide)

end TinyStm
