import TinyStm.Proof.Ends
import TinyStm.Proof.Firm
import TinyStm.Result.Calls

/-!
# Irrevocable transactions never abort

A call of an irrevocable transaction never rolls it back, whatever the other threads do, unless it
is a store that needs a new entry while the write set is full. The number of aborts of the thread is
the same at the end of the call, whichever steps the other threads take. The exception is exact:
with encounter-time locking a store that needs a new entry in a full write set does abort.
-/

namespace TinyStm

variable {Tid Addr Lock : Type} {w : ℕ} [DecidableEq Tid] [DecidableEq Addr] [DecidableEq Lock]

/-- What a call of an irrevocable transaction of thread `p` does, from the state `s` on: at no point has
it called `stm_rollback`, which counts an abort and jumps back, and when it returns the transaction
is still irrevocable, or it has been committed by its outermost commit. -/
structure Unaborted (p : Tid) (cmd : Cmd Addr w) (s : State Tid Addr Lock w)
    (c : M Tid Addr Lock w Unit) (t : State Tid Addr Lock w) : Prop where
  aborts : (t.txs p).statAborts = (s.txs p).statAborts
  returns : c.Done → c = .ret ()
  firm : c.Done → Firm (t.txs p) ∧ 0 < (t.txs p).nesting ∨
    cmd = .commit ∧ (s.txs p).nesting = 1 ∧ (t.txs p).status = .committed

/-- A store that needs a new entry while the write set is full, with encounter-time locking. -/
def Overflows (cfg : Config Addr Lock) (p : Tid) (cmd : Cmd Addr w) (s : State Tid Addr Lock w) :
    Prop :=
  cfg.designOf (s.txs p).attr ≠ .writeBackCtl ∧
    (s.txs p).wSet.entries.length = (s.txs p).wSet.size ∧
    ∃ x ∈ cmd.target, NeedsEntry cfg.getLock (s.own p) x.1 x.2

section
variable {p : Tid} {n m : ℕ} {O : State Tid Addr Lock w → Prop} {cfg : Config Addr Lock}
  {J : Assn (ownProtocol p (Aborted n) O) true}

/-- A call of an irrevocable transaction has returned. -/
def afterFirm (p : Tid) (n m : ℕ) (O : State Tid Addr Lock w → Prop) (cmd : Cmd Addr w) :
    Assn (ownProtocol p (Aborted n) O) true :=
  Has fun o => Firm o.tx ∧ 0 < o.tx.nesting ∨ cmd = .commit ∧ m = 1 ∧ o.tx.status = .committed

/-- A load or a store is recorded. -/
theorem record_firm (hm : 0 < m) (cmd : Cmd Addr w) (e : Event Addr w) :
    Triple (ownProtocol p (Aborted n) O) true (firm p n m O) (record p e)
      (fun _ => afterFirm p n m O cmd) J := by
  refine .last (firm_modifyTx (fun tx => ?_) (.of_ret fun s _ h => .inl ⟨h.1, ?_⟩))
  · split <;> exact ⟨rfl, rfl, rfl, rfl⟩
  · rw [h.2]
    exact hm

/-- The nesting level changes. -/
theorem firm_nesting {α : Type} (f : ℕ → ℕ) {c : Unit → M Tid Addr Lock w α}
    {Q : α → Assn (ownProtocol p (Aborted n) O) true}
    (hc : Triple (ownProtocol p (Aborted n) O) true (firm p n (f m) O) (c ()) Q J) :
    Triple (ownProtocol p (Aborted n) O) true (firm p n m O)
      (modifyTx p (fun tx => { tx with nesting := f tx.nesting }) >>= c) Q J :=
  .ownModifyTx (ψ := fun o => Firm o.tx ∧ o.tx.nesting = f m)
    (fun _ hI h => ⟨hI, ⟨h.1.active, h.1.irr⟩, congrArg f h.2⟩) hc

/-- `int_stm_commit`. -/
theorem intStmCommit_firm (hm : 1 ≤ m ∧ m < 2 ^ 32) :
    Triple (ownProtocol p (Aborted n) O) true (firm p n m O) (intStmCommit cfg p)
      (fun _ => afterFirm p n m O .commit) J := by
  refine firm_nesting nestingPred ?_
  rw [nestingPred_of_pos hm]
  refine firm_getTx (m := m - 1) fun tx htx hn => .ite (fun hpos => ?_) fun hzero => ?_
  · refine .of_ret fun s _ h => .inl ⟨h.1, ?_⟩
    rw [h.2]
    omega
  · have hm1 : m = 1 := by omega
    refine .bind (runCallbacks_firm _ J) fun _ => .bind (commitWriteSet_firm tx J) fun _ =>
      firm_modifyTx (fun _ => ⟨rfl, rfl, rfl, rfl⟩) (firm_getTx fun tx _ _ => ?_)
    refine .bind (R := fun _ => Has fun _ => True) (.ite (fun _ => ?_) fun _ =>
      .of_ret fun _ _ _ => trivial) fun _ => ?_
    · exact .last (.ownAct (fun _ _ => True) (fun s _ hI _ => ⟨by simpa [Aborted, State.own,
        State.setTx] using hI, trivial⟩) fun _ => .of_ret fun _ _ _ => trivial)
    · refine .ownModifyTx (ψ := fun o => o.tx.status = .committed) (fun o hI _ => ⟨hI, rfl⟩)
        (.ownModifyTx (ψ := fun o => o.tx.status = .committed) (fun o hI h => ⟨hI, h⟩)
        (.of_ret fun s _ h => .inr ⟨rfl, hm1, h⟩))

/-- A call of an irrevocable transaction whose store, if it is one, finds room. -/
theorem exec_firm {cmd : Cmd Addr w} (hm : 1 ≤ m ∧ m < 2 ^ 32)
    (hstart : ∀ attr, cmd = .start attr → m + 1 < 2 ^ 32) (habort : ∀ reason, cmd ≠ .abort reason)
    (hset : cmd ≠ .setIrrevocable) :
    Triple (ownProtocol p (Aborted n) O) true
      (Has fun o => (Firm o.tx ∧ o.tx.nesting = m) ∧ ∀ x ∈ cmd.target,
        cfg.designOf o.tx.attr ≠ .writeBackCtl → FindsRoom cfg.getLock x.1 x.2 o)
      (exec cfg p cmd) (fun _ => afterFirm p n m O cmd) J := by
  cases cmd with
  | start attr =>
    refine .pre (firm_getTx fun tx _ hn => firm_nesting nestingSucc ?_) fun _ _ h => h.1
    rw [if_pos (by omega), nestingSucc_of_lt (hstart attr rfl)]
    exact .of_ret fun s _ h => .inl ⟨h.1, h.2.symm ▸ Nat.succ_pos m⟩
  | load a =>
    exact .pre (.bind (intStmLoad_firm J) fun x => record_firm hm.1 _ _) fun _ _ h => h.1
  | store a x =>
    exact .bind (.pre stmWrite_firm fun _ _ h => ⟨h.1, h.2 (a, _) rfl⟩) fun _ =>
      record_firm hm.1 _ _
  | store2 a x k =>
    exact .bind (.pre stmWrite_firm fun _ _ h => ⟨h.1, h.2 (a, k) rfl⟩) fun _ =>
      record_firm hm.1 _ _
  | commit =>
    exact .pre (.bind (intStmCommit_firm hm) fun _ => .of_ret fun _ _ h => h) fun _ _ h => h.1
  | abort reason => exact (habort reason rfl).elim
  | setIrrevocable => exact (hset rfl).elim

end

/-! ## The full write set -/

section
variable {p : Tid} {cfg : Config Addr Lock} {s : State Tid Addr Lock w} {a : Addr} {k : BitVec w}
  {R : State Tid Addr Lock w → State Tid Addr Lock w → Prop} {n : ℕ}

omit [DecidableEq Tid] [DecidableEq Addr] [DecidableEq Lock] in
/-- A counter that is incremented changes. -/
theorem statSucc_ne (n : ℕ) : statSucc n ≠ n := by
  unfold statSucc
  omega

/-- A call of `stm_rollback` is counted. -/
theorem stmRollback_counts (h : (s.txs p).statAborts = n) (reason : Reason) :
    (stmRollback cfg p reason).May R (fun _ t => (t.txs p).statAborts = statSucc n) s := by
  refine .seq (stmDesignRollback_ends (J := fun _ => False) s) (fun _ t ht => ?_) fun _ h => h.elim
  refine .access (.here ?_)
  obtain ⟨_, k, hk⟩ := ht.1.tx
  simp [State.setTx, hk, h]

/-- A write set that is full. -/
theorem extendWs_counts (h : (s.txs p).statAborts = n)
    (hfull : (s.txs p).wSet.entries.length = (s.txs p).wSet.size) :
    (extendWs cfg p).May R (fun _ t => (t.txs p).statAborts = statSucc n) s := by
  refine .access ?_
  rw [if_pos hfull]
  exact stmRollback_counts h _

/-- A store that needs a new entry while the write set is full calls `stm_rollback`, if the lock that
it waits for is released. -/
theorem writeLoop_counts {merge : ℕ → ℕ → WEntry Addr Lock w → M Tid Addr Lock w Unit}
    {push : ℕ → Option ℕ → M Tid Addr Lock w Unit} {version : ℕ → ℕ} (hs : Firm (s.txs p))
    (hfull : (s.txs p).wSet.entries.length = (s.txs p).wSet.size)
    (hneeds : NeedsEntry cfg.getLock (s.own p) a k) :
    (writeLoop cfg p a k merge push version).May (Others p)
      (fun _ t => (t.txs p).statAborts = statSucc (s.txs p).statAborts) s := by
  cases hl : (s.own p).locks (cfg.getLock a) with
  | none =>
    -- the lock is released by its owner, if it has one
    set s' : State Tid Addr Lock w :=
      { s with locks := Function.update s.locks (cfg.getLock a) (.free 0) } with hs'
    have hothers : Others p s s' := others_lock hl rfl
    have hlock : s'.locks (cfg.getLock a) = .free 0 := by simp [hs']
    refine .env hothers (.iterate (.access (.access ?_)))
    dsimp only
    rw [hlock]
    dsimp only
    rw [if_neg fun h => hs.irr_ne h.1]
    exact .bind (extendWs_counts rfl hfull)
  | some i =>
    simp only [NeedsEntry, hl] at hneeds
    obtain ⟨hi, hk, j, v, hfind⟩ := hneeds
    change chainFind (s.txs p).wSet.entries a (s.txs p).wSet.entries.length i = .last j v at hfind
    have hlock : s.locks (cfg.getLock a) = .owned p i := by
      change (s.locks (cfg.getLock a)).entryOf p = some i at hl
      cases hw : s.locks (cfg.getLock a) with
      | free l =>
        rw [hw] at hl
        cases hl
      | owned q j =>
        rw [hw] at hl
        simp only [LockWord.entryOf, Option.ite_none_right_eq_some, Option.some.injEq] at hl
        rw [hl.1, hl.2]
    refine .iterate (.access (.access ?_))
    dsimp only
    rw [hlock]
    dsimp only
    rw [if_pos ⟨rfl, hi⟩, if_neg hk, hfind]
    exact .bind (extendWs_counts rfl hfull)

end

/-! ## The result -/

/-- The calls of an irrevocable transaction that it may not survive by its own will are left out. -/
structure FirmCall (p : Tid) (cmd : Cmd Addr w) (s : State Tid Addr Lock w) : Prop where
  firm : Firm (s.txs p)
  nesting : 1 ≤ (s.txs p).nesting ∧ (s.txs p).nesting < 2 ^ 32
  start : ∀ attr, cmd = .start attr → (s.txs p).nesting + 1 < 2 ^ 32
  abort : ∀ reason, cmd ≠ .abort reason
  setIrrevocable : cmd ≠ .setIrrevocable

/-- A call of an irrevocable transaction calls `stm_rollback` in no execution, whatever the other
threads do, if and only if it is no store that needs a new entry while the write set is full. -/
theorem irrevocable_never_aborts {cfg : Config Addr Lock} {p : Tid} {cmd : Cmd Addr w}
    {s : State Tid Addr Lock w} (h : FirmCall p cmd s) :
    (∀ c t, Prog.Steps (Others p) (fun _ => True) (exec cfg p cmd) s c t →
      Unaborted p cmd s c t) ↔ ¬ Overflows cfg p cmd s := by
  constructor
  · rintro hall ⟨hd, hfull, x, hx, hneeds⟩
    suffices hmay : (exec cfg p cmd).May (Others p)
        (fun _ t => (t.txs p).statAborts = statSucc (s.txs p).statAborts) s by
      obtain ⟨c, t, hsteps, ht⟩ := hmay.steps
      have haborts := (hall c t hsteps).aborts
      exact statSucc_ne _ (ht.symm.trans haborts)
    have hwrite : ∀ y, (stmWrite cfg p x.1 y x.2).May (Others p)
        (fun _ t => (t.txs p).statAborts = statSucc (s.txs p).statAborts) s := by
      intro y
      refine .access ?_
      split
      · exact (hd ‹_›).elim
      · exact writeLoop_counts h.firm hfull hneeds
      · exact writeLoop_counts h.firm hfull hneeds
    cases cmd with
    | store a y =>
      cases hx
      exact .bind (hwrite y)
    | store2 a y k =>
      cases hx
      exact .bind (hwrite y)
    | _ => cases hx
  · intro hno c t hsteps
    obtain ⟨hI, P', h', hP'⟩ := (exec_firm (J := .pure False) h.nesting h.start h.abort
      h.setIrrevocable).steps (fun _ _ => Others.rely) hsteps (rfl : (s.txs p).statAborts = _)
      ⟨⟨h.firm, rfl⟩, fun x hx hd hfull hneeds => hno ⟨hd, hfull, x, hx, hneeds⟩⟩
    refine ⟨hI, fun hd => ?_, fun hd => ?_⟩
    · cases h' with
      | ret h => rfl
      | jump h => exact (h t ⟨hI, trivial⟩ hP').elim
      | act => exact hd.elim
      | loop => exact hd.elim
    · cases h' with
      | ret h => exact h t ⟨hI, trivial⟩ hP'
      | jump h => exact (h t ⟨hI, trivial⟩ hP').elim
      | act => exact hd.elim
      | loop => exact hd.elim

/-- A transaction that becomes irrevocable and stores a word. -/
def firmCalls : List (Fin 1 × Cmd (Fin 2) 8) :=
  [(0, .start .readWrite), (0, .setIrrevocable), (0, .store 0 1)]

set_option maxRecDepth 10000 in
theorem irrevocable_never_aborts_firmCalls :
    FirmCall 0 (.store 1 2) (after (.plain .writeBackEtl id) 4 30 firmCalls).st ∧
      ∀ c t, Prog.Steps (Others 0) (fun _ => True) (exec (.plain .writeBackEtl id) 0 (.store 1 2))
        (after (.plain .writeBackEtl id) 4 30 firmCalls).st c t →
          Unaborted 0 (.store 1 2) (after (.plain .writeBackEtl id) 4 30 firmCalls).st c t := by
  have hcall : FirmCall 0 (.store 1 2)
      (after (.plain .writeBackEtl id) 4 30 firmCalls).st :=
    ⟨⟨by decide, by decide⟩, by decide, nofun, nofun, nofun⟩
  have hroom : ¬ Overflows (.plain .writeBackEtl id) 0 (.store 1 2)
      (after (.plain .writeBackEtl id) 4 30 firmCalls).st :=
    fun h => absurd h.2.1 (by decide)
  exact ⟨hcall, (irrevocable_never_aborts hcall).2 hroom⟩

set_option maxRecDepth 10000 in
/-- With room for one write, the second store of an irrevocable transaction rolls it back. -/
theorem irrevocable_aborts :
    Run (.plain .writeBackEtl id) (fun _ => 0#8) 1 Called
        (after (.plain .writeBackEtl id) 1 30 firmCalls) ∧
      Firm ((after (.plain .writeBackEtl id) 1 30 firmCalls).st.txs 0) ∧
      ((after (.plain .writeBackEtl id) 1 30 firmCalls).st.txs 0).statAborts = 0 ∧
      ((after (.plain .writeBackEtl id) 1 30
        (firmCalls ++ [(0, .store 1 2)])).st.txs 0).statAborts = 1 :=
  ⟨run_after (by decide), ⟨by decide, by decide⟩, by decide,
    by decide⟩

end TinyStm
