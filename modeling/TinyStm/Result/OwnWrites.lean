import TinyStm.Proof.Outcome
import TinyStm.Result.NoRetry

/-!
# Reading one's own writes

With commit-time locking a load returns the word in memory under the bits that the transaction has
stored, unless the transaction is irrevocable and has stored some bits of the word but not all of
them. The condition is exact: at each point of a run in which a load is called, the value returned
is the merged one if and only if the load does not take the branch of an irrevocable transaction for
a word that is covered in part.
-/

namespace TinyStm

variable {Tid Addr Lock : Type} {w : ℕ} [DecidableEq Tid] [DecidableEq Addr] [DecidableEq Lock]
  {p : Tid} {cfg : Config Addr Lock} {a : Addr}

/-- A load of `p` from `a` that returns to its transaction returns a value that the word had during the
load, with the bits that the transaction has stored replaced by their last values, whatever the other
threads do. -/
def ReadsOwn (cfg : Config Addr Lock) (p : Tid) (a : Addr) (s : State Tid Addr Lock w) : Prop :=
  ∀ (Y : BitVec w → Prop) (x : BitVec w) (t : State Tid Addr Lock w),
    Prog.Steps (Others p) (fun u => Y (u.mem a)) (intStmLoad cfg p a) s (.ret x) t →
      (t.txs p).status.isActive = true → ∃ y, Y y ∧ x = (s.txs p).trace.apply (fun _ => y) a

/-! ## Loads that see the writes -/

section
variable {O : State Tid Addr Lock w → Prop} {J : Assn (ownProtocol p (fun _ => True) O) true}

omit [DecidableEq Addr] [DecidableEq Lock] in
/-- A program about which nothing is said. -/
theorem within_anything {α : Type} {c : M Tid Addr Lock w α} {P : Assn (ownProtocol p (fun _ => True) O) true}
    {r : State Tid Addr Lock w → State Tid Addr Lock w → Prop} (h : c.Within r) :
    Triple (ownProtocol p (fun _ => True) O) true P c (fun _ => Has fun _ => True) J :=
  .pre (P := Has fun _ => True) (.of_within h fun _ _ _ _ _ => ⟨trivial, nofun, trivial⟩)
    fun _ _ _ => trivial

/-- An attempt that has been rolled back is not active when `stm_rollback` returns. -/
theorem stmRollback_inactive (reason : Reason) :
    Triple (ownProtocol p (fun _ => True) O) true (Has fun _ => True) (stmRollback cfg p reason)
      (fun _ => Has fun o => o.tx.status.isActive = false) (.pure True) := by
  refine .bind (within_anything stmDesignRollback_keeps) fun _ => ?_
  refine .ownModifyTx (ψ := fun o => o.tx.status.isActive = false) (fun _ _ _ => ⟨trivial, rfl⟩)
    (.ownModifyTx (ψ := fun o => o.tx.status.isActive = false) (fun _ _ h => ⟨trivial, h⟩) ?_)
  refine .bind (.of_within (r := fun s s' => (s'.txs p).status = (s.txs p).status)
    (waitCLock_within (fun _ => rfl) fun s => by simp [State.setTx]) fun s s' _ hr hP => ?_)
    fun _ => .ownGetTx fun tx => .ite (fun _ => ?_) fun _ => ?_
  · refine ⟨trivial, (fun h => Bool.noConfusion h : true = false → s'.own p = s.own p), ?_⟩
    change (s'.txs p).status.isActive = false
    rw [hr]
    exact hP
  · exact .last (.ownModifyTx (ψ := fun o => o.tx.status.isActive = false)
      (fun _ _ h => ⟨trivial, h.2⟩) (.of_ret fun _ _ h => h))
  · exact .bind (within_anything intStmPrepare_attr) fun _ => .jump fun _ _ _ => trivial

/-- What a load knows of the transaction: its irrevocability and the entry for the address. -/
def Wrote (a : Addr) (i : ℕ) (e? : Option (WEntry Addr Lock w)) (o : Own Tid Addr Lock w) : Prop :=
  o.tx.irrevocable = i ∧ writtenEntry o.tx a = e?

/-- The read set and the end of the snapshot do not matter. -/
theorem wrote_modifyTx {α : Type} {i : ℕ} {e? : Option (WEntry Addr Lock w)}
    {f : StmTx Addr Lock w → StmTx Addr Lock w} {k : Unit → M Tid Addr Lock w α}
    {Q : α → Assn (ownProtocol p (fun _ => True) O) true}
    (hi : ∀ tx, (f tx).irrevocable = tx.irrevocable) (hw : ∀ tx, (f tx).wSet = tx.wSet)
    (hk : Triple (ownProtocol p (fun _ => True) O) true (Has (Wrote a i e?)) (k ()) Q J) :
    Triple (ownProtocol p (fun _ => True) O) true (Has (Wrote a i e?)) (modifyTx p f >>= k) Q J := by
  refine .ownModifyTx (fun o _ h => ⟨trivial, (hi _).trans h.1, ?_⟩) hk
  rw [← h.2, writtenEntry, hw]
  rfl

/-- The extension of the snapshot leaves the write set alone. -/
theorem tryExtend_wrote {i : ℕ} {e? : Option (WEntry Addr Lock w)} (tx : StmTx Addr Lock w) :
    Triple (ownProtocol p (fun _ => True) O) true (Has (Wrote a i e?))
      (tryExtend tx (stmWbctlExtend p)) (fun _ => Has (Wrote a i e?)) J := by
  refine .ite (fun _ => .of_ret fun _ _ h => h) fun _ => ?_
  refine .ownShared (fun _ => rfl) fun now => .bind (R := fun _ => Has (Wrote a i e?)) ?_ fun ok =>
    .ite (fun _ => ?_) fun _ => .of_ret fun _ _ h => h
  · refine .of_within (r := Eq) (Prog.within_access (fun _ => rfl) fun _ =>
      validateEntries_within (fun _ => rfl) _) fun s s' _ hr hP => ?_
    exact hr ▸ ⟨trivial, nofun, hP⟩
  · exact wrote_modifyTx (fun _ => rfl) (fun _ => rfl) (.of_ret fun _ _ h => h)

/-- `stm_wbctl_read`, of a transaction that is not irrevocable or has stored all bits of the word or
none. -/
theorem stmWbctlRead_wrote {Y : BitVec w → Prop} {i : ℕ} {e? : Option (WEntry Addr Lock w)}
    (h : i = 0 ∨ ∀ e, e? = some e → e.mask = BitVec.allOnes w ∨ e.mask = 0#w) :
    Triple (ownProtocol p (fun _ => True) fun u => Y (u.mem a)) true (Has (Wrote a i e?))
      (stmWbctlRead cfg p a)
      (fun x => .pure (∃ y, Y y ∧ x = withWritten e? y) ⊔ Has fun o => o.tx.status.isActive = false)
      (.pure True) := by
  refine .ownGetTx fun tx => .ownFact (q := writtenEntry tx a = e?) (fun _ _ h => h.1 ▸ h.2.2)
    fun he => .ownPre (φ := Wrote a i e?) ?_ fun _ _ h => h.2
  dsimp only
  rw [he]
  cases hfull : e?.filter fun e => e.mask = BitVec.allOnes w with
  | some e =>
    -- all bits of the word have been stored
    obtain ⟨rfl, hm⟩ := Option.filter_eq_some_iff.1 hfull
    have hm : e.mask = BitVec.allOnes w := by simpa using hm
    exact .of_ret fun s hs _ => .inl ⟨_, hs.obs, by simp [withWritten, hm]⟩
  | none =>
    refine .iterate (fun _ => Has (Wrote a i e?)) (fun _ _ h => h) fun l? => ?_
    refine .ownLoadLockOr fun l => ?_
    cases l with
    | owned q j => exact .of_ret fun _ _ h => h
    | free l =>
      refine .ownAct (fun x o => Y x ∧ Wrote a i e? o) (fun s hs _ hφ => ⟨trivial, hs, hφ⟩)
        fun x => .ownFact (q := Y x) (fun _ _ h => h.1) fun hx => .ownPre ?_ fun _ _ h => h.2
      refine .ownShared (fun _ => rfl) fun l2 => .ite (fun _ => .of_ret fun _ _ h => h) fun _ => ?_
      refine .ownGetTx fun tx => .ownFact (q := tx.irrevocable = i) (fun _ _ h => h.1 ▸ h.2.1)
        fun hi => .ownPre (φ := Wrote a i e?) (.ite (fun hi0 => .of_ret fun s _ _ => .inl ⟨x, hx, ?_⟩)
        fun _ => ?_) fun _ _ h => h.2
      · -- an irrevocable transaction returns the word itself
        cases e? with
        | none => rfl
        | some e =>
          have hm : e.mask = 0#w := ((h.resolve_left fun h0 => hi0 (hi.trans h0)) e rfl).resolve_left
            fun hm => by simp [hm] at hfull
          simp [withWritten, hm]
      have hadd : Triple (ownProtocol p (fun _ => True) fun u => Y (u.mem a)) true
          (Has (Wrote a i e?)) (modifyTx p (addToRs cfg (lockGetTimestamp l) (cfg.getLock a)) >>=
            fun _ => pure (.inr (withWritten e? x) : Option (LockWord Tid) ⊕ BitVec w))
          (Sum.elim (fun _ : Option (LockWord Tid) => Has (Wrote a i e?)) fun x => .pure (∃ y, Y y ∧ x = withWritten e? y) ⊔
            Has fun o => o.tx.status.isActive = false) (.pure True) := by
        refine wrote_modifyTx (fun tx => ?_) (fun tx => ?_) (.of_ret fun _ _ _ => .inl ⟨x, hx, rfl⟩)
        · unfold addToRs
          split <;> rfl
        · unfold addToRs
          split <;> rfl
      refine .ite (fun _ => .bind (tryExtend_wrote tx) fun ok => .ite (fun _ => ?_) fun _ => ?_)
        fun _ => hadd
      · exact .ownShared (fun _ => rfl) fun l' => .ite (fun _ => .of_ret fun _ _ h => h) fun _ => hadd
      · exact .bind (.ownPre (stmRollback_inactive _) fun _ _ _ => trivial) fun _ =>
          .of_ret fun _ _ h => .inr h

end

/-! ## Loads that do not -/

/-- An irrevocable transaction that has stored some bits of the word, but not all of them, returns the
word itself. -/
theorem stmWbctlRead_may {s : State Tid Addr Lock w} {e : WEntry Addr Lock w} (y : BitVec w)
    (hi : (s.txs p).irrevocable ≠ 0) (he : writtenEntry (s.txs p) a = some e)
    (hm : e.mask ≠ BitVec.allOnes w) (hl : (s.own p).locks (cfg.getLock a) = none) :
    (stmWbctlRead cfg p a).May (Others p) (fun c t => c = .ret y ∧ t.txs p = s.txs p) s := by
  -- another thread releases the lock and stores the word
  set s₁ : State Tid Addr Lock w :=
    { s with locks := Function.update s.locks (cfg.getLock a) (.free 0) } with hs₁
  set s₂ : State Tid Addr Lock w := { s₁ with mem := Function.update s.mem a y } with hs₂
  have hlock : s₂.locks (cfg.getLock a) = .free 0 := by simp [hs₂, hs₁]
  have hmem : s₂.mem a = y := by simp [hs₂]
  have hnone : (writtenEntry (s₂.txs p) a).filter (fun e => e.mask = BitVec.allOnes w) = none := by
    rw [show writtenEntry (s₂.txs p) a = some e from he, Option.filter_some, if_neg (by simpa using hm)]
  refine .env (t := s₁) (others_lock hl rfl) (.env (t := s₂) rfl (.access ?_))
  dsimp only
  rw [hnone]
  refine .leave (.access ?_)
  dsimp only
  rw [hlock]
  refine .access (.access ?_)
  dsimp only
  rw [hlock, if_neg (by simp)]
  refine .access ?_
  rw [if_pos hi, hmem]
  exact .here ⟨_, rfl, rfl, rfl⟩

/-! ## The result -/

/-- With commit-time locking a load sees the transaction's own writes, whatever the memory holds and
the other threads do, if and only if the transaction is not irrevocable or has stored all bits of the
word or none. -/
theorem ctl_reads_own (hd : cfg.design = .writeBackCtl) {m₀ : Mem Addr w} {size : ℕ}
    {T : Pool (State Tid Addr Lock w) Tid} (hT : Run cfg m₀ size (AnyCall cfg cfg.design) T) (p : Tid)
    (hp : (T.ctl p).Done) (ha : (T.st.txs p).status.isActive = true) (a : Addr) :
    ReadsOwn cfg p a T.st ↔ MergedLoad p (.load a) T.st := by
  have hm : cfg.design ≠ .modular := by simp [hd]
  have hsound := Run.sound (S := anySetting cfg hm m₀)
    (fun q cmd s _ hB hk => admits_of_any q cmd s hB hk fun h => (h hd).elim) hT fun _ _ _ => trivial
  have hws : T.st.view.CtlWs (anySetting cfg hm m₀ : Setting Tid Addr Lock w) p (T.st.txs p) := by
    rcases (hsound.2 p).of_done ⟨hsound.1, trivial⟩ hp with ⟨tx, hidle, htx, -⟩ | ⟨tx, -, htx, -, hws⟩
    · rw [htx, hidle.inactive] at ha
      cases ha
    · exact htx ▸ hws.ctl (designOf_of_ne hd (by simp))
  have hdes : cfg.designOf (T.st.txs p).attr = .writeBackCtl := designOf_of_ne hd (by simp)
  constructor
  · intro h b hb hi e he hea
    cases hb
    by_contra hmask
    rw [not_or] at hmask
    have hlock : (T.st.own p).locks (cfg.getLock a) = none := Option.eq_none_iff_forall_ne_some.2
      fun i hl => hws.noLocks _ ⟨i, LockWord.entryOf_eq_some.1 hl⟩
    obtain ⟨f, hf⟩ : ∃ f, writtenEntry (T.st.txs p) a = some f :=
      Option.isSome_iff_exists.1 (List.find?_isSome.2 ⟨e, he, by simpa using hea⟩)
    have hfa : f.addr = a := by simpa using List.find?_some hf
    have hfe : f.mask = e.mask := by
      rw [hws.entries.mask f (List.mem_of_find?_eq_some hf), hws.entries.mask e he, hfa, hea]
    -- the word has none of the bits that were stored to it
    have hmay : (intStmLoad cfg p a).May (Others p)
        (fun c t => c = .ret (~~~ f.value) ∧ t.txs p = T.st.txs p) T.st := by
      refine .access ?_
      rw [hdes]
      exact stmWbctlRead_may _ hi hf (hfe ▸ hmask.1) hlock
    obtain ⟨c, t, hsteps, rfl, htx⟩ := hmay.steps
    obtain ⟨y, -, hy⟩ := h (fun _ => True) _ t hsteps (htx ▸ ha)
    rw [hws.entries.apply, hf] at hy
    refine hmask.2 (hfe ▸ BitVec.eq_of_getLsbD_eq fun i hi => ?_)
    have hbit := congrArg (·.getLsbD i) hy
    simp only [withWritten, BitVec.getLsbD_merge, BitVec.getLsbD_not, hi] at hbit
    cases hk : f.mask.getLsbD i with
    | false => simp
    | true => simp [hk] at hbit
  · intro h Y x t hsteps hact
    have htriple : Triple (ownProtocol p (fun _ => True) fun u => Y (u.mem a)) true
        (Has fun o => o.tx = T.st.txs p) (intStmLoad cfg p a)
        (fun x => .pure (∃ y, Y y ∧ x = withWritten (writtenEntry (T.st.txs p) a) y) ⊔
          Has fun o => o.tx.status.isActive = false) (.pure True) := by
      refine .ownGetTx fun tx => .ownFact (q := tx = T.st.txs p) (fun _ _ h => h.1 ▸ h.2) fun htx => ?_
      rw [htx, hdes]
      refine .ownPre (stmWbctlRead_wrote (i := (T.st.txs p).irrevocable) ?_) fun o _ ho => ?_
      · by_cases hi : (T.st.txs p).irrevocable = 0
        · exact .inl hi
        · refine .inr fun e he => h a rfl hi e (List.mem_of_find?_eq_some he) ?_
          simpa using List.find?_some he
      · rw [Wrote, ho.1]
        exact ⟨rfl, rfl⟩
    rcases htriple.steps_ret (fun _ _ => Others.rely) hsteps trivial rfl with ⟨y, hy, hx⟩ | hina
    · exact ⟨y, hy, by rw [hws.entries.apply, hx]⟩
    · cases hact.symm.trans hina

/-- A transaction stores the low half of a word. -/
def halfCalls : List (Fin 1 × Cmd (Fin 2) 8) :=
  [(0, .start .readWrite), (0, .store2 0 5 0x0f)]

set_option maxRecDepth 10000 in
theorem ctl_reads_own_halfCalls :
    ReadsOwn (.plain .writeBackCtl id) 0 0 (after (.plain .writeBackCtl id) 4 30 halfCalls).st :=
  (ctl_reads_own rfl (run_after (by decide)) 0
    (by decide) (by decide) 0).2 (by decide)

set_option maxRecDepth 10000 in
/-- Once it is irrevocable, it loads the old word. -/
theorem ctl_reads_not_own :
    Run (.plain .writeBackCtl id) (fun _ => 0#8) 4
        (AnyCall (.plain .writeBackCtl id) .writeBackCtl)
        (after (.plain .writeBackCtl id) 4 30 (halfCalls ++ [(0, .setIrrevocable)])) ∧
      ((after (.plain .writeBackCtl id) 4 30 (halfCalls ++ [(0, .setIrrevocable)])).ctl 0).Done ∧
      ¬ ReadsOwn (.plain .writeBackCtl id) 0 0
        (after (.plain .writeBackCtl id) 4 30 (halfCalls ++ [(0, .setIrrevocable)])).st := by
  refine ⟨run_after (by decide), by decide, fun h => ?_⟩
  have hret : (Prog.run 10 (intStmLoad (.plain .writeBackCtl id) 0 0)
      (after (.plain .writeBackCtl id) 4 30 (halfCalls ++ [(0, .setIrrevocable)])).st).1 = .ret 0 :=
    rfl
  have hsteps := Prog.Steps.run (R := Others 0) 10 (intStmLoad (.plain .writeBackCtl id) 0 0)
    (after (.plain .writeBackCtl id) 4 30 (halfCalls ++ [(0, .setIrrevocable)])).st
  rw [hret] at hsteps
  have htrace : ((after (.plain .writeBackCtl id) 4 30
      (halfCalls ++ [(0, .setIrrevocable)])).st.txs 0).trace = [.store 0 5 0x0f] := by
    decide
  obtain ⟨y, -, hy⟩ := h (fun _ => True) 0 _ hsteps (by decide)
  rw [htrace, Trace.apply_store_self] at hy
  have hbit := congrArg (·.getLsbD 0) hy
  simp only [BitVec.getLsbD_merge] at hbit
  simp at hbit

end TinyStm
