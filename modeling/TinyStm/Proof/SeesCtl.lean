import TinyStm.Proof.Sees

/-!
# What a transaction has seen, with commit-time locking

With commit-time locking the committed memory that a transaction has seen is the one as of the end of its
snapshot, at every time (`SeenAtEnd`). The end changes where the transaction has seen nothing yet, and in the
extension of a load, which has validated everything that the transaction has seen. All other steps of a store,
a load or a commit leave the trace and the end alone (`KeepsEnd`), so for them it is enough that what has been
seen is not taken back by other threads.
-/

namespace TinyStm

variable {Tid Addr Lock : Type} {w : ℕ} [DecidableEq Tid] [DecidableEq Addr] [DecidableEq Lock]
  {S : Setting Tid Addr Lock w} {cfg : Config Addr Lock} {p q : Tid} {s s' : State Tid Addr Lock w}
  {a : Addr} {x k : BitVec w} {α : Type}

/-! ## Steps that leave the snapshot alone -/

omit [DecidableEq Tid] [DecidableEq Addr] [DecidableEq Lock] in
/-- The step leaves the trace and the end of the snapshot of `p` alone. -/
def KeepsEnd (p : Tid) (s s' : State Tid Addr Lock w) : Prop :=
  (s'.txs p).trace = (s.txs p).trace ∧ (s'.txs p).end_ = (s.txs p).end_

omit [DecidableEq Tid] [DecidableEq Addr] [DecidableEq Lock] in
/-- A step that changes nothing. -/
theorem KeepsEnd.refl (p : Tid) (s : State Tid Addr Lock w) : KeepsEnd p s s := ⟨rfl, rfl⟩

omit [DecidableEq Tid] [DecidableEq Addr] [DecidableEq Lock] in
/-- The trace belongs to the control part. -/
theorem KeepsAttempt.keepsEnd (s s' : State Tid Addr Lock w) (h : KeepsAttempt p s s') :
    KeepsEnd p s s' :=
  ⟨congrArg Control.trace h.control, h.end_⟩

omit [DecidableEq Tid] [DecidableEq Addr] [DecidableEq Lock] in
/-- An access that leaves the descriptors alone. -/
theorem access_end {g : State Tid Addr Lock w → α × State Tid Addr Lock w}
    (h : ∀ s, (g s).2.txs = s.txs) : (Prog.atomic g).Within (KeepsEnd p) :=
  Prog.within_atomic fun s => by rw [KeepsEnd, h s]; exact ⟨rfl, rfl⟩

omit [DecidableEq Addr] [DecidableEq Lock] in
/-- A change of the descriptor that leaves the trace and the snapshot alone. -/
theorem modifyTx_end {f : StmTx Addr Lock w → StmTx Addr Lock w}
    (h : ∀ tx, (f tx).trace = tx.trace ∧ (f tx).end_ = tx.end_) :
    (modifyTx p f).Within (KeepsEnd p) :=
  Prog.within_atomic fun s => by simpa [KeepsEnd, State.setTx] using h (s.txs p)

omit [DecidableEq Addr] [DecidableEq Lock] in
/-- The validation. -/
theorem validate_end {test : StmTx Addr Lock w → ℕ → REntry Lock → Bool} :
    (getTx p >>= fun tx => validateEntries p test tx.rSet : M Tid Addr Lock w _).Within (KeepsEnd p) :=
  Prog.within_access (KeepsEnd.refl p) fun _ => validateEntries_within (KeepsEnd.refl p) _

omit [DecidableEq Addr] [DecidableEq Lock] in
/-- The commit is added. -/
theorem recordUpdate_end (t : ℕ) : (recordUpdate p t : M Tid Addr Lock w _).Within (KeepsEnd p) :=
  Prog.within_atomic fun s => by simp [KeepsEnd, State.setTx]

/-! ## Programs that keep what has been seen -/

variable (S p s) in
/-- What `p` has loaded are values of the committed memory as of the end of its snapshot, for good. -/
def SeenAtEnd : Prop := s.view.Sees S (s.txs p).trace (s.txs p).end_

omit [DecidableEq Tid] [DecidableEq Lock] in
/-- Another thread takes a step. -/
theorem SeenAtEnd.other (hq : q ≠ p) (hg : (protocol S).guar q s s') (h : SeenAtEnd S p s) :
    SeenAtEnd S p s' := by
  rw [SeenAtEnd, hg.1 p hq.symm]
  exact h.step hg.2

omit [DecidableEq Tid] [DecidableEq Lock] in
/-- The thread takes a step that leaves its snapshot alone. -/
theorem SeenAtEnd.keeps (hg : (protocol S).guar p s s') (hr : KeepsEnd p s s')
    (h : SeenAtEnd S p s) : SeenAtEnd S p s' := by
  rw [SeenAtEnd, hr.1, hr.2]
  exact h.step hg.2

omit [DecidableEq Tid] [DecidableEq Lock] in
/-- An attempt that has loaded nothing. -/
theorem SeenAtEnd.nil (h : (s.txs p).trace = []) : SeenAtEnd S p s := by
  rw [SeenAtEnd, h]
  exact .nil

/-- The trace of `p` is empty. -/
def traceless (S : Setting Tid Addr Lock w) (p : Tid) : Asn S p where
  holds s := (s.txs p).trace = []
  stable _ hq _ _ _ _ hg h := (congrArg StmTx.trace (hg.1 p hq.symm)).trans h

omit [DecidableEq Tid] [DecidableEq Lock] in
/-- A program that leaves the snapshot alone is watched. -/
theorem watch_of_end {c : M Tid Addr Lock w α} (hc : c.Within (KeepsEnd p)) (P : Asn S p) :
    Watch (protocol S) p (SeenAtEnd S p) P c fun _ => .pure True :=
  (Watch.of_actions (hc.actions fun _ _ h => h) fun _ _ _ _ hg hr hK hP =>
    ⟨hK.keeps hg hr, hP⟩).pre fun _ _ _ => trivial

omit [DecidableEq Lock] in
/-- A change of the descriptor. -/
theorem watch_of_modifyTx {f : StmTx Addr Lock w → StmTx Addr Lock w} (P : Asn S p)
    (h : ∀ tx, (f tx).trace = tx.trace ∧ (f tx).end_ = tx.end_) :
    Watch (protocol S) p (SeenAtEnd S p) P (modifyTx p f) fun _ => .pure True :=
  watch_of_end (modifyTx_end h) P

omit [DecidableEq Lock] in
/-- `int_stm_prepare`: the trace is empty before the snapshot begins. -/
theorem intStmPrepare_watch (P : Asn S p) :
    Watch (protocol S) p (SeenAtEnd S p) P (intStmPrepare cfg p) fun _ => .pure True := by
  have hkeep : ∀ {α : Type} {c : M Tid Addr Lock w α}, c.Within (KeepsSets p) →
      Watch (protocol S) p (SeenAtEnd S p) (traceless S p) c fun _ => traceless S p := fun hc =>
    .of_actions (hc.actions fun _ _ h => h) fun _ _ _ _ _ hr _ hP =>
      have ht := hr.trace.trans hP
      ⟨.nil ht, ht⟩
  refine .bind (R := fun _ => traceless S p) (.act (fun _ => traceless S p) (fun s _ _ _ _ _ => ?_)
    fun _ => .ret fun _ _ h => h) fun _ => ?_
  · have ht : ((s.setTx p fun tx => { tx with
        rSet := [], wSet := { tx.wSet with entries := [], nbAcquired := 0 }, trace := [] }).txs p).trace
        = [] := by simp [State.setTx]
    exact ⟨.nil ht, ht⟩
  refine .post (Q := fun _ => traceless S p) (.bind (hkeep setStart_sets) fun _ =>
    .look (fun _ => traceless S p) (fun _ _ h => h) fun tx => .ite (fun _ => ?_) fun _ => ?_)
    fun _ _ _ _ => trivial
  · exact .bind (hkeep setIrrevocableRestart_sets) fun _ =>
      hkeep (modifyTx_sets fun _ => ⟨rfl, rfl, rfl, rfl⟩)
  · exact hkeep (modifyTx_sets fun _ => ⟨rfl, rfl, rfl, rfl⟩)

/-- `stm_rollback`. -/
theorem stmRollback_watch (reason : Reason)
    (P : Asn S p) :
    Watch (protocol S) p (SeenAtEnd S p) P (stmRollback cfg p reason) fun _ => .pure True := by
  refine .bind (watch_of_end (stmDesignRollback_keeps.mono KeepsAttempt.keepsEnd) P) fun _ => ?_
  refine .bind (watch_of_modifyTx _ fun _ => ⟨rfl, rfl⟩) fun _ => ?_
  refine .bind (watch_of_modifyTx _ fun _ => ⟨rfl, rfl⟩) fun _ => ?_
  refine .bind (watch_of_end (waitCLock_within (KeepsEnd.refl p) fun s => ?_) _) fun _ => ?_
  · simp [KeepsEnd, State.setTx]
  refine .look (fun _ => .pure True) (fun _ _ h => h) fun tx => .ite (fun _ => ?_) fun _ => ?_
  · exact watch_of_modifyTx _ fun _ => ⟨rfl, rfl⟩
  · exact .bind (intStmPrepare_watch _) fun _ => .jump

/-! ## Stores and commits -/

/-- A program that leaves the snapshot alone, apart from rollbacks, is watched. -/
theorem Resembles.watch (hd : ∀ attr, cfg.designOf attr = .writeBackCtl) {c : M Tid Addr Lock w α}
    (h : Resembles (KeepsEnd p) cfg cfg.design p c c) (P : Asn S p) :
    Watch (protocol S) p (SeenAtEnd S p) P c fun _ => .pure True :=
  (Watch.of_mirrors (P := .pure True) (fun _ => trivial) (fun _ _ _ _ hg hr hK => hK.keeps hg hr)
    (fun i => stmRollback_watch i _) h).pre fun _ _ _ => trivial

/-! ## Loads -/

/-- An attempt whose loads rest on a memory. -/
def liveAsn (S : Setting Tid Addr Lock w) (p : Tid) : Asn S p :=
  .ex fun tx => .ex fun m => .pure (TxActive S.toPremises tx) ⊓ At tx (live S p tx m)

omit [DecidableEq Tid] [DecidableEq Lock] in
/-- Such an attempt has seen the memory as of the end of its snapshot. -/
theorem seenAtEnd_of_live {tx : StmTx Addr Lock w} {m : Mem Addr w} (hS : S.cfg.designOf tx.attr = .writeBackCtl)
    (hstrict : S.strict) (htokens : ¬ S.tokens) (hs : (protocol S).Ok s) (hph : tx.phase = .running)
    (h : At tx (live S p tx m) s) : SeenAtEnd S p s := by
  have hirr : tx.irrevocable = 0 := h.1 ▸ (hs.inv.off htokens).2 p
  have hblind : ¬ View.Blind S tx := by
    rintro ⟨-, ⟨hd, -⟩ | h3⟩
    · exact hd hS
    · omega
  rw [SeenAtEnd, h.1]
  exact h.2.1.sees hs.inv hstrict hblind hirr ((congrArg StmTx.phase h.1).trans hph)

omit [DecidableEq Addr] [DecidableEq Lock] in
/-- The extension moves the end of the snapshot with its last action. -/
theorem tryExtend_but {test : StmTx Addr Lock w → ℕ → REntry Lock → Bool}
    {tx : StmTx Addr Lock w} :
    (tryExtend tx (extendWith p (getTx p >>= fun tx =>
      validateEntries p test tx.rSet))).ActionsBut (KeepsEnd p) := by
  unfold tryExtend
  split
  · trivial
  · refine Prog.Actions.bind_but ⟨KeepsEnd.refl p, fun _ => trivial⟩ fun now =>
      Prog.Actions.bind_but (validate_end.actions fun _ _ h => h) fun ok => ?_
    split
    · exact .inl fun _ => ⟨_, rfl⟩
    · trivial

/-- `stm_wbctl_extend`: when the end of the snapshot moves, everything loaded has been validated. -/
theorem extend_watch {tx : StmTx Addr Lock w} (hS : S.cfg.designOf tx.attr = .writeBackCtl) (hstrict : S.strict)
    (htokens : ¬ S.tokens) (hobs : ∀ v, S.obs v) (hact : TxActive S.toPremises tx) (hirr : tx.irrevocable ≠ 3)
    (m : Mem Addr w) :
    Watch (protocol S) p (SeenAtEnd S p) (At tx (live S p tx m)) (tryExtend tx (stmWbctlExtend p))
      fun ok => if ok then liveAsn S p else .pure True := by
  have htest : OwnTest p tx (live S p tx m) fun tx i r => tx.wSet.entries[i]?.any (·.version = r.version) :=
    fun _ v _ h i r hl => ((h.2.ctl hS).noLocks r.lock ⟨i, hl⟩).elim
  have hspec := tryExtend_spec (J := boundary S p) (Θ := .pure True) hirr htest 0 (fun _ _ => .pure True)
    (fun v _ _ => Nat.zero_le _) fun _ _ _ _ _ _ _ _ _ => trivial
  have hwatch := Watch.of_last (K := SeenAtEnd S p) (fun _ => hobs _)
    (fun _ _ _ _ hg hr hK => hK.keeps hg hr) hspec tryExtend_but fun ok s hs h => ?_
  · refine (hwatch.pre fun s _ (h : At tx (live S p tx m) s) => ⟨h.1, h.2, trivial⟩).post
      fun ok s _ h => ?_
    cases ok with
    | false => trivial
    | true =>
      obtain ⟨n, ⟨-, hn, -⟩, htx, hv⟩ := h
      exact ⟨{ tx with end_ := n }, m,
        { hact with version := fun r hr => (hact.version r hr).trans hn }, htx, hv.1.1⟩
  · cases ok with
    | false => exact seenAtEnd_of_live hS hstrict htokens hs hact.phase ⟨h.1, h.2.1⟩
    | true =>
      obtain ⟨n, -, htx, hv⟩ := h
      have hphase : ({ tx with end_ := n } : StmTx Addr Lock w).phase = .running := hact.phase
      exact seenAtEnd_of_live (by exact hS) hstrict htokens hs hphase ⟨htx, hv.1.1⟩

omit [DecidableEq Tid] in
/-- The end of a load: the lock goes to the read set. -/
theorem addToRs_watch [DecidableEq Tid] {β γ : Type} {I : β → Asn S p} (version : ℕ) (lock : Lock)
    (y : γ) (P : Asn S p) :
    Watch (protocol S) p (SeenAtEnd S p) P
      (do
        modifyTx p (addToRs S.cfg version lock)
        pure (.inr y))
      (Sum.elim I fun _ => .pure True) :=
  .bind (watch_of_end ((addToRs_keeps version lock).mono KeepsAttempt.keepsEnd) P) fun _ => .of_ret fun _ _ _ => trivial

/-- `stm_wbctl_read`. -/
theorem stmWbctlRead_watch (hd : ∀ attr, S.cfg.designOf attr = .writeBackCtl) (hstrict : S.strict)
    (htokens : ¬ S.tokens) (hobs : ∀ v, S.obs v) :
    Watch (protocol S) p (SeenAtEnd S p) (liveAsn S p) (stmWbctlRead S.cfg p a)
      fun _ => .pure True := by
  refine .look (fun _ => liveAsn S p) (fun _ _ h => h) fun tx => ?_
  dsimp only
  cases (writtenEntry tx a).filter fun e => e.mask = BitVec.allOnes w with
  | some e => exact .of_ret fun _ _ _ => trivial
  | none =>
    refine .iterate (fun _ => liveAsn S p) (fun _ _ h => h) fun l? => ?_
    refine .bind (R := fun _ => liveAsn S p) ?_ fun l => ?_
    · cases l? with
      | none =>
        exact .act (fun _ => liveAsn S p) (fun s _ hK hP _ _ => ⟨hK, hP⟩) fun _ => .ret fun _ _ h => h
      | some l => exact .of_ret fun _ _ h => h
    cases l with
    | owned q i => exact .of_ret fun _ _ h => h
    | free l =>
      refine .look (fun _ => liveAsn S p) (fun _ _ h => h) fun y => ?_
      refine .look (fun _ => liveAsn S p) (fun _ _ h => h) fun l2 => .ite (fun _ =>
        .of_ret fun _ _ h => h) fun _ => ?_
      refine .look (fun tx => .ex fun m => .pure (TxActive S.toPremises tx) ⊓ At tx (live S p tx m))
        (fun s _ ⟨tx, m, hact, h⟩ => ?_) fun tx => .of_ex fun m => .of_fact (fun _ _ h => h.1)
        fun hact => .pre (P := At tx (live S p tx m)) ?_ fun _ _ h => h.2
      · rw [h.1]
        exact ⟨m, hact, h⟩
      refine .ite (fun _ => .of_ret fun _ _ _ => trivial) fun hirr => .ite (fun _ => ?_) fun _ => ?_
      · refine .bind (extend_watch (hd _) hstrict htokens hobs hact (by omega) m) fun ok => ?_
        cases ok with
        | false =>
          exact .bind (stmRollback_watch _ _) fun _ => .of_ret fun _ _ _ => trivial
        | true =>
          refine .look (fun _ => liveAsn S p) (fun _ _ h => h) fun l' => .ite (fun _ =>
            .of_ret fun _ _ h => h) fun _ => addToRs_watch ..
      · exact addToRs_watch ..

/-! ## The calls -/

omit [DecidableEq Lock] in
/-- `int_stm_start`. -/
theorem intStmStart_watch (attr : Attr) (P : Asn S p) :
    Watch (protocol S) p (SeenAtEnd S p) P (intStmStart cfg p attr) fun _ => .pure True := by
  refine .look (fun _ => .pure True) (fun _ _ _ => trivial) fun tx => ?_
  refine .bind (watch_of_modifyTx _ fun _ => ⟨rfl, rfl⟩) fun _ => .ite (fun _ => .of_ret fun _ _ h => h)
    fun _ => ?_
  refine .bind (watch_of_modifyTx _ fun _ => ⟨rfl, rfl⟩) fun _ => ?_
  exact .bind (intStmPrepare_watch _) fun _ => watch_of_modifyTx _ fun _ => ⟨rfl, rfl⟩

/-- `int_stm_load`. -/
theorem intStmLoad_watch (hd : ∀ attr, S.cfg.designOf attr = .writeBackCtl) (hstrict : S.strict)
    (htokens : ¬ S.tokens) (hobs : ∀ v, S.obs v) :
    Watch (protocol S) p (SeenAtEnd S p) (liveAsn S p) (intStmLoad S.cfg p a)
      fun _ => .pure True := by
  refine .look (fun _ => liveAsn S p) (fun _ _ h => h) fun tx => ?_
  rw [hd]
  exact stmWbctlRead_watch hd hstrict htokens hobs

/-- `stm_write`. -/
theorem stmWrite_watch (hd : ∀ attr, cfg.designOf attr = .writeBackCtl) (P : Asn S p) :
    Watch (protocol S) p (SeenAtEnd S p) P (stmWrite cfg p a x k) fun _ => .pure True := by
  refine .look (fun _ => .pure True) (fun _ _ _ => trivial) fun tx => ?_
  rw [hd]
  exact Resembles.watch hd (stmWbctlWrite_resembles KeepsAttempt.keepsEnd) _

/-- `int_stm_commit`. -/
theorem intStmCommit_watch (hd : ∀ attr, cfg.designOf attr = .writeBackCtl) (P : Asn S p) :
    Watch (protocol S) p (SeenAtEnd S p) P (intStmCommit cfg p) fun _ => .pure True := by
  refine .bind (watch_of_modifyTx _ fun _ => ⟨rfl, rfl⟩) fun _ => ?_
  refine .look (fun _ => .pure True) (fun _ _ _ => trivial) fun tx => .ite (fun _ =>
    .of_ret fun _ _ h => h) fun _ => ?_
  refine .bind (watch_of_modifyTx _ fun _ => ⟨rfl, rfl⟩) fun _ => ?_
  refine .bind (R := fun _ => .pure True) ?_ fun _ => ?_
  · refine .ite (fun _ => watch_of_end (access_end fun _ => rfl) _) fun _ => ?_
    refine .bind (R := fun _ => .pure True) ?_ fun _ => .of_ret fun _ _ h => h
    refine .look (fun _ => .pure True) (fun _ _ _ => trivial) fun tx => ?_
    rw [hd]
    exact Resembles.watch hd (stmWbctlCommit_resembles KeepsAttempt.keepsEnd recordUpdate_end) _
  refine .bind (watch_of_modifyTx _ fun _ => ⟨rfl, rfl⟩) fun _ => ?_
  refine .look (fun _ => .pure True) (fun _ _ _ => trivial) fun tx => ?_
  refine .bind (R := fun _ => .pure True) ?_ fun _ => ?_
  · refine .ite (fun _ => watch_of_end (Prog.within_atomic fun s => ?_) _) fun _ =>
      .of_ret fun _ _ h => h
    simp [KeepsEnd, State.setTx]
  refine .bind (watch_of_modifyTx _ fun _ => ⟨rfl, rfl⟩) fun _ => ?_
  exact .bind (watch_of_modifyTx _ fun _ => ⟨rfl, rfl⟩) fun _ => .of_ret fun _ _ h => h

end TinyStm
