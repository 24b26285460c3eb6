import TinyStm.Proof.Control

/-!
# Irrevocable transactions do not abort

The operations of an irrevocable transaction, whatever the other threads do: `Firm n` is the
descriptor of an active irrevocable transaction whose thread has aborted `n` times so far. No
operation that finds room in the write set changes that number or jumps back. The triples are stated
over the protocol in which the other threads may do anything to the shared state and nothing to the
descriptor, so the result needs no invariant of the library.
-/

namespace TinyStm

section
variable {Tid Addr Lock : Type} {w : ℕ}

/-- The thread has aborted `n` times. -/
def Aborted (n : ℕ) (o : Own Tid Addr Lock w) : Prop := o.tx.statAborts = n

/-- An active irrevocable transaction. -/
structure Firm (tx : StmTx Addr Lock w) : Prop where
  active : tx.status.isActive = true
  irr : tx.irrevocable &&& 7 = 3

/-- The transaction is irrevocable. -/
theorem Firm.irr_ne {tx : StmTx Addr Lock w} (h : Firm tx) : tx.irrevocable ≠ 0 := fun h0 => by
  have := h.irr
  simp [h0] at this

variable [DecidableEq Addr]

/-- A store to `a` under the mask `k` needs a new entry: the stripe is not the thread's own, or it has
no entry for `a`. -/
def NeedsEntry (getLock : Addr → Lock) (o : Own Tid Addr Lock w) (a : Addr) (k : BitVec w) : Prop :=
  match o.locks (getLock a) with
  | none => True
  | some i => i < o.tx.wSet.entries.length ∧ k ≠ 0#w ∧
      ∃ j v, chainFind o.tx.wSet.entries a o.tx.wSet.entries.length i = .last j v

/-- A store finds room in the write set. -/
def FindsRoom (getLock : Addr → Lock) (a : Addr) (k : BitVec w) (o : Own Tid Addr Lock w) : Prop :=
  o.tx.wSet.entries.length = o.tx.wSet.size → ¬ NeedsEntry getLock o a k

end

variable {Tid Addr Lock : Type} {w : ℕ} [DecidableEq Tid] [DecidableEq Addr] [DecidableEq Lock]
  {p : Tid} {n m : ℕ} {O : State Tid Addr Lock w → Prop} {cfg : Config Addr Lock} {a : Addr}
  {x k : BitVec w} {J : Assn (ownProtocol p (Aborted n) O) true} {α β : Type}

/-- A thread whose transaction is irrevocable, at the nesting level `m`. -/
def firm (p : Tid) (n m : ℕ) (O : State Tid Addr Lock w → Prop) :
    Assn (ownProtocol p (Aborted n) O) true :=
  Has fun o => Firm o.tx ∧ o.tx.nesting = m

/-- A step keeps what `firm` says of the descriptor. -/
def Keeps (tx tx' : StmTx Addr Lock w) : Prop :=
  tx'.statAborts = tx.statAborts ∧ tx'.status = tx.status ∧ tx'.irrevocable = tx.irrevocable ∧
    tx'.nesting = tx.nesting

omit [DecidableEq Addr] [DecidableEq Lock] in
/-- An access that keeps it. -/
theorem firm_access {g : State Tid Addr Lock w → β × State Tid Addr Lock w}
    {c : β → M Tid Addr Lock w α} {Q : α → Assn (ownProtocol p (Aborted n) O) true}
    (hg : ∀ s, Keeps (s.txs p) ((g s).2.txs p))
    (hc : ∀ b, Triple (ownProtocol p (Aborted n) O) true (firm p n m O) (c b) Q J) :
    Triple (ownProtocol p (Aborted n) O) true (firm p n m O) (Prog.atomic g >>= c) Q J :=
  .ownAct (fun _ o => Firm o.tx ∧ o.tx.nesting = m) (fun s _ hI ⟨hf, hn⟩ => by
    obtain ⟨h1, h2, h3, h4⟩ := hg s
    exact ⟨h1.trans hI, ⟨h2.symm ▸ hf.active, h3.symm ▸ hf.irr⟩, h4.trans hn⟩) hc

omit [DecidableEq Addr] [DecidableEq Lock] in
/-- A program whose actions leave the control part alone. -/
theorem firm_within {c : M Tid Addr Lock w α} (h : c.Within (KeepsControl p))
    {J : Assn (ownProtocol p (Aborted n) O) true} :
    Triple (ownProtocol p (Aborted n) O) true (firm p n m O) c (fun _ => firm p n m O) J :=
  .pre (.post (control_spec (φ := fun tx => (tx.status.isActive = true ∧ tx.irrevocable &&& 7 = 3) ∧
      tx.nesting = m) h fun _ _ heq hI => (congrArg Control.statAborts heq).trans hI)
    (fun _ _ _ ⟨⟨h1, h2⟩, h3⟩ => ⟨⟨h1, h2⟩, h3⟩) fun _ _ h => h)
    fun _ _ ⟨⟨h1, h2⟩, h3⟩ => ⟨⟨h1, h2⟩, h3⟩

/-- The descriptor is read: the transaction is irrevocable. -/
theorem firm_getTx {c : StmTx Addr Lock w → M Tid Addr Lock w α}
    {Q : α → Assn (ownProtocol p (Aborted n) O) true}
    (hc : ∀ tx, Firm tx → tx.nesting = m →
      Triple (ownProtocol p (Aborted n) O) true (firm p n m O) (c tx) Q J) :
    Triple (ownProtocol p (Aborted n) O) true (firm p n m O) (getTx p >>= c) Q J :=
  .ownGetTx fun tx => .ownFact (q := Firm tx ∧ tx.nesting = m) (fun _ _ ⟨h, hf⟩ => h ▸ hf)
    fun h => .ownPre (hc tx h.1 h.2) fun _ _ h => h.2

/-- A change of the descriptor, and what follows it. -/
theorem firm_modifyTx {f : StmTx Addr Lock w → StmTx Addr Lock w}
    {c : Unit → M Tid Addr Lock w α} {Q : α → Assn (ownProtocol p (Aborted n) O) true}
    (hf : ∀ tx, Keeps tx (f tx))
    (hc : Triple (ownProtocol p (Aborted n) O) true (firm p n m O) (c ()) Q J) :
    Triple (ownProtocol p (Aborted n) O) true (firm p n m O) (modifyTx p f >>= c) Q J :=
  .ownModifyTx (ψ := fun o => Firm o.tx ∧ o.tx.nesting = m) (fun o hI ⟨hfirm, hn⟩ => by
    obtain ⟨h1, h2, h3, h4⟩ := hf o.tx
    exact ⟨h1.trans hI, ⟨h2.symm ▸ hfirm.active, h3.symm ▸ hfirm.irr⟩, h4.trans hn⟩) hc

omit [DecidableEq Addr] [DecidableEq Lock] in
/-- An access that leaves the descriptors alone. -/
theorem firm_shared {g : State Tid Addr Lock w → β × State Tid Addr Lock w}
    {c : β → M Tid Addr Lock w α} {Q : α → Assn (ownProtocol p (Aborted n) O) true}
    (hg : ∀ s, (g s).2.txs = s.txs)
    (hc : ∀ b, Triple (ownProtocol p (Aborted n) O) true (firm p n m O) (c b) Q J) :
    Triple (ownProtocol p (Aborted n) O) true (firm p n m O) (Prog.atomic g >>= c) Q J :=
  firm_access (fun s => by rw [hg]; exact ⟨rfl, rfl, rfl, rfl⟩) hc

/-- A program that keeps `firm`, whatever it returns. -/
abbrev KeepsFirm (p : Tid) (n m : ℕ) (O : State Tid Addr Lock w → Prop) (c : M Tid Addr Lock w α) :
    Prop :=
  ∀ J, Triple (ownProtocol p (Aborted n) O) true (firm p n m O) c (fun _ => firm p n m O) J

omit [DecidableEq Addr] [DecidableEq Lock] in
/-- Nothing is done. -/
theorem firm_pure (b : α) : KeepsFirm p n m O (pure b) := fun _ => .of_ret fun _ _ h => h

omit [DecidableEq Addr] [DecidableEq Lock] in
/-- A part and what follows it. -/
theorem firm_bind {c : M Tid Addr Lock w β} {f : β → M Tid Addr Lock w α}
    (hc : KeepsFirm p n m O c) (hf : ∀ b, KeepsFirm p n m O (f b)) : KeepsFirm p n m O (c >>= f) :=
  fun J => .bind (hc J) fun b => hf b J

omit [DecidableEq Addr] [DecidableEq Lock] in
/-- A loop. -/
theorem firm_iterate {body : β → M Tid Addr Lock w (β ⊕ α)} {b : β}
    (h : ∀ b, KeepsFirm p n m O (body b)) : KeepsFirm p n m O (.iterate b body) := fun J =>
  .iterate (fun _ => firm p n m O) (fun _ _ h => h) fun b =>
    (h b J).post (fun r s _ h => by cases r <;> exact h) fun _ _ h => h

/-! ## Loads -/

/-- `stm_wbetl_read_invisible`. -/
theorem stmWbetlReadInvisible_firm : KeepsFirm p n m O (stmWbetlReadInvisible cfg p a) := by
  refine firm_iterate fun l? J => Triple.ownLoadLockOr fun l => ?_
  cases l with
  | owned q i =>
    refine firm_getTx fun tx htx _ => .ite (fun _ => ?_) fun _ => ?_
    · split
      · exact firm_bind (fun J => firm_within (control_of_keeps (entryValue_keeps _))) (fun _ => firm_pure _) J
      · exact firm_shared (fun _ => rfl) fun _ => firm_pure _ J
    · rw [if_pos htx.irr_ne]
      exact firm_pure _ J
  | free l =>
    refine firm_shared (fun _ => rfl) fun y => firm_shared (fun _ => rfl) fun l2 => ?_
    refine .ite (fun _ => firm_pure _ J) fun _ => firm_getTx fun tx htx _ => ?_
    rw [if_pos htx.irr_ne]
    exact firm_pure _ J

/-- `stm_wt_read`. -/
theorem stmWtRead_firm : KeepsFirm p n m O (stmWtRead cfg p a) := by
  refine firm_iterate fun l? J => Triple.ownLoadLockOr fun l => ?_
  cases l with
  | owned q i =>
    refine firm_getTx fun tx htx _ => .ite (fun _ => ?_) fun _ => ?_
    · exact firm_shared (fun _ => rfl) fun _ => firm_pure _ J
    · rw [if_pos htx.irr_ne]
      exact firm_pure _ J
  | free l =>
    refine firm_shared (fun _ => rfl) fun y => firm_shared (fun _ => rfl) fun l2 => ?_
    refine .ite (fun _ => firm_pure _ J) fun _ => firm_getTx fun tx htx _ => ?_
    rw [if_pos htx.irr_ne]
    exact firm_pure _ J

/-- `stm_wbctl_read`. -/
theorem stmWbctlRead_firm : KeepsFirm p n m O (stmWbctlRead cfg p a) := by
  refine fun J => firm_getTx fun tx _ _ => ?_
  dsimp only
  split
  · exact firm_pure _ J
  · refine firm_iterate (fun l? J => Triple.ownLoadLockOr fun l => ?_) J
    cases l with
    | owned q i => exact firm_pure _ J
    | free l =>
      refine firm_shared (fun _ => rfl) fun y => firm_shared (fun _ => rfl) fun l2 => ?_
      refine .ite (fun _ => firm_pure _ J) fun _ => firm_getTx fun tx htx _ => ?_
      rw [if_pos htx.irr_ne]
      exact firm_pure _ J

/-- `int_stm_load`. -/
theorem intStmLoad_firm : KeepsFirm p n m O (intStmLoad cfg p a) := by
  refine fun J => firm_getTx fun tx _ _ => ?_
  split
  · exact stmWbctlRead_firm J
  · exact stmWtRead_firm J
  · exact stmWbetlReadInvisible_firm J

/-! ## Stores -/

/-- A store that finds room. -/
def roomy (p : Tid) (n m : ℕ) (O : State Tid Addr Lock w → Prop) (cfg : Config Addr Lock) (a : Addr)
    (k : BitVec w) : Assn (ownProtocol p (Aborted n) O) true :=
  Has fun o => (Firm o.tx ∧ o.tx.nesting = m) ∧ FindsRoom cfg.getLock a k o

/-- The write set is not full. -/
theorem extendWs_firm {φ : Own Tid Addr Lock w → Prop}
    (hφ : ∀ o, φ o → o.tx.wSet.entries.length ≠ o.tx.wSet.size) :
    Triple (ownProtocol p (Aborted n) O) true (Has φ) (extendWs cfg p) (fun _ => Has φ) J := by
  refine .ownGetTx fun tx => .ownFact (q := tx.wSet.entries.length ≠ tx.wSet.size)
    (fun o _ ⟨h, ho⟩ => h ▸ hφ o ho) fun hne => ?_
  rw [if_neg hne]
  exact .of_ret fun _ _ h => h.2

/-- A store that finds room. -/
theorem writeLoop_firm {merge : ℕ → ℕ → WEntry Addr Lock w → M Tid Addr Lock w Unit}
    {push : ℕ → Option ℕ → M Tid Addr Lock w Unit} {version : ℕ → ℕ}
    (hmerge : ∀ i j e, (merge i j e).Within (KeepsControl p))
    (hpush : ∀ v prev, (push v prev).Within (KeepsControl p)) :
    Triple (ownProtocol p (Aborted n) O) true (roomy p n m O cfg a k)
      (writeLoop cfg p a k merge push version) (fun _ => firm p n m O) J := by
  refine .iterate (fun _ => roomy p n m O cfg a k) (fun _ _ h => h) fun _ => .ownLoadLock fun l =>
    .ownGetTx fun tx => ?_
  refine .ownFact (q := tx.irrevocable ≠ 0) (fun o _ ⟨h, _, hr⟩ => h ▸ hr.1.1.irr_ne) fun hirr => ?_
  cases l with
  | owned q i =>
    refine .ite (fun ho => ?_) fun _ => ?_
    · obtain ⟨rfl, hi⟩ := ho
      refine .ite (fun _ => .of_ret fun s _ h => h.2.2.1) fun hk => ?_
      split
      · next j e _ =>
        exact .bind (.pre (firm_within (hmerge i j e)) fun _ _ h => h.2.2.1) fun _ => .of_ret fun _ _ h => h
      · next j v hfind =>
        refine .bind (extendWs_firm fun o h hfull => h.2.2.2 hfull ?_) fun _ =>
          .bind (.pre (firm_within (hpush v (some j))) fun _ _ h => h.2.2.1) fun _ => .of_ret fun _ _ h => h
        obtain ⟨htx, hl, -⟩ := h
        subst htx
        have hl : o.locks (cfg.getLock a) = some i := by rw [hl, LockWord.entryOf, if_pos rfl]
        simp only [NeedsEntry, hl]
        exact ⟨hi, hk, j, v, hfind⟩
    · rw [if_pos hirr]
      exact .of_ret fun s _ h => h.2.2
  | free l =>
    refine .ite (fun h => (hirr h.1).elim) fun _ => ?_
    refine .bind (extendWs_firm fun o h hfull => h.2.2.2 hfull ?_) fun _ => ?_
    · have hl : o.locks (cfg.getLock a) = none := h.2.1
      simp only [NeedsEntry, hl]
    · refine .ownGetTx fun tx' => .ownAct (fun ok o => if ok then Firm o.tx ∧ o.tx.nesting = m
        else (Firm o.tx ∧ o.tx.nesting = m) ∧ FindsRoom cfg.getLock a k o) (fun s _ hI h => ?_)
        fun ok => ?_
      · split
        · exact ⟨hI, h.2.2.2.1⟩
        · exact ⟨hI, h.2.2.2⟩
      · cases ok with
        | true => exact .bind (firm_within (hpush _ none)) fun _ => .of_ret fun _ _ h => h
        | false => exact .of_ret fun _ _ h => h

/-- `stm_wbetl_write`. -/
theorem stmWbetlWrite_firm : Triple (ownProtocol p (Aborted n) O) true (roomy p n m O cfg a k)
    (stmWbetlWrite cfg p a x k) (fun _ => firm p n m O) J :=
  writeLoop_firm (fun _ _ _ => control_of_keeps (wbetlMerge_keeps ..)) fun _ _ => control_of_keeps (wbetlDoWrite_keeps ..)

/-- `stm_wt_write`. -/
theorem stmWtWrite_firm : Triple (ownProtocol p (Aborted n) O) true (roomy p n m O cfg a k)
    (stmWtWrite cfg p a x k) (fun _ => firm p n m O) J :=
  writeLoop_firm (fun _ _ _ => control_of_keeps (wtOverwrite_keeps _)) fun _ _ => control_of_keeps (wtDoWrite_keeps ..)

/-- `stm_wbctl_write`: the write set grows when it is full. -/
theorem stmWbctlWrite_firm : KeepsFirm p n m O (stmWbctlWrite cfg p a x k) := by
  refine firm_iterate fun _ J => firm_shared (fun _ => rfl) fun l => ?_
  cases l with
  | owned q i => exact firm_pure _ J
  | free l =>
    refine firm_getTx fun tx htx _ => ?_
    dsimp only
    split
    · exact firm_modifyTx (fun _ => ⟨rfl, rfl, rfl, rfl⟩) (firm_pure _ J)
    · rw [if_neg fun h => htx.irr_ne h.1]
      exact firm_modifyTx (fun _ => ⟨rfl, rfl, rfl, rfl⟩) (firm_pure _ J)

/-- `stm_write`. -/
theorem stmWrite_firm : Triple (ownProtocol p (Aborted n) O) true
    (Has fun o => (Firm o.tx ∧ o.tx.nesting = m) ∧
      (cfg.designOf o.tx.attr ≠ .writeBackCtl → FindsRoom cfg.getLock a k o))
    (stmWrite cfg p a x k) (fun _ => firm p n m O) J := by
  refine .ownGetTx fun tx => ?_
  split
  · exact .pre (stmWbctlWrite_firm J) fun _ _ h => h.2.1
  · next hd =>
    refine .pre stmWtWrite_firm fun _ _ h => ⟨h.2.1, h.2.2 ?_⟩
    rw [h.1, hd]
    decide
  · next hne _ =>
    exact .pre stmWbetlWrite_firm fun _ _ h => ⟨h.2.1, h.2.2 fun hc => hne (h.1 ▸ hc)⟩

/-! ## Commit -/

/-- A lock is acquired at the commit, or it is waited for. -/
theorem wbctlAcquireEntry_firm (i : ℕ) (lock : Lock) :
    KeepsFirm p n m O (wbctlAcquireEntry cfg p i lock) := by
  refine firm_iterate fun _ J => firm_shared (fun _ => rfl) fun l => ?_
  cases l with
  | owned q j =>
    refine firm_getTx fun tx htx _ => .ite (fun _ => firm_pure _ J) fun _ => ?_
    rw [if_pos htx.irr_ne]
    exact firm_bind (fun J => firm_within (control_of_keeps (setCLock_keeps lock))) (fun _ => firm_pure _) J
  | free l =>
    refine firm_bind (fun J => firm_within (control_of_keeps (casLock_keeps lock l i))) (fun ok J => ?_) J
    exact .ite (fun _ => firm_modifyTx (fun _ => ⟨rfl, rfl, rfl, rfl⟩) (firm_pure _ J)) fun _ => firm_pure _ J

/-- The locks are acquired one after the other. -/
theorem wbctlAcquire_firm (es : List (WEntry Addr Lock w × ℕ)) :
    KeepsFirm p n m O (wbctlAcquire cfg p es) := by
  induction es with
  | nil => exact firm_pure _
  | cons e es ih =>
    exact firm_bind (wbctlAcquireEntry_firm _ _) fun ok J => .ite (fun _ => ih J) fun _ =>
      firm_pure _ J

/-- The commit of an irrevocable transaction checks nothing. -/
theorem commitWith_firm {validate : M Tid Addr Lock w Bool}
    {inst : List (WEntry Addr Lock w) → ℕ → M Tid Addr Lock w Unit}
    (hinst : ∀ es t, (inst es t).Within (KeepsAttempt p)) :
    KeepsFirm p n m O (commitWith cfg p validate inst) := by
  refine fun J => firm_getTx fun tx htx _ => ?_
  rw [checkToken, if_neg fun h => htx.irr_ne h.2]
  refine firm_access (fun s => by simp [Keeps, State.setTx]) fun t => ?_
  rw [commitValidate, if_pos (.inl htx.irr_ne)]
  refine firm_access (fun s => by simp [Keeps, State.setTx]) fun _ => ?_
  exact firm_bind (fun J => firm_within (control_of_keeps (hinst _ _))) (fun _ => firm_pure _) J

/-- The design's commit function. -/
theorem stmDesignCommit_firm : KeepsFirm p n m O (stmDesignCommit cfg p) := by
  refine fun J => firm_getTx fun tx _ _ => ?_
  split
  · refine firm_getTx fun tx _ _ => firm_bind (wbctlAcquire_firm _) (fun ok J => .ite (fun _ => ?_)
      fun _ => firm_pure _ J) J
    exact commitWith_firm wbctlInstall_keeps J
  · exact commitWith_firm wtInstall_keeps J
  · exact commitWith_firm wbetlInstall_keeps J

/-- The callbacks of a commit. -/
theorem runCallbacks_firm (cbs : List ℕ) : KeepsFirm p n m O (runCallbacks p cbs) := fun J =>
  .last (firm_modifyTx (fun _ => ⟨rfl, rfl, rfl, rfl⟩) (firm_pure _ J))

/-- The commit of the write set, if it is not empty. -/
theorem commitWriteSet_firm (tx : StmTx Addr Lock w) : KeepsFirm p n m O (commitWriteSet cfg p tx) := by
  refine fun J => .ite (fun _ => ?_) fun _ => firm_bind stmDesignCommit_firm (fun _ => firm_pure _) J
  exact .last (firm_shared (fun _ => rfl) fun _ => firm_pure _ J)

end TinyStm
