import TinyStm.Model.Specialised
import TinyStm.Proof.Alike
import TinyStm.Proof.Outcome
import TinyStm.Result.Calls

/-!
# DESIGN=MODULAR

A MODULAR build next to the builds of the single designs: which operations does it dispatch to the
design that `attr.id` selects? The question is asked of each operation alone: does it do in every
state, whatever other threads do, what the same operation does in the build of the selected design?
The answer is an exact list. For the operations that are not dispatched there is, for each design, a
state in which they differ.
-/

namespace TinyStm

section
variable {Addr Lock : Type} {w : ℕ}

/-- The operations that depend on the design. -/
inductive Op (Addr : Type) (w : ℕ)
  | load (addr : Addr)
  | store (addr : Addr) (value : BitVec w)
  | store2 (addr : Addr) (value mask : BitVec w)
  | raR (addr : Addr)
  | raW (addr : Addr)
  | rfW (addr : Addr)
  | waR (addr : Addr) (value mask : BitVec w)
  | waW (addr : Addr) (value mask : BitVec w)
  | rollback (reason : Reason)
  | commit
  | validate

namespace Op

/-- What an operation returns. -/
def Result : Op Addr w → Type
  | .load _ | .raR _ | .raW _ | .rfW _ => BitVec w
  | .commit | .validate => Bool
  | .store .. | .store2 .. | .waR .. | .waW .. | .rollback _ => Unit

/-- What the code asserts of the arguments: the mask of `WaW` is never 0. -/
def Proper : Op Addr w → Prop
  | .waW _ _ mask => mask ≠ 0#w
  | _ => True

/-- The operations that a MODULAR build dispatches by `attr.id`. -/
def Dispatched : Op Addr w → Prop
  | .load _ | .store .. | .store2 .. | .rollback _ | .commit => True
  | .raR _ | .raW _ | .rfW _ | .waR .. | .waW .. | .validate => False

end Op

/-- All transactions of a static build have its design. -/
theorem static_designOf (cfg : Config Addr Lock) {d : Design} (hd : d ≠ .modular) (attr : Attr) :
    (cfg.static d).designOf attr = d := by
  unfold Config.designOf
  split
  · exact absurd ‹_› hd
  · rfl

end

variable {Tid Addr Lock : Type} {w : ℕ} [DecidableEq Tid] [DecidableEq Addr] [DecidableEq Lock]
  {cfg : Config Addr Lock} {p : Tid} {attr : Attr} {a : Addr} {x k : BitVec w}

/-- The program of an operation. -/
def Op.run (cfg : Config Addr Lock) (p : Tid) (junk : BitVec w) :
    (op : Op Addr w) → M Tid Addr Lock w op.Result
  | .load a => intStmLoad cfg p a
  | .store a x => intStmStore cfg p a x
  | .store2 a x k => intStmStore2 cfg p a x k
  | .raR a => intStmRaR cfg p junk a
  | .raW a => intStmRaW cfg p junk a
  | .rfW a => intStmRfW cfg p junk a
  | .waR a x k => intStmWaR cfg p a x k
  | .waW a x k => intStmWaW cfg p a x k
  | .rollback reason => stmRollback cfg p reason
  | .commit => intStmCommit cfg p
  | .validate => setIrrevocableValidate cfg p

/-- The transaction of `p` has the attributes `attr`. -/
def HasAttr (p : Tid) (attr : Attr) (s : State Tid Addr Lock w) : Prop := (s.txs p).attr = attr

/-- The operation of a MODULAR build and the one of the build of the design that `attr` selects have the
same executions from every state, whatever the other threads do. -/
def RefinesStatic (cfg : Config Addr Lock) (p : Tid) (attr : Attr) (op : Op Addr w) : Prop :=
  ∀ (junk : BitVec w) (R : State Tid Addr Lock w → State Tid Addr Lock w → Prop),
    (∀ s s', R s s' → Others p s s') → ∀ s, HasAttr p attr s → ∀ d t, d.Done →
      (Prog.Steps R (fun _ => True) (op.run cfg p junk) s d t ↔
        Prog.Steps R (fun _ => True) (op.run (cfg.static (cfg.designOf attr)) p junk) s d t)

/-! ## The operations that are dispatched -/

/-- The two programs perform the same actions for a transaction with the attributes `attr`. -/
abbrev SameActions {α : Type} (p : Tid) (attr : Attr) (c c' : M Tid Addr Lock w α) : Prop :=
  Prog.Agree (HasAttr p attr) c c'

omit [DecidableEq Tid] [DecidableEq Addr] [DecidableEq Lock] in
/-- A part that leaves the attributes alone. -/
theorem sameActions_within {α : Type} {c : M Tid Addr Lock w α} (h : c.Within (KeepsAttr p)) :
    SameActions p attr c c :=
  .of_within (fun _ _ hr hs => hr.trans hs) h

omit [DecidableEq Tid] [DecidableEq Addr] [DecidableEq Lock] in
/-- A part that keeps the attributes, and what follows it. -/
theorem sameActions_bind {α β : Type} {c : M Tid Addr Lock w β} {f f' : β → M Tid Addr Lock w α}
    (h : c.Within (KeepsAttr p)) (hf : ∀ b, SameActions p attr (f b) (f' b)) :
    SameActions p attr (c >>= f) (c >>= f') :=
  (sameActions_within h).bind hf

omit [DecidableEq Tid] [DecidableEq Addr] [DecidableEq Lock] in
/-- What is dispatched by the design of a transaction with the attributes `attr`. -/
theorem sameActions_getTx {α : Type} {f f' : StmTx Addr Lock w → M Tid Addr Lock w α}
    (h : ∀ tx, tx.attr = attr → SameActions p attr (f tx) (f' tx)) :
    SameActions p attr (getTx p >>= f) (getTx p >>= f') :=
  .act _ (fun _ hs => hs) fun _ hs => h _ hs

/-- `stm_rollback`. -/
theorem stmRollback_sameActions (reason : Reason) :
    SameActions p attr (stmRollback cfg p reason : M Tid Addr Lock w _)
      (stmRollback (cfg.static (cfg.designOf attr)) p reason) := by
  have hrollback : SameActions p attr (stmDesignRollback cfg p : M Tid Addr Lock w _)
      (stmDesignRollback (cfg.static (cfg.designOf attr)) p) := by
    refine sameActions_bind (modifyTx_attr fun _ => rfl) fun _ => sameActions_getTx fun tx htx => ?_
    rw [static_designOf cfg (cfg.designOf_ne_modular attr), htx]
    refine sameActions_within (Prog.Within.mono (r := KeepsControl p) ?_ fun _ _ =>
      KeepsControl.attr)
    split
    · exact getTx_control.bind fun _ => control_of_keeps (wbctlDropLocks_keeps ..)
    · exact getTx_control.bind fun _ => control_of_keeps (wtUndo_keeps ..)
    · exact getTx_control.bind fun _ => control_of_keeps (wbetlDropLocks_keeps ..)
  refine hrollback.bind fun _ => sameActions_bind (modifyTx_attr fun _ => rfl) fun _ =>
    sameActions_bind (modifyTx_attr fun _ => rfl) fun _ =>
    sameActions_bind (waitCLock_control.mono fun _ _ => KeepsControl.attr) fun _ =>
    sameActions_getTx fun tx _ => ?_
  split
  · exact sameActions_within (modifyTx_attr fun _ => rfl)
  · exact sameActions_bind intStmPrepare_attr fun _ => .jump

/-- An operation of a design. -/
theorem sameActions_alike {α : Type} {c c' : M Tid Addr Lock w α}
    (h : Alike cfg (cfg.designOf attr) p c c') : SameActions p attr c c' :=
  h.agree (fun s s' (hr : (s'.txs p).control = (s.txs p).control) hs =>
    (congrArg Control.attr hr).trans hs) stmRollback_sameActions

/-- `int_stm_load`. -/
theorem intStmLoad_sameActions :
    SameActions p attr (intStmLoad cfg p a : M Tid Addr Lock w _)
      (intStmLoad (cfg.static (cfg.designOf attr)) p a) := by
  refine sameActions_getTx fun tx htx => ?_
  rw [static_designOf cfg (cfg.designOf_ne_modular attr), htx]
  split
  · exact sameActions_alike stmWbctlRead_alike
  · exact sameActions_alike stmWtRead_alike
  · exact sameActions_alike stmWbetlReadInvisible_alike

/-- `stm_write`. -/
theorem stmWrite_sameActions :
    SameActions p attr (stmWrite cfg p a x k : M Tid Addr Lock w _)
      (stmWrite (cfg.static (cfg.designOf attr)) p a x k) := by
  refine sameActions_getTx fun tx htx => ?_
  rw [static_designOf cfg (cfg.designOf_ne_modular attr), htx]
  split
  · exact sameActions_alike (stmWbctlWrite_resembles sameControl_of_keeps)
  · exact sameActions_alike (stmWtWrite_resembles sameControl_of_keeps)
  · exact sameActions_alike (stmWbetlWrite_resembles sameControl_of_keeps)

/-- The design's commit function. -/
theorem stmDesignCommit_sameActions :
    SameActions p attr (stmDesignCommit cfg p : M Tid Addr Lock w _)
      (stmDesignCommit (cfg.static (cfg.designOf attr)) p) := by
  refine sameActions_getTx fun tx htx => ?_
  rw [static_designOf cfg (cfg.designOf_ne_modular attr), htx]
  split
  · exact sameActions_alike stmWbctlCommit_alike
  · exact sameActions_alike stmWtCommit_alike
  · exact sameActions_alike stmWbetlCommit_alike

/-- `int_stm_commit`. -/
theorem intStmCommit_sameActions :
    SameActions p attr (intStmCommit cfg p : M Tid Addr Lock w _)
      (intStmCommit (cfg.static (cfg.designOf attr)) p) := by
  refine sameActions_bind (modifyTx_attr fun _ => rfl) fun _ => sameActions_getTx fun tx _ => ?_
  split
  · exact .ret _
  · refine sameActions_bind (modifyTx_attr fun _ => rfl) fun _ => .bind ?_ fun _ =>
      sameActions_bind (modifyTx_attr fun _ => rfl) fun _ => sameActions_getTx fun tx' _ =>
      .bind ?_ fun _ => sameActions_bind (modifyTx_attr fun _ => rfl) fun _ =>
      sameActions_bind (modifyTx_attr fun _ => rfl) fun _ => .ret _
    · unfold commitWriteSet
      split
      · exact sameActions_within (Prog.within_atomic fun _ => rfl)
      · exact stmDesignCommit_sameActions.bind fun _ => .ret _
    · unfold releaseToken
      split
      · exact sameActions_within (Prog.within_atomic fun s => by simp [KeepsAttr, State.setTx])
      · exact .ret _

/-- The operations that are dispatched perform the same actions. -/
theorem Op.Dispatched.sameActions {op : Op Addr w} (h : op.Dispatched) (junk : BitVec w) :
    SameActions p attr (op.run cfg p junk : M Tid Addr Lock w _)
      (op.run (cfg.static (cfg.designOf attr)) p junk) := by
  cases op with
  | load a => exact intStmLoad_sameActions
  | store a x => exact stmWrite_sameActions
  | store2 a x k => exact stmWrite_sameActions
  | rollback reason => exact stmRollback_sameActions reason
  | commit => exact intStmCommit_sameActions
  | raR a => exact h.elim
  | raW a => exact h.elim
  | rfW a => exact h.elim
  | waR a x k => exact h.elim
  | waW a x k => exact h.elim
  | validate => exact h.elim

/-- An operation that is dispatched by the design behaves like that of the static build. -/
theorem Op.Dispatched.refinesStatic {op : Op Addr w} (h : op.Dispatched) :
    RefinesStatic cfg p attr op := by
  intro junk R hR s hs d t hd
  refine (h.sameActions junk).ended_iff (fun s s' hss' hs => ?_) hs hd
  exact (congrArg (fun o : Own Tid Addr Lock w => o.tx.attr) (hR s s' hss')).trans hs

/-! ## The operations that are not -/

/-- Thread `p` owns the lock of `a`, where it and the memory hold `v`. -/
def State.owning (cfg : Config Addr Lock) (p : Tid) (attr : Attr) (a : Addr) (v : BitVec w) :
    State Tid Addr Lock w :=
  { State.init (fun _ => v) 1 with
    locks := Function.update (fun _ => .free 0) (cfg.getLock a) (.owned p 0)
    txs := fun _ => { StmTx.init 1 with
      attr := attr, status := .active, nesting := 1
      wSet := ⟨[⟨a, v, BitVec.allOnes w, 0, cfg.getLock a, none, false⟩], 1, 0⟩ } }

section
variable {v : BitVec w} {J : State Tid Addr Lock w → Prop}

omit [DecidableEq Addr] [DecidableEq Tid] in
/-- The transaction owns the lock. -/
theorem owning_locks :
    (State.owning cfg p attr a v).locks (cfg.getLock a) = .owned p 0 := by
  simp [State.owning]

omit [DecidableEq Addr] in
/-- The owner finds its own entry at the lock. -/
theorem owning_owns : ((State.owning cfg p attr a v).txs p).Owns p p 0 := ⟨rfl, Nat.one_pos⟩

omit [DecidableEq Tid] in
/-- The chain has the entry of the word. -/
theorem owning_chainFind :
    chainFind ((State.owning cfg p attr a v).txs p).wSet.entries a
      ((State.owning cfg p attr a v).txs p).wSet.entries.length 0 =
        .found 0 ⟨a, v, BitVec.allOnes w, 0, cfg.getLock a, none, false⟩ := by
  simp [State.owning, chainFind]

/-- The mask of a whole word is not empty. -/
theorem allOnes_ne_zero (hw : 0 < w) : BitVec.allOnes w ≠ 0#w := by
  intro h
  have := congrArg (·.getLsbD 0) h
  simp [hw] at this

/-- A load of the own word, in write-back with encounter-time locking. -/
theorem stmWbetlReadInvisible_owning (hw : 0 < w) : (stmWbetlReadInvisible cfg p a).Ends
    (fun x _ => x = v) J (.owning cfg p attr a v) := by
  refine .leave (.access ?_)
  simp only [owning_locks]
  refine .access ?_
  simp only [if_pos owning_owns, owning_chainFind, entryValue, if_neg (allOnes_ne_zero hw)]
  exact .ret ⟨v, rfl, rfl⟩

/-- A load of the own word, in write-through. -/
theorem stmWtRead_owning : (stmWtRead cfg p a).Ends (fun x _ => x = v) J
    (.owning cfg p attr a v) := by
  refine .leave (.access ?_)
  simp only [owning_locks]
  refine .access ?_
  simp only [if_pos owning_owns]
  exact .access (.ret ⟨v, rfl, rfl⟩)

omit [DecidableEq Tid] in
/-- The write set has the entry of the word. -/
theorem owning_writtenEntry :
    writtenEntry ((State.owning cfg p attr a v).txs p) a =
      some ⟨a, v, BitVec.allOnes w, 0, cfg.getLock a, none, false⟩ := by
  simp [State.owning, writtenEntry]

/-- A load of the own word, with commit-time locking. -/
theorem stmWbctlRead_owning : (stmWbctlRead cfg p a).Ends (fun x _ => x = v) J
    (.owning cfg p attr a v) := by
  refine .access ?_
  simp only [owning_writtenEntry, Option.filter, decide_true, if_true]
  exact .ret rfl

/-- A store under an empty mask, in write-back with encounter-time locking. -/
theorem stmWbetlWrite_owning : (stmWbetlWrite cfg p a x 0#w).Ends
    (fun _ t => t = .owning cfg p attr a v) J (.owning cfg p attr a v) := by
  refine .leave (.access ?_)
  simp only [owning_locks]
  refine .access ?_
  simp only [if_pos owning_owns, if_true]
  exact .ret ⟨(), rfl, rfl⟩

/-- A store under an empty mask, in write-through. -/
theorem stmWtWrite_owning : (stmWtWrite cfg p a x 0#w).Ends
    (fun _ t => t = .owning cfg p attr a v) J (.owning cfg p attr a v) := by
  refine .leave (.access ?_)
  simp only [owning_locks]
  refine .access ?_
  simp only [if_pos owning_owns, if_true]
  exact .ret ⟨(), rfl, rfl⟩

variable {d : Design} {junk : BitVec w}

/-- `int_stm_RaR` of a build of a single design. -/
theorem intStmRaR_owning (hd : d ≠ .modular) (hw : 0 < w) :
    (intStmRaR (cfg.static d) p junk a).Ends (fun x _ => x = v) J (.owning cfg p attr a v) := by
  cases d with
  | writeBackEtl => exact stmWbetlReadInvisible_owning hw
  | writeBackCtl => exact stmWbctlRead_owning
  | writeThrough => exact stmWtRead_owning
  | modular => exact absurd rfl hd

/-- `int_stm_RaW` of a build of a single design. -/
theorem intStmRaW_owning (hd : d ≠ .modular) :
    (intStmRaW (cfg.static d) p junk a).Ends (fun x _ => x = v) J (.owning cfg p attr a v) := by
  cases d with
  | writeBackEtl =>
    refine .access (.access ?_)
    simp only [owning_locks, if_pos owning_owns]
    exact .ret (by simp [State.owning])
  | writeBackCtl => exact stmWbctlRead_owning
  | writeThrough => exact .atomic rfl
  | modular => exact absurd rfl hd

/-- `int_stm_RfW` of a build of a single design. -/
theorem intStmRfW_owning (hd : d ≠ .modular) :
    (intStmRfW (cfg.static d) p junk a).Ends (fun x _ => x = v) J (.owning cfg p attr a v) := by
  have load {t : State Tid Addr Lock w} (ht : t = .owning cfg p attr a v) :
      (loadWord a).Ends (fun x _ => x = v) J t := by
    subst ht
    exact .atomic rfl
  cases d with
  | writeBackEtl => exact .bind stmWbetlWrite_owning fun _ t ht => load ht
  | writeBackCtl => exact stmWbctlRead_owning
  | writeThrough => exact .bind stmWtWrite_owning fun _ t ht => load ht
  | modular => exact absurd rfl hd

/-- A word with a bit that differs under the mask changes. -/
theorem merge_not_ne (hk : k ≠ 0#w) : BitVec.merge (~~~x) x k ≠ ~~~x := by
  intro h
  refine hk (BitVec.eq_of_getLsbD_eq fun i hi => ?_)
  have hi' := congrArg (·.getLsbD i) h
  simp only [BitVec.getLsbD_merge, BitVec.getLsbD_not, hi, decide_true, Bool.true_and] at hi'
  cases hki : k.getLsbD i
  · simp
  · rw [hki, if_pos rfl] at hi'
    simp at hi'

/-- `int_stm_WaW` of a build of a single design stores the value. -/
theorem intStmWaW_owning (hd : d ≠ .modular) (hk : k ≠ 0#w) :
    (intStmWaW (cfg.static d) p a x k).Ends (fun _ t => t ≠ .owning cfg p attr a (~~~x)) J
      (.owning cfg p attr a (~~~x)) := by
  have value_ne {f : WEntry Addr Lock w → WEntry Addr Lock w} (hf : ∀ e, (f e).value ≠ ~~~x) :
      (State.owning cfg p attr a (~~~x)).setTx p (fun tx => { tx with
        wSet := tx.wSet.modify 0 f }) ≠ .owning cfg p attr a (~~~x) := by
    intro h
    have := congrArg (fun s => (s.txs p).wSet.entries.head?.map (·.value)) h
    simp [State.owning, State.setTx, WSet.modify, hf] at this
  cases d with
  | writeBackEtl =>
    refine .access (.access ?_)
    simp only [owning_locks, if_pos owning_owns, owning_chainFind, wbetlMerge, entryValue]
    have hw : 0 < w := Nat.pos_of_ne_zero fun h => hk (by subst h; exact BitVec.eq_nil k)
    rw [if_neg (allOnes_ne_zero hw)]
    split
    · rename_i hall
      exact .atomic (value_ne fun _ => by simpa [hall, BitVec.merge_allOnes] using merge_not_ne hk)
    · exact .atomic (value_ne fun _ => merge_not_ne hk)
  | writeBackCtl =>
    refine .access ?_
    have hsome : stmHasWritten ((State.owning cfg p attr a (~~~x)).txs p) a = some 0 := by
      simp [State.owning, stmHasWritten]
    simp only [hsome]
    refine .atomic fun h => ?_
    have := congrArg (fun s => (s.txs p).wSet.entries.head?.map (·.value)) h
    simp [State.owning, State.setTx, WSet.modify, merge_not_ne hk] at this
  | writeThrough =>
    have mem_ne {y : BitVec w} (hy : y ≠ ~~~x) :
        { State.owning cfg p attr a (~~~x) with
          mem := Function.update (State.owning cfg p attr a (~~~x)).mem a y } ≠
            .owning cfg p attr a (~~~x) := by
      intro h
      have := congrArg (fun s => s.mem a) h
      simp [State.owning, State.init, hy] at this
    unfold intStmWaW stmWtWaW wtStore
    dsimp only
    split
    · rename_i hall
      exact .atomic (mem_ne (by simpa [hall, BitVec.merge_allOnes] using merge_not_ne hk))
    · exact .access (.atomic (mem_ne (merge_not_ne hk)))
  | modular => exact absurd rfl hd

end

/-- Thread `p` has started a transaction, and all locks are free. -/
def State.started (p : Tid) (attr : Attr) : State Tid Addr Lock w :=
  State.setTx (State.init (fun _ => 0#w) 1) p fun tx =>
    { tx with attr := attr, status := .active, nesting := 1 }

section
variable {J : State Tid Addr Lock w → Prop} {d : Design}

omit [DecidableEq Addr] [DecidableEq Lock] in
/-- The write set is not empty after an entry has been added. -/
theorem wbetlDoWrite_pushes {s : State Tid Addr Lock w} (lock : Lock) (version : ℕ)
    (prev : Option ℕ) : (wbetlDoWrite p lock a x k version prev).Ends
      (fun _ t => (t.txs p).wSet.entries ≠ []) J s := by
  unfold wbetlDoWrite
  split
  · exact .atomic (by simp [State.setTx, WSet.push])
  · split
    · exact .atomic (by simp [State.setTx, WSet.push])
    · exact .access (.atomic (by simp [State.setTx, WSet.push]))

omit [DecidableEq Lock] in
/-- The write set is not empty after an entry has been added. -/
theorem wtDoWrite_pushes {s : State Tid Addr Lock w} (lock : Lock) (version : ℕ)
    (prev : Option ℕ) : (wtDoWrite p lock a x k version prev).Ends
      (fun _ t => (t.txs p).wSet.entries ≠ []) J s := by
  unfold wtDoWrite
  split
  · exact .atomic (by simp [State.setTx, WSet.push])
  · exact .access (.access (.atomic (by simp [State.setTx, WSet.push])))

/-- A store with encounter-time locking to a free stripe adds an entry. -/
theorem writeLoop_started {merge : ℕ → ℕ → WEntry Addr Lock w → M Tid Addr Lock w Unit}
    {push : ℕ → Option ℕ → M Tid Addr Lock w Unit} {version : ℕ → ℕ}
    (hpush : ∀ v prev s, (push v prev).Ends (fun _ t => (t.txs p).wSet.entries ≠ []) J s) :
    (writeLoop cfg p a k merge push version).Ends (fun _ t => (t.txs p).wSet.entries ≠ []) J
      (.started p attr) := by
  have hroom : (extendWs cfg p).Ends (fun _ t => t = State.started p attr) J
      (State.started p attr : State Tid Addr Lock w) := by
    refine .access ?_
    rw [if_neg (by simp [State.started, State.setTx, State.init, StmTx.init])]
    exact .ret rfl
  refine .leave (.access (.access ?_))
  have hfree : (State.started p attr : State Tid Addr Lock w).locks (cfg.getLock a) = .free 0 := rfl
  simp only [hfree]
  rw [if_neg (by simp [State.started, State.setTx, State.init, StmTx.init, lockGetTimestamp])]
  refine .bind hroom fun _ t ht => ?_
  subst ht
  refine .access (.access ?_)
  simp only [hfree, if_true]
  exact .bind (hpush ..) fun _ t ht => .ret ⟨(), rfl, ht⟩

omit [DecidableEq Addr] [DecidableEq Lock] in
/-- The validation of an empty read set. -/
theorem validateEntries_started {test : StmTx Addr Lock w → ℕ → REntry Lock → Bool} :
    (getTx p >>= fun tx => validateEntries p test tx.rSet).Ends (fun ok _ => ok = true) J
      (.started p attr) := by
  refine .access ?_
  have hempty : ((State.started p attr : State Tid Addr Lock w).txs p).rSet = [] := by
    simp [State.started, State.setTx, State.init, StmTx.init]
  simp only [hempty]
  exact .ret rfl

omit [DecidableEq Addr] [DecidableEq Lock] in
/-- The validation of a build of a single design. -/
theorem setIrrevocableValidate_started (hd : d ≠ .modular) :
    (setIrrevocableValidate (cfg.static d) p).Ends (fun ok _ => ok = true) J
      (.started p attr) := by
  cases d with
  | writeBackEtl => exact validateEntries_started
  | writeBackCtl => exact validateEntries_started
  | writeThrough => exact validateEntries_started
  | modular => exact absurd rfl hd

omit [DecidableEq Addr] [DecidableEq Lock] in
/-- The validation of a MODULAR build is inverted. -/
theorem setIrrevocableValidate_modular (hm : cfg.design = .modular) :
    (setIrrevocableValidate cfg p).Ends (fun ok _ => ok = false) J (.started p attr) := by
  unfold setIrrevocableValidate
  rw [hm]
  refine .access ?_
  dsimp only
  split
  · exact .bind validateEntries_started fun _ _ h => .ret (h ▸ rfl)
  · exact .bind validateEntries_started fun _ _ h => .ret (h ▸ rfl)
  · exact .bind validateEntries_started fun _ _ h => .ret (h ▸ rfl)

/-- `int_stm_WaR` of a build of a single design adds an entry. -/
theorem intStmWaR_started (hd : d ≠ .modular) :
    (intStmWaR (cfg.static d) p a x k).Ends (fun _ t => (t.txs p).wSet.entries ≠ []) J
      (.started p attr) := by
  cases d with
  | writeBackEtl => exact writeLoop_started fun v prev _ => wbetlDoWrite_pushes _ v prev
  | writeBackCtl =>
    refine .leave (.access ?_)
    have hfree : (State.started p attr : State Tid Addr Lock w).locks (cfg.getLock a) = .free 0 :=
      rfl
    simp only [hfree]
    refine .access ?_
    have hnone : stmHasWritten ((State.started p attr : State Tid Addr Lock w).txs p) a = none := by
      simp [State.started, State.setTx, State.init, StmTx.init, stmHasWritten]
    simp only [hnone]
    rw [if_neg (by simp [State.started, State.setTx, State.init, StmTx.init, lockGetTimestamp])]
    exact .access (.ret ⟨(), rfl, by simp [State.setTx, wbctlPush]⟩)
  | writeThrough => exact writeLoop_started fun v prev _ => wtDoWrite_pushes _ v prev
  | modular => exact absurd rfl hd

end

/-- An operation that a MODULAR build does not dispatch ends differently in the build of the design. -/
theorem not_refinesStatic (hm : cfg.design = .modular) (hw : 0 < w) {op : Op Addr w}
    (hop : op.Proper) (hd : ¬ op.Dispatched) : ¬ RefinesStatic cfg p attr op := by
  have hne := cfg.designOf_ne_modular attr
  have hstarted : HasAttr p attr (State.started p attr : State Tid Addr Lock w) := by
    simp [HasAttr, State.started, State.setTx]
  have hjunk : (BitVec.allOnes w) ≠ 0#w := allOnes_ne_zero hw
  let owning : Addr → BitVec w → State Tid Addr Lock w := State.owning cfg p attr
  intro h
  have alone := fun junk s => h junk (fun _ _ => False) (fun _ _ hf => hf.elim) s
  cases op with
  | load a => exact hd trivial
  | store a x => exact hd trivial
  | store2 a x k => exact hd trivial
  | rollback reason => exact hd trivial
  | commit => exact hd trivial
  | raR a =>
    refine Prog.Ends.not_same (Q := fun y _ => y = BitVec.allOnes w) ?_ (intStmRaR_owning hne hw)
      (fun _ _ hy hy' => hjunk (hy.symm.trans hy')) (alone (BitVec.allOnes w) (owning a 0#w) rfl)
    simp only [Op.run, intStmRaR, hm]
    exact .ret rfl
  | raW a =>
    refine Prog.Ends.not_same (Q := fun y _ => y = BitVec.allOnes w) ?_ (intStmRaW_owning hne)
      (fun _ _ hy hy' => hjunk (hy.symm.trans hy')) (alone (BitVec.allOnes w) (owning a 0#w) rfl)
    simp only [Op.run, intStmRaW, hm]
    exact .ret rfl
  | rfW a =>
    refine Prog.Ends.not_same (Q := fun y _ => y = BitVec.allOnes w) ?_ (intStmRfW_owning hne)
      (fun _ _ hy hy' => hjunk (hy.symm.trans hy')) (alone (BitVec.allOnes w) (owning a 0#w) rfl)
    simp only [Op.run, intStmRfW, hm]
    exact .ret rfl
  | waR a x k =>
    refine Prog.Ends.not_same (Q := fun _ t => t = .started p attr) ?_ (intStmWaR_started hne)
      (fun _ t ht => ?_) (alone 0#w _ hstarted)
    · simp only [Op.run, intStmWaR, hm]
      exact .ret rfl
    · subst ht
      simp [State.started, State.setTx, State.init, StmTx.init]
  | waW a x k =>
    refine Prog.Ends.not_same (Q := fun _ t => t = .owning cfg p attr a (~~~x)) ?_
      (intStmWaW_owning hne hop) (fun _ _ ht ht' => ht' ht) (alone 0#w _ rfl)
    simp only [Op.run, intStmWaW, hm]
    exact .ret rfl
  | validate =>
    exact Prog.Ends.not_same (setIrrevocableValidate_modular hm)
      (setIrrevocableValidate_started hne) (fun _ _ h h' => Bool.noConfusion (h.symm.trans h'))
      (alone 0#w _ hstarted)

/-- A MODULAR build refines the builds of the single designs for exactly the operations that are
dispatched by `attr.id`. -/
theorem modular_refines_iff (hm : cfg.design = .modular) (hw : 0 < w) {op : Op Addr w}
    (hop : op.Proper) : RefinesStatic cfg p attr op ↔ op.Dispatched :=
  ⟨fun h => not_not.1 fun hd => not_refinesStatic hm hw hop hd h, Op.Dispatched.refinesStatic⟩

/-- A store of a write-through transaction. -/
theorem modular_refines_store :
    RefinesStatic (Config.plain .modular id : Config (Fin 2) (Fin 2)) (0 : Fin 2) ⟨2, false, false⟩
      (.store 1 (7#8)) ↔ True :=
  modular_refines_iff rfl (by decide) trivial

/-- A transaction without reads that asks for irrevocability fails its validation. -/
theorem modular_not_refines :
    ¬ ∀ (attr : Attr) (op : Op (Fin 2) 8), op.Proper →
      RefinesStatic (Config.plain .modular id : Config (Fin 2) (Fin 2)) (0 : Fin 2) attr op :=
  fun h => by
    have hproper : (Op.validate : Op (Fin 2) 8).Proper := trivial
    exact not_refinesStatic rfl (by decide) hproper id (h ⟨0, false, false⟩ .validate hproper)

end TinyStm
