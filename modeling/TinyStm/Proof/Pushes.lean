import TinyStm.Proof.Alike
import TinyStm.Protocol.View

/-!
# What a transaction commits

A thread adds to the commits at one moment of `stm_commit`, and only its own descriptor goes into
it: the attributes, the trace and the end of the snapshot. So a property of the commits is a matter
of the thread's own place. `Upholds` is the walk over all operations: a property `φ` of the place
lasts while an attempt is under way, and a new attempt begins in `ψ`.
-/

namespace TinyStm

section
variable {Tid Addr Lock : Type} {w : ℕ}

/-- What a commit is made of. -/
structure Place (Addr : Type) (w : ℕ) where
  attr : Attr
  end_ : ℕ
  trace : Trace Addr w

/-- What the transaction would commit. -/
def StmTx.place (tx : StmTx Addr Lock w) : Place Addr w := ⟨tx.attr, tx.end_, tx.trace⟩

/-- The step adds commits of `p` only, and changes no descriptor but that of `p`. -/
structure Pushes (p : Tid) (s s' : State Tid Addr Lock w) : Prop where
  txs : ∀ q, q ≠ p → s'.txs q = s.txs q
  commits : ∃ l : History Tid Addr w, s'.commits = l ++ s.commits ∧ ∀ c ∈ l, c.tid = p

/-- A step that changes nothing. -/
theorem Pushes.refl (p : Tid) (s : State Tid Addr Lock w) : Pushes p s s :=
  ⟨fun _ _ => rfl, [], rfl, nofun⟩

/-- The step leaves the place of `p`, the commits and the other descriptors alone. -/
structure KeepsPlace (p : Tid) (s s' : State Tid Addr Lock w) : Prop where
  place : (s'.txs p).place = (s.txs p).place
  commits : s'.commits = s.commits
  txs : ∀ q, q ≠ p → s'.txs q = s.txs q

/-- A step that changes nothing. -/
theorem KeepsPlace.refl (p : Tid) (s : State Tid Addr Lock w) : KeepsPlace p s s :=
  ⟨rfl, rfl, fun _ _ => rfl⟩

/-- The attributes and the trace belong to the control part. -/
theorem KeepsAttempt.place {p : Tid} {s s' : State Tid Addr Lock w} (h : KeepsAttempt p s s') :
    KeepsPlace p s s' where
  place := by
    have hattr : (s'.txs p).attr = (s.txs p).attr := congrArg Control.attr h.control
    have htrace : (s'.txs p).trace = (s.txs p).trace := congrArg Control.trace h.control
    rw [StmTx.place, StmTx.place, hattr, h.end_, htrace]
  commits := h.commits
  txs := h.txs

/-- A part that leaves the attempt alone leaves its place alone. -/
theorem place_of_keeps {p : Tid} {α : Type} {c : M Tid Addr Lock w α}
    (h : c.Within (KeepsAttempt p)) : c.Within (KeepsPlace p) :=
  h.mono fun _ _ hr => hr.place

/-- A step that adds no commit. -/
theorem KeepsPlace.pushes {p : Tid} {s s' : State Tid Addr Lock w} (h : KeepsPlace p s s') :
    Pushes p s s' :=
  ⟨h.txs, [], h.commits, nofun⟩

/-- The commits since they were `L`, when the clock was `N`, are good. -/
def pushing (good : Commit Tid Addr w → Prop) (N : ℕ) (L : History Tid Addr w) :
    RG (State Tid Addr Lock w) Tid where
  inv s := ∃ l : History Tid Addr w, s.commits = l ++ L ∧ ∀ c ∈ l, good c
  guar := Pushes
  obs s := N ≤ s.clock
  refl p s _ := .refl p s

/-- A property of the place lasts while the snapshot is extended, and `ψ` holds of a new attempt. -/
structure Lasting (N : ℕ) (φ ψ : Place Addr w → Prop) : Prop where
  extend : ∀ x n, N ≤ n → φ x → φ { x with end_ := n }
  fresh : ∀ x, N ≤ x.end_ → x.trace = [] → ψ x

/-- What `p` commits from such a place is good. -/
structure Vouches (good : Commit Tid Addr w → Prop) (N : ℕ) (p : Tid) (φ : Place Addr w → Prop) :
    Prop where
  update : ∀ x t, N < t → φ x → good ⟨p, t, true, x.trace⟩
  readOnly : ∀ x n, N ≤ n ∨ n = x.end_ → φ x → good ⟨p, n, false, x.trace⟩

end

variable {Tid Addr Lock : Type} {w : ℕ} {p : Tid} {good : Commit Tid Addr w → Prop} {N : ℕ}
  {L : History Tid Addr w} {φ ψ : Place Addr w → Prop} {α β : Type}

/-- The descriptor of `p` satisfies `φ`. -/
def onTx (good : Commit Tid Addr w → Prop) (N : ℕ) (L : History Tid Addr w) (p : Tid)
    (φ : StmTx Addr Lock w → Prop) :
    Assn (pushing good N L : RG (State Tid Addr Lock w) Tid) p where
  holds s := φ (s.txs p)
  stable q hq s s' _ _ hg h := by
    have hg : Pushes q s s' := hg
    rw [hg.txs p hq.symm]
    exact h

/-- The place of `p` satisfies `φ`. -/
abbrev onPlace (good : Commit Tid Addr w → Prop) (N : ℕ) (L : History Tid Addr w) (p : Tid)
    (φ : Place Addr w → Prop) : Assn (pushing good N L : RG (State Tid Addr Lock w) Tid) p :=
  onTx good N L p fun tx => φ tx.place

/-- Between two calls the place of an attempt that is under way satisfies `φ`. -/
abbrev placeReady (good : Commit Tid Addr w → Prop) (N : ℕ) (L : History Tid Addr w) (p : Tid)
    (φ : Place Addr w → Prop) : Assn (pushing good N L : RG (State Tid Addr Lock w) Tid) p :=
  onTx good N L p fun tx => tx.status.isActive = true ∨ tx.nesting > 0 → φ tx.place

/-- The program keeps `φ`, and starts new attempts in `ψ`. -/
abbrev Upholds (good : Commit Tid Addr w → Prop) (N : ℕ) (L : History Tid Addr w) (p : Tid)
    (φ ψ : Place Addr w → Prop) (c : M Tid Addr Lock w α) : Prop :=
  Triple (pushing good N L) p (onPlace good N L p φ) c (fun _ => onPlace good N L p φ)
    (onPlace good N L p ψ)

/-- A step that leaves the place alone adds no commit. -/
theorem pushing_of_keepsPlace {s s' : State Tid Addr Lock w} (hs : (pushing good N L).Ok s)
    (h : KeepsPlace p s s') : (pushing good N L).inv s' ∧ (pushing good N L).guar p s s' := by
  refine ⟨?_, h.pushes⟩
  change ∃ l : History Tid Addr w, s'.commits = l ++ L ∧ _
  rw [h.commits]
  exact hs.inv

/-- A good commit. -/
theorem pushing_push {s : State Tid Addr Lock w} (hs : (pushing good N L).Ok s)
    {c : Commit Tid Addr w} (hc : good c) :
    ∃ l : History Tid Addr w, c :: s.commits = l ++ L ∧ ∀ d ∈ l, good d := by
  obtain ⟨l, hl, hgood⟩ := hs.inv
  exact ⟨c :: l, by rw [hl]; rfl, List.forall_mem_cons.2 ⟨hc, hgood⟩⟩

/-- A part that leaves the place and the commits alone. -/
theorem keep_within {c : M Tid Addr Lock w α} (h : c.Within (KeepsPlace p)) :
    Upholds good N L p φ ψ c :=
  .of_within h fun _ _ hs hr hP => ⟨(pushing_of_keepsPlace hs hr).1, hr.pushes,
    (congrArg φ hr.place).mpr hP⟩

/-- Nothing is done. -/
theorem keep_pure (a : α) : Upholds good N L p φ ψ (pure a : M Tid Addr Lock w α) :=
  .of_ret fun _ _ h => h

/-- A part that leaves the place and the commits alone, and what follows it. -/
theorem keep_access {c : M Tid Addr Lock w β} {f : β → M Tid Addr Lock w α}
    (hc : c.Within (KeepsPlace p)) (hf : ∀ b, Upholds good N L p φ ψ (f b)) :
    Upholds good N L p φ ψ (c >>= f) :=
  .bind (keep_within hc) hf

/-- A part that leaves the attempt alone, and what follows it. -/
theorem keep_step {c : M Tid Addr Lock w β} {f : β → M Tid Addr Lock w α}
    (hc : c.Within (KeepsAttempt p)) (hf : ∀ b, Upholds good N L p φ ψ (f b)) :
    Upholds good N L p φ ψ (c >>= f) :=
  keep_access (place_of_keeps hc) hf

/-- A loop. -/
theorem keep_iterate {γ : Type} {body : β → M Tid Addr Lock w (β ⊕ γ)} {b : β}
    (h : ∀ b, Upholds good N L p φ ψ (body b)) : Upholds good N L p φ ψ (.iterate b body) :=
  .iterate (fun _ => onPlace good N L p φ) (fun _ _ h => h) fun b =>
    (h b).post (fun a _ _ h => by cases a <;> exact h) fun _ _ h => h

/-- An action, and what follows it. -/
theorem pushes_act {P J : Assn (pushing good N L : RG (State Tid Addr Lock w) Tid) p}
    {Q : α → Assn (pushing good N L : RG (State Tid Addr Lock w) Tid) p}
    {g : State Tid Addr Lock w → β × State Tid Addr Lock w} {k : β → M Tid Addr Lock w α}
    (R : β → Assn (pushing good N L : RG (State Tid Addr Lock w) Tid) p)
    (h : ∀ s, (pushing good N L).Ok s → P s →
      (pushing good N L).inv (g s).2 ∧ Pushes p s (g s).2 ∧ R (g s).1 (g s).2)
    (hk : ∀ b, Triple (pushing good N L) p (R b) (k b) Q J) :
    Triple (pushing good N L) p P (Prog.atomic g >>= k) Q J :=
  .act R h hk

section
variable [DecidableEq Tid] {f : StmTx Addr Lock w → StmTx Addr Lock w}

/-- The state after a change of the descriptor that leaves its place alone. -/
theorem keepsPlace_setTx {s t : State Tid Addr Lock w} (ht : t.txs = s.txs)
    (hc : t.commits = s.commits) (h : (f (s.txs p)).place = (s.txs p).place) :
    KeepsPlace p s (t.setTx p f) := by
  refine ⟨?_, hc, fun q hq => ?_⟩
  · rw [State.setTx_txs_self, ht, h]
  · rw [State.setTx_txs_of_ne hq, ht]

/-- A change of the descriptor that leaves its place alone. -/
theorem modifyTx_place (h : ∀ tx, (f tx).place = tx.place) :
    (modifyTx p f).Within (KeepsPlace p) :=
  Prog.within_atomic fun _ => keepsPlace_setTx rfl rfl (h _)

/-- A change of the descriptor. -/
theorem pushes_modifyTx {φ ψ : StmTx Addr Lock w → Prop}
    {Q : α → Assn (pushing good N L : RG (State Tid Addr Lock w) Tid) p}
    {J : Assn (pushing good N L : RG (State Tid Addr Lock w) Tid) p}
    {k : Unit → M Tid Addr Lock w α} (h : ∀ tx, φ tx → ψ (f tx))
    (hk : Triple (pushing good N L) p (onTx good N L p ψ) (k ()) Q J) :
    Triple (pushing good N L) p (onTx good N L p φ) (modifyTx p f >>= k) Q J :=
  pushes_act (fun _ => onTx good N L p ψ) (fun s hs hP => ⟨hs.inv,
    ⟨fun _ hq => State.setTx_txs_of_ne hq, [], rfl, List.forall_mem_nil _⟩, by
    change ψ ((s.setTx p f).txs p)
    rw [State.setTx_txs_self]
    exact h _ hP⟩) fun _ => hk

end

variable [DecidableEq Tid] [DecidableEq Addr] [DecidableEq Lock] {cfg : Config Addr Lock}
  {a : Addr} {x k : BitVec w}

/-! ## The clock -/

omit [DecidableEq Tid] [DecidableEq Addr] [DecidableEq Lock] in
/-- The clock is at least `N`. -/
theorem pushes_getClock {P J : Assn (pushing good N L : RG (State Tid Addr Lock w) Tid) p}
    {Q : α → Assn (pushing good N L : RG (State Tid Addr Lock w) Tid) p}
    {f : ℕ → M Tid Addr Lock w α}
    (hf : ∀ n, N ≤ n → Triple (pushing good N L) p P (f n) Q J) :
    Triple (pushing good N L) p P (getClock >>= f) Q J :=
  pushes_act (fun n => .pure (N ≤ n) ⊓ P) (fun s hs hP => ⟨hs.inv, .refl p s, hs.obs, hP⟩) fun n =>
    .of_fact (fun _ _ h => h.1) fun hn => (hf n hn).pre fun _ _ h => h.2

omit [DecidableEq Addr] [DecidableEq Lock] in
/-- The extension of a design. -/
theorem tryExtend_keep (hφ : Lasting N φ ψ) {test : StmTx Addr Lock w → ℕ → REntry Lock → Bool}
    {tx : StmTx Addr Lock w} : Upholds good N L p φ ψ
      (tryExtend tx (extendWith p (getTx p >>= fun tx => validateEntries p test tx.rSet))) := by
  unfold tryExtend
  split
  · exact keep_pure _
  · refine pushes_getClock fun now hnow => keep_access ?_ fun ok => ?_
    · exact (place_of_keeps getTx_keeps).bind fun tx => validateEntries_within (KeepsPlace.refl p) tx.rSet
    · split
      · exact pushes_modifyTx (ψ := fun tx => φ tx.place)
          (fun tx h => hφ.extend tx.place now hnow h) (keep_pure _)
      · exact keep_pure _

/-! ## The token -/

omit [DecidableEq Addr] [DecidableEq Lock] in
/-- The token is taken. -/
theorem casIrrevocable_place : (casIrrevocable p : M Tid Addr Lock w _).Within (KeepsPlace p) := by
  refine Prog.within_atomic fun s => ?_
  split
  · have h := keepsPlace_setTx (p := p) (s := s) (t := { s with irrevocable := 1 })
      (f := fun tx => { tx with irrevocable := tx.irrevocable + 1 }) rfl rfl rfl
    exact h
  · exact KeepsPlace.refl p s

omit [DecidableEq Addr] [DecidableEq Lock] in
/-- The token is given back. -/
theorem releaseIrrevocable_place :
    (releaseIrrevocable p : M Tid Addr Lock w _).Within (KeepsPlace p) := by
  refine Prog.within_atomic fun s => ?_
  have h := keepsPlace_setTx (p := p) (s := s) (t := { s with irrevocable := 0 })
    (f := fun tx => { tx with irrevocable := 0 }) rfl rfl rfl
  exact h

omit [DecidableEq Addr] [DecidableEq Lock] in
/-- The request of `int_stm_prepare`. -/
theorem setIrrevocableRestart_place :
    (setIrrevocableRestart p : M Tid Addr Lock w _).Within (KeepsPlace p) := by
  refine (place_of_keeps getTx_keeps).bind fun tx => ?_
  split
  · trivial
  · split
    · refine Prog.Within.bind (Prog.within_iterate fun _ => ?_) fun _ => modifyTx_place fun _ => rfl
      refine Prog.within_access (KeepsPlace.refl p) fun i => ?_
      split
      · trivial
      · exact casIrrevocable_place.bind fun _ => trivial
    · exact modifyTx_place fun _ => rfl

omit [DecidableEq Addr] [DecidableEq Lock] in
/-- The start of a new attempt. -/
theorem intStmPrepare_fresh_place {J : Assn (pushing good N L : RG (State Tid Addr Lock w) Tid) p} :
    Triple (pushing good N L) p (.pure True) (intStmPrepare cfg p : M Tid Addr Lock w _)
      (fun _ => onPlace good N L p fun x => N ≤ x.end_ ∧ x.trace = []) J := by
  refine Triple.pre (P := onTx good N L p fun _ => True) ?_ fun _ _ _ => trivial
  refine pushes_modifyTx (ψ := fun tx => tx.trace = []) (fun _ _ => rfl) ?_
  refine .bind (R := fun _ => onPlace good N L p fun x => N ≤ x.end_ ∧ x.trace = []) ?_ fun _ => ?_
  · refine .iterate (fun _ => onTx good N L p fun tx => tx.trace = []) (fun _ _ h => h) fun _ =>
      pushes_getClock fun now hnow => ?_
    refine pushes_modifyTx (ψ := fun tx => N ≤ tx.end_ ∧ tx.trace = []) (fun _ h => ⟨hnow, h⟩) ?_
    refine .of_ret fun s _ h => ?_
    split
    · exact h.2
    · exact h
  · have hlast : ∀ st : Status, Upholds good N L p (fun x => N ≤ x.end_ ∧ x.trace = [])
        (fun _ => False) (modifyTx p fun tx => { tx with status := st } : M Tid Addr Lock w _) :=
      fun _ => keep_within (modifyTx_place fun _ => rfl)
    refine Triple.post (J := onPlace good N L p fun _ => False) ?_ (fun _ _ _ h => h)
      fun _ _ h => h.elim
    exact keep_step getTx_keeps fun tx => .ite (fun _ => keep_access setIrrevocableRestart_place
      fun _ => hlast _) fun _ => hlast _

/-- `stm_rollback`: a new attempt begins in `ψ`. -/
theorem stmRollback_keep (hψ : ∀ x : Place Addr w, N ≤ x.end_ → x.trace = [] → ψ x)
    (reason : Reason) :
    Upholds good N L p φ ψ (stmRollback cfg p reason : M Tid Addr Lock w _) := by
  refine keep_step stmDesignRollback_keeps fun _ => ?_
  refine keep_access (modifyTx_place fun _ => rfl) fun _ => ?_
  refine keep_access (modifyTx_place fun _ => rfl) fun _ => keep_access ?_ fun _ => ?_
  · exact waitCLock_within (r := KeepsPlace p) (KeepsPlace.refl p) fun s =>
      keepsPlace_setTx rfl rfl rfl
  refine keep_step getTx_keeps fun tx => .ite (fun _ => ?_) fun _ => ?_
  · exact keep_within (modifyTx_place fun _ => rfl)
  · exact .bind (intStmPrepare_fresh_place.pre fun _ _ _ => trivial) fun _ =>
      .jump fun _ _ h => hψ _ h.1 h.2

/-! ## The operations -/

section
variable (hφ : Lasting N φ ψ)

include hφ

/-- An abort, and the value that is returned if the transaction is not retried. -/
theorem keep_rollback {reason : Reason} {f : Unit → M Tid Addr Lock w α}
    (hf : Upholds good N L p φ ψ (f ())) :
    Upholds good N L p φ ψ (stmRollback cfg p reason >>= f) :=
  .bind (stmRollback_keep hφ.fresh reason) fun _ => hf

/-- `stm_wbetl_read_invisible`. -/
theorem stmWbetlReadInvisible_keep :
    Upholds good N L p φ ψ (stmWbetlReadInvisible cfg p a : M Tid Addr Lock w _) := by
  refine keep_iterate fun l? => keep_step (loadLockOr_keeps _ l?) fun l => ?_
  cases l with
  | owned q i =>
    refine keep_step getTx_keeps fun tx => .ite (fun _ => ?_) fun _ =>
      .ite (fun _ => keep_pure _) fun _ => ?_
    · cases chainFind tx.wSet.entries a tx.wSet.entries.length i with
      | found j e => exact keep_step (entryValue_keeps _) fun _ => keep_pure _
      | last j v => exact keep_step (loadWord_keeps a) fun _ => keep_pure _
    · exact keep_step (setCLock_keeps _) fun _ => keep_rollback hφ (keep_pure _)
  | free l =>
    refine keep_step (loadWord_keeps a) fun y => keep_step (loadLock_keeps _) fun l2 => ?_
    refine .ite (fun _ => keep_pure _) fun _ => keep_step getTx_keeps fun tx => ?_
    refine .ite (fun _ => keep_pure _) fun _ => .ite (fun _ => ?_) fun _ => ?_
    · refine .bind (tryExtend_keep hφ) fun ok => .ite (fun _ => ?_) fun _ =>
        keep_rollback hφ (keep_pure _)
      refine keep_step (loadLock_keeps _) fun l2 => .ite (fun _ => keep_pure _) fun _ => ?_
      exact keep_step (addToRs_keeps ..) fun _ => keep_pure _
    · exact keep_step (addToRs_keeps ..) fun _ => keep_pure _

/-- `stm_wt_read`. -/
theorem stmWtRead_keep : Upholds good N L p φ ψ (stmWtRead cfg p a : M Tid Addr Lock w _) := by
  refine keep_iterate fun l? => keep_step (loadLockOr_keeps _ l?) fun l => ?_
  cases l with
  | owned q i =>
    refine keep_step getTx_keeps fun tx => .ite (fun _ => ?_) fun _ =>
      .ite (fun _ => keep_pure _) fun _ => ?_
    · exact keep_step (loadWord_keeps a) fun _ => keep_pure _
    · exact keep_step (setCLock_keeps _) fun _ => keep_rollback hφ (keep_pure _)
  | free l =>
    refine keep_step (loadWord_keeps a) fun y => keep_step (loadLock_keeps _) fun l2 => ?_
    refine .ite (fun _ => keep_pure _) fun _ => keep_step getTx_keeps fun tx => ?_
    refine .ite (fun _ => keep_pure _) fun _ => keep_step (addToRs_keeps ..) fun _ => ?_
    refine .ite (fun _ => .bind (tryExtend_keep hφ) fun ok => ?_) fun _ => keep_pure _
    exact .ite (fun _ => keep_pure _) fun _ => keep_rollback hφ (keep_pure _)

/-- `stm_wbctl_read`. -/
theorem stmWbctlRead_keep :
    Upholds good N L p φ ψ (stmWbctlRead cfg p a : M Tid Addr Lock w _) := by
  refine keep_step getTx_keeps fun tx => ?_
  dsimp only
  cases (writtenEntry tx a).filter fun e => e.mask = BitVec.allOnes w with
  | some e => exact keep_pure _
  | none =>
    refine keep_iterate fun l? => keep_step (loadLockOr_keeps _ l?) fun l => ?_
    cases l with
    | owned q i => exact keep_pure _
    | free l =>
      refine keep_step (loadWord_keeps a) fun y => keep_step (loadLock_keeps _) fun l2 => ?_
      refine .ite (fun _ => keep_pure _) fun _ => keep_step getTx_keeps fun tx => ?_
      refine .ite (fun _ => keep_pure _) fun _ => .ite (fun _ => ?_) fun _ => ?_
      · refine .bind (tryExtend_keep hφ) fun ok => .ite (fun _ => ?_) fun _ =>
        keep_rollback hφ (keep_pure _)
        refine keep_step (loadLock_keeps _) fun l' => .ite (fun _ => keep_pure _) fun _ => ?_
        exact keep_step (addToRs_keeps ..) fun _ => keep_pure _
      · exact keep_step (addToRs_keeps ..) fun _ => keep_pure _

/-- The write set is full, or not. -/
theorem extendWs_keep : Upholds good N L p φ ψ (extendWs cfg p : M Tid Addr Lock w _) :=
  keep_step getTx_keeps fun _ => .ite (fun _ => stmRollback_keep hφ.fresh _) fun _ => keep_pure _

/-- The loop of the stores with encounter-time locking. -/
theorem writeLoop_keep {merge : ℕ → ℕ → WEntry Addr Lock w → M Tid Addr Lock w Unit}
    {push : ℕ → Option ℕ → M Tid Addr Lock w Unit} {version : ℕ → ℕ}
    (hmerge : ∀ i j e, (merge i j e).Within (KeepsAttempt p))
    (hpush : ∀ v prev, (push v prev).Within (KeepsAttempt p)) :
    Upholds good N L p φ ψ (writeLoop cfg p a k merge push version) := by
  refine keep_iterate fun _ => keep_step (loadLock_keeps _) fun l => ?_
  refine keep_step getTx_keeps fun tx => ?_
  cases l with
  | owned q i =>
    refine .ite (fun _ => .ite (fun _ => keep_pure _) fun _ => ?_) fun _ =>
      .ite (fun _ => keep_pure _) fun _ => ?_
    · cases chainFind tx.wSet.entries a tx.wSet.entries.length i with
      | found j e => exact keep_step (hmerge ..) fun _ => keep_pure _
      | last j v =>
        exact .bind (extendWs_keep hφ) fun _ => keep_step (hpush ..) fun _ => keep_pure _
    · exact keep_step (setCLock_keeps _) fun _ => keep_rollback hφ (keep_pure _)
  | free l =>
    refine .ite (fun _ => keep_rollback hφ (keep_pure _)) fun _ => ?_
    refine .bind (extendWs_keep hφ) fun _ => keep_step getTx_keeps fun tx => ?_
    refine keep_step (casLock_keeps ..) fun ok => .ite (fun _ => ?_) fun _ => keep_pure _
    exact keep_step (hpush ..) fun _ => keep_pure _

/-- `stm_wbctl_write`. -/
theorem stmWbctlWrite_keep :
    Upholds good N L p φ ψ (stmWbctlWrite cfg p a x k : M Tid Addr Lock w _) := by
  refine keep_iterate fun _ => keep_step (loadLock_keeps _) fun l => ?_
  cases l with
  | owned q i => exact keep_pure _
  | free l =>
    refine keep_step getTx_keeps fun tx => ?_
    dsimp only
    cases stmHasWritten tx a with
    | some i => exact keep_access (modifyTx_place fun _ => rfl) fun _ => keep_pure _
    | none =>
      refine .ite (fun _ => keep_rollback hφ (keep_pure _)) fun _ => ?_
      exact keep_access (modifyTx_place fun _ => rfl) fun _ => keep_pure _

/-- A lock is acquired at the commit. -/
theorem wbctlAcquireEntry_keep (i : ℕ) (lock : Lock) :
    Upholds good N L p φ ψ (wbctlAcquireEntry cfg p i lock : M Tid Addr Lock w _) := by
  refine keep_iterate fun _ => keep_step (loadLock_keeps _) fun l => ?_
  cases l with
  | owned q j =>
    refine keep_step getTx_keeps fun tx => .ite (fun _ => keep_pure _) fun _ => ?_
    exact keep_step (setCLock_keeps _) fun _ => .ite (fun _ => keep_pure _) fun _ =>
      keep_rollback hφ (keep_pure _)
  | free l =>
    refine keep_step (casLock_keeps ..) fun ok => .ite (fun _ => ?_) fun _ => keep_pure _
    exact keep_access (modifyTx_place fun _ => rfl) fun _ => keep_pure _

/-- The locks are acquired one after the other. -/
theorem wbctlAcquire_keep (es : List (WEntry Addr Lock w × ℕ)) :
    Upholds good N L p φ ψ (wbctlAcquire cfg p es : M Tid Addr Lock w _) := by
  induction es with
  | nil => exact keep_pure _
  | cons e es ih =>
    exact .bind (wbctlAcquireEntry_keep hφ ..) fun ok => .ite (fun _ => ih) fun _ => keep_pure _

omit [DecidableEq Addr] [DecidableEq Lock] hφ in
/-- A commit that has drawn its timestamp when the clock was at least `N`. -/
theorem recordUpdate_keep (hv : Vouches good N p φ) {t : ℕ} (ht : N < t) :
    Upholds good N L p φ ψ (recordUpdate p t : M Tid Addr Lock w _) :=
  .modify fun s hs h => ⟨pushing_push hs (hv.update _ t ht h),
    ⟨fun _ hq => State.setTx_txs_of_ne hq, [_], rfl, by simp⟩, by
    change φ (StmTx.place ((State.setTx _ p _).txs p))
    rw [State.setTx_txs_self]
    exact h⟩

omit [DecidableEq Tid] [DecidableEq Addr] [DecidableEq Lock] hφ in
/-- A commit that has written nothing. -/
theorem recordReadOnly_keep (hv : Vouches good N p φ) :
    Upholds good N L p φ ψ (recordReadOnly p : M Tid Addr Lock w _) := by
  refine .modify fun s hs h => ⟨pushing_push hs (hv.readOnly _ _ ?_ h),
    ⟨fun _ _ => rfl, [_], rfl, by simp⟩, h⟩
  split
  · exact .inr rfl
  · exact .inl hs.obs

/-- The part of a commit that the designs share. -/
theorem commitWith_keep (hv : Vouches good N p φ)
    {test : StmTx Addr Lock w → ℕ → REntry Lock → Bool}
    {install : List (WEntry Addr Lock w) → ℕ → M Tid Addr Lock w Unit}
    (hi : ∀ es t, (install es t).Within (KeepsAttempt p)) :
    Upholds good N L p φ ψ
      (commitWith cfg p (getTx p >>= fun tx => validateEntries p test tx.rSet) install) := by
  refine keep_step getTx_keeps fun tx => keep_access ?_ fun i => .ite (fun _ =>
    keep_rollback hφ (keep_pure _)) fun _ => ?_
  · unfold checkToken
    split
    · refine Prog.within_atomic fun s => ?_
      dsimp only
      split
      · exact keepsPlace_setTx rfl rfl rfl
      · exact KeepsPlace.refl p s
    · trivial
  · refine pushes_act (fun t => .pure (N < t) ⊓ onPlace good N L p φ) (fun s hs h => ?_) fun t =>
      .of_fact (fun _ _ h => h.1) fun ht =>
      .pre (P := onPlace good N L p φ) ?_ fun _ _ h => h.2
    · have hkeep := keepsPlace_setTx (p := p) (s := s) (t := { s with clock := s.clock + 1 })
        (f := fun tx => { tx with phase := .ticket (s.clock + 1) }) rfl rfl rfl
      exact ⟨hs.inv, hkeep.pushes, Nat.lt_succ_of_le hs.obs, (congrArg φ hkeep.place).mpr h⟩
    refine keep_access ?_ fun ok => .ite (fun _ => ?_) fun _ => keep_rollback hφ (keep_pure _)
    · unfold commitValidate
      split
      · trivial
      · exact (place_of_keeps getTx_keeps).bind fun tx => validateEntries_within (KeepsPlace.refl p) _
    · exact .bind (recordUpdate_keep hv ht) fun _ => keep_step (hi ..) fun _ => keep_pure _

/-- The design's commit function. -/
theorem stmDesignCommit_keep (hv : Vouches good N p φ) :
    Upholds good N L p φ ψ (stmDesignCommit cfg p : M Tid Addr Lock w _) := by
  refine keep_step getTx_keeps fun tx => ?_
  split
  · exact keep_step getTx_keeps fun _ => .bind (wbctlAcquire_keep hφ _) fun _ =>
      .ite (fun _ => commitWith_keep hφ hv fun _ _ => wbctlInstall_keeps ..) fun _ => keep_pure _
  · exact commitWith_keep hφ hv fun _ _ => wtInstall_keeps ..
  · exact commitWith_keep hφ hv fun _ _ => wbetlInstall_keeps ..

/-- `int_stm_load`. -/
theorem intStmLoad_keep : Upholds good N L p φ ψ (intStmLoad cfg p a : M Tid Addr Lock w _) := by
  refine keep_step getTx_keeps fun tx => ?_
  split
  · exact stmWbctlRead_keep hφ
  · exact stmWtRead_keep hφ
  · exact stmWbetlReadInvisible_keep hφ

/-- `stm_write`. -/
theorem stmWrite_keep : Upholds good N L p φ ψ (stmWrite cfg p a x k : M Tid Addr Lock w _) := by
  refine keep_step getTx_keeps fun tx => ?_
  split
  · exact stmWbctlWrite_keep hφ
  · rw [stmWtWrite_eq]
    exact writeLoop_keep hφ (fun _ _ _ => wtOverwrite_keeps _) fun _ _ => wtDoWrite_keeps ..
  · rw [stmWbetlWrite_eq]
    exact writeLoop_keep hφ (fun _ _ _ => wbetlMerge_keeps ..) fun _ _ => wbetlDoWrite_keeps ..

/-- `int_stm_commit`. -/
theorem intStmCommit_keep (hv : Vouches good N p φ) :
    Upholds good N L p φ ψ (intStmCommit cfg p : M Tid Addr Lock w _) := by
  refine keep_access (modifyTx_place fun _ => by simp only [StmTx.place]) fun _ =>
    keep_step getTx_keeps fun tx => .ite (fun _ => keep_pure _) fun _ =>
      keep_access (modifyTx_place fun _ => rfl) fun _ => ?_
  refine .bind (R := fun _ => onPlace good N L p φ) ?_ fun _ => ?_
  · exact .ite (fun _ => recordReadOnly_keep hv) fun _ =>
      .bind (stmDesignCommit_keep hφ hv) fun _ => keep_pure _
  refine keep_access (modifyTx_place fun _ => rfl) fun _ => keep_step getTx_keeps fun tx =>
    keep_access ?_ fun _ => keep_access (modifyTx_place fun _ => rfl) fun _ =>
    keep_access (modifyTx_place fun _ => rfl) fun _ => keep_pure _
  unfold releaseToken
  split
  · exact releaseIrrevocable_place
  · trivial

end

omit [DecidableEq Addr] [DecidableEq Lock] in
/-- `int_stm_start`: a nested one keeps the attempt that is under way. -/
theorem intStmStart_keep (hφ : ∀ x : Place Addr w, N ≤ x.end_ → x.trace = [] → φ x) (attr : Attr)
    {J : Assn (pushing good N L : RG (State Tid Addr Lock w) Tid) p} :
    Triple (pushing good N L) p (onTx good N L p fun tx => tx.nesting > 0 → φ tx.place)
      (intStmStart cfg p attr : M Tid Addr Lock w _) (fun _ => onPlace good N L p φ) J := by
  refine pushes_act (fun tx => onTx good N L p fun tx' => tx.nesting > 0 → φ tx'.place)
    (fun s hs h => ⟨hs.inv, .refl p s, h⟩) fun tx => ?_
  refine pushes_modifyTx (ψ := fun tx' => tx.nesting > 0 → φ tx'.place) (fun _ h => h) ?_
  refine .ite (fun hn => .of_ret fun _ _ h => h hn) fun _ => ?_
  refine pushes_modifyTx (ψ := fun _ => True) (fun _ _ => trivial) ?_
  refine .bind (intStmPrepare_fresh_place.pre fun _ _ _ => trivial) fun _ => ?_
  refine Triple.pre (P := onPlace good N L p φ) ?_ fun _ _ h => hφ _ h.1 h.2
  exact Triple.post (J := onPlace good N L p fun _ => False)
    (keep_within (modifyTx_place fun _ => rfl)) (fun _ _ _ h => h) fun _ _ h => h.elim

omit [DecidableEq Addr] [DecidableEq Lock] in
/-- The validation of a request. -/
theorem setIrrevocableValidate_place :
    (setIrrevocableValidate cfg p : M Tid Addr Lock w _).Within (KeepsPlace p) := by
  have hv : ∀ test : StmTx Addr Lock w → ℕ → REntry Lock → Bool,
      (getTx p >>= fun tx => validateEntries p test tx.rSet : M Tid Addr Lock w _).Within
        (KeepsPlace p) :=
    fun test => (place_of_keeps getTx_keeps).bind fun tx => validateEntries_within (KeepsPlace.refl p) tx.rSet
  unfold setIrrevocableValidate
  split
  · exact hv _
  · exact hv _
  · exact hv _
  · refine (place_of_keeps getTx_keeps).bind fun tx => ?_
    split
    · exact (hv _).bind fun _ => trivial
    · exact (hv _).bind fun _ => trivial
    · exact (hv _).bind fun _ => trivial

/-- `int_stm_set_irrevocable`, also for a thread that is idle. -/
theorem intStmSetIrrevocable_keep (hφ : ∀ x : Place Addr w, N ≤ x.end_ → x.trace = [] → φ x) :
    Triple (pushing good N L) p (placeReady good N L p φ)
      (intStmSetIrrevocable cfg p : M Tid Addr Lock w _) (fun _ => placeReady good N L p φ)
      (onPlace good N L p φ) := by
  refine pushes_act (fun tx => onTx good N L p fun tx' => tx' = tx ∧
    (tx.status.isActive = true ∨ tx.nesting > 0 → φ tx.place))
    (fun s hs h => ⟨hs.inv, .refl p s, rfl, h⟩) fun tx => .ite (fun _ => ?_) fun ha => ?_
  · refine pushes_modifyTx (ψ := fun tx => tx.status.isActive = true ∨ tx.nesting > 0 → φ tx.place)
      (fun tx' h => ?_) (.of_ret fun _ _ h => h)
    obtain ⟨rfl, h⟩ := h
    exact h
  · have hactive : tx.status.isActive = true := by simpa using ha
    suffices Upholds good N L p φ φ _ from (this.post (fun _ s _ h _ => h) fun _ _ h => h).pre
      fun s _ h => by
        obtain ⟨htx, hplace⟩ := h
        have htx : s.txs p = tx := htx
        change φ (s.txs p).place
        rw [htx]
        exact hplace (.inl hactive)
    have hback : ∀ reason : Reason, Upholds good N L p φ φ
        (stmRollback cfg p reason >>= fun _ => pure false : M Tid Addr Lock w _) := fun reason =>
      .bind (stmRollback_keep hφ reason) fun _ => keep_pure _
    refine .ite (fun _ => keep_pure _) fun _ => .ite (fun _ => ?_) fun _ =>
      keep_access setIrrevocableRestart_place fun _ => keep_pure _
    refine keep_access (modifyTx_place fun _ => rfl) fun _ => keep_access ?_ fun got =>
      .ite (fun _ => keep_access setIrrevocableValidate_place fun ok => .ite (fun _ => ?_) fun _ =>
        hback _) fun _ => hback _
    · refine Prog.within_access (KeepsPlace.refl p) fun i => ?_
      split
      · trivial
      · exact casIrrevocable_place
    · exact keep_access (modifyTx_place fun _ => rfl) fun _ => keep_pure _

/-- What holds before a call: `χ` before a commit. -/
def placeReadyFor (good : Commit Tid Addr w → Prop) (N : ℕ) (L : History Tid Addr w) (p : Tid)
    (φ χ : Place Addr w → Prop) :
    Cmd Addr w → Assn (pushing good N L : RG (State Tid Addr Lock w) Tid) p
  | .start _ | .setIrrevocable => placeReady good N L p φ
  | .commit => onPlace good N L p χ
  | _ => onPlace good N L p φ

/-- Every call keeps the commits good, if the place lasts and vouches for what is committed from it.
-/
theorem exec_pushing {χ : Place Addr w → Prop} (hφ : Lasting N φ φ) (hχ : Lasting N χ φ)
    (hχφ : ∀ x, χ x → φ x) (htrace : ∀ x tr, φ x → φ { x with trace := tr })
    (hv : Vouches good N p χ) (cmd : Cmd Addr w) :
    Triple (pushing good N L) p (placeReadyFor good N L p φ χ cmd)
      (exec cfg p cmd : M Tid Addr Lock w _) (fun _ => placeReady good N L p φ)
      (placeReady good N L p φ) := by
  have hready : ∀ {P : Assn (pushing good N L : RG (State Tid Addr Lock w) Tid) p}
      {c : M Tid Addr Lock w Unit}, Triple (pushing good N L) p P c (fun _ => onPlace good N L p φ)
        (onPlace good N L p φ) → Triple (pushing good N L) p P c (fun _ => placeReady good N L p φ)
        (placeReady good N L p φ) := fun h => h.post (fun _ _ _ h _ => h) fun _ _ h _ => h
  have hrecord : ∀ e : Event Addr w, Upholds good N L p φ φ (record p e : M Tid Addr Lock w _) := by
    intro e
    refine .last (pushes_modifyTx (ψ := fun tx => φ tx.place) (fun tx h => ?_) (keep_pure _))
    split
    · exact htrace tx.place _ h
    · exact h
  cases cmd with
  | start attr =>
    exact hready ((intStmStart_keep hφ.fresh attr).pre fun _ _ h hn => h (.inr hn))
  | load a => exact hready (.bind (intStmLoad_keep hφ) fun x => hrecord _)
  | store a x => exact hready (.bind (stmWrite_keep hφ) fun _ => hrecord _)
  | store2 a x k => exact hready (.bind (stmWrite_keep hφ) fun _ => hrecord _)
  | commit =>
    refine hready (.bind (R := fun _ => onPlace good N L p φ) ?_ fun _ => keep_pure _)
    exact (intStmCommit_keep hχ hv).post (fun _ _ _ h => hχφ _ h) fun _ _ h => h
  | abort reason => exact hready (stmRollback_keep hφ.fresh _)
  | setIrrevocable =>
    refine .bind (R := fun _ => placeReady good N L p φ) ?_ fun _ => .of_ret fun _ _ h => h
    exact (intStmSetIrrevocable_keep hφ.fresh).post (fun _ _ _ h => h) fun _ _ h _ => h

end TinyStm
