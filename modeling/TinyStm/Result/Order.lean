import TinyStm.Modules.Order

/-!
# Transactions commit in the order of their starts

A transaction commits when its number is `mod_order_ts_commit`, or it has been killed and does not
commit. No two transactions have one number, so the one whose turn it is keeps it until its
`mod_order_on_commit` has run. The invariant says that the numbers that have been drawn are those
below the counter, each with one thread or already committed, and that a thread which waits for its
turn has the number that follows the last commit. Killed transactions keep their number for the
retry.
-/

namespace TinyStm.Order

variable {Tid : Type} [DecidableEq Tid]

/-- The thread that has committed and whose `mod_order_on_commit` has not run. -/
def OrderState.pending (s : OrderState Tid) : Option Tid :=
  match s.commits with
  | [] => none
  | c :: _ => if c.ran then none else some c.tid

/-- The numbers of the transactions that have committed are 0, 1, …, and the others have larger ones. -/
structure OrderInv (s : OrderState Tid) : Prop where
  number : ∀ (k : ℕ) (c : Committed Tid), s.commits.reverse[k]? = some c → c.number = some k
  ran : ∀ c ∈ s.commits.tail, c.ran = true
  count : s.tsCommit = s.commits.countP (·.ran)
  drawn : ∀ p n, s.drawn p = some n → s.commits.length ≤ n ∧ n < s.tsNext
  distinct : ∀ p q n, s.drawn p = some n → s.drawn q = some n → p = q
  next : s.commits.length ≤ s.tsNext

/-- What belongs to a thread. -/
structure OrderOwn where
  drawn : Option ℕ
  nesting : ℕ
  specific : ℕ
  pending : Prop

omit [DecidableEq Tid] in
/-- What belongs to a thread. -/
def OrderState.own (s : OrderState Tid) (p : Tid) : OrderOwn :=
  ⟨s.drawn p, (s.txs p).nesting, (s.txs p).specific, s.pending = some p⟩

omit [DecidableEq Tid] in
/-- What belongs to a thread depends on its descriptor and its number. -/
theorem own_congr {s s' : OrderState Tid} {q : Tid} (hdrawn : s'.drawn q = s.drawn q)
    (htx : s'.txs q = s.txs q) (hpending : s'.pending = some q ↔ s.pending = some q) :
    s'.own q = s.own q := by
  rw [OrderState.own, OrderState.own, hdrawn, htx, propext hpending]

/-- What a thread may do: it leaves alone what belongs to others, it does not revive a transaction that has been
killed, and it only releases its own turn. -/
structure OrderGuar (p : Tid) (s s' : OrderState Tid) : Prop where
  own : ∀ q, q ≠ p → s'.own q = s.own q
  killed : ∀ q, q ≠ p → (s.txs q).status = .killed → (s'.txs q).status = .killed
  turn : s.pending ≠ some p → s'.tsCommit = s.tsCommit

/-- The protocol. -/
def orderProtocol : RG (OrderState Tid) Tid where
  inv := OrderInv
  guar := OrderGuar
  obs _ := True
  refl _ _ _ := ⟨fun _ _ => rfl, fun _ _ h => h, fun _ => rfl⟩

variable {p : Tid} {s : OrderState Tid} {J : Assn (orderProtocol : RG (OrderState Tid) Tid) p}

namespace OrderInv

omit [DecidableEq Tid]

/-- No transaction has committed whose `mod_order_on_commit` has not run. -/
theorem tsCommit_of_none (h : OrderInv s) (hp : s.pending = none) : s.tsCommit = s.commits.length := by
  rw [h.count, List.countP_eq_length]
  rw [OrderState.pending] at hp
  have hran := h.ran
  cases hc : s.commits with
  | nil => nofun
  | cons c cs =>
    rw [hc] at hp hran
    rintro d (_ | ⟨_, hd⟩)
    · by_contra hn
      simp [hn] at hp
    · exact hran d hd

/-- The last one of them has not. -/
theorem tsCommit_of_some (h : OrderInv s) {q : Tid} (hq : s.pending = some q) :
    s.tsCommit + 1 = s.commits.length := by
  rw [h.count]
  rw [OrderState.pending] at hq
  have hran := h.ran
  cases hc : s.commits with
  | nil => simp [hc] at hq
  | cons c cs =>
    rw [hc] at hq hran
    have hlast : c.ran = false := by
      by_contra hn
      simp [hn] at hq
    have htail : ∀ d ∈ cs, d.ran = true := hran
    rw [List.countP_cons_of_neg (by simp [hlast]), List.countP_eq_length.2 htail]
    rfl

/-- While a turn has not been released, no other transaction has it. -/
theorem pending_of_turn (h : OrderInv s) (hturn : s.drawn p = some s.tsCommit) : s.pending = none := by
  by_contra hn
  obtain ⟨q, hq⟩ := Option.ne_none_iff_exists'.1 hn
  have hlen := h.tsCommit_of_some hq
  have hle := (h.drawn p _ hturn).1
  omega

end OrderInv

/-- An assertion about what belongs to the thread. -/
def Has (φ : OrderOwn → Prop) : Assn (orderProtocol : RG (OrderState Tid) Tid) p where
  holds s := φ (s.own p)
  stable _ hq _ _ _ _ hg h := by rwa [hg.own p (Ne.symm hq)]

/-- The transaction has been killed. -/
def Killed : Assn (orderProtocol : RG (OrderState Tid) Tid) p where
  holds s := (s.txs p).status = .killed
  stable _ hq _ _ _ _ hg h := hg.killed p (Ne.symm hq) h

/-- It is the turn of the transaction. -/
def Turn : Assn (orderProtocol : RG (OrderState Tid) Tid) p where
  holds s := s.drawn p = some s.tsCommit
  stable q hq s s' hs _ hg h := by
    have hdrawn : s'.drawn p = s.drawn p := congrArg OrderOwn.drawn (hg.own p (Ne.symm hq))
    have hnone : s.pending ≠ some q := by
      rw [OrderInv.pending_of_turn hs h]
      nofun
    rw [hdrawn, hg.turn hnone, h]

/-! ## Changes of a descriptor -/

/-- A descriptor does not matter for the invariant. -/
theorem setTx_inv (h : OrderInv s) (q : Tid) (f : OrderTx → OrderTx) : OrderInv (s.setTx q f) :=
  ⟨h.number, h.ran, h.count, h.drawn, h.distinct, h.next⟩

/-- What belongs to the other threads. -/
theorem setTx_own_of_ne (f : OrderTx → OrderTx) {q : Tid} (hq : q ≠ p) :
    (s.setTx p f).own q = s.own q := by
  rw [OrderState.own, OrderState.setTx]
  dsimp only
  rw [Function.update_of_ne hq]
  rfl

/-- What belongs to the thread, after a change of its descriptor. -/
theorem setTx_own_self (f : OrderTx → OrderTx) : (s.setTx p f).own p =
    ⟨s.drawn p, (f (s.txs p)).nesting, (f (s.txs p)).specific, s.pending = some p⟩ := by
  rw [OrderState.own, OrderState.setTx]
  dsimp only
  rw [Function.update_self]
  rfl

/-- A thread may change its own descriptor. -/
theorem setTx_guar (f : OrderTx → OrderTx) : OrderGuar p s (s.setTx p f) where
  own _ hq := setTx_own_of_ne f hq
  killed q hq h := by
    rw [OrderState.setTx]
    dsimp only
    rwa [Function.update_of_ne hq]
  turn _ := rfl

/-- A change of the own descriptor. It does not change whose turn it is. -/
theorem modifyTx_spec {f : OrderTx → OrderTx} {φ ψ : OrderOwn → Prop}
    (h : ∀ d tx w, φ ⟨d, tx.nesting, tx.specific, w⟩ → ψ ⟨d, (f tx).nesting, (f tx).specific, w⟩) :
    Triple orderProtocol p (Has φ) (modifyTx p f) (fun _ => Has ψ) J :=
  .modify fun s hs hφ => ⟨setTx_inv hs.inv p f, setTx_guar f, by
    have hself : ψ ((s.setTx p f).own p) := by
      rw [setTx_own_self]
      exact h _ _ _ hφ
    exact hself⟩

/-- What belongs to a thread does not depend on a status. -/
theorem own_setStatus (q : Tid) (v : TxStatus) : (s.setTx q (·.setStatus v)).own p = s.own p := by
  by_cases hpq : p = q
  · subst hpq
    exact setTx_own_self _
  · exact setTx_own_of_ne _ hpq

/-- The status of a transaction does not matter. -/
theorem has_setStatus {φ : OrderOwn → Prop} {q : Tid} {v : TxStatus} (s : OrderState Tid)
    (h : (Has φ : Assn (orderProtocol : RG (OrderState Tid) Tid) p) s) :
    (Has φ : Assn (orderProtocol : RG (OrderState Tid) Tid) p) (s.setTx q (·.setStatus v)) := by
  have hself : φ ((s.setTx q (·.setStatus v)).own p) := by rwa [own_setStatus]
  exact hself

/-- A status may be swapped for another one, that of another thread if it is active. -/
theorem casStatus_spec {q : Tid} {t : TxStatus × ℕ} {v : TxStatus}
    {P : Assn (orderProtocol : RG (OrderState Tid) Tid) p} (hq : q = p ∨ t.1 = .active)
    (hP : ∀ s, P s → P (s.setTx q (·.setStatus v))) :
    Triple orderProtocol p P (casStatus q t v) (fun _ => P) J := by
  refine .atomic fun s hs h => ?_
  split
  · next heq =>
    refine ⟨setTx_inv hs.inv q _, ⟨fun r _ => own_setStatus q v, fun r hr hk => ?_, fun _ => rfl⟩, hP s h⟩
    by_cases hrq : r = q
    · subst hrq
      have hactive : (s.txs r).status = .active := (congrArg Prod.fst heq).trans (hq.resolve_left hr)
      rw [hactive] at hk
      cases hk
    · rw [OrderState.setTx]
      dsimp only
      rwa [Function.update_of_ne hrq]
  · exact ⟨hs.inv, orderProtocol.refl p s hs.inv, h⟩

omit [DecidableEq Tid] in
/-- A look at a status. -/
theorem readStatus_spec {q : Tid} {P : Assn (orderProtocol : RG (OrderState Tid) Tid) p} :
    Triple orderProtocol p P (readStatus q) (fun _ => P) J :=
  .read fun _ _ h => h

/-! ## The calls -/

/-- A transaction that has drawn a number. -/
def Live (o : OrderOwn) : Prop := ¬ o.pending ∧ o.drawn = some o.specific

/-- A thread between two calls. -/
def Between (o : OrderOwn) : Prop := ¬ o.pending ∧ (0 < o.nesting → o.drawn = some o.specific)

/-- `int_stm_prepare`. -/
theorem intStmPrepare_spec {φ : OrderOwn → Prop} :
    Triple orderProtocol p (Has φ) (intStmPrepare p) (fun _ => Has φ) J :=
  modifyTx_spec fun _ _ _ h => h

/-- A number that is drawn is larger than those of the transactions that have committed. -/
theorem modOrderOnStart_spec : Triple orderProtocol p (Has fun o => ¬ o.pending) (modOrderOnStart p)
    (fun _ => Has Between) J := by
  refine .bind (.atomic (Q := fun ts => Has fun o => ¬ o.pending ∧ o.drawn = some ts)
    fun s hs hp => ⟨?_, ⟨fun q hq => ?_, fun _ _ h => h, fun _ => rfl⟩, hp, ?_⟩) fun ts => ?_
  · have hI : OrderInv s := hs.inv
    have hother : ∀ q n, Function.update s.drawn p (some s.tsNext) q = some n →
        q = p ∧ n = s.tsNext ∨ q ≠ p ∧ s.drawn q = some n := by
      intro q n hn
      by_cases hq : q = p
      · subst hq
        rw [Function.update_self] at hn
        exact .inl ⟨rfl, (Option.some.inj hn).symm⟩
      · rw [Function.update_of_ne hq] at hn
        exact .inr ⟨hq, hn⟩
    refine ⟨hI.number, hI.ran, hI.count, fun q n hn => ?_, fun q r n hn hr => ?_, ?_⟩
    · have hnext := hI.next
      rcases hother q n hn with ⟨-, rfl⟩ | ⟨-, hn⟩
      · exact ⟨hnext, Nat.lt_succ_self _⟩
      · exact ⟨(hI.drawn q n hn).1, Nat.lt_succ_of_lt (hI.drawn q n hn).2⟩
    · rcases hother q n hn with ⟨hqp, hnext⟩ | ⟨-, hdrawn⟩ <;>
        rcases hother r n hr with ⟨hrp, hnext'⟩ | ⟨-, hdrawn'⟩
      · exact hqp.trans hrp.symm
      · exact absurd (hnext ▸ (hI.drawn r n hdrawn').2) (Nat.lt_irrefl _)
      · exact absurd (hnext' ▸ (hI.drawn q n hdrawn).2) (Nat.lt_irrefl _)
      · exact hI.distinct q r n hdrawn hdrawn'
    · exact Nat.le_succ_of_le hI.next
  · rw [OrderState.own]
    dsimp only
    rw [Function.update_of_ne hq]
    rfl
  · exact Function.update_self _ _ _
  · exact modifyTx_spec fun _ _ _ h => ⟨h.1, fun _ => h.2⟩

/-- `int_stm_start`. -/
theorem intStmStart_spec : Triple orderProtocol p (Has Between) (intStmStart p) (fun _ => Has Between) J := by
  refine .bind (.atomic (Q := fun n => Has fun o =>
    ¬ o.pending ∧ (0 < n → o.drawn = some o.specific)) fun s hs h => ?_) fun n => .ite (fun hn => ?_) fun _ => ?_
  · have hself := setTx_own_self (s := s) (p := p) fun tx => { tx with nesting := tx.nesting + 1 }
    refine ⟨setTx_inv hs.inv p fun tx => { tx with nesting := tx.nesting + 1 },
      setTx_guar fun tx => { tx with nesting := tx.nesting + 1 }, ?_⟩
    rw [Has]
    dsimp only
    rw [hself]
    exact h
  · exact .of_ret fun _ _ h => ⟨h.1, fun _ => h.2 hn⟩
  · exact .bind (intStmPrepare_spec (φ := fun o => ¬ o.pending) |>.pre fun _ _ h => h.1) fun _ =>
      modOrderOnStart_spec

/-- The status is set to aborting. -/
theorem setAborting_spec {φ : OrderOwn → Prop} :
    Triple orderProtocol p (Has φ) (setAborting p) (fun _ => Has φ) J := by
  refine .bind readStatus_spec fun t => .ite (fun _ => ?_) fun _ => .of_ret fun _ _ h => h
  exact .bind (casStatus_spec (.inl rfl) has_setStatus) fun _ => .of_ret fun _ _ h => h

/-- The number of a transaction that aborts is kept, unless it is not retried. -/
theorem stmRollback_spec (noRetry : Bool) : Triple orderProtocol p (Has Live) (stmRollback p noRetry)
    (fun _ => Has Between) (Has Between) := by
  refine .bind setAborting_spec fun _ => .bind (modifyTx_spec fun _ _ _ h => h) fun _ => ?_
  refine .bind (modifyTx_spec (ψ := Live) fun _ _ _ h => h) fun _ => .ite (fun _ => ?_) fun _ => ?_
  · refine .modify fun s hs h => ?_
    have hI : OrderInv s := hs.inv
    have hother : ∀ q n, Function.update s.drawn p none q = some n → s.drawn q = some n := by
      intro q n hn
      by_cases hq : q = p
      · subst hq
        rw [Function.update_self] at hn
        cases hn
      · rwa [Function.update_of_ne hq] at hn
    refine ⟨⟨hI.number, hI.ran, hI.count, fun q n hn => hI.drawn q n (hother q n hn),
      fun q r n hn hr => hI.distinct q r n (hother q n hn) (hother r n hr), hI.next⟩,
      ⟨fun q hq => ?_, fun q hq hk => ?_, fun _ => rfl⟩, h.1, fun hn => ?_⟩
    · rw [OrderState.own, OrderState.setTx]
      dsimp only
      rw [Function.update_of_ne hq, Function.update_of_ne hq]
      rfl
    · rw [OrderState.setTx]
      dsimp only
      rwa [Function.update_of_ne hq]
    · rw [OrderState.own, OrderState.setTx] at hn
      dsimp only at hn
      rw [Function.update_self] at hn
      exact absurd hn (Nat.lt_irrefl 0)
  · exact .bind intStmPrepare_spec fun _ => .jump fun _ _ h => ⟨h.1, fun _ => h.2⟩

/-- A transaction that commits. -/
def Entered (o : OrderOwn) : Prop := o.nesting = 0 ∧ Live o

omit [DecidableEq Tid] in
/-- `mod_order_on_precommit` is left when it is the turn of the transaction, or it has been killed. -/
theorem modOrderOnPrecommit_spec : Triple orderProtocol p (Has Entered) (modOrderOnPrecommit p)
    (fun _ => Has Entered ⊓ (Killed ⊔ Turn)) J := by
  refine .bind (.read (Q := fun my => Has fun o => Entered o ∧ o.specific = my) fun _ _ h => ⟨h, rfl⟩) fun my => ?_
  refine .iterate (fun _ => Has fun o => Entered o ∧ o.specific = my) (fun _ _ h => h) fun _ => ?_
  refine .bind (.read (Q := fun current => (Has fun o => Entered o ∧ o.specific = my) ⊓
    .imp (current = my) Turn) fun s _ h => ⟨h, fun hmy => ?_⟩) fun current => ?_
  · have hdrawn : s.drawn p = some (s.txs p).specific := h.1.2.2
    have hspecific : (s.txs p).specific = my := h.2
    exact hdrawn.trans (congrArg some (hspecific.trans hmy.symm))
  refine .bind (.read (Q := fun t : TxStatus × ℕ => ((Has fun o => Entered o ∧ o.specific = my) ⊓
    .imp (current = my) Turn) ⊓ .imp (t.1 = .killed) Killed) fun _ _ h => ⟨h, fun hk => hk⟩) fun t => ?_
  refine .ite (fun hkilled => ?_) fun _ => .ite (fun _ => ?_) fun hmy => ?_
  · exact .of_ret fun _ _ h => ⟨h.1.1.1, .inl (h.2 hkilled)⟩
  · exact .of_ret fun _ _ h => h.1.1
  · exact .of_ret fun _ _ h => ⟨h.1.1.1, .inr (h.1.2 (not_not.1 hmy))⟩

/-- The transaction whose turn it is commits: its number is that of transactions that have committed. -/
theorem commit_inv (hs : OrderInv s) (hturn : s.drawn p = some s.tsCommit) :
    OrderInv { s.setTx p (·.setStatus .committed) with
      commits := ⟨p, s.drawn p, false⟩ :: s.commits, drawn := Function.update s.drawn p none } := by
  have hnone := hs.pending_of_turn hturn
  have hlen := hs.tsCommit_of_none hnone
  have hother : ∀ q n, Function.update s.drawn p none q = some n → q ≠ p ∧ s.drawn q = some n := by
    intro q n hn
    by_cases hq : q = p
    · subst hq
      rw [Function.update_self] at hn
      cases hn
    · rw [Function.update_of_ne hq] at hn
      exact ⟨hq, hn⟩
  refine ⟨fun k c hc => ?_, ?_, ?_, fun q n hn => ?_, fun q r n hq hr => ?_, ?_⟩
  · dsimp only at hc
    rw [List.reverse_cons, List.getElem?_append, List.length_reverse] at hc
    split at hc
    · exact hs.number k c hc
    · rw [List.getElem?_singleton] at hc
      split at hc
      · cases hc
        rw [hturn, hlen]
        exact congrArg some (by omega)
      · cases hc
  · exact List.countP_eq_length.1 (hs.count.symm.trans hlen)
  · exact hs.count.trans (List.countP_cons_of_neg Bool.false_ne_true).symm
  · have hle := hs.drawn q n (hother q n hn).2
    have hne : n ≠ s.tsCommit := fun hn' =>
      (hother q n hn).1 (hs.distinct q p n (hother q n hn).2 (hturn.trans (congrArg some hn'.symm)))
    dsimp only
    rw [List.length_cons]
    exact ⟨by omega, hle.2⟩
  · exact hs.distinct q r n (hother q n hq).2 (hother r n hr).2
  · have hlt := (hs.drawn p _ hturn).2
    dsimp only
    rw [List.length_cons]
    exact hlen ▸ hlt

/-- The turn is released. -/
theorem onCommit_inv (hs : OrderInv s) (hp : s.pending = some p) :
    OrderInv { s with tsCommit := s.tsCommit + 1, commits := markRan p s.commits } ∧
      ({ s with tsCommit := s.tsCommit + 1, commits := markRan p s.commits } : OrderState Tid).pending =
        none := by
  have hlen := hs.tsCommit_of_some hp
  have hran := hs.ran
  have hnumber := hs.number
  have hcount := hs.count
  have hdrawn := hs.drawn
  have hnext := hs.next
  rw [OrderState.pending] at hp
  cases hc : s.commits with
  | nil => simp [hc] at hp
  | cons c cs =>
    rw [hc] at hp hran hnumber hcount hdrawn hnext hlen
    have hlast : c.ran = false := by
      by_contra hn
      simp [hn] at hp
    have htid : c.tid = p := by simpa [hlast] using hp
    rw [markRan, if_pos htid]
    refine ⟨⟨fun k d hd => ?_, hran, ?_, hdrawn, hs.distinct, hnext⟩, rfl⟩
    · have hk := hnumber k
      dsimp only at hd
      rw [List.reverse_cons, List.getElem?_append] at hd hk
      split at hd
      · next hlt => exact hk d (by rwa [if_pos hlt])
      · next hlt =>
        rw [if_neg hlt, List.getElem?_singleton] at hk
        rw [List.getElem?_singleton] at hd
        split at hd
        · next hzero =>
          cases hd
          exact hk c (by rw [if_pos hzero])
        · cases hd
    · rw [hcount, List.countP_cons_of_neg (by simp [hlast]), List.countP_cons_of_pos rfl]

/-- `int_stm_commit`: the number is committed in its turn, if it has been drawn. -/
theorem intStmCommit_spec {valid : Bool} : Triple orderProtocol p (Has fun o => Between o ∧ 0 < o.nesting)
    (intStmCommit p valid) (fun _ => Has Between) (Has Between) := by
  refine .bind (.atomic (Q := fun n => Has fun o =>
    ¬ o.pending ∧ o.drawn = some o.specific ∧ o.nesting = n) fun s hs h => ?_) fun n =>
    .ite (fun _ => .of_ret fun _ _ h => ⟨h.1, fun _ => h.2.1⟩) fun hn => ?_
  · have hself := setTx_own_self (s := s) (p := p) fun tx => { tx with nesting := tx.nesting - 1 }
    refine ⟨setTx_inv hs.inv p fun tx => { tx with nesting := tx.nesting - 1 },
      setTx_guar fun tx => { tx with nesting := tx.nesting - 1 }, ?_⟩
    rw [Has]
    dsimp only
    rw [hself]
    exact ⟨h.1.1, h.1.2 h.2, rfl⟩
  refine .bind (.pre modOrderOnPrecommit_spec fun _ _ h => ⟨h.2.2.trans (by omega), h.1, h.2.1⟩) fun _ => ?_
  refine .bind (.read (Q := fun t : TxStatus × ℕ => Has Entered ⊓ .imp (t.1 ≠ .killed) Turn)
    fun s _ h => ⟨h.1, fun hk => h.2.resolve_left hk⟩) fun t => ?_
  refine .ite (fun _ => .pre (stmRollback_spec _) fun _ _ h => h.1.2) fun hk => ?_
  refine .bind (R := fun _ => Has Entered ⊓ Turn) ?_ fun ok => .ite (fun _ => .ite (fun _ => ?_) fun _ => ?_)
    fun _ => ?_
  · exact .pre (casStatus_spec (.inl rfl) fun s h => ⟨has_setStatus s h.1, h.2⟩)
      fun _ _ h => ⟨h.1, h.2 hk⟩
  · refine .bind (.modify (Q := fun _ => Has fun o => o.nesting = 0 ∧ o.pending) fun s hs h => ?_)
      fun _ => .modify fun s hs h => ?_
    · have hturn : s.drawn p = some s.tsCommit := h.2
      have hnone := OrderInv.pending_of_turn hs.inv hturn
      refine ⟨commit_inv hs.inv hturn, ⟨fun q hq => ?_, fun q hq hk => ?_, fun _ => rfl⟩, ?_⟩
      · refine own_congr (Function.update_of_ne hq _ _) (Function.update_of_ne hq _ _) ?_
        rw [hnone]
        exact ⟨fun he => absurd (Option.some.inj he).symm hq, nofun⟩
      · rw [OrderState.setTx]
        dsimp only
        rwa [Function.update_of_ne hq]
      · refine ⟨?_, rfl⟩
        have hnesting : (s.txs p).nesting = 0 := h.1.1
        rw [OrderState.own, OrderState.setTx]
        dsimp only
        rwa [Function.update_self]
    · obtain ⟨hinv, hpending⟩ := onCommit_inv hs.inv h.2
      refine ⟨hinv, ⟨fun q hq => own_congr rfl rfl ?_, fun _ _ hk => hk, fun hn => (hn h.2).elim⟩, ?_⟩
      · have hp : s.pending = some p := h.2
        rw [hpending, hp]
        exact ⟨nofun, fun he => absurd (Option.some.inj he).symm hq⟩
      · have hnesting : (s.txs p).nesting = 0 := h.1
        refine ⟨fun hn => ?_, fun hn => absurd hn (hnesting ▸ Nat.lt_irrefl 0)⟩
        exact nomatch hpending.symm.trans hn
  · exact .pre (stmRollback_spec _) fun _ _ h => h.1.2
  · exact .pre (stmRollback_spec _) fun _ _ h => h.1.2

/-- `stm_kill`. -/
theorem stmKill_spec {q : Tid} {t : TxStatus × ℕ} {φ : OrderOwn → Prop} :
    Triple orderProtocol p (Has φ) (stmKill q t) (fun _ => Has φ) J := by
  rw [stmKill]
  split
  · exact .of_ret fun _ _ h => h
  · exact .of_ret fun _ _ h => h
  · exact .of_ret fun _ _ h => h
  · exact .of_ret fun _ _ h => h
  · refine .iterate (fun _ => Has φ) (fun _ _ h => h) fun _ => .bind readStatus_spec fun t' => ?_
    split
    · exact .of_ret fun _ _ h => h
    · exact .of_ret fun _ _ h => h
  · refine .iterate (fun _ => Has φ) (fun _ _ h => h) fun _ => .bind readStatus_spec fun t' => ?_
    split
    · exact .of_ret fun _ _ h => h
    · exact .of_ret fun _ _ h => h
  · next hactive => exact casStatus_spec (.inr hactive) has_setStatus

/-- A conflict: the other transaction is killed, or this one is rolled back. -/
theorem onConflict_spec {q : Tid} : Triple orderProtocol p (Has fun o => Between o ∧ 0 < o.nesting)
    (onConflict p q) (fun _ => Has Between) (Has Between) := by
  have hrollback := stmRollback_spec (p := p) false
  refine .bind readStatus_spec fun t => .ite (fun _ => .of_ret fun _ _ h => h.1) fun _ => ?_
  refine .bind readStatus_spec fun own => .ite (fun _ => hrollback.pre fun _ _ h => ⟨h.1.1, h.1.2 h.2⟩)
    fun _ => ?_
  refine .bind (.read (Q := fun _ => Has fun o => Between o ∧ 0 < o.nesting) fun _ _ h => h) fun my => ?_
  refine .bind (.read (Q := fun _ => Has fun o => Between o ∧ 0 < o.nesting) fun _ _ h => h) fun other => ?_
  refine .ite (fun _ => ?_) fun _ => hrollback.pre fun _ _ h => ⟨h.1.1, h.1.2 h.2⟩
  exact .bind stmKill_spec fun _ => .of_ret fun _ _ h => h.1

/-! ## Runs -/

/-- What a call assumes. -/
def OrderCall.pre (p : Tid) : OrderCall Tid → Assn (orderProtocol : RG (OrderState Tid) Tid) p
  | .start => Has Between
  | _ => Has fun o => Between o ∧ 0 < o.nesting

/-- Every call. -/
theorem OrderCall.prog_spec (p : Tid) (k : OrderCall Tid) : Triple orderProtocol p (k.pre p) (k.prog p)
    (fun _ => Has Between) (Has Between) := by
  cases k with
  | start => exact intStmStart_spec
  | conflict q => exact onConflict_spec
  | abort noRetry => exact (stmRollback_spec noRetry).pre fun _ _ h => ⟨h.1.1, h.1.2 h.2⟩
  | commit valid => exact intStmCommit_spec

omit [DecidableEq Tid] in
/-- A call that is admitted finds what it needs. -/
theorem OrderCall.Admitted.pre {k : OrderCall Tid} (h : k.Admitted p s) (hs : Between (s.own p)) :
    k.pre p s := by
  cases k with
  | start => exact hs
  | conflict q => exact ⟨hs, h.1⟩
  | abort noRetry => exact ⟨hs, h⟩
  | commit valid => exact ⟨hs, h⟩

omit [DecidableEq Tid] in
/-- The invariant holds at first. -/
theorem orderInv_init : OrderInv (OrderState.init Tid) :=
  ⟨nofun, nofun, rfl, nofun, nofun, Nat.le_refl 0⟩

/-- In every run, transaction number `k` to commit is the one that has drawn the number `k`, and
`mod_order_ts_commit` is the number of transactions that have committed and released their turn. -/
theorem commits_in_order {T : Pool (OrderState Tid) Tid}
    (h : Pool.Reaches OrderCall.prog OrderCall.Admitted (Pool.init (OrderState.init Tid)) T) :
    (∀ (k : ℕ) (c : Committed Tid), T.st.commits.reverse[k]? = some c → c.number = some k) ∧
      T.st.tsCommit = T.st.commits.countP (·.ran) := by
  have hI : OrderInv T.st := (Pool.sound (S := Pool.init (OrderState.init Tid))
    (B := fun _ => Has Between) OrderCall.prog_spec (fun _ _ _ _ hs hk => hk.pre hs) orderInv_init
    (fun p => Pool.atOutline_init ⟨nofun, fun hn => absurd hn (Nat.lt_irrefl 0)⟩) h fun _ _ _ => trivial).1
  exact ⟨hI.number, hI.count⟩

instance (p : Tid) : (k : OrderCall Tid) → (s : OrderState Tid) → Decidable (k.Admitted p s)
  | .start, _ => .isTrue trivial
  | .conflict q, s => inferInstanceAs (Decidable (0 < (s.txs p).nesting ∧ q ≠ p))
  | .abort _, s | .commit _, s => inferInstanceAs (Decidable (0 < (s.txs p).nesting))

/-- The second transaction is killed by the first one, the first one fails to validate once, and both
commit. -/
def killedOnce : List (Pool.Label (Fin 2) (OrderCall (Fin 2))) :=
  Pool.Label.calls 20 [(0, .start), (1, .start), (0, .conflict 1), (1, .commit true), (0, .commit false),
    (0, .commit true), (1, .commit true), (1, .start)]

/-- The transactions that have committed then. -/
def afterKilledOnce : Pool (OrderState (Fin 2)) (Fin 2) :=
  Pool.follow OrderCall.prog (Pool.init (OrderState.init (Fin 2))) killedOnce

set_option maxRecDepth 10000 in
/-- Such a run with a transaction that is killed once. -/
theorem commits_in_order_killedOnce :
    afterKilledOnce.st.commits = [⟨1, some 1, true⟩, ⟨0, some 0, true⟩] ∧
      (∀ (k : ℕ) (c : Committed (Fin 2)),
        afterKilledOnce.st.commits.reverse[k]? = some c → c.number = some k) ∧
      afterKilledOnce.st.tsCommit = afterKilledOnce.st.commits.countP (·.ran) :=
  ⟨by decide, commits_in_order (Pool.Follows.reaches (by decide))⟩

end TinyStm.Order
