import TinyStm.Conc.Steps
import TinyStm.Proof.Control
import TinyStm.Proof.Stm

/-!
# A transaction that runs alone

While no other thread takes a step, the operations of a transaction end, and none of them calls
`stm_rollback`: no version is newer than the snapshot, the locks are free or the transaction's own,
and there is room in the write set. A commit draws the timestamp after the one of the snapshot, so
it does not validate.
-/

namespace TinyStm

section
variable {Tid Addr Lock : Type} {w : ℕ}

/-- The control part of a transaction of the design `d` that is active and neither irrevocable nor
started read-only. -/
structure Control.Plain (cfg : Config Addr Lock) (d : Design) (k : Control Addr w) : Prop where
  status : k.status = .active
  design : cfg.designOf k.attr = d
  readOnly : k.attr.readOnly = false
  irrevocable : k.irrevocable = 0

/-- Where a transaction that runs alone is between two calls. Its snapshot is of the time `N`, the
clock stands there, and the locks are free with versions up to then or belong to its entries; with
commit-time locking they are free. There is room for `n` entries more. -/
structure Solo (d : Design) (p : Tid) (k : Control Addr w) (L : History Tid Addr w) (N n : ℕ)
    (s : State Tid Addr Lock w) : Prop where
  locks : ∀ ℓ, (∃ l, s.locks ℓ = .free l ∧ lockGetTimestamp l ≤ N) ∨
    d ≠ .writeBackCtl ∧ ∃ i < (s.txs p).wSet.entries.length, s.locks ℓ = .owned p i
  clock : s.clock = N
  token : s.irrevocable = 0
  commits : s.commits = L
  control : (s.txs p).control = k
  start : (s.txs p).start = N
  end_ : (s.txs p).end_ = N
  room : d ≠ .writeBackCtl → (s.txs p).wSet.entries.length + n ≤ (s.txs p).wSet.size
  masks : d = .writeThrough → ∀ e ∈ (s.txs p).wSet.entries, e.mask ≠ 0#w

/-- The step of `p` leaves the locks, the clock, the token, the control part and the snapshot alone,
and adds `n` entries. -/
structure Adds (d : Design) (p : Tid) (n : ℕ) (s t : State Tid Addr Lock w) : Prop where
  locks : t.locks = s.locks
  clock : t.clock = s.clock
  token : t.irrevocable = s.irrevocable
  control : KeepsControl p s t
  start : (t.txs p).start = (s.txs p).start
  end_ : (t.txs p).end_ = (s.txs p).end_
  length : (t.txs p).wSet.entries.length = (s.txs p).wSet.entries.length + n
  size : (s.txs p).wSet.size ≤ (t.txs p).wSet.size
  masks : d = .writeThrough → (∀ e ∈ (s.txs p).wSet.entries, e.mask ≠ 0#w) →
    ∀ e ∈ (t.txs p).wSet.entries, e.mask ≠ 0#w

variable {cfg : Config Addr Lock} {d : Design} {p : Tid} {k : Control Addr w}
  {L : History Tid Addr w} {N n m : ℕ} {s t u : State Tid Addr Lock w}

/-- A step that changes nothing adds no entry. -/
theorem Adds.refl (d : Design) (p : Tid) (s : State Tid Addr Lock w) : Adds d p 0 s s :=
  ⟨rfl, rfl, rfl, .refl p s, rfl, rfl, rfl, le_rfl, fun _ => id⟩

/-- Two steps after each other. -/
theorem Adds.trans (h : Adds d p n s t) (h' : Adds d p m t u) : Adds d p (n + m) s u where
  locks := h'.locks.trans h.locks
  clock := h'.clock.trans h.clock
  token := h'.token.trans h.token
  control := h.control.trans h'.control
  start := h'.start.trans h.start
  end_ := h'.end_.trans h.end_
  length := by rw [h'.length, h.length, Nat.add_assoc]
  size := h.size.trans h'.size
  masks hd := h'.masks hd ∘ h.masks hd

/-- A change of the memory. -/
theorem adds_mem (m : Mem Addr w) : Adds d p 0 s { s with mem := m } :=
  ⟨rfl, rfl, rfl, ⟨rfl, rfl⟩, rfl, rfl, rfl, le_rfl, fun _ => id⟩

/-- Entries that are added find room. -/
theorem Solo.adds (h : Solo d p k L N (n + m) s) (ha : Adds d p m s t) : Solo d p k L N n t where
  locks ℓ := by
    rw [ha.locks, ha.length]
    refine (h.locks ℓ).imp_right fun ⟨hd, i, hi, hl⟩ => ⟨hd, i, by omega, hl⟩
  clock := ha.clock.trans h.clock
  token := ha.token.trans h.token
  commits := ha.control.commits.trans h.commits
  control := ha.control.control.trans h.control
  start := ha.start.trans h.start
  end_ := ha.end_.trans h.end_
  room hd := by
    have hroom := h.room hd
    have hlength := ha.length
    have hsize := ha.size
    omega
  masks hd := ha.masks hd (h.masks hd)

/-- The transaction is not irrevocable. -/
theorem Solo.irrevocable (h : Solo d p k L N n s) (hk : k.Plain cfg d) :
    (s.txs p).irrevocable = 0 :=
  (congrArg Control.irrevocable h.control).trans hk.irrevocable

/-- The transaction has the design `d`. -/
theorem Solo.designOf (h : Solo d p k L N n s) (hk : k.Plain cfg d) :
    cfg.designOf (s.txs p).attr = d :=
  (congrArg (fun k => cfg.designOf k.attr) h.control).trans hk.design

/-- Less room is needed. -/
theorem Solo.less (h : Solo d p k L N (n + 1) s) : Solo d p k L N n s :=
  { h with room := fun hd => (Nat.le_succ _).trans (h.room hd) }

/-- No version is newer than the snapshot. -/
theorem Solo.not_newer (h : Solo d p k L N n s) {l : ℕ} (hl : lockGetTimestamp l ≤ N) :
    ¬ lockGetTimestamp l > (s.txs p).end_ := by
  rw [h.end_]
  omega

end

variable {Tid Addr Lock : Type} {w : ℕ} [DecidableEq Tid] {cfg : Config Addr Lock} {d : Design}
  {p : Tid} {k : Control Addr w} {L : History Tid Addr w} {N n m : ℕ}
  {s t u : State Tid Addr Lock w} {J : State Tid Addr Lock w → Prop}

/-- A thread-local assignment. -/
theorem adds_setTx {f : StmTx Addr Lock w → StmTx Addr Lock w}
    (hcontrol : (f (s.txs p)).control = (s.txs p).control)
    (hstart : (f (s.txs p)).start = (s.txs p).start) (hend : (f (s.txs p)).end_ = (s.txs p).end_)
    (hlength : (f (s.txs p)).wSet.entries.length = (s.txs p).wSet.entries.length + n)
    (hsize : (s.txs p).wSet.size ≤ (f (s.txs p)).wSet.size)
    (hmasks : d = .writeThrough → (∀ e ∈ (s.txs p).wSet.entries, e.mask ≠ 0#w) →
      ∀ e ∈ (f (s.txs p)).wSet.entries, e.mask ≠ 0#w) : Adds d p n s (s.setTx p f) := by
  have htx : (s.setTx p f).txs p = f (s.txs p) := State.setTx_txs_self
  exact ⟨rfl, rfl, rfl, ⟨by rw [htx, hcontrol], rfl⟩, by rw [htx, hstart], by rw [htx, hend],
    by rw [htx, hlength], by rw [htx]; exact hsize, by rw [htx]; exact hmasks⟩

/-- A version is added to the read set. -/
theorem adds_addToRs [DecidableEq Lock] (version : ℕ) (lock : Lock) :
    Adds d p 0 s (s.setTx p (addToRs cfg version lock)) := by
  have hws : (addToRs cfg version lock (s.txs p)).wSet = (s.txs p).wSet := by
    unfold addToRs
    split <;> rfl
  refine adds_setTx ?_ ?_ ?_ (by rw [hws]; rfl) (by rw [hws]) (by rw [hws]; exact fun _ => id)
  all_goals
    unfold addToRs
    split <;> rfl

variable [DecidableEq Addr] [DecidableEq Lock] {a : Addr} {x y : BitVec w}

/-! ## Loads -/

omit [DecidableEq Tid] [DecidableEq Addr] [DecidableEq Lock] in
/-- The value of an entry, or the word. -/
theorem entryValue_ends (e : WEntry Addr Lock w) :
    (entryValue a e).Ends (fun _ t => Adds d p 0 s t) J s := by
  unfold entryValue
  split
  · exact .atomic (.refl d p s)
  · exact .ret (.refl d p s)

/-- `stm_wbetl_read_invisible`. -/
theorem stmWbetlReadInvisible_ends (h : Solo d p k L N n s) (hk : k.Plain cfg d) :
    (stmWbetlReadInvisible cfg p a).Ends (fun _ t => Adds d p 0 s t) J s := by
  refine .leave (.access ?_)
  rcases h.locks (cfg.getLock a) with ⟨l, hl, hts⟩ | ⟨-, i, hi, hl⟩
  · dsimp only
    rw [hl]
    refine .access (.access ?_)
    dsimp only
    rw [hl, if_neg (not_not.2 rfl)]
    refine .access ?_
    dsimp only
    rw [if_neg (not_not.2 (h.irrevocable hk)), if_neg (h.not_newer hts)]
    exact .access (.ret ⟨_, rfl, adds_addToRs _ _⟩)
  · dsimp only
    rw [hl]
    refine .access ?_
    dsimp only
    rw [if_pos ⟨rfl, hi⟩]
    split
    · exact .bind (entryValue_ends _) fun x t ht => .ret ⟨x, rfl, ht⟩
    · exact .access (.ret ⟨_, rfl, .refl d p s⟩)

/-- `stm_wt_read`. -/
theorem stmWtRead_ends (h : Solo d p k L N n s) (hk : k.Plain cfg d) :
    (stmWtRead cfg p a).Ends (fun _ t => Adds d p 0 s t) J s := by
  refine .leave (.access ?_)
  rcases h.locks (cfg.getLock a) with ⟨l, hl, hts⟩ | ⟨-, i, hi, hl⟩
  · dsimp only
    rw [hl]
    refine .access (.access ?_)
    dsimp only
    rw [hl, if_neg (not_not.2 rfl)]
    refine .access ?_
    dsimp only
    rw [if_neg (not_not.2 (h.irrevocable hk)), if_neg (h.not_newer hts)]
    exact .access (.ret ⟨_, rfl, adds_addToRs _ _⟩)
  · dsimp only
    rw [hl]
    refine .access ?_
    dsimp only
    rw [if_pos ⟨rfl, hi⟩]
    exact .access (.ret ⟨_, rfl, .refl d p s⟩)

/-- `stm_wbctl_read`. -/
theorem stmWbctlRead_ends (h : Solo .writeBackCtl p k L N n s) (hk : k.Plain cfg .writeBackCtl) :
    (stmWbctlRead cfg p a).Ends (fun _ t => Adds .writeBackCtl p 0 s t) J s := by
  refine .access ?_
  dsimp only
  split
  · exact .ret (.refl _ p s)
  · refine .leave (.access ?_)
    obtain ⟨l, hl, hts⟩ := (h.locks (cfg.getLock a)).resolve_right fun h => h.1 rfl
    dsimp only
    rw [hl]
    refine .access (.access ?_)
    dsimp only
    rw [hl, if_neg (not_not.2 rfl)]
    refine .access ?_
    dsimp only
    rw [if_neg (not_not.2 (h.irrevocable hk)), if_neg (h.not_newer hts)]
    exact .access (.ret ⟨_, rfl, adds_addToRs _ _⟩)

/-- `int_stm_load`. -/
theorem intStmLoad_ends (h : Solo d p k L N n s) (hk : k.Plain cfg d) :
    (intStmLoad cfg p a).Ends (fun _ t => Adds d p 0 s t) J s := by
  refine .access ?_
  dsimp only
  rw [h.designOf hk]
  cases d with
  | writeBackCtl => exact stmWbctlRead_ends h hk
  | writeThrough => exact stmWtRead_ends h hk
  | writeBackEtl => exact stmWbetlReadInvisible_ends h hk
  | modular => exact stmWbetlReadInvisible_ends h hk

/-! ## Stores -/

omit [DecidableEq Addr] [DecidableEq Lock] in
/-- A change of an entry that keeps what its mask is. -/
theorem adds_modify {f : WEntry Addr Lock w → WEntry Addr Lock w} (j : ℕ)
    (hf : d = .writeThrough → ∀ e, e.mask ≠ 0#w → (f e).mask ≠ 0#w) :
    Adds d p 0 s (s.setTx p fun tx => { tx with wSet := tx.wSet.modify j f }) := by
  refine adds_setTx rfl rfl rfl (List.length_modify ..) le_rfl fun hd hmasks e he => ?_
  obtain ⟨i, e', he', ⟨-, rfl⟩ | ⟨-, rfl⟩⟩ := mem_modify he
  · exact hf hd e' (hmasks e' (List.mem_of_getElem? he'))
  · exact hmasks e (List.mem_of_getElem? he')

omit [DecidableEq Addr] [DecidableEq Lock] in
/-- A new entry. -/
theorem adds_push (prev : Option ℕ) (e : WEntry Addr Lock w)
    (he : d = .writeThrough → e.mask ≠ 0#w) :
    Adds d p 1 s (s.setTx p fun tx => { tx with wSet := tx.wSet.push prev e }) := by
  refine adds_setTx rfl rfl rfl (length_push ..) le_rfl fun hd hmasks f hf => ?_
  obtain rfl | ⟨e', he', hfe⟩ := mem_push hf
  · exact he hd
  · rw [hfe]
    exact hmasks e' he'

omit [DecidableEq Addr] [DecidableEq Lock] in
/-- An entry is changed. -/
theorem wbetlMerge_ends (hd : d ≠ .writeThrough) (j : ℕ) (e : WEntry Addr Lock w) :
    (wbetlMerge p a x y j e).Ends (fun _ t => Adds d p 0 s t) J s := by
  unfold wbetlMerge
  dsimp only
  split
  · exact .atomic (adds_modify j fun h => absurd h hd)
  · refine .bind (entryValue_ends (d := d) (p := p) e) fun old t ht => .atomic ?_
    exact ht.trans (adds_modify j fun h => absurd h hd)

omit [DecidableEq Addr] [DecidableEq Lock] in
/-- An entry is added. -/
theorem wbetlDoWrite_ends (hd : d ≠ .writeThrough) (lock : Lock) (version : ℕ) (prev : Option ℕ) :
    (wbetlDoWrite p lock a x y version prev).Ends (fun _ t => Adds d p 1 s t) J s := by
  unfold wbetlDoWrite
  dsimp only
  split
  · exact .atomic (adds_push prev _ fun h => absurd h hd)
  · split
    · exact .atomic (adds_push prev _ fun h => absurd h hd)
    · exact .access (.atomic (adds_push prev _ fun h => absurd h hd))

omit [DecidableEq Tid] [DecidableEq Lock] in
/-- The word is stored. -/
theorem wtStore_ends : (wtStore a x y).Ends (fun _ t => Adds d p 0 s t) J s := by
  unfold wtStore
  split
  · exact .atomic (adds_mem _)
  · exact .access (.atomic (adds_mem _))

omit [DecidableEq Lock] in
/-- An entry is changed, and the word is stored. -/
theorem wtOverwrite_ends (hy : y ≠ 0#w) (i : ℕ) :
    (wtOverwrite p a x y i).Ends (fun _ t => Adds d p 0 s t) J s := by
  refine .access ?_
  dsimp only
  split
  · refine .access (.access ?_)
    exact wtStore_ends.mono (fun _ _ h => (adds_modify i fun _ _ _ => hy).trans h) fun _ h => h
  · exact wtStore_ends

omit [DecidableEq Lock] in
/-- An entry is added, and the word is stored. -/
theorem wtDoWrite_ends (hy : y ≠ 0#w) (lock : Lock) (version : ℕ) (prev : Option ℕ) :
    (wtDoWrite p lock a x y version prev).Ends (fun _ t => Adds d p 1 s t) J s := by
  unfold wtDoWrite
  dsimp only
  rw [if_neg hy]
  refine .access (.access (.atomic ?_))
  exact (adds_mem _).trans (adds_push prev _ fun _ => hy)

omit [DecidableEq Tid] [DecidableEq Addr] in
/-- A lock that is acquired for an entry that is added. -/
theorem Solo.acquire {lock : Lock} {saved : Lock → ℕ} (h : Solo d p k L N (n + 1) s)
    (hd : d ≠ .writeBackCtl)
    (ha : Adds d p 1 { s with
      locks := Function.update s.locks lock (.owned p (s.txs p).wSet.entries.length)
      saved := saved } t) : Solo d p k L N n t where
  locks ℓ := by
    have hlength := ha.length
    dsimp only at hlength
    rw [ha.locks, hlength]
    by_cases hℓ : ℓ = lock
    · subst hℓ
      exact .inr ⟨hd, _, Nat.lt_succ_self _, Function.update_self ..⟩
    · dsimp only
      rw [Function.update_of_ne hℓ]
      exact (h.locks ℓ).imp_right fun ⟨hd, i, hi, hl⟩ => ⟨hd, i, by omega, hl⟩
  clock := ha.clock.trans h.clock
  token := ha.token.trans h.token
  commits := ha.control.commits.trans h.commits
  control := ha.control.control.trans h.control
  start := ha.start.trans h.start
  end_ := ha.end_.trans h.end_
  room hd := by
    have hroom := h.room hd
    have hlength := ha.length
    have hsize := ha.size
    dsimp only at hlength hsize
    omega
  masks hd := ha.masks hd (h.masks hd)

/-- The loop of a store with encounter-time locking. -/
theorem writeLoop_ends {merge : ℕ → ℕ → WEntry Addr Lock w → M Tid Addr Lock w Unit}
    {push : ℕ → Option ℕ → M Tid Addr Lock w Unit} {version : ℕ → ℕ}
    (h : Solo d p k L N (n + 1) s) (hd : d ≠ .writeBackCtl)
    (hmerge : ∀ i j e s, y ≠ 0#w → (merge i j e).Ends (fun _ t => Adds d p 0 s t) J s)
    (hpush : ∀ v prev s, (push v prev).Ends (fun _ t => Adds d p 1 s t) J s) :
    (writeLoop cfg p a y merge push version).Ends (fun _ t => Solo d p k L N n t) J s := by
  have hroom : ¬ (s.txs p).wSet.entries.length = (s.txs p).wSet.size := by
    have := h.room hd
    omega
  have hextend : (extendWs cfg p).Ends (fun _ t => t = s) J s := by
    refine .access ?_
    rw [if_neg hroom]
    exact .ret rfl
  refine .leave (.access (.access ?_))
  rcases h.locks (cfg.getLock a) with ⟨l, hl, hts⟩ | ⟨-, i, hi, hl⟩
  · dsimp only
    rw [hl]
    dsimp only
    rw [if_neg fun hnewer => h.not_newer hts hnewer.2.1]
    refine .bind hextend fun _ t ht => ?_
    subst ht
    refine .access (.access ?_)
    dsimp only
    rw [if_pos hl]
    exact .bind (hpush ..) fun _ u hu => .ret ⟨(), rfl, h.acquire hd hu⟩
  · dsimp only
    rw [hl]
    dsimp only
    rw [if_pos ⟨rfl, hi⟩]
    split
    · exact .ret ⟨(), rfl, h.less⟩
    · split
      · exact .bind (hmerge _ _ _ _ ‹_›) fun _ t ht => .ret ⟨(), rfl, h.less.adds ht⟩
      · refine .bind hextend fun _ t ht => ?_
        subst ht
        exact .bind (hpush ..) fun _ t ht => .ret ⟨(), rfl, h.adds ht⟩

/-- `stm_wbctl_write`. -/
theorem stmWbctlWrite_ends (h : Solo .writeBackCtl p k L N n s) :
    (stmWbctlWrite cfg p a x y).Ends (fun _ t => Solo .writeBackCtl p k L N n t) J s := by
  have hadds {m : ℕ} {t : State Tid Addr Lock w} (ht : Adds .writeBackCtl p m s t) :
      Solo .writeBackCtl p k L N n t :=
    Solo.adds (m := m) { h with room := fun hd => absurd rfl hd } ht
  obtain ⟨l, hl, hts⟩ := (h.locks (cfg.getLock a)).resolve_right fun h => h.1 rfl
  refine .leave (.access ?_)
  dsimp only
  rw [hl]
  refine .access ?_
  dsimp only
  split
  · exact .access (.ret ⟨(), rfl, hadds (adds_modify _ (by simp))⟩)
  · rw [if_neg fun hnewer => h.not_newer hts hnewer.2.1]
    have hpush (e : WEntry Addr Lock w) : Adds .writeBackCtl p 1 s (s.setTx p (wbctlPush e)) := by
      refine adds_setTx rfl rfl rfl List.length_append ?_ (by simp)
      unfold wbctlPush
      dsimp only
      split <;> omega
    exact .access (.ret ⟨(), rfl, hadds (hpush _)⟩)

/-- `stm_write`. -/
theorem stmWrite_ends (h : Solo d p k L N (n + 1) s) (hk : k.Plain cfg d)
    (hy : d = .writeThrough → y ≠ 0#w) :
    (stmWrite cfg p a x y).Ends (fun _ t => Solo d p k L N n t) J s := by
  refine .access ?_
  dsimp only
  rw [h.designOf hk]
  cases d with
  | writeBackCtl => exact stmWbctlWrite_ends h.less
  | writeThrough =>
    exact writeLoop_ends h (by simp) (fun i _ _ _ hy => wtOverwrite_ends hy i)
      fun _ _ _ => wtDoWrite_ends (hy rfl) ..
  | writeBackEtl =>
    exact writeLoop_ends h (by simp) (fun _ _ _ _ _ => wbetlMerge_ends (by simp) ..)
      fun _ _ _ => wbetlDoWrite_ends (by simp) ..
  | modular =>
    exact writeLoop_ends h (by simp) (fun _ _ _ _ _ => wbetlMerge_ends (by simp) ..)
      fun _ _ _ => wbetlDoWrite_ends (by simp) ..

/-! ## Start -/

omit [DecidableEq Addr] [DecidableEq Lock] in
/-- A change of the control part. -/
theorem Solo.setTx {k' : Control Addr w} {f : StmTx Addr Lock w → StmTx Addr Lock w}
    (h : Solo d p k L N n s) (hcontrol : (f (s.txs p)).control = k')
    (hstart : (f (s.txs p)).start = (s.txs p).start) (hend : (f (s.txs p)).end_ = (s.txs p).end_)
    (hws : (f (s.txs p)).wSet = (s.txs p).wSet) : Solo d p k' L N n (s.setTx p f) := by
  have htx : (s.setTx p f).txs p = f (s.txs p) := State.setTx_txs_self
  exact { h with
    locks := by rw [htx, hws]; exact h.locks
    control := by rw [htx]; exact hcontrol
    start := by rw [htx]; exact hstart.trans h.start
    end_ := by rw [htx]; exact hend.trans h.end_
    room := by rw [htx, hws]; exact h.room
    masks := by rw [htx, hws]; exact h.masks }

omit [DecidableEq Addr] [DecidableEq Lock] in
/-- An event of an attempt. -/
theorem record_ends (h : Solo d p k L N n s) (hk : k.Plain cfg d) (e : Event Addr w) :
    (record p e).Ends (fun _ t => Solo d p { k with trace := e :: k.trace } L N n t) J s := by
  have hactive : (s.txs p).status.isActive = true := by
    have hstatus : (s.txs p).status = .active := (congrArg Control.status h.control).trans hk.status
    rw [hstatus]
    rfl
  refine .atomic (h.setTx ?_ ?_ ?_ ?_)
  all_goals rw [if_pos hactive]
  exact congrArg (fun k => { k with trace := e :: k.trace }) h.control

omit [DecidableEq Addr] [DecidableEq Lock] in
/-- A thread-local assignment. -/
theorem ends_modifyTx {f : StmTx Addr Lock w → StmTx Addr Lock w}
    {Q : Unit → State Tid Addr Lock w → Prop} (h : Q () (s.setTx p f)) :
    (modifyTx p f).Ends Q J s :=
  .atomic h

omit [DecidableEq Addr] [DecidableEq Lock] in
/-- Two changes of the descriptor are one. -/
theorem State.setTx_setTx (s : State Tid Addr Lock w)
    (f g : StmTx Addr Lock w → StmTx Addr Lock w) :
    (s.setTx p f).setTx p g = s.setTx p fun tx => g (f tx) := by
  simp [State.setTx]

omit [DecidableEq Addr] [DecidableEq Lock] in
/-- The start timestamp is the clock. -/
theorem setStart_ends (hclock : s.clock < cfg.versionMax) :
    (setStart cfg p).Ends (fun _ t =>
      t = s.setTx p fun tx => { tx with start := s.clock, end_ := s.clock }) J s := by
  refine .leave (.access (.access (.ret ?_)))
  dsimp only
  rw [if_neg (Nat.not_le.2 hclock)]
  exact ⟨(), rfl, rfl⟩

/-- A new attempt, at the time `N`. -/
def StmTx.prepared (tx : StmTx Addr Lock w) (N : ℕ) : StmTx Addr Lock w :=
  { tx with rSet := [], wSet := { tx.wSet with entries := [], nbAcquired := 0 }, trace := []
            start := N, end_ := N, status := .active }

omit [DecidableEq Addr] [DecidableEq Lock] in
/-- `int_stm_prepare` of a transaction that is not irrevocable. -/
theorem intStmPrepare_ends (hclock : s.clock < cfg.versionMax) (hirr : (s.txs p).irrevocable = 0) :
    (intStmPrepare cfg p).Ends (fun _ t => t = s.setTx p fun tx => tx.prepared s.clock) J s := by
  refine .access (.bind (setStart_ends hclock) fun _ t ht => ?_)
  subst ht
  rw [State.setTx_setTx]
  refine .access ?_
  dsimp only
  rw [State.setTx_txs_self, if_neg (not_not.2 hirr)]
  exact ends_modifyTx (State.setTx_setTx ..)

/-- The control part of an attempt that starts. -/
def Control.begun (k : Control Addr w) (attr : Attr) (calls : List ℕ) : Control Addr w :=
  { k with attr := attr, status := .active, nesting := 1, calls := k.calls ++ calls, trace := [] }

omit [DecidableEq Addr] [DecidableEq Lock] in
/-- An attempt that has begun while no lock is held. -/
theorem solo_setTx {f : StmTx Addr Lock w → StmTx Addr Lock w}
    (hlocks : ∀ ℓ, ∃ l, s.locks ℓ = .free l ∧ lockGetTimestamp l ≤ s.clock)
    (htoken : s.irrevocable = 0) (hcontrol : (f (s.txs p)).control = k)
    (hstart : (f (s.txs p)).start = s.clock)
    (hend : (f (s.txs p)).end_ = s.clock) (hempty : (f (s.txs p)).wSet.entries = [])
    (hsize : n ≤ (f (s.txs p)).wSet.size) :
    Solo d p k s.commits s.clock n (s.setTx p f) := by
  have htx : (s.setTx p f).txs p = f (s.txs p) := State.setTx_txs_self
  refine ⟨fun ℓ => .inl (hlocks ℓ), rfl, htoken, rfl, by rw [htx, hcontrol], by rw [htx, hstart],
    by rw [htx, hend], fun _ => ?_, fun _ => ?_⟩
  · simpa [htx, hempty] using hsize
  · simp [hempty]

omit [DecidableEq Addr] [DecidableEq Lock] in
/-- `int_stm_start` of a thread that is idle, while no lock is held. -/
theorem intStmStart_ends (hlocks : ∀ ℓ, ∃ l, s.locks ℓ = .free l ∧ lockGetTimestamp l ≤ s.clock)
    (hclock : s.clock < cfg.versionMax) (htoken : s.irrevocable = 0)
    (hirr : (s.txs p).irrevocable = 0) (hidle : (s.txs p).nesting = 0) {attr : Attr} :
    (intStmStart cfg p attr).Ends (fun _ t => Solo d p ((s.txs p).control.begun attr cfg.startCb)
      s.commits s.clock (s.txs p).wSet.size t) J s := by
  refine .access (.access ?_)
  dsimp only
  rw [if_neg (by omega)]
  refine .access (.bind (intStmPrepare_ends ?_ ?_) fun _ t ht => ?_)
  · exact hclock
  · simpa using hirr
  · subst ht
    rw [State.setTx_setTx, State.setTx_setTx]
    refine ends_modifyTx ?_
    rw [State.setTx_setTx]
    refine solo_setTx hlocks htoken ?_ rfl rfl rfl le_rfl
    simp only [Control.begun, StmTx.control, StmTx.prepared, hidle]
    rfl

/-! ## Commit -/

omit [DecidableEq Tid] [DecidableEq Addr] in
/-- The lock of an entry is dropped, or not. -/
theorem dropLast_straight (e : WEntry Addr Lock w) (l : ℕ) :
    (dropLast e l : M Tid Addr Lock w _).Straight := by
  unfold dropLast
  split
  · exact Prog.straight_atomic _
  · trivial

omit [DecidableEq Tid] in
/-- The installation has no loop. -/
theorem wbetlInstall_straight (es : List (WEntry Addr Lock w)) (t : ℕ) :
    (wbetlInstall es t : M Tid Addr Lock w _).Straight := by
  induction es with
  | nil => trivial
  | cons e es ih =>
    refine Prog.Straight.bind ?_ fun _ => (dropLast_straight ..).bind fun _ => ih
    unfold storeWordIf
    split
    · exact Prog.straight_atomic _
    · trivial

omit [DecidableEq Tid] [DecidableEq Addr] in
/-- The installation has no loop. -/
theorem wtInstall_straight (es : List (WEntry Addr Lock w)) (t : ℕ) :
    (wtInstall es t : M Tid Addr Lock w _).Straight := by
  induction es with
  | nil => trivial
  | cons e es ih => exact (dropLast_straight ..).bind fun _ => ih

omit [DecidableEq Tid] in
/-- The installation has no loop. -/
theorem wbctlInstall_straight (es : List (WEntry Addr Lock w)) (t : ℕ) :
    (wbctlInstall es t : M Tid Addr Lock w _).Straight := by
  induction es with
  | nil => trivial
  | cons e es ih =>
    refine Prog.Straight.bind ?_ fun _ => Prog.Straight.bind ?_ fun _ => ih
    · unfold wbctlStore
      split
      · exact Prog.straight_atomic _
      · split
        · exact fun _ => Prog.straight_atomic _
        · trivial
    · unfold wbctlDrop
      split
      · exact Prog.straight_atomic _
      · trivial

/-- The step of `p` commits its transaction as `c`. -/
structure Commits (p : Tid) (c : Commit Tid Addr w) (s t : State Tid Addr Lock w) : Prop where
  commits : t.commits = c :: s.commits
  control : (t.txs p).control = (s.txs p).control

omit [DecidableEq Tid] [DecidableEq Addr] [DecidableEq Lock] in
/-- What follows the commit leaves it alone. -/
theorem Commits.of_keeps {c : Commit Tid Addr w} (h : Commits p c s t) (h' : KeepsControl p t u) :
    Commits p c s u :=
  ⟨h'.commits.trans h.commits, h'.control.trans h.control⟩

omit [DecidableEq Tid] [DecidableEq Addr] [DecidableEq Lock] in
/-- What comes before the commit does not matter. -/
theorem KeepsControl.commits_of {c : Commit Tid Addr w} (h : KeepsControl p s t)
    (h' : Commits p c t u) : Commits p c s u :=
  ⟨h.commits ▸ h'.commits, h'.control.trans h.control⟩

omit [DecidableEq Addr] [DecidableEq Lock] in
/-- No transaction is irrevocable. -/
theorem checkToken_ends (htoken : s.irrevocable = 0) (tx : StmTx Addr Lock w) :
    (checkToken cfg p tx).Ends (fun i t => i = 0 ∧ t.clock = s.clock ∧ KeepsControl p s t) J s := by
  unfold checkToken
  split
  · refine .atomic ⟨htoken, ?_⟩
    dsimp only
    rw [if_pos htoken]
    exact ⟨rfl, by simp [State.setTx, StmTx.control], rfl⟩
  · exact .ret ⟨rfl, rfl, .refl p s⟩

/-- The part of a commit that the designs share, at the time of the snapshot: nothing is validated.
-/
theorem commitWith_ends {validate : M Tid Addr Lock w Bool}
    {install : List (WEntry Addr Lock w) → ℕ → M Tid Addr Lock w Unit}
    (htoken : s.irrevocable = 0) (hstart : (s.txs p).start = s.clock)
    (hinstall : ∀ es t, (install es t).Within (KeepsControl p) ∧ (install es t).Straight) :
    (commitWith cfg p validate install).Ends
      (fun _ t => Commits p ⟨p, s.clock + 1, true, (s.txs p).trace⟩ s t) J s := by
  refine .access (.bind (checkToken_ends htoken _) fun i t ⟨hi, hclock, ht⟩ => ?_)
  rw [if_neg (not_not.2 hi)]
  refine .access ?_
  have hvalid : (s.txs p).irrevocable ≠ 0 ∨ (s.txs p).start = t.clock + 1 - 1 :=
    .inr (by rw [hclock, hstart, Nat.add_sub_cancel])
  dsimp only
  rw [commitValidate, if_pos hvalid]
  refine .access ?_
  obtain ⟨hwithin, hstraight⟩ := hinstall (s.txs p).wSet.entries (t.clock + 1)
  refine .bind (hwithin.ends (.refl p) (fun _ _ _ => .trans) hstraight _) fun _ u hu => .ret ?_
  refine ht.commits_of (.of_keeps ⟨?_, ?_⟩ hu)
  · have htrace : (t.txs p).trace = (s.txs p).trace := congrArg Control.trace ht.control
    simp [State.setTx, hclock, htrace]
  · simp [State.setTx, StmTx.control]

/-- Every lock is free or one that an entry of `p` has acquired. -/
def Unheld (p : Tid) (s : State Tid Addr Lock w) : Prop :=
  ∀ ℓ, (∃ l, s.locks ℓ = .free l) ∨ ∃ i < (s.txs p).wSet.entries.length, s.locks ℓ = .owned p i

/-- The step of `p` changes locks and entries only, and `p` is the only thread that holds locks. -/
structure Acquires (p : Tid) (s t : State Tid Addr Lock w) : Prop where
  control : KeepsControl p s t
  clock : t.clock = s.clock
  token : t.irrevocable = s.irrevocable
  start : (t.txs p).start = (s.txs p).start
  length : (t.txs p).wSet.entries.length = (s.txs p).wSet.entries.length
  unheld : Unheld p t

omit [DecidableEq Tid] [DecidableEq Addr] [DecidableEq Lock] in
/-- Two steps after each other. -/
theorem Acquires.trans (h : Acquires p s t) (h' : Acquires p t u) : Acquires p s u where
  control := h.control.trans h'.control
  clock := h'.clock.trans h.clock
  token := h'.token.trans h.token
  start := h'.start.trans h.start
  length := h'.length.trans h.length
  unheld := h'.unheld

/-- A lock is acquired at a commit. -/
theorem wbctlAcquireEntry_ends {i : ℕ} (h : Unheld p s) (hi : i < (s.txs p).wSet.entries.length)
    (lock : Lock) :
    (wbctlAcquireEntry cfg p i lock).Ends (fun ok t => ok = true ∧ Acquires p s t) J s := by
  refine .leave (.access ?_)
  rcases h lock with ⟨l, hl⟩ | ⟨j, hj, hl⟩
  · dsimp only
    rw [hl]
    refine .access ?_
    rw [if_pos hl]
    refine .access (.ret ⟨true, rfl, rfl, ?_⟩)
    refine ⟨⟨?_, rfl⟩, rfl, rfl, ?_, ?_, fun ℓ => ?_⟩
    · simp [State.setTx, StmTx.control]
    · simp [State.setTx]
    · simp [State.setTx, WSet.modify]
    · by_cases hℓ : ℓ = lock
      · subst hℓ
        exact .inr ⟨i, by simpa [State.setTx, WSet.modify] using hi, Function.update_self ..⟩
      · simpa [State.setTx, WSet.modify, hℓ] using h ℓ
  · dsimp only
    rw [hl]
    refine .access ?_
    dsimp only
    rw [if_pos ⟨rfl, hj⟩]
    exact .ret ⟨true, rfl, rfl, .refl p s, rfl, rfl, rfl, rfl, h⟩

/-- The locks are acquired one after the other. -/
theorem wbctlAcquire_ends (h : Unheld p s) {es : List (WEntry Addr Lock w × ℕ)}
    (hes : ∀ e ∈ es, e.2 < (s.txs p).wSet.entries.length) :
    (wbctlAcquire cfg p es).Ends (fun ok t => ok = true ∧ Acquires p s t) J s := by
  induction es generalizing s with
  | nil => exact .ret ⟨rfl, .refl p s, rfl, rfl, rfl, rfl, h⟩
  | cons e es ih =>
    obtain ⟨he, hes⟩ := List.forall_mem_cons.1 hes
    refine .bind (wbctlAcquireEntry_ends h he _) fun ok t ⟨hok, ht⟩ => ?_
    subst hok
    refine (ih ht.unheld (ht.length.symm ▸ hes)).mono (fun ok u ⟨hok, hu⟩ => ?_) fun _ h => h
    exact ⟨hok, ht.trans hu⟩

omit [DecidableEq Tid] [DecidableEq Addr] [DecidableEq Lock] in
/-- No other thread holds a lock. -/
theorem Solo.unheld (h : Solo d p k L N n s) : Unheld p s :=
  fun ℓ => (h.locks ℓ).imp (fun ⟨l, hl, _⟩ => ⟨l, hl⟩) And.right

/-- The design's commit function. -/
theorem stmDesignCommit_ends (h : Solo d p k L N n s) (hk : k.Plain cfg d) :
    (stmDesignCommit cfg p).Ends (fun _ t => Commits p ⟨p, N + 1, true, k.trace⟩ s t) J s := by
  have hstart : (s.txs p).start = s.clock := h.start.trans h.clock.symm
  have htrace : (s.txs p).trace = k.trace := congrArg Control.trace h.control
  rw [← htrace, ← h.clock]
  refine .access ?_
  dsimp only
  rw [h.designOf hk]
  cases d with
  | writeBackCtl =>
    refine .access (.bind (wbctlAcquire_ends h.unheld ?_) fun ok t ⟨hok, ht⟩ => ?_)
    · intro e he
      simpa using List.snd_lt_of_mem_zipIdx (List.mem_reverse.1 he)
    · subst hok
      have htrace : (t.txs p).trace = (s.txs p).trace := congrArg Control.trace ht.control.control
      rw [← htrace, ← ht.clock]
      refine Prog.Ends.mono (commitWith_ends (ht.token.trans h.token)
        (ht.start.trans (hstart.trans ht.clock.symm)) fun _ _ => ⟨control_of_keeps (wbctlInstall_keeps ..),
          wbctlInstall_straight ..⟩) (fun _ _ hu => ht.control.commits_of hu) fun _ h => h
  | writeThrough =>
    exact commitWith_ends h.token hstart fun _ _ => ⟨control_of_keeps (wtInstall_keeps ..), wtInstall_straight ..⟩
  | writeBackEtl =>
    exact commitWith_ends h.token hstart fun _ _ => ⟨control_of_keeps (wbetlInstall_keeps ..),
      wbetlInstall_straight ..⟩
  | modular =>
    exact commitWith_ends h.token hstart fun _ _ => ⟨control_of_keeps (wbetlInstall_keeps ..),
      wbetlInstall_straight ..⟩

/-- The commit of a transaction, at the clock `N` if it has written nothing. -/
theorem commitWriteSet_ends (h : Solo d p k L N n s) (hk : k.Plain cfg d) (tx : StmTx Addr Lock w) :
    (commitWriteSet cfg p tx).Ends (fun _ t => ∃ update : Bool,
      Commits p ⟨p, if update then N + 1 else N, update, k.trace⟩ s t) J s := by
  unfold commitWriteSet
  split
  · refine .atomic ⟨false, ?_, rfl⟩
    have htrace : (s.txs p).trace = k.trace := congrArg Control.trace h.control
    simp [h.irrevocable hk, h.end_, htrace]
  · exact .bind (stmDesignCommit_ends h hk) fun _ t ht => .ret ⟨true, ht⟩

/-- `int_stm_commit`. -/
theorem intStmCommit_ends (h : Solo d p k L N n s) (hk : k.Plain cfg d) (hn : k.nesting = 1) :
    (intStmCommit cfg p).Ends (fun _ t => (∃ update : Bool,
        t.commits = ⟨p, if update then N + 1 else N, update, k.trace⟩ :: L) ∧
      (t.txs p).nesting = 0 ∧ (t.txs p).statAborts = k.statAborts ∧
      (t.txs p).statCommits = statSucc k.statCommits) J s := by
  have hzero : nestingPred (s.txs p).nesting = 0 := by
    have hnesting : (s.txs p).nesting = k.nesting := congrArg Control.nesting h.control
    rw [hnesting, hn, nestingPred_of_pos (by omega)]
  have h₁ : Solo d p { k with nesting := 0 } L N n
      (s.setTx p fun tx => { tx with nesting := nestingPred tx.nesting }) := by
    refine h.setTx ?_ rfl rfl rfl
    rw [← h.control]
    simp only [StmTx.control, hzero]
  have h₂ := h₁.setTx (f := fun tx => { tx with calls := tx.calls ++ cfg.precommitCb })
    (congrArg (fun k => { k with calls := k.calls ++ cfg.precommitCb }) h₁.control) rfl rfl rfl
  refine .access (.access ?_)
  dsimp only
  rw [State.setTx_txs_self, if_neg (Nat.not_lt.2 hzero.le)]
  refine .access (.bind (commitWriteSet_ends h₂ ⟨hk.status, hk.design, hk.readOnly,
    hk.irrevocable⟩ _) fun _ t ht => ?_)
  obtain ⟨update, ht⟩ := ht
  have htx := ht.control.trans h₂.control
  have hirr : (t.txs p).irrevocable = 0 := (congrArg Control.irrevocable htx).trans hk.irrevocable
  refine .access (.access ?_)
  dsimp only
  rw [State.setTx_txs_self, releaseToken, if_neg (not_not.2 hirr)]
  refine .access (.access (.ret ⟨⟨update, ht.commits.trans (h₂.commits ▸ rfl)⟩, ?_, ?_, ?_⟩))
  all_goals simp only [State.setTx, Function.update_self]
  · exact congrArg Control.nesting htx
  · exact congrArg Control.statAborts htx
  · exact congrArg (fun k => statSucc k.statCommits) htx

/-! ## Calls -/

/-- A start, while no lock is held. -/
theorem exec_start_ends (hlocks : ∀ ℓ, ∃ l, s.locks ℓ = .free l ∧ lockGetTimestamp l ≤ s.clock)
    (hclock : s.clock < cfg.versionMax) (htoken : s.irrevocable = 0)
    (hirr : (s.txs p).irrevocable = 0) (hidle : (s.txs p).nesting = 0) {attr : Attr} :
    (exec cfg p (.start attr : Cmd Addr w)).Ends
      (fun _ t => Solo d p ((s.txs p).control.begun attr cfg.startCb) s.commits s.clock
        (s.txs p).wSet.size t) J s :=
  intStmStart_ends hlocks hclock htoken hirr hidle

/-- A load returns, and is recorded. -/
theorem exec_load_ends (h : Solo d p k L N n s) (hk : k.Plain cfg d) :
    (exec cfg p (.load a)).Ends
      (fun _ t => ∃ x, Solo d p { k with trace := .load a x :: k.trace } L N n t) J s :=
  .bind (intStmLoad_ends h hk) fun x _ ht =>
    (record_ends (Solo.adds (m := 0) h ht) hk (.load a x)).mono (fun _ _ h => ⟨x, h⟩) fun _ h => h

/-- A store returns if there is room for one entry more. -/
theorem exec_store_ends (h : Solo d p k L N (n + 1) s) (hk : k.Plain cfg d)
    (hy : d = .writeThrough → y ≠ 0#w) :
    (exec cfg p (.store2 a x y)).Ends
      (fun _ t => Solo d p { k with trace := .store a x y :: k.trace } L N n t) J s :=
  .bind (stmWrite_ends h hk hy) fun _ _ ht => record_ends ht hk _

/-- A commit returns, and has committed. -/
theorem exec_commit_ends (h : Solo d p k L N n s) (hk : k.Plain cfg d) (hn : k.nesting = 1) :
    (exec cfg p (.commit : Cmd Addr w)).Ends (fun _ t => (∃ update : Bool,
        t.commits = ⟨p, if update then N + 1 else N, update, k.trace⟩ :: L) ∧
      (t.txs p).nesting = 0 ∧ (t.txs p).statAborts = k.statAborts ∧
      (t.txs p).statCommits = statSucc k.statCommits) J s :=
  .bind (intStmCommit_ends h hk hn) fun _ _ ht => .ret ht

end TinyStm
