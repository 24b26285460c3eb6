import TinyStm.Proof.Validate

/-!
# Loads

What the three designs' loads share: the value found between two loads of a lock word that agree is
the committed one, and a load whose value is good keeps the snapshot when it is recorded. A value is
good (`View.Good`) if it is still the committed one, or belongs to the snapshot for good, or is safe
since the transaction is irrevocable. Between the two loads of the lock word the committed word of
the stripe cannot change without the lock word changing, as no lock word comes back.
-/

namespace TinyStm

/-! ## The double read of a lock -/

namespace View

variable {Tid Addr Lock : Type} {w : ℕ} [DecidableEq Addr] {S : Setting Tid Addr Lock w}
  {v v' : View Tid Addr Lock w} {p q : Tid} {tx : StmTx Addr Lock w} {a : Addr} {l n k : ℕ}
  {x : BitVec w}

/-- The lock word of a stripe has been `l`. -/
structure Seen (S : Setting Tid Addr Lock w) (ℓ : Lock) (l : ℕ) (v : View Tid Addr Lock w) :
    Prop where
  ts : lockGetTimestamp l ≤ v.lastTs ℓ
  stamp : 2 * l ≤ v.stamp S ℓ

/-- The lock word of the stripe of `a` has been `l`, and then `x` has been in memory: if no
write-through transaction owns the lock and nothing newer than `l` is due, `x` is the committed
value. -/
structure Sight (S : Setting Tid Addr Lock w) (a : Addr) (l : ℕ) (x : BitVec w)
    (v : View Tid Addr Lock w) : Prop extends Seen S (S.cfg.getLock a) l v where
  eq : v.stamp S (S.cfg.getLock a) = 2 * l → v.due (S.cfg.getLock a) = lockGetTimestamp l →
    v.cur S a = x

omit [DecidableEq Addr] in
theorem Seen.of_free {ℓ : Lock} (h : v.locks ℓ = .free l) : v.Seen S ℓ l :=
  ⟨(lastTs_of_free h).ge, (stamp_of_free h).ge⟩

theorem Seen.stable {ℓ : Lock} (hg : Guar S q v v') (h : v.Seen S ℓ l) : v'.Seen S ℓ l :=
  ⟨h.ts.trans (hg.lastTs ℓ), h.stamp.trans (hg.stamp ℓ)⟩

/-- The load of the word. -/
theorem Seen.sight (hv : v.Inv S) (h : v.Seen S (S.cfg.getLock a) l) :
    v.Sight S a l (v.mem a) where
  toSeen := h
  eq hs hd := by
    refine (hv.mem a ?_).symm
    cases hl : v.locks (S.cfg.getLock a) with
    | free l' => exact quiet_of_free hl
    | owned r i =>
      have hlast : v.lastWord (S.cfg.getLock a) = v.saved (S.cfg.getLock a) := lastWord_of_owned hl
      rw [stamp_of_owned hl] at hs
      refine (quiet_of_owned ⟨i, hl⟩).2 ⟨fun hwt => ?_, fun t ht => ?_⟩
      · -- the stamp of a stripe that a write-through transaction owns is odd
        rw [if_pos hwt] at hs
        omega
      · -- a stripe that is due no later than `l` is not being written back
        have h1 := due_of_installing hl ht
        have h2 := hv.late _ r i t hl (.inr ht)
        have h3 := h.ts
        omega

theorem Sight.stable (hv : v.Inv S) (hg : Guar S q v v') (h : v.Sight S a l x) :
    v'.Sight S a l x where
  toSeen := h.toSeen.stable hg
  eq hs hd := by
    have h1 := hv.lastTs_le_due (S.cfg.getLock a)
    have h2 := hg.due (S.cfg.getLock a)
    have h3 := h.ts
    have h4 := h.stamp
    have h5 := hg.stamp (S.cfg.getLock a)
    rcases hg.cur a with hc | ⟨hd', -⟩
    · exact hc.trans (h.eq (by omega) (by omega))
    · omega

/-- The lock word is `l` again. -/
theorem Sight.cur (h : v.Sight S a l x) (hl : v.locks (S.cfg.getLock a) = .free l) :
    v.cur S a = x :=
  h.eq (stamp_of_free hl) (due_of_free hl)

/-- A free stripe that still has the version `k` has had the same words since then. -/
theorem FixedAt.forward (hv : v.Inv S) (h : v.FixedAt S p k a x)
    (hl : v.locks (S.cfg.getLock a) = .free l) (hlk : lockGetTimestamp l ≤ k) (hkn : k ≤ n)
    (hn : n ≤ v.clock) : v.FixedAt S p n a x := by
  have hx : v.cur S a = x := (hv.settled_of_free hl hlk).symm.trans h.eq
  exact hx ▸ .of_free hv hl (hlk.trans hkn) hn

/-- What a load of the word at `a` may return: the transaction's own stores over its good value. -/
def Value (S : Setting Tid Addr Lock w) (p : Tid) (tx : StmTx Addr Lock w) (a : Addr)
    (x : BitVec w) (v : View Tid Addr Lock w) : Prop :=
  Blind S tx ∨
    tx.trace.cover a = BitVec.allOnes w ∧ (∀ m : Mem Addr w, tx.trace.apply m a = x) ∨
    ∃ y, v.Good S p tx a y ∧ ∀ m : Mem Addr w, m a = y → tx.trace.apply m a = x

theorem Value.stable (hv : v.Inv S) (hq : q ≠ p) (hg : Guar S q v v') (h : v.Value S p tx a x) :
    v'.Value S p tx a x :=
  h.imp id <| Or.imp id fun ⟨y, hy, hx⟩ => ⟨y, hy.stable hv hq hg, hx⟩

/-- A state that has been observed has the committed word `x` at `a`. -/
def Observed (S : Setting Tid Addr Lock w) (a : Addr) (x : BitVec w) : Prop :=
  ∃ v : View Tid Addr Lock w, S.obs v ∧ v.cur S a = x

/-- Where the value of a load after the trace `tr` comes from: the thread owns the stripe, or the
transaction has stored to the word, or `x` has been the committed word. -/
def Origin (S : Setting Tid Addr Lock w) (p : Tid) (tr : Trace Addr w) (a : Addr)
    (x : BitVec w) (v : View Tid Addr Lock w) : Prop :=
  v.Holds p (S.cfg.getLock a) ∨ a ∈ tr.writes ∨ Observed S a x

variable {tr : Trace Addr w}

theorem Origin.stable (hq : q ≠ p) (hg : Guar S q v v') (h : v.Origin S p tr a x) :
    v'.Origin S p tr a x :=
  h.imp (fun hh => (hg.holds_iff hq).2 hh) id

/-- The stores of the transaction itself are put over a committed word. -/
theorem Origin.of_observed {y : BitVec w} (h : Observed S a y)
    (hx : ∀ m : Mem Addr w, m a = y → tr.apply m a = x) : v.Origin S p tr a x := by
  by_cases ha : a ∈ tr.writes
  · exact .inr (.inl ha)
  · have hxy : x = y := by
      rw [← hx (fun _ => y) rfl, Trace.apply_of_not_mem_writes ha]
    exact .inr (.inr (hxy ▸ h))

/-- A transaction that has stored all bits of a word has stored to it, if there are any. -/
theorem Origin.of_cover (hobs : S.obs v) (hc : tr.cover a = BitVec.allOnes w) :
    v.Origin S p tr a x := by
  by_cases ha : a ∈ tr.writes
  · exact .inr (.inl ha)
  · have hzero : BitVec.allOnes w = 0#w := hc.symm.trans (Trace.cover_of_not_mem_writes ha)
    have hall (y : BitVec w) : y = 0#w := by
      rw [← BitVec.and_allOnes (x := y), hzero, BitVec.and_zero]
    exact .inr (.inr ⟨v, hobs, (hall _).trans (hall x).symm⟩)

/-- A load that returns such a value keeps the snapshot. -/
theorem Snap.load_value {m : Mem Addr w} (h : v.Snap S p tx m) (hx : v.Value S p tx a x) :
    ∃ m', v.Snap S p { tx with trace := .load a x :: tx.trace } m' := by
  rcases hx with hB | ⟨hc, hx⟩ | ⟨y, hy, hx⟩
  · exact ⟨m, fun hB' => (hB' hB).elim, fun hB' => (hB' hB).elim, h.start_le, h.end_le⟩
  · refine ⟨m, fun hB => ⟨hx m, h.cons hB⟩, fun hB b hb => ?_, h.start_le, h.end_le⟩
    simp only [Trace.reads, if_pos hc] at hb
    exact h.good hB b hb
  · exact h.load hy hx

/-- With encounter-time locking a transaction has stored only to stripes that it owns. -/
theorem Ws.holds_of_mem_writes (h : v.Ws S p tx) (hS : S.cfg.designOf tx.attr ≠ .writeBackCtl)
    (ha : a ∈ tx.trace.writes) : v.Holds p (S.cfg.getLock a) := by
  unfold Ws at h
  split at h
  · exact h.writes a ha
  · exact (hS ‹_›).elim
  · exact h.writes a ha
  · exact h.elim

/-- What a strict run asks of a load from a stripe that the transaction owns. -/
def StrictLoad (S : Setting Tid Addr Lock w) (p : Tid) (a : Addr) (tx : StmTx Addr Lock w)
    (v : View Tid Addr Lock w) : Prop :=
  S.strict → tx.irrevocable ≠ 0 ∨ tx.trace.cover a = BitVec.allOnes w ∨
    (v.Holds p (S.cfg.getLock a) → v.lastTs (S.cfg.getLock a) ≤ tx.end_)

theorem StrictLoad.congr (h : SameHeld S p v v') (hs : v.StrictLoad S p a tx) :
    v'.StrictLoad S p a tx := fun hS => (hs hS).imp id <| Or.imp id fun hle hh => by
  have hh := h.holds_iff.1 hh
  rw [h.lastTs hh]
  exact hle hh

/-- A load from a stripe that the transaction owns. -/
theorem Value.of_own (ho : v.Own S p tx a) (hs : v.StrictLoad S p a tx)
    (hx : x = tx.trace.apply (v.cur S) a) : v.Value S p tx a x := by
  by_cases hc : tx.trace.cover a = BitVec.allOnes w
  · exact .inr (.inl ⟨hc, fun m => (Trace.apply_of_cover_allOnes hc).trans hx.symm⟩)
  · refine .inr (.inr ⟨_, .inl ⟨ho, rfl, fun hS => ?_⟩, fun m hm => (Trace.apply_congr hm).trans hx.symm⟩)
    exact (hs hS).imp id fun h => h.resolve_left hc ho.2

end View

section
variable {Tid Addr Lock : Type} {w : ℕ} [DecidableEq Addr] (S : Setting Tid Addr Lock w) (p : Tid)

/-- The run is strict as to the load of the word at `a`. -/
def strictLoad (a : Addr) (tx : StmTx Addr Lock w) : VAsn S p :=
  heldAsn S p (·.StrictLoad S p a tx) fun _ _ => View.StrictLoad.congr

/-- Thread `p` owns the stripe of `a`, and the word at `a` is `x` for it. -/
def ownWord (tx : StmTx Addr Lock w) (a : Addr) (x : BitVec w) : VAsn S p :=
  heldAsn S p (fun v => v.Holds p (S.cfg.getLock a) ∧ x = tx.trace.apply (v.cur S) a)
    fun _ _ h ⟨hh, hx⟩ => ⟨h.holds_iff.2 hh, hx.trans (Trace.apply_congr (h.cur a hh).symm)⟩

/-- The committed word at `p` is irrevocable. -/
def safe (a : Addr) (x : BitVec w) : VAsn S p where
  holds v := v.Safe S.toPremises p a x
  stable _ hq _ _ hv _ hg h := h.stable hv hq hg

/-- A load of the word at `a` by `tx` may return `x`. -/
def value (tx : StmTx Addr Lock w) (a : Addr) (x : BitVec w) : VAsn S p where
  holds v := v.Value S p tx a x ∧ v.Origin S p tx.trace a x
  stable _ hq _ _ hv _ hg h := ⟨h.1.stable hv hq hg, h.2.stable hq hg⟩

/-- What is known of a lock word of the stripe `ℓ` that has been loaded. -/
def word (ℓ : Lock) : LockWord Tid → VAsn S p
  | .free l => { holds := View.Seen S ℓ l, stable := fun _ _ _ _ _ _ hg h => h.stable hg }
  | .owned q i => .imp (q = p) (heldAsn S p (·.locks ℓ = .owned p i)
      fun _ _ h hi => (h.locks ℓ i).2 hi)

/-- The same for the lock word with which a loop goes on. -/
def wordOr (ℓ : Lock) : Option (LockWord Tid) → VAsn S p
  | none => .pure True
  | some l => word S p ℓ l

/-- Thread `p` does not own the stripe. -/
def free (ℓ : Lock) : VAsn S p :=
  heldAsn S p (fun v => ¬ v.Holds p ℓ) fun _ _ h hn hh => hn (h.holds_iff.1 hh)

/-- The word at `a` has been `x` while its lock word was `l`. -/
def sighted (tx : StmTx Addr Lock w) (a : Addr) (l : ℕ) (x : BitVec w) : VAsn S p :=
  fixedAt S p (max (lockGetTimestamp l) tx.end_) a x ⊓
    (.imp (S.hint ∧ tx.irrevocable = 3) (safe S p a x) ⊓ .pure (View.Observed S a x)) ⊓
    free S p (S.cfg.getLock a) ⊓ word S p (S.cfg.getLock a) (.free l)

/-- The transaction has loaded `x` from `a`, and the load is not recorded yet. -/
def loaded (a : Addr) (x : BitVec w) : Asn S p :=
  .ex fun tx => .ex fun m => .pure (TxActive S.toPremises tx) ⊓ At tx (live S p tx m ⊓ value S p tx a x)

end

variable {Tid Addr Lock : Type} {w : ℕ} [DecidableEq Tid] [DecidableEq Addr] [DecidableEq Lock]
  {S : Setting Tid Addr Lock w} {p : Tid} {tx : StmTx Addr Lock w} {m : Mem Addr w} {α : Type}
  {Φ : VAsn S p} {Q : α → Asn S p} {J : Asn S p} {a : Addr} {l : ℕ} {x : BitVec w}

omit [DecidableEq Tid] [DecidableEq Lock] in
/-- What a load of the lock word shows. -/
theorem word_self (ℓ : Lock) (v : View Tid Addr Lock w) : word S p ℓ (v.locks ℓ) v := by
  cases hl : v.locks ℓ with
  | free l => exact .of_free hl
  | owned q i =>
    rintro rfl
    exact hl

/-- The lock word at the label `restart` or `restart_no_load`. -/
theorem loadLockOr_spec {ℓ : Lock} {l? : Option (LockWord Tid)}
    {k : LockWord Tid → M Tid Addr Lock w α}
    (hk : ∀ l, Triple (protocol S) p (At tx (Φ ⊓ word S p ℓ l)) (k l) Q J) :
    Triple (protocol S) p (At tx (Φ ⊓ wordOr S p ℓ l?)) (loadLockOr ℓ l? >>= k) Q J := by
  cases l? with
  | some l => exact hk l
  | none =>
    exact .loadLock (fun l => Φ ⊓ word S p ℓ l) (fun v _ h => ⟨h.1, word_self ℓ v⟩) hk

/-- The value loaded between two loads of the lock that agree. -/
theorem doubleRead_spec {k : BitVec w → LockWord Tid → M Tid Addr Lock w α}
    {retry : LockWord Tid → M Tid Addr Lock w α} (hend : ∀ v, Φ v → tx.end_ ≤ v.clock)
    (hr : ∀ l, Triple (protocol S) p (At tx (Φ ⊓ word S p (S.cfg.getLock a) l)) (retry l) Q J)
    (hk : ∀ x, Triple (protocol S) p (At tx (Φ ⊓ sighted S p tx a l x)) (k x (.free l)) Q J) :
    Triple (protocol S) p (At tx (Φ ⊓ word S p (S.cfg.getLock a) (.free l)))
      (loadWord a >>= fun x => loadLock (S.cfg.getLock a) >>= fun l2 =>
        if l2 ≠ .free l then retry l2 else k x l2) Q J := by
  let sight (x : BitVec w) : VAsn S p :=
    { holds := View.Sight S a l x, stable := fun _ _ _ _ hv _ hg h => h.stable hv hg }
  refine .loadWord (fun x => Φ ⊓ sight x) (fun v hl h => ⟨h.1, View.Seen.sight hl.inv h.2⟩)
    fun x => ?_
  refine .loadLock (fun l2 => Φ ⊓ (word S p (S.cfg.getLock a) l2 ⊓
    .imp (l2 = .free l) (sighted S p tx a l x))) (fun v hv h => ⟨h.1, word_self _ v, fun hl => ?_⟩)
    fun l2 => ?_
  · have hx := View.Sight.cur h.2 hl
    have hc := hv.inv.lastTs_le_clock (S.cfg.getLock a)
    rw [View.lastTs_of_free hl] at hc
    refine ⟨⟨⟨?_, fun hi => ?_, _, hv.obs, hx⟩, View.not_holds_of_free hl⟩, .of_free hl⟩
    · exact hx ▸ .of_free hv.inv hl (le_max_left ..) (max_le hc (hend v h.1))
    · refine hx ▸ .of_free hi.1 hl ?_
      rw [hv.irr, hi.2]
      omega
  · refine .ite (fun _ => (hr l2).weaken fun v _ h => ⟨h.1, h.2.1⟩) fun hl2 => ?_
    obtain rfl := not_not.1 hl2
    exact (hk x).weaken fun v _ h => ⟨h.1, h.2.2 rfl⟩

/-! ## The end of a load -/

/-- The rollback of an active attempt. -/
theorem abort_spec (h : TxLive S.toPremises tx) (reason : Reason) :
    Triple (protocol S) p (At tx (live S p tx m)) (stmRollback S.cfg p reason)
      (fun _ => .pure (NotRetried tx reason) ⊓
        idleWith S p tx.irrevocable (S.cfg.Unasked tx.statAborts reason))
      (boundary S p) := by
  have hirr : tx.irrevocable ≤ 3 := by
    rcases h.irr with h | h <;> omega
  refine .weaken (stmRollback_spec h.attr (fun t ht => ?_) hirr
    reason) fun v _ hv => hv.2.undo
  rw [h.phase] at ht
  cases ht

/-- The abort of an attempt that has met the lock of another thread. -/
theorem conflict_spec {k : Unit → M Tid Addr Lock w α} (h : TxLive S.toPremises tx)
    (lock : Lock) (reason : Reason)
    (hk : Triple (protocol S) p (idleAsn S p) (k ()) Q (boundary S p)) :
    Triple (protocol S) p (At tx (live S p tx m))
      (setCLock S.cfg p lock >>= fun _ => stmRollback S.cfg p reason >>= k) Q (boundary S p) := by
  refine .bind (setCLock_spec lock) fun _ => .of_ex fun c => ?_
  refine .weaken (.bind (abort_spec (m := m) ?_ reason) fun _ =>
    hk.pre fun _ _ h => idleAsn_of_idleWith h.2) fun v _ h => ?_
  · exact { h with }
  · exact ⟨h.1.congr rfl rfl rfl rfl rfl rfl, h.2.of_eq rfl rfl rfl⟩

/-- Nothing is recorded of a thread that is idle. -/
theorem recordIdle_spec (hidle : TxIdle tx) (e : Event Addr w) :
    Triple (protocol S) p (At tx Φ) (record p e) (fun _ => At tx Φ) J := by
  have hf : (if tx.status.isActive then { tx with trace := e :: tx.trace } else tx) = tx := by
    rw [hidle.inactive]
    rfl
  refine .last (.modifyTx (by rw [hf]) (by rw [hf]) (by rw [hf]) (.of_ret fun s _ h => ?_))
  exact hf ▸ h

/-- An event is recorded in the trace of an active attempt. -/
theorem recordActive_spec (hact : TxActive S.toPremises tx) (e : Event Addr w) :
    Triple (protocol S) p (At tx Φ) (record p e)
      (fun _ => At { tx with trace := e :: tx.trace } Φ) J := by
  have hf : (if tx.status.isActive then { tx with trace := e :: tx.trace } else tx) =
      { tx with trace := e :: tx.trace } := by
    rw [hact.active]
    rfl
  refine .last (.modifyTx (by rw [hf]) (by rw [hf]) (by rw [hf]) (.of_ret fun s _ h => ?_))
  exact hf ▸ h

omit [DecidableEq Tid] [DecidableEq Lock] in
/-- An active attempt with another event in its trace. -/
theorem boundary_of_recorded {e : Event Addr w} {s : State Tid Addr Lock w}
    (hact : TxActive S.toPremises tx)
    (h : At { tx with trace := e :: tx.trace } (.ex (snap S p { tx with trace := e :: tx.trace }) ⊓
      wset S p { tx with trace := e :: tx.trace }) s) : boundary S p s :=
  .inr ⟨{ tx with trace := e :: tx.trace }, { hact with }, h⟩

/-- A load is recorded in the trace of an active attempt. -/
theorem recordLoad_spec : Triple (protocol S) p (idleAsn S p ⊔ loaded S p a x)
    (record p (.load a x)) (fun _ => boundary S p) J := by
  refine .of_sup (.of_ex fun tx => ?_) (.of_ex fun tx => .of_ex fun m => ?_)
  · refine .of_fact (fun s _ h => h.1) fun hidle => ?_
    exact .pre ((recordIdle_spec (Φ := noLocks S p) hidle _).post
      (fun _ s _ h => .inl ⟨tx, hidle, h⟩) fun _ _ h => h) fun s _ h => h.2
  · refine .of_fact (fun s _ h => h.1) fun hact => .pre ((recordActive_spec hact _).post
      (fun _ s _ h => boundary_of_recorded hact h) fun _ _ h => h) fun s _ h => ?_
    exact ⟨h.2.1, h.2.2.1.1.load_value h.2.2.2.1, h.2.2.1.2.load a x⟩

/-! ## The read set -/

omit [DecidableEq Tid] [DecidableEq Addr] in
/-- The read set after `addToRs`: it has an entry for the lock unless the transaction is read-only,
and no other new ones. -/
theorem exists_addToRs (cfg : Config Addr Lock) (n : ℕ) (ℓ : Lock) (tx : StmTx Addr Lock w) :
    ∃ rs, addToRs cfg n ℓ tx = { tx with rSet := rs } ∧ (∀ r ∈ rs, r ∈ tx.rSet ∨ r = ⟨n, ℓ⟩) ∧
      (tx.attr.readOnly = false → ∃ r ∈ rs, r.lock = ℓ) := by
  unfold addToRs
  split
  case isTrue h =>
    refine ⟨tx.rSet, rfl, fun r hr => .inl hr, fun hro => ?_⟩
    obtain ⟨-, hr⟩ := h.resolve_left (by simp [hro])
    obtain ⟨r, hr⟩ := Option.isSome_iff_exists.1 hr
    exact ⟨r, List.mem_of_find?_eq_some hr, by simpa using List.find?_some hr⟩
  case isFalse h =>
    exact ⟨_, rfl, fun r hr => by simpa using hr, fun _ => ⟨⟨n, ℓ⟩, by simp, rfl⟩⟩

omit [DecidableEq Tid] [DecidableEq Lock] in
/-- A load from a stripe that the snapshot covers. -/
theorem loaded_of_fixedAt {y : BitVec w} {s : State Tid Addr Lock w}
    (h : At tx (live S p tx m ⊓ (fixedAt S p tx.end_ a y ⊓ free S p (S.cfg.getLock a))) s)
    (hact : TxActive S.toPremises tx) (hi : tx.irrevocable = 0)
    (hc : tx.attr.readOnly = true ∨ View.Covered tx (S.cfg.getLock a))
    (ho : View.Observed S a y) (hx : ∀ m : Mem Addr w, m a = y → tx.trace.apply m a = x) :
    loaded S p a x s := by
  obtain ⟨htx, hlive, hf, hfree⟩ := h
  have hno : ¬ s.view.Own S p tx a := fun ho => hfree ho.2
  refine ⟨tx, m, hact, htx, hlive, .inr (.inr ⟨y, ?_, hx⟩), .of_observed ho hx⟩
  exact .inr (.inr ⟨hno, by omega, hf, hc⟩)

omit [DecidableEq Tid] [DecidableEq Lock] in
/-- The load of an irrevocable transaction. -/
theorem loaded_of_safe {s : State Tid Addr Lock w}
    (h : At tx (live S p tx m ⊓ sighted S p tx a l x) s) (hact : TxActive S.toPremises tx)
    (hi : tx.irrevocable ≠ 0)
    (hx : ¬ View.Blind S tx → ∀ m : Mem Addr w, m a = x → tx.trace.apply m a = x) :
    loaded S p a x s := by
  obtain ⟨htx, hlive, ⟨⟨-, hs, ho⟩, hfree⟩, -⟩ := h
  have hno : ¬ s.view.Own S p tx a := fun ho => hfree ho.2
  have h3 := hact.irr.resolve_left hi
  by_cases hB : View.Blind S tx
  · exact ⟨tx, m, hact, htx, hlive, .inl hB, .inr (.inr ho)⟩
  · refine ⟨tx, m, hact, htx, hlive, .inr (.inr ⟨x, ?_, hx hB⟩), .inr (.inr ho)⟩
    exact .inr (.inl ⟨hno, h3, hs ⟨View.hint_of_not_blind hB h3, h3⟩⟩)

/-- The transaction adds the version of a load to its read set. -/
theorem addToRs_spec {n : ℕ} {y : BitVec w} (hact : TxActive S.toPremises tx) (hi : tx.irrevocable = 0)
    (hn : n ≤ tx.end_) (ho : View.Observed S a y)
    (hx : ∀ m : Mem Addr w, m a = y → tx.trace.apply m a = x) :
    Triple (protocol S) p
      (At tx (live S p tx m ⊓ (fixedAt S p tx.end_ a y ⊓ free S p (S.cfg.getLock a))))
      (modifyTx p (addToRs S.cfg n (S.cfg.getLock a))) (fun _ => loaded S p a x) J := by
  obtain ⟨rs, hrs, hmem, hlock⟩ := exists_addToRs S.cfg n (S.cfg.getLock a) tx
  have hver : ∀ r ∈ rs, r.version ≤ tx.end_ := fun r hr =>
    (hmem r hr).elim (hact.version r) fun hr => hr ▸ hn
  refine .last (.modifyTx (by rw [hrs]) (by rw [hrs]) (by rw [hrs]) (.of_ret fun s _ h => ?_))
  obtain ⟨htx, ⟨hsnap, hws⟩, hf⟩ := h
  have hsnap := hsnap.addToRs S.cfg n (S.cfg.getLock a)
  rw [hrs] at htx hsnap
  have hAt : At { tx with rSet := rs } (live S p { tx with rSet := rs } m ⊓
      (fixedAt S p tx.end_ a y ⊓ free S p (S.cfg.getLock a))) s :=
    ⟨htx, ⟨hsnap, hws.of_eq rfl rfl rfl⟩, hf⟩
  refine loaded_of_fixedAt hAt ?_ hi ?_ ho hx
  · exact { hact with version := hver }
  · by_cases hro : tx.attr.readOnly = true
    · exact .inl hro
    · obtain ⟨r, hr, hrl⟩ := hlock (by simpa using hro)
      exact .inr ⟨r, hr, hrl, hver r hr⟩

/-! ## The loop of a load -/

/-- A load at the head of its loop. `θ` is what the design `d` knows of the descriptor, and the lock
word with which the loop goes on has been seen. -/
def reading (S : Setting Tid Addr Lock w) (d : Design) (p : Tid) (a : Addr)
    (θ : StmTx Addr Lock w → VAsn S p) (l? : Option (LockWord Tid)) : Asn S p :=
  .ex fun tx => .ex fun m => .pure (TxActive S.toPremises tx ∧ S.cfg.designOf tx.attr = d) ⊓
    At tx (live S p tx m ⊓ θ tx ⊓ wordOr S p (S.cfg.getLock a) l?)

/-- What a load leaves: the transaction has aborted, or it has loaded the value. -/
def afterLoad (S : Setting Tid Addr Lock w) (p : Tid) (a : Addr) (x : BitVec w) : Asn S p :=
  idleAsn S p ⊔ loaded S p a x

/-- A load from a free stripe, write-back. -/
theorem readFree_spec {θ : StmTx Addr Lock w → VAsn S p} (ovr : BitVec w → BitVec w)
    {test : StmTx Addr Lock w → ℕ → REntry Lock → Bool} {d : Design}
    (hact : TxActive S.toPremises tx) (hd : S.cfg.designOf tx.attr = d) (ref : LockWord Tid → LockWord Tid)
    (href : ref (.free l) = .free l) (again : LockWord Tid → LockWord Tid → LockWord Tid)
    (hagain : ∀ l', again (.free l) l' = l' ∨ again (.free l) l' = .free l)
    (hθ : ∀ tx n v, tx.end_ ≤ n → θ tx v → θ { tx with end_ := n } v)
    (hT : OwnTest p tx (live S p tx m) test)
    (hover : ∀ v, θ tx v → v.Ws S p tx → ¬ v.Holds p (S.cfg.getLock a) →
      tx.irrevocable = 0 ∨ ¬ View.Blind S tx → ∀ m : Mem Addr w,
      tx.trace.apply m a = if tx.irrevocable = 0 then ovr (m a) else m a) :
    Triple (protocol S) p
      (At tx (live S p tx m ⊓ θ tx ⊓ word S p (S.cfg.getLock a) (.free l)))
      (do
        let value ← loadWord a
        let l2 ← loadLock (S.cfg.getLock a)
        if l2 ≠ .free l then pure (.inl (some l2))
        else do
          let tx ← getTx p
          let version := lockGetTimestamp l
          if tx.irrevocable ≠ 0 then pure (.inr value)
          else if version > tx.end_ then do
            let ok ← tryExtend tx (extendWith p (getTx p >>= fun tx =>
              validateEntries p test tx.rSet))
            if ok then do
              let l' ← loadLock (S.cfg.getLock a)
              if l' ≠ ref l2 then pure (.inl (some (again l2 l')))
              else do
                modifyTx p (addToRs S.cfg version (S.cfg.getLock a))
                pure (.inr (ovr value))
            else do
              stmRollback S.cfg p .loadInvalid
              pure (.inr 0#w)
          else do
            modifyTx p (addToRs S.cfg version (S.cfg.getLock a))
            pure (.inr (ovr value)))
      (Sum.elim (reading S d p a θ) (afterLoad S p a)) (boundary S p) := by
  refine doubleRead_spec (fun v h => h.1.1.end_le) (fun l2 => ?_) fun x => .getTx ?_
  · exact .of_ret fun s _ h => ⟨tx, m, ⟨hact, hd⟩, h⟩
  refine .fact (φ := View.Observed S a x ∧ (tx.irrevocable = 0 ∨ ¬ View.Blind S tx →
    ∀ m : Mem Addr w, tx.trace.apply m a = if tx.irrevocable = 0 then ovr (m a) else m a))
    (fun v _ h => ⟨h.2.1.1.2.2, hover v h.1.2 h.1.1.2 h.2.1.2⟩) fun ⟨hobs, hover⟩ => ?_
  refine .ite (fun hi => .of_ret fun s _ h => .inr (loaded_of_safe ⟨h.1, h.2.1.1, h.2.2⟩ hact hi
    fun hB m hm => ?_)) fun hi => ?_
  · rw [hover (.inr hB), if_neg hi, hm]
  have hi := not_not.1 hi
  have hover : ∀ y (m : Mem Addr w), m a = y → tx.trace.apply m a = ovr y := fun y m hm => by
    rw [hover (.inl hi), if_pos hi, hm]
  refine .ite (fun hlt => ?_) fun hle => ?_
  · have hmax : max (lockGetTimestamp l) tx.end_ = lockGetTimestamp l := max_eq_left (by omega)
    refine .bind (.weaken (tryExtend_spec (Θ := θ tx ⊓ sighted S p tx a l x) (by omega) hT
      (lockGetTimestamp l) (fun _ _ => .pure True) (fun v _ h => hmax ▸ h.2.1.1.1.le)
      fun _ _ _ _ _ _ _ _ _ => trivial) fun v _ h => ⟨h.1.1, h.1.2, h.2⟩) fun ok => ?_
    cases ok with
    | false =>
      refine .bind (.weaken (abort_spec hact.toTxLive _) fun v _ h => h.1) fun _ => ?_
      exact .of_ret fun s _ h => .inl (idleAsn_of_idleWith h.2)
    | true =>
      refine .of_ex fun n => .of_fact (fun s _ h => h.1) fun ⟨hn, hen, _⟩ => .pre ?_ fun s _ h => h.2
      have hact' : TxActive S.toPremises { tx with end_ := n } :=
        { hact with version := fun r hr => (hact.version r hr).trans hen }
      rw [href]
      refine .loadLock (fun l' => live S p { tx with end_ := n } m ⊓ θ { tx with end_ := n } ⊓
        word S p (S.cfg.getLock a) (again (.free l) l') ⊓ free S p (S.cfg.getLock a) ⊓
        .imp (l' = .free l) (fixedAt S p n a x)) (fun v hl h => ?_) fun l' => ?_
      · obtain ⟨⟨hlive, hθ', ⟨⟨hf, -⟩, hfree⟩, hseen⟩, -⟩ := h
        refine ⟨⟨⟨⟨hlive, hθ tx n v hen hθ'⟩, ?_⟩, hfree⟩, fun h2 => ?_⟩
        · rcases hagain (v.locks (S.cfg.getLock a)) with h2 | h2 <;> rw [h2]
          · exact word_self _ v
          · exact hseen
        · exact View.FixedAt.forward hl.inv (hmax ▸ hf) h2 le_rfl hn hlive.1.end_le
      · refine .ite (fun _ => .of_ret fun s _ h => ?_) fun h2 => ?_
        · exact ⟨_, m, ⟨hact', hd⟩, h.1, h.2.1.1⟩
        · refine .bind (.weaken (addToRs_spec (m := m) hact' hi hn hobs (hover x)) fun v _ h => ?_) fun _ =>
            .of_ret fun s _ h => .inr h
          exact ⟨h.1.1.1.1, h.2 (not_not.1 h2), h.1.2⟩
  · have hle := Nat.le_of_not_lt hle
    refine .weaken (.bind (addToRs_spec hact hi hle hobs (hover x)) fun _ => .of_ret fun s _ h => .inr h)
      fun v _ h => ⟨h.1.1, ?_, h.2.1.2⟩
    exact max_eq_right hle ▸ h.2.1.1.1

end TinyStm
