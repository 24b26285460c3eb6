import TinyStm.Protocol.Assertions

/-!
# Snapshots

What the loads of a transaction rest on. `View.Good` says why the value `x` of an address is still
the right one: the thread owns the stripe, or it is irrevocable and no commit can reach the stripe,
or the memory as of the end of the snapshot can no longer change there. `View.Snap` says that the
trace of a transaction is consistent with a memory all of whose values are good.
-/

namespace TinyStm

namespace View

variable {Tid Addr Lock : Type} {w : ℕ} [DecidableEq Addr] {S : Premises Addr Lock w}
  {v v' : View Tid Addr Lock w} {p q : Tid} {ℓ : Lock} {l i n : ℕ} {a : Addr} {x : BitVec w}

/-! ## What another thread's step preserves -/

namespace Guar

/-- The other threads leave the locks of `p` to it. -/
theorem holds_iff (hg : Guar S q v v') (hq : q ≠ p) : v'.Holds p ℓ ↔ v.Holds p ℓ :=
  exists_congr fun i => hg.locks p hq.symm ℓ i

/-- The other threads leave the last words of the locks of `p` alone. -/
theorem lastWord_of_holds (hg : Guar S q v v') (hq : q ≠ p) (h : v.Holds p ℓ) :
    v'.lastWord ℓ = v.lastWord ℓ := by
  have hs := hg.saved p hq.symm ℓ h
  obtain ⟨i, hi⟩ := h
  rw [lastWord_of_owned hi, lastWord_of_owned ((hg.locks p hq.symm ℓ i).2 hi), hs]

/-- The other threads leave the last timestamps of the locks of `p` alone. -/
theorem lastTs_of_holds (hg : Guar S q v v') (hq : q ≠ p) (h : v.Holds p ℓ) :
    v'.lastTs ℓ = v.lastTs ℓ := by
  rw [View.lastTs, View.lastTs, hg.lastWord_of_holds hq h]

/-- The committed word of a stripe that `p` holds does not change. -/
theorem cur_of_holds (hg : Guar S q v v') (hq : q ≠ p) (h : v.Holds p (S.cfg.getLock a)) :
    v'.cur S a = v.cur S a :=
  (hg.cur a).resolve_right fun h' => hq (h'.2.2.unique h)

/-- The word of a stripe that `p` holds does not change. -/
theorem mem_of_holds (hg : Guar S q v v') (hq : q ≠ p) (h : v.Holds p (S.cfg.getLock a)) :
    v'.mem a = v.mem a :=
  (hg.mem a).resolve_right fun h' => hq (h'.unique h)

end Guar

/-! ## Values that no other thread can change -/

variable (S v p)

/-- The word at `a` as of timestamp `n` is `x`, and no commit under way can change it. -/
structure FixedAt (n : ℕ) (a : Addr) (x : BitVec w) : Prop where
  le : n ≤ v.clock
  eq : v.memAt S n a = x
  late : ∀ q t, q ≠ p → v.phase q = .ticket t → v.Holds q (S.cfg.getLock a) → n < t

/-- `p` holds the token, which only its holder gives back, the committed word at `a` is `x`, and no
other thread that owns its stripe has passed the check for an irrevocable transaction. -/
structure Safe (a : Addr) (x : BitVec w) : Prop where
  hint : S.hint
  irr : 2 ≤ v.irr p
  eq : v.cur S a = x
  early : ∀ q, q ≠ p → v.Holds q (S.cfg.getLock a) → ¬ (v.phase q).Passed

omit [DecidableEq Addr] in
/-- Thread `p` owns the stripe of `a` and so may load from it. With commit-time locking the locks
are taken after the last load. -/
def Own (tx : StmTx Addr Lock w) (a : Addr) : Prop :=
  S.cfg.designOf tx.attr ≠ .writeBackCtl ∧ v.Holds p (S.cfg.getLock a)

variable {S v p}

/-- What is fixed stays fixed. -/
theorem FixedAt.stable (hq : q ≠ p) (hg : Guar S q v v') (h : v.FixedAt S p n a x) :
    v'.FixedAt S p n a x where
  le := h.le.trans hg.clock
  eq := by
    rcases hg.memAt a n h.le with he | ⟨t, ht, hle, hh⟩
    · exact he.trans h.eq
    · have := h.late q t hq ht hh
      omega
  late := by
    intro r t hr ht hh
    by_cases hrq : r = q
    · subst hrq
      rcases hg.acquire _ hh with hh | hh
      · rcases hg.draw t ht with ht | ht
        · exact h.late r t hr ht hh
        · exact h.le.trans_lt ht
      · rw [ht] at hh
        cases hh
    · rw [hg.phase r hrq] at ht
      exact h.late r t hr ht ((hg.holds_iff (Ne.symm hrq)).1 hh)

/-- What is safe for an irrevocable transaction stays safe. -/
theorem Safe.stable (hv : v.Inv S) (hq : q ≠ p) (hg : Guar S q v v') (h : v.Safe S p a x) :
    v'.Safe S p a x where
  hint := h.hint
  irr := by rw [hg.irr p hq.symm]; exact h.irr
  eq := by
    rcases hg.cur a with he | ⟨-, hp, hh⟩
    · exact he.trans h.eq
    · exact (h.early q hq hh hp).elim
  early := by
    intro r hr hh hpass
    by_cases hrq : r = q
    · subst hrq
      rcases hg.acquire _ hh with hh | hh
      · rcases hg.pass hpass with hp | ht | ht
        · exact h.early r hr hh hp
        · have := hv.token h.hint p h.irr
          omega
        · exact hr (hv.token_inj h.hint r p ht h.irr)
      · rw [hh] at hpass
        exact hpass
    · rw [hg.phase r hrq] at hpass
      exact h.early r hr ((hg.holds_iff (Ne.symm hrq)).1 hh) hpass

omit [DecidableEq Addr] in
/-- What the other threads own after a step of `p`. -/
theorem Guar.holds_other [DecidableEq Addr] (hg : Guar S p v v') (hq : q ≠ p)
    (h : v'.Holds q ℓ) : v.Holds q ℓ :=
  (hg.holds_iff hq.symm).1 h

/-- A step of `p` itself that commits nothing. -/
theorem FixedAt.self (hg : Guar S p v v') (hc : v'.commits = v.commits)
    (h : v.FixedAt S p n a x) : v'.FixedAt S p n a x where
  le := h.le.trans hg.clock
  eq := by rw [memAt, hc]; exact h.eq
  late q t hq ht hh := by
    rw [hg.phase q hq] at ht
    exact h.late q t hq ht (hg.holds_other hq hh)

/-- The thread's own steps keep what is safe. -/
theorem Safe.self (hg : Guar S p v v') (hcur : v'.cur S a = v.cur S a) (hirr : 2 ≤ v'.irr p)
    (h : v.Safe S p a x) : v'.Safe S p a x where
  hint := h.hint
  irr := hirr
  eq := hcur.trans h.eq
  early q hq hh hpass := by
    rw [hg.phase q hq] at hpass
    exact h.early q hq (hg.holds_other hq hh) hpass

/-- A free stripe has its committed words at every time from its version on. -/
theorem FixedAt.of_free (hv : v.Inv S) (hl : v.locks (S.cfg.getLock a) = .free l)
    (hn : lockGetTimestamp l ≤ n) (hc : n ≤ v.clock) : v.FixedAt S p n a (v.cur S a) where
  le := hc
  eq := hv.settled_of_free hl hn
  late _ _ _ _ hh := (not_holds_of_free hl hh).elim

/-- The committed word of a free stripe is safe for an irrevocable transaction. -/
theorem Safe.of_free (hh : S.hint) (hl : v.locks (S.cfg.getLock a) = .free l) (hp : 2 ≤ v.irr p) :
    v.Safe S p a (v.cur S a) where
  hint := hh
  irr := hp
  eq := rfl
  early _ _ hh := (not_holds_of_free hl hh).elim

/-- A stripe that `p` owns has its committed words at every time from its last version on. -/
theorem FixedAt.of_holds (hv : v.Inv S) (hp : v.Holds p (S.cfg.getLock a))
    (hi : ∀ t, v.phase p ≠ .installing t) (hn : v.lastTs (S.cfg.getLock a) ≤ n)
    (hc : n ≤ v.clock) : v.FixedAt S p n a (v.cur S a) where
  le := hc
  eq := hv.settled_of_holds hp hi hn
  late _ _ hq _ hh := (hq (hh.unique hp)).elim

/-! ## The loads of a transaction -/

omit [DecidableEq Addr] in
/-- The read set has an entry for the lock that the snapshot covers. -/
def Covered (tx : StmTx Addr Lock w) (ℓ : Lock) : Prop :=
  ∃ r ∈ tx.rSet, r.lock = ℓ ∧ r.version ≤ tx.end_

variable (S v p) in
/-- Why `x` is the value that transaction `tx` of `p` must see at `a`. -/
def Good (tx : StmTx Addr Lock w) (a : Addr) (x : BitVec w) : Prop :=
  v.Own S p tx a ∧ v.cur S a = x ∧
      (S.strict → tx.irrevocable ≠ 0 ∨ v.lastTs (S.cfg.getLock a) ≤ tx.end_) ∨
    ¬ v.Own S p tx a ∧ tx.irrevocable = 3 ∧ v.Safe S p a x ∨
    ¬ v.Own S p tx a ∧ tx.irrevocable ≠ 3 ∧ v.FixedAt S p tx.end_ a x ∧
      (tx.attr.readOnly = true ∨ Covered tx (S.cfg.getLock a))

omit [DecidableEq Addr] in
variable (S) in
/-- Where transactions may store although they were started read-only, or give back a token that
they do not hold, the values that a transaction loads rest on nothing from the time on that it is
irrevocable, and with encounter-time locking neither do those of one started read-only. -/
def Blind (tx : StmTx Addr Lock w) : Prop :=
  ¬ S.hint ∧
    (S.cfg.designOf tx.attr ≠ .writeBackCtl ∧ tx.attr.readOnly = true ∨ tx.irrevocable = 3)

omit [DecidableEq Addr] in
/-- Where read-only transactions do not store, all loads are recorded. -/
theorem not_blind_of_hint {tx : StmTx Addr Lock w} (h : S.hint) : ¬ Blind S tx := fun hb => hb.1 h

omit [DecidableEq Addr] in
/-- A transaction that is not read-only records its loads. -/
theorem not_blind {tx : StmTx Addr Lock w} (h : tx.attr.readOnly = false)
    (hi : tx.irrevocable ≠ 3) : ¬ Blind S tx := by
  rintro ⟨-, ⟨-, hr⟩ | h3⟩
  · simp [hr] at h
  · exact hi h3

omit [DecidableEq Addr] in
/-- A transaction that records its loads and whose design looks at the hint is not read-only. -/
theorem readOnly_of_not_blind {tx : StmTx Addr Lock w} (hb : ¬ Blind S tx)
    (hd : S.cfg.designOf tx.attr ≠ .writeBackCtl) (h : S.hint → tx.attr.readOnly = false) :
    tx.attr.readOnly = false := by
  by_contra hro
  exact hb ⟨fun hh => hro (h hh), .inl ⟨hd, by simpa using hro⟩⟩

omit [DecidableEq Addr] in
/-- A transaction is not blind before it is irrevocable if it is not afterwards. -/
theorem not_blind_of_irrevocable {tx tx' : StmTx Addr Lock w} (hb : ¬ Blind S tx')
    (ha : tx'.attr = tx.attr) (hi : tx.irrevocable ≠ 3) : ¬ Blind S tx := by
  rintro ⟨hh, hr | h3⟩
  · exact hb ⟨hh, .inl (ha ▸ hr)⟩
  · exact hi h3

omit [DecidableEq Addr] in
/-- Only where a token is given back by its holder does an irrevocable transaction see something. -/
theorem hint_of_not_blind {tx : StmTx Addr Lock w} (hb : ¬ Blind S tx) (hi : tx.irrevocable = 3) :
    S.hint := by
  by_contra hh
  exact hb ⟨hh, .inr hi⟩

variable (S v p) in
/-- Executed from `m`, the trace of `tx` returns the values loaded, and the values of `m` that it
has read are good. -/
structure Snap (tx : StmTx Addr Lock w) (m : Mem Addr w) : Prop where
  cons : ¬ Blind S tx → tx.trace.Consistent m
  good : ¬ Blind S tx → ∀ a ∈ tx.trace.reads, v.Good S p tx a (m a)
  start_le : tx.start ≤ tx.end_
  end_le : tx.end_ ≤ v.clock

variable {tx tx' : StmTx Addr Lock w} {m : Mem Addr w}

/-- A good load stays good. -/
theorem Good.stable (hv : v.Inv S) (hq : q ≠ p) (hg : Guar S q v v') (h : v.Good S p tx a x) :
    v'.Good S p tx a x := by
  have hown : v'.Own S p tx a ↔ v.Own S p tx a := and_congr_right fun _ => hg.holds_iff hq
  rw [Good, hown]
  rcases h with ⟨ho, hc, hs⟩ | ⟨ho, hi, hs⟩ | ⟨ho, hi, hf, hr⟩
  · refine .inl ⟨ho, (hg.cur_of_holds hq ho.2).trans hc, ?_⟩
    rwa [hg.lastTs_of_holds hq ho.2]
  · exact .inr (.inl ⟨ho, hi, hs.stable hv hq hg⟩)
  · exact .inr (.inr ⟨ho, hi, hf.stable hq hg, hr⟩)

/-- There is one good value. -/
theorem Good.unique {y : BitVec w} (h : v.Good S p tx a x) (h' : v.Good S p tx a y) : x = y := by
  rcases h with ⟨ho, hc, -⟩ | ⟨ho, hi, hs⟩ | ⟨ho, hi, hf, -⟩ <;>
    rcases h' with ⟨ho', hc', -⟩ | ⟨ho', hi', hs'⟩ | ⟨ho', hi', hf', -⟩
  · exact hc.symm.trans hc'
  · exact (ho' ho).elim
  · exact (ho' ho).elim
  · exact (ho ho').elim
  · exact hs.eq.symm.trans hs'.eq
  · exact (hi' hi).elim
  · exact (ho ho').elim
  · exact (hi hi').elim
  · exact hf.eq.symm.trans hf'.eq

/-- A snapshot lasts. -/
theorem Snap.stable (hv : v.Inv S) (hq : q ≠ p) (hg : Guar S q v v') (h : v.Snap S p tx m) :
    v'.Snap S p tx m where
  cons := h.cons
  good hb a ha := (h.good hb a ha).stable hv hq hg
  start_le := h.start_le
  end_le := h.end_le.trans hg.clock

/-- The snapshot depends on the trace, the read set, the timestamps and two attributes of the
descriptor. -/
theorem Snap.congr (h : v.Snap S p tx m) (ht : tx'.trace = tx.trace) (hr : tx'.rSet = tx.rSet)
    (he : tx'.end_ = tx.end_) (hs : tx'.start = tx.start)
    (ha : tx'.attr = tx.attr) (hi : tx'.irrevocable = tx.irrevocable) :
    v.Snap S p tx' m where
  cons hb := by
    rw [ht]
    exact h.cons (by rwa [Blind, ← ha, ← hi])
  good hb a haa := by
    have := h.good (by rwa [Blind, ← ha, ← hi]) a (ht ▸ haa)
    rwa [Good, Own, Covered, hr, he, ha, hi]
  start_le := by rw [hs, he]; exact h.start_le
  end_le := by rw [he]; exact h.end_le

/-- A load from an address whose good value is `y`, overlaid with the transaction's own stores. -/
theorem Snap.load {y : BitVec w} (h : v.Snap S p tx m)
    (hg : v.Good S p tx a y) (hx : ∀ m' : Mem Addr w, m' a = y → tx.trace.apply m' a = x) :
    ∃ m', v.Snap S p { tx with trace := .load a x :: tx.trace } m' := by
  refine ⟨Function.update m a y, ⟨fun hB => ⟨hx _ (Function.update_self ..), ?_⟩, ?_, h.start_le,
    h.end_le⟩⟩
  · refine (h.cons hB).congr fun b hb => ?_
    by_cases hba : b = a
    · subst hba
      rw [Function.update_self]
      exact (h.good hB b hb).unique hg
    · rw [Function.update_of_ne hba]
  · intro hB b hb
    by_cases hba : b = a
    · subst hba
      rw [Function.update_self]
      exact hg
    · rw [Function.update_of_ne hba]
      refine h.good hB b ?_
      simp only [Trace.reads] at hb
      split at hb
      · exact hb
      · exact (List.mem_cons.1 hb).resolve_left hba

/-- A store changes what the transaction sees, not what it rests on. -/
theorem Snap.store (h : v.Snap S p tx m) (a : Addr) (x k : BitVec w) :
    v.Snap S p { tx with trace := .store a x k :: tx.trace } m :=
  ⟨h.cons, h.good, h.start_le, h.end_le⟩

/-- A new attempt has loaded nothing. -/
theorem Snap.nil (ht : tx.trace = []) (hs : tx.start ≤ tx.end_) (hc : tx.end_ ≤ v.clock)
    (m : Mem Addr w) : v.Snap S p tx m := by
  refine ⟨fun _ => ?_, fun _ => ?_, hs, hc⟩
  · rw [ht]
    trivial
  · rw [ht]
    nofun

/-- More entries in the read set. -/
theorem Snap.addToRs [DecidableEq Lock] (h : v.Snap S p tx m) (cfg : Config Addr Lock) (n : ℕ)
    (ℓ : Lock) : v.Snap S p (TinyStm.addToRs cfg n ℓ tx) m := by
  unfold TinyStm.addToRs
  split
  · exact h
  · refine ⟨h.cons, fun hb a ha => (h.good hb a ha).imp id (Or.imp id ?_), h.start_le, h.end_le⟩
    rintro ⟨ho, hi, hf, hr⟩
    refine ⟨ho, hi, hf, hr.imp id ?_⟩
    rintro ⟨r, hr, hrl⟩
    exact ⟨r, List.mem_append_left _ hr, hrl⟩

/-- The thread's own steps that change neither the commits nor what it owns. -/
theorem Snap.self (hg : Guar S p v v') (hc : v'.commits = v.commits)
    (hcur : v'.cur S = v.cur S) (hown : ∀ ℓ, v'.Holds p ℓ ↔ v.Holds p ℓ)
    (hlast : ∀ ℓ, v.Holds p ℓ → v'.lastTs ℓ = v.lastTs ℓ) (hirr : v'.irr p = v.irr p)
    (h : v.Snap S p tx m) : v'.Snap S p tx m := by
  refine ⟨h.cons, fun hb a ha => ?_, h.start_le, h.end_le.trans hg.clock⟩
  have hown' : v'.Own S p tx a ↔ v.Own S p tx a := and_congr_right fun _ => hown _
  rw [Good, hown']
  rcases h.good hb a ha with ⟨ho, hx, hs⟩ | ⟨ho, hi, hs⟩ | ⟨ho, hi, hf, hr⟩
  · exact .inl ⟨ho, (congrFun hcur a).trans hx, by rwa [hlast _ ho.2]⟩
  · exact .inr (.inl ⟨ho, hi, hs.self hg (congrFun hcur a) (hirr ▸ hs.irr)⟩)
  · exact .inr (.inr ⟨ho, hi, hf.self hg hc, hr⟩)

/-- A lock is acquired. With encounter-time locking, a stripe that the transaction has read must
not be newer than its snapshot. -/
theorem Snap.acquire [DecidableEq Lock] (hv : v.Inv S) (hl : v.locks ℓ = .free l)
    (hp : v.phase p = .running) (hattr : S.attrs (v.attr p))
    (hr : ¬ Blind S tx → S.cfg.designOf tx.attr ≠ .writeBackCtl → tx.irrevocable ≠ 3 →
      tx.attr.readOnly = false ∧ (Covered tx ℓ → lockGetTimestamp l ≤ tx.end_))
    (h : v.Snap S p tx m) (i : ℕ) :
    View.Snap S { v with locks := Function.update v.locks ℓ (.owned p i)
                         saved := Function.update v.saved ℓ l } p tx m := by
  obtain ⟨-, hg⟩ := hv.acquire hl hp hattr i
  set v' : View Tid Addr Lock w := { v with
    locks := Function.update v.locks ℓ (.owned p i)
    saved := Function.update v.saved ℓ l } with hv'
  have hlne : ∀ k, k ≠ ℓ → v'.locks k = v.locks k := fun k hk => by simp [hv', hk]
  have hsne : ∀ k, k ≠ ℓ → v'.saved k = v.saved k := fun k hk => by simp [hv', hk]
  have hl' : v'.locks ℓ = .owned p i := by simp [hv']
  have hlast : v'.lastTs ℓ = lockGetTimestamp l := by
    rw [lastTs, lastWord_of_owned hl']
    simp [hv']
  refine ⟨h.cons, fun hb a ha => ?_, h.start_le, h.end_le⟩
  have hga := h.good hb a ha
  by_cases hal : S.cfg.getLock a = ℓ
  · -- the word at `a` has now its current value for good
    have hno : ¬ v.Own S p tx a := fun ho => not_holds_of_free hl (hal ▸ ho.2)
    by_cases hd : S.cfg.designOf tx.attr = .writeBackCtl
    · have hno' : ¬ v'.Own S p tx a := fun ho => ho.1 hd
      rcases hga with ⟨ho, -⟩ | ⟨-, hi, hs⟩ | ⟨-, hi, hf, hc⟩
      · exact (hno ho).elim
      · exact .inr (.inl ⟨hno', hi, hs.self hg rfl hs.irr⟩)
      · exact .inr (.inr ⟨hno', hi, hf.self hg rfl, hc⟩)
    · have ho' : v'.Own S p tx a := ⟨hd, i, hal ▸ hl'⟩
      rcases hga with ⟨ho, -⟩ | ⟨-, hi, hs⟩ | ⟨-, hi, hf, hc⟩
      · exact (hno ho).elim
      · exact .inl ⟨ho', hs.eq, fun _ => .inl (by omega)⟩
      · obtain ⟨hro, hle⟩ := hr hb hd hi
        have hle := hle (hal ▸ hc.resolve_left (by simp [hro]))
        have hset := hv.settled_of_free (hal ▸ hl) hle
        exact .inl ⟨ho', hset.symm.trans hf.eq, fun _ => .inr (by rw [hal, hlast]; exact hle)⟩
  · have hown : v'.Own S p tx a ↔ v.Own S p tx a := and_congr_right fun _ => holds_congr (hlne _ hal)
    rw [Good, hown]
    rcases hga with ⟨ho, hx, hs⟩ | ⟨ho, hi, hs⟩ | ⟨ho, hi, hf, hc⟩
    · refine .inl ⟨ho, hx, ?_⟩
      rwa [lastTs_congr (v := v) (hlne _ hal) fun _ _ => hsne _ hal]
    · exact .inr (.inl ⟨ho, hi, hs.self hg rfl hs.irr⟩)
    · exact .inr (.inr ⟨ho, hi, hf.self hg rfl, hc⟩)

/-! ## Extension and commit -/

/-- What the validation of a read set entry for the lock `ℓ` gives at a time `n`: the words of the
stripe that the transaction has read are as of `n` what they were. -/
def Extended (S : Premises Addr Lock w) (p : Tid) (tx : StmTx Addr Lock w) (m : Mem Addr w)
    (n : ℕ) (ℓ : Lock) (v : View Tid Addr Lock w) : Prop :=
  ∀ a ∈ tx.trace.reads, S.cfg.getLock a = ℓ → ¬ v.Own S p tx a → v.FixedAt S p n a (m a)

/-- An extension lasts until the end of the snapshot is moved. -/
theorem Extended.stable (hq : q ≠ p) (hg : Guar S q v v') (h : Extended S p tx m n ℓ v) :
    Extended S p tx m n ℓ v' := by
  intro a ha hal ho
  exact (h a ha hal fun hown => ho ⟨hown.1, (hg.holds_iff hq).2 hown.2⟩).stable hq hg

/-- The lock of an entry passes the validation: it is free with the version read, or `p` owns it and
it was at that version when it was acquired. -/
theorem Snap.extended (hv : v.Inv S) (h : v.Snap S p tx m) (hb : ¬ Blind S tx)
    (hi : tx.irrevocable ≠ 3)
    {r : REntry Lock} (hr : r.version ≤ tx.end_) (hn : tx.end_ ≤ n) (hnc : n ≤ v.clock)
    (hl : (∃ l, v.locks r.lock = .free l ∧ lockGetTimestamp l = r.version) ∨
      v.Holds p r.lock ∧ (S.cfg.designOf tx.attr = .writeBackCtl → v.lastTs r.lock = r.version ∧
        ∀ t, v.phase p ≠ .installing t)) : Extended S p tx m n r.lock v := by
  intro a ha hal ho
  have hf : v.FixedAt S p tx.end_ a (m a) := by
    rcases h.good hb a ha with ⟨ho', -⟩ | ⟨-, hi', -⟩ | ⟨-, -, hf, -⟩
    · exact (ho ho').elim
    · exact (hi hi').elim
    · exact hf
  rcases hl with ⟨l, hl, hlr⟩ | ⟨hh, hd⟩
  · have hcur : v.cur S a = m a := by
      rw [← hf.eq]
      exact (hv.settled_of_free (hal ▸ hl) (by omega)).symm
    exact hcur ▸ FixedAt.of_free hv (hal ▸ hl) (by omega) hnc
  · have hd' : S.cfg.designOf tx.attr = .writeBackCtl := by
      by_contra hd'
      exact ho ⟨hd', hal ▸ hh⟩
    obtain ⟨hlr, hni⟩ := hd hd'
    have hcur : v.cur S a = m a := by
      rw [← hf.eq]
      exact (hv.settled_of_holds (hal ▸ hh) hni (by rw [hal]; omega)).symm
    exact hcur ▸ FixedAt.of_holds hv (hal ▸ hh) hni (by rw [hal]; omega) hnc

/-- The snapshot is extended to `n`. -/
theorem Snap.extend (h : v.Snap S p tx m) (hi : tx.irrevocable ≠ 3) (hn : tx.end_ ≤ n)
    (hnc : n ≤ v.clock) (hro : tx.attr.readOnly = false)
    (he : ∀ r ∈ tx.rSet, r.version ≤ tx.end_ → Extended S p tx m n r.lock v) :
    v.Snap S p { tx with end_ := n } m := by
  refine ⟨h.cons, fun hb a ha => ?_, h.start_le.trans hn, hnc⟩
  rcases h.good hb a ha with ⟨ho, hx, hs⟩ | ⟨-, hi', -⟩ | ⟨ho, -, hf, hc⟩
  · exact .inl ⟨ho, hx, fun hS => (hs hS).imp id fun hle => hle.trans hn⟩
  · exact (hi hi').elim
  · obtain ⟨r, hr, hrl, hrv⟩ := hc.resolve_left (by simp [hro])
    exact .inr (.inr ⟨ho, hi, he r hr hrv a ha hrl.symm ho,
      .inr ⟨r, hr, hrl, hrv.trans hn⟩⟩)

/-- Everything the transaction has loaded is the memory as of `n`, for good. -/
def Ready (S : Premises Addr Lock w) (p : Tid) (tx : StmTx Addr Lock w) (m : Mem Addr w)
    (n : ℕ) (v : View Tid Addr Lock w) : Prop :=
  ∀ a ∈ tx.trace.reads, v.FixedAt S p n a (m a)

/-- What is ready to be committed stays so. -/
theorem Ready.stable (hq : q ≠ p) (hg : Guar S q v v') (h : Ready S p tx m n v) :
    Ready S p tx m n v' := fun a ha => (h a ha).stable hq hg

/-- The words of the thread's own stripes are settled at a time `n` not before the last versions of
its locks. -/
theorem Snap.fixedAt_of_own (hv : v.Inv S) (h : v.Snap S p tx m) (hb : ¬ Blind S tx)
    (ha : a ∈ tx.trace.reads)
    (ho : v.Own S p tx a) (hi : ∀ t, v.phase p ≠ .installing t)
    (hn : v.lastTs (S.cfg.getLock a) ≤ n) (hnc : n ≤ v.clock) : v.FixedAt S p n a (m a) := by
  have hx : v.cur S a = m a := by
    rcases h.good hb a ha with ⟨-, hx, -⟩ | ⟨ho', -⟩ | ⟨ho', -⟩
    · exact hx
    · exact (ho' ho).elim
    · exact (ho' ho).elim
  exact hx ▸ FixedAt.of_holds hv ho.2 hi hn hnc

/-- The commit of a thread whose read set has been validated at its ticket. -/
theorem Snap.ready (hv : v.Inv S) (h : v.Snap S p tx m) (hp : v.phase p = .ticket (n + 1))
    (hi : tx.irrevocable ≠ 3) (hro : tx.attr.readOnly = false)
    (he : ∀ r ∈ tx.rSet, r.version ≤ tx.end_ → Extended S p tx m n r.lock v) :
    Ready S p tx m n v := by
  intro a ha
  have hb : ¬ Blind S tx := not_blind hro hi
  have hnc : n ≤ v.clock := by
    have := (hv.ticket p _ hp).2.1
    omega
  by_cases ho : v.Own S p tx a
  · have hni : ∀ t, v.phase p ≠ .installing t := fun t ht => by
      rw [hp] at ht
      cases ht
    obtain ⟨j, hj⟩ := ho.2
    have := hv.late _ p j _ hj (.inl hp)
    exact h.fixedAt_of_own hv hb ha ho hni (by omega) hnc
  · rcases h.good hb a ha with ⟨ho', -⟩ | ⟨-, hi', -⟩ | ⟨-, -, hf, hc⟩
    · exact (ho ho').elim
    · exact (hi hi').elim
    · obtain ⟨r, hr, hrl, hrv⟩ := hc.resolve_left (by simp [hro])
      exact he r hr hrv a ha hrl.symm ho

/-- No other thread has committed since the end of the snapshot. -/
theorem Snap.ready_of_end (hv : v.Inv S) (h : v.Snap S p tx m)
    (hni : ∀ t, v.phase p ≠ .installing t) (he : tx.end_ = v.clock) (hb : ¬ Blind S tx)
    (hi : tx.irrevocable ≠ 3) :
    Ready S p tx m v.clock v := by
  intro a ha
  by_cases ho : v.Own S p tx a
  · exact h.fixedAt_of_own hv hb ha ho hni (hv.lastTs_le_clock _) le_rfl
  · rcases h.good hb a ha with ⟨ho', -⟩ | ⟨-, hi', -⟩ | ⟨-, -, hf, -⟩
    · exact (ho ho').elim
    · exact (hi hi').elim
    · exact he ▸ hf

/-- What an irrevocable transaction has loaded is current. -/
theorem Snap.cur_of_irrevocable (h : v.Snap S p tx m) (hb : ¬ Blind S tx) (hi : tx.irrevocable = 3)
    (ha : a ∈ tx.trace.reads) : v.cur S a = m a ∧
      ∀ q, q ≠ p → v.Holds q (S.cfg.getLock a) → ¬ (v.phase q).Passed := by
  rcases h.good hb a ha with ⟨ho, hx, -⟩ | ⟨-, -, hs⟩ | ⟨-, hi', -⟩
  · exact ⟨hx, fun q hq hh => (hq (hh.unique ho.2)).elim⟩
  · exact ⟨hs.eq, hs.early⟩
  · exact (hi' hi).elim

/-- A transaction becomes irrevocable: it holds the token and its read set is valid. -/
theorem Snap.irrevocable (h : v.Snap S p tx m) (hi : tx.irrevocable ≠ 3)
    (hs : S.hint → ∀ a ∈ tx.trace.reads, ¬ v.Own S p tx a → v.Safe S p a (m a)) :
    v.Snap S p { tx with irrevocable := 3 } m := by
  refine ⟨fun hb => h.cons (not_blind_of_irrevocable hb rfl hi), fun hb a ha => ?_, h.start_le,
    h.end_le⟩
  rcases h.good (not_blind_of_irrevocable hb rfl hi) a ha with ⟨ho, hx, -⟩ | ⟨ho, -⟩ | ⟨ho, -⟩
  · exact .inl ⟨ho, hx, fun _ => .inl (by simp)⟩
  · exact .inr (.inl ⟨ho, rfl, hs (hint_of_not_blind hb rfl) a ha ho⟩)
  · exact .inr (.inl ⟨ho, rfl, hs (hint_of_not_blind hb rfl) a ha ho⟩)

end View

end TinyStm
