import TinyStm.Protocol.Access
import TinyStm.Protocol.Chain

/-!
# Write sets

What the write set of a thread says about the stripes it owns, for each design, and what a rollback
needs of it. All of it depends only on those stripes (`View.SameHeld`), so the steps of other
threads preserve it, and so do the thread's own steps that leave its stripes alone. The conditions
are those of a rollback, which may be called at any moment, so they hold between any two accesses of
a store and not only between two calls.
-/

namespace TinyStm

variable {Tid Addr Lock : Type} {w : ℕ} [DecidableEq Addr]

namespace View

/-- The stripes of thread `p` are the same in both views. -/
structure SameHeld (S : Premises Addr Lock w) (p : Tid) (v v' : View Tid Addr Lock w) :
    Prop where
  locks : ∀ ℓ i, v'.locks ℓ = .owned p i ↔ v.locks ℓ = .owned p i
  saved : ∀ ℓ, v.Holds p ℓ → v'.saved ℓ = v.saved ℓ
  mem : ∀ a, v.Holds p (S.cfg.getLock a) → v'.mem a = v.mem a
  cur : ∀ a, v.Holds p (S.cfg.getLock a) → v'.cur S a = v.cur S a

variable {S : Premises Addr Lock w} {v v' : View Tid Addr Lock w} {p q : Tid} {ℓ : Lock}

/-- The other threads leave the locks of `p`, and what they protect, alone. -/
theorem Guar.sameHeld (hg : Guar S q v v') (hq : q ≠ p) : SameHeld S p v v' where
  locks ℓ i := hg.locks p hq.symm ℓ i
  saved ℓ h := hg.saved p hq.symm ℓ h
  mem _ h := hg.mem_of_holds hq h
  cur _ h := hg.cur_of_holds hq h

namespace SameHeld

/-- `p` holds the same locks. -/
theorem holds_iff (h : SameHeld S p v v') : v'.Holds p ℓ ↔ v.Holds p ℓ :=
  exists_congr fun i => h.locks ℓ i

/-- The locks of `p` have the same last words. -/
theorem lastWord (h : SameHeld S p v v') (hp : v.Holds p ℓ) : v'.lastWord ℓ = v.lastWord ℓ := by
  have hs := h.saved ℓ hp
  obtain ⟨i, hi⟩ := hp
  rw [lastWord_of_owned hi, lastWord_of_owned ((h.locks ℓ i).2 hi), hs]

/-- The locks of `p` have the same last timestamps. -/
theorem lastTs (h : SameHeld S p v v') (hp : v.Holds p ℓ) : v'.lastTs ℓ = v.lastTs ℓ := by
  rw [View.lastTs, View.lastTs, h.lastWord hp]

/-- A step of the thread that leaves the locks, the words and the commits alone. -/
theorem self (h : v.Inv S) (hl : v'.locks = v.locks) (hs : v'.saved = v.saved)
    (hm : v'.mem = v.mem) (hc : v'.commits = v.commits) (hn : v.clock ≤ v'.clock) :
    SameHeld S p v v' where
  locks ℓ i := by rw [hl]
  saved ℓ _ := by rw [hs]
  mem a _ := by rw [hm]
  cur a _ := by rw [h.cur_of_clock_le hc hn]

end SameHeld

end View

/-- An assertion that depends only on the thread's own stripes. -/
def heldAsn (S : Setting Tid Addr Lock w) (p : Tid) (X : View Tid Addr Lock w → Prop)
    (hX : ∀ v v', View.SameHeld S p v v' → X v → X v') : VAsn S p where
  holds := X
  stable _ hq v v' _ _ hg h := hX v v' (hg.sameHeld hq) h

/-- The assertion is about the view. -/
@[simp] theorem heldAsn_holds {S : Setting Tid Addr Lock w} {p : Tid}
    {X : View Tid Addr Lock w → Prop} {hX : ∀ v v', View.SameHeld S p v v' → X v → X v'}
    {v : View Tid Addr Lock w} : heldAsn S p X hX v ↔ X v := Iff.rfl

namespace View

variable (S : Premises Addr Lock w) (v : View Tid Addr Lock w) (p : Tid)

omit [DecidableEq Addr] in
/-- The thread owns no lock. -/
def NoLocks : Prop := ∀ ℓ, ¬ v.Holds p ℓ

omit [DecidableEq Addr] in
/-- The locks of `p` are those of the entries at which they are dropped, one entry each. -/
structure Drops (drop : WEntry Addr Lock w → Prop) (es : List (WEntry Addr Lock w)) : Prop where
  holds : ∀ ℓ, v.Holds p ℓ ↔ ∃ e ∈ es, drop e ∧ e.lock = ℓ
  distinct : es.Pairwise fun e f => drop e → drop f → e.lock ≠ f.lock

omit [DecidableEq Addr] in
/-- What the rollback of a write-back design needs. -/
structure WbUndo (drop : WEntry Addr Lock w → Prop) (es : List (WEntry Addr Lock w)) : Prop where
  drops : v.Drops p drop es
  version : ∀ e ∈ es, drop e → e.version = v.lastTs e.lock

/-- What the rollback of write-through needs. -/
structure WtUndo (es : List (WEntry Addr Lock w)) : Prop where
  drops : v.Drops p (·.next = none) es
  last : es.Pairwise fun e f => e.next = none → f.lock ≠ e.lock
  held : ∀ e ∈ es, v.Holds p e.lock
  lock : ∀ e ∈ es, e.lock = S.cfg.getLock e.addr
  version : ∀ e ∈ es, e.version = v.lastWord e.lock
  value : ∀ e ∈ es, e.mask ≠ 0#w → e.value = v.cur S e.addr

/-- The words of the thread's stripes are in memory but for those that the entries restore. -/
def Dirty (es : List (WEntry Addr Lock w)) : Prop :=
  ∀ a, v.Holds p (S.cfg.getLock a) →
    v.mem a = v.cur S a ∨ ∃ e ∈ es, e.addr = a ∧ e.mask ≠ 0#w

/-- What `stm_rollback` needs. -/
def Undo (tx : StmTx Addr Lock w) : Prop :=
  match S.cfg.designOf tx.attr with
  | .writeBackCtl => v.WbUndo p (·.noDrop = false) tx.wSet.entries ∧
      tx.wSet.nbAcquired = (tx.wSet.entries.filter fun e => !e.noDrop).length
  | .writeThrough => v.WtUndo S p tx.wSet.entries ∧ v.Dirty S p tx.wSet.entries
  | _ => v.WbUndo p (·.next = none) tx.wSet.entries

omit [DecidableEq Addr] in
/-- With encounter-time locking the entries form a chain for each lock that the thread owns, and
there is one entry for an address. -/
structure Chains (es : List (WEntry Addr Lock w)) : Prop where
  chained : Chained es
  lock : ∀ e ∈ es, e.lock = S.cfg.getLock e.addr
  addr : es.Pairwise fun e f => e.addr ≠ f.addr
  holds : ∀ ℓ, v.Holds p ℓ ↔ ∃ e ∈ es, e.lock = ℓ
  head : ∀ ℓ i, v.locks ℓ = .owned p i → (∃ e, es[i]? = some e ∧ e.lock = ℓ) ∧
    ∀ j f, j < i → es[j]? = some f → f.lock ≠ ℓ

/-- The write set of an active transaction, WRITE_BACK_ETL: the new values. -/
structure EtlWs (tx : StmTx Addr Lock w) : Prop where
  chains : v.Chains S p tx.wSet.entries
  version : ∀ e ∈ tx.wSet.entries, e.version = v.lastTs e.lock
  mask : ∀ e ∈ tx.wSet.entries, e.mask = tx.trace.cover e.addr
  value : ∀ e ∈ tx.wSet.entries, e.mask ≠ 0#w → e.value = tx.trace.apply (v.cur S) e.addr
  stored : ∀ a, tx.trace.cover a ≠ 0#w → ∃ e ∈ tx.wSet.entries, e.addr = a
  writes : ∀ a ∈ tx.trace.writes, v.Holds p (S.cfg.getLock a)

/-- The write set of an active transaction, WRITE_THROUGH: the old values. -/
structure WtWs (tx : StmTx Addr Lock w) : Prop where
  chains : v.Chains S p tx.wSet.entries
  version : ∀ e ∈ tx.wSet.entries, e.version = v.lastWord e.lock
  value : ∀ e ∈ tx.wSet.entries, e.mask ≠ 0#w → e.value = v.cur S e.addr
  first : ∀ (i : ℕ) (e : WEntry Addr Lock w), tx.wSet.entries[i]? = some e → e.mask = 0#w →
    ∀ (j : ℕ) (f : WEntry Addr Lock w), j < i → tx.wSet.entries[j]? = some f → f.lock ≠ e.lock
  stored : ∀ a, tx.trace.cover a ≠ 0#w → ∃ e ∈ tx.wSet.entries, e.addr = a ∧ e.mask ≠ 0#w
  writes : ∀ a ∈ tx.trace.writes, v.Holds p (S.cfg.getLock a)
  mem : ∀ a, v.Holds p (S.cfg.getLock a) → v.mem a = tx.trace.apply (v.cur S) a

/-- What the entries of WRITE_BACK_CTL say of the trace. -/
structure CtlEntries (tx : StmTx Addr Lock w) : Prop where
  lock : ∀ e ∈ tx.wSet.entries, e.lock = S.cfg.getLock e.addr
  addr : tx.wSet.entries.Pairwise fun e f => e.addr ≠ f.addr
  mask : ∀ e ∈ tx.wSet.entries, e.mask = tx.trace.cover e.addr
  value : ∀ e ∈ tx.wSet.entries, ∀ m : Mem Addr w,
    BitVec.merge (m e.addr) e.value e.mask = tx.trace.apply m e.addr
  stored : ∀ a ∈ tx.trace.writes, ∃ e ∈ tx.wSet.entries, e.addr = a

/-- The write set of an active transaction, WRITE_BACK_CTL: the new values, and no lock. -/
structure CtlWs (tx : StmTx Addr Lock w) : Prop where
  entries : CtlEntries S tx
  noDrop : ∀ e ∈ tx.wSet.entries, e.noDrop = true
  nbAcquired : tx.wSet.nbAcquired = 0
  noLocks : v.NoLocks p

/-- The write set of an active transaction. -/
def Ws (tx : StmTx Addr Lock w) : Prop :=
  match S.cfg.designOf tx.attr with
  | .writeBackEtl => v.EtlWs S p tx
  | .writeBackCtl => v.CtlWs S p tx
  | .writeThrough => v.WtWs S p tx
  | .modular => False

variable {S v p} {tx : StmTx Addr Lock w} {es : List (WEntry Addr Lock w)}
  {e : WEntry Addr Lock w} {drop : WEntry Addr Lock w → Prop}

/-! ## They depend only on the thread's own stripes -/

/-- Holding no lock lasts. -/
theorem NoLocks.congr (h : SameHeld S p v v') (hn : v.NoLocks p) : v'.NoLocks p :=
  fun ℓ hp => hn ℓ (h.holds_iff.1 hp)

/-- What a rollback drops lasts. -/
theorem Drops.congr (h : SameHeld S p v v') (hd : v.Drops p drop es) : v'.Drops p drop es :=
  ⟨fun ℓ => h.holds_iff.trans (hd.holds ℓ), hd.distinct⟩

/-- The write set of a rollback, with write-back, lasts. -/
theorem WbUndo.congr (h : SameHeld S p v v') (hu : v.WbUndo p drop es) : v'.WbUndo p drop es where
  drops := hu.drops.congr h
  version e he hd := by
    rw [h.lastTs ((hu.drops.holds _).2 ⟨e, he, hd, rfl⟩)]
    exact hu.version e he hd

/-- The write set of a rollback, with write-through, lasts. -/
theorem WtUndo.congr (h : SameHeld S p v v') (hu : v.WtUndo S p es) : v'.WtUndo S p es where
  drops := hu.drops.congr h
  last := hu.last
  held e he := h.holds_iff.2 (hu.held e he)
  lock := hu.lock
  version e he := by
    rw [h.lastWord (hu.held e he)]
    exact hu.version e he
  value e he hm := by
    rw [h.cur _ (hu.lock e he ▸ hu.held e he)]
    exact hu.value e he hm

/-- The words that are changed stay the same. -/
theorem Dirty.congr (h : SameHeld S p v v') (hd : v.Dirty S p es) : v'.Dirty S p es := by
  intro a ha
  have ha := h.holds_iff.1 ha
  rw [h.mem a ha, h.cur a ha]
  exact hd a ha

/-- What a rollback needs lasts. -/
theorem Undo.congr (h : SameHeld S p v v') (hu : v.Undo S p tx) : v'.Undo S p tx := by
  unfold Undo at hu ⊢
  split at hu
  · exact ⟨hu.1.congr h, hu.2⟩
  · exact ⟨hu.1.congr h, hu.2.congr h⟩
  · exact hu.congr h

/-- The chains last. -/
theorem Chains.congr (h : SameHeld S p v v') (hc : v.Chains S p es) : v'.Chains S p es where
  chained := hc.chained
  lock := hc.lock
  addr := hc.addr
  holds ℓ := h.holds_iff.trans (hc.holds ℓ)
  head ℓ i hi := hc.head ℓ i ((h.locks ℓ i).1 hi)

omit [DecidableEq Addr] in
/-- The lock of an entry is held. -/
theorem Chains.held (hc : v.Chains S p es) (he : e ∈ es) : v.Holds p e.lock :=
  (hc.holds _).2 ⟨e, he, rfl⟩

/-- The write set of write-back with encounter-time locking lasts. -/
theorem EtlWs.congr (h : SameHeld S p v v') (hw : v.EtlWs S p tx) : v'.EtlWs S p tx where
  chains := hw.chains.congr h
  version e he := by
    rw [h.lastTs (hw.chains.held he)]
    exact hw.version e he
  mask := hw.mask
  value e he hm := by
    rw [hw.value e he hm]
    exact Trace.apply_congr (h.cur _ (hw.chains.lock e he ▸ hw.chains.held he)).symm
  stored := hw.stored
  writes a ha := h.holds_iff.2 (hw.writes a ha)

/-- The write set of write-through lasts. -/
theorem WtWs.congr (h : SameHeld S p v v') (hw : v.WtWs S p tx) : v'.WtWs S p tx where
  chains := hw.chains.congr h
  version e he := by
    rw [h.lastWord (hw.chains.held he)]
    exact hw.version e he
  value e he hm := by
    rw [h.cur _ (hw.chains.lock e he ▸ hw.chains.held he)]
    exact hw.value e he hm
  first := hw.first
  stored := hw.stored
  writes a ha := h.holds_iff.2 (hw.writes a ha)
  mem a ha := by
    have ha := h.holds_iff.1 ha
    rw [h.mem a ha, hw.mem a ha]
    exact Trace.apply_congr (h.cur a ha).symm

/-- The write set of commit-time locking lasts. -/
theorem CtlWs.congr (h : SameHeld S p v v') (hw : v.CtlWs S p tx) : v'.CtlWs S p tx :=
  ⟨hw.entries, hw.noDrop, hw.nbAcquired, hw.noLocks.congr h⟩

/-- The write set lasts. -/
theorem Ws.congr (h : SameHeld S p v v') (hw : v.Ws S p tx) : v'.Ws S p tx := by
  unfold Ws at hw ⊢
  split at hw
  · exact EtlWs.congr h hw
  · exact CtlWs.congr h hw
  · exact WtWs.congr h hw
  · exact hw

/-! ## Rollback needs no more than the write set -/

omit [DecidableEq Addr] in
/-- The last entry of each chain has the lock's version. -/
theorem Chains.drops (hc : v.Chains S p es) : v.Drops p (·.next = none) es where
  holds ℓ := by
    refine (hc.holds ℓ).trans ⟨?_, fun ⟨e, he, _, hl⟩ => ⟨e, he, hl⟩⟩
    rintro ⟨e, he, rfl⟩
    obtain ⟨i, hi⟩ := List.mem_iff_getElem?.1 he
    exact hc.chained.exists_last hi
  distinct := hc.chained.pairwise.imp fun h hn _ he => h hn he.symm

/-- A rollback finds the write set in order, with encounter-time locking. -/
theorem EtlWs.undo (hw : v.EtlWs S p tx) : v.WbUndo p (·.next = none) tx.wSet.entries :=
  ⟨hw.chains.drops, fun e he _ => hw.version e he⟩

/-- A rollback finds the write set in order, with write-through. -/
theorem WtWs.undo (hw : v.WtWs S p tx) :
    v.WtUndo S p tx.wSet.entries ∧ v.Dirty S p tx.wSet.entries := by
  refine ⟨⟨hw.chains.drops, hw.chains.chained.pairwise, fun e he => hw.chains.held he,
    hw.chains.lock, hw.version, hw.value⟩, fun a ha => ?_⟩
  by_cases hc : tx.trace.cover a = 0#w
  · exact .inl ((hw.mem a ha).trans (Trace.apply_of_cover_zero hc))
  · exact .inr (hw.stored a hc)

/-- A rollback finds the write set in order, with commit-time locking. -/
theorem CtlWs.undo (hw : v.CtlWs S p tx) : v.WbUndo p (·.noDrop = false) tx.wSet.entries ∧
    tx.wSet.nbAcquired = (tx.wSet.entries.filter fun e => !e.noDrop).length := by
  refine ⟨⟨⟨fun ℓ => iff_of_false (hw.noLocks ℓ) ?_, ?_⟩, fun e he hd => ?_⟩, ?_⟩
  · rintro ⟨e, he, hd, -⟩
    rw [hw.noDrop e he] at hd
    cases hd
  · refine List.Pairwise.imp_of_mem (fun he _ _ hd => ?_) hw.entries.addr
    rw [hw.noDrop _ he] at hd
    cases hd
  · rw [hw.noDrop e he] at hd
    cases hd
  · rw [hw.nbAcquired, eq_comm, List.length_eq_zero_iff, List.filter_eq_nil_iff]
    exact fun e he => by simp [hw.noDrop e he]

/-- A rollback finds the write set in order. -/
theorem Ws.undo (hw : v.Ws S p tx) : v.Undo S p tx := by
  unfold Ws at hw
  split at hw
  · simpa only [Undo, ‹S.cfg.designOf tx.attr = _›] using EtlWs.undo hw
  · simpa only [Undo, ‹S.cfg.designOf tx.attr = _›] using CtlWs.undo hw
  · simpa only [Undo, ‹S.cfg.designOf tx.attr = _›] using WtWs.undo hw
  · exact hw.elim

/-! ## The empty write set -/

omit [DecidableEq Addr] in
/-- No entries, no locks. -/
theorem Chains.nil (h : v.NoLocks p) : v.Chains S p ([] : List (WEntry Addr Lock w)) where
  chained := chained_nil
  lock _ he := nomatch he
  addr := .nil
  holds ℓ := iff_of_false (h ℓ) (by simp)
  head ℓ i hi := (h ℓ ⟨i, hi⟩).elim

/-- The write set of a new attempt is in order. -/
theorem Ws.nil (hd : S.cfg.designOf tx.attr ≠ .modular) (he : tx.wSet.entries = []) (ht : tx.trace = [])
    (hn : tx.wSet.nbAcquired = 0) (h : v.NoLocks p) : v.Ws S p tx := by
  unfold Ws
  split
  · refine ⟨he ▸ Chains.nil h, ?_, ?_, ?_, ?_, ?_⟩ <;> simp [he, ht, Trace.cover, Trace.writes]
  · refine ⟨⟨?_, ?_, ?_, ?_, ?_⟩, ?_, hn, h⟩ <;> simp [he, ht, Trace.writes]
  · refine ⟨he ▸ Chains.nil h, ?_, ?_, ?_, ?_, ?_, fun a ha => (h _ ha).elim⟩ <;>
      simp [he, ht, Trace.cover, Trace.writes]
  · exact hd ‹_›

/-- A transaction that has no entries owns no lock and has stored nothing. -/
theorem Ws.of_entries_nil (hw : v.Ws S p tx) (he : tx.wSet.entries = []) :
    v.NoLocks p ∧ tx.trace.writes = [] := by
  have hnil : ∀ l : List Addr, (∀ a ∈ l, False) → l = [] := fun l hl =>
    List.eq_nil_iff_forall_not_mem.2 hl
  unfold Ws at hw
  split at hw
  · have hn : v.NoLocks p := fun ℓ hp => by simpa [he] using (hw.chains.holds ℓ).1 hp
    exact ⟨hn, hnil _ fun a ha => hn _ (hw.writes a ha)⟩
  · exact ⟨hw.noLocks, hnil _ fun a ha => by simpa [he] using hw.entries.stored a ha⟩
  · have hn : v.NoLocks p := fun ℓ hp => by simpa [he] using (hw.chains.holds ℓ).1 hp
    exact ⟨hn, hnil _ fun a ha => hn _ (hw.writes a ha)⟩
  · exact hw.elim

end View

end TinyStm
