import TinyStm.Protocol.WriteSet

/-!
# Rollback and restart

A rollback returns all stripes of the thread to their committed words and its locks with a last
version that is not older; then the thread is idle, or it has started the next attempt. The loop
over the entries is proved by an invariant about the entries that are left: those whose lock is
still held, and, with write-through, what undoing them makes of the words. The abort callbacks and
the wait for the contended lock come after the last lock has been dropped.
-/

namespace TinyStm

/-! ## Lock words -/

/-- `LOCK_GET_TIMESTAMP` in arithmetic. -/
theorem lockGetTimestamp_eq (l : ℕ) : lockGetTimestamp l = l / 16 := by
  simp [lockGetTimestamp, lockBits, ownedBits, incarnationBits, Nat.shiftRight_eq_div_pow]

/-- `LOCK_SET_TIMESTAMP` in arithmetic. -/
theorem lockSetTimestamp_eq (t : ℕ) : lockSetTimestamp t = t * 16 := by
  simp [lockSetTimestamp, lockBits, ownedBits, incarnationBits, Nat.shiftLeft_eq]

/-- A word with a newer timestamp is greater. -/
theorem lt_lockSetTimestamp {l t : ℕ} (h : lockGetTimestamp l < t) : l < lockSetTimestamp t := by
  rw [lockGetTimestamp_eq] at h
  rw [lockSetTimestamp_eq]
  omega

/-- `LOCK_GET_INCARNATION` in arithmetic. -/
theorem lockGetIncarnation_eq (l : ℕ) : lockGetIncarnation l = l / 2 % 8 := by
  have h : (l &&& 7 <<< 1) >>> 1 = (l >>> 1) &&& 7 := by
    rw [Nat.shiftRight_and_distrib]
    rfl
  have h' : (l >>> 1) &&& 7 = (l >>> 1) % 2 ^ 3 := Nat.and_two_pow_sub_one_eq_mod (l >>> 1) 3
  change (l &&& 7 <<< 1) >>> 1 = _
  rw [h, h', Nat.shiftRight_eq_div_pow]
  simp

/-- `LOCK_UPD_INCARNATION` in arithmetic. -/
theorem lockUpdIncarnation_eq {l i : ℕ} (hi : i ≤ 7) :
    lockUpdIncarnation l i = l / 16 * 16 + i * 2 := by
  have h : l >>> 4 <<< 4 ||| i <<< 1 = (l >>> 4 <<< 4) + i <<< 1 := by
    rw [Nat.shiftLeft_add_eq_or_of_lt]
    rw [Nat.shiftLeft_eq]
    omega
  change l >>> 4 <<< 4 ||| i <<< 1 = _
  rw [h, Nat.shiftRight_eq_div_pow, Nat.shiftLeft_eq, Nat.shiftLeft_eq]

/-- The next incarnation keeps the timestamp. -/
theorem lockGetTimestamp_lockUpdIncarnation {l i : ℕ} (hi : i ≤ 7) :
    lockGetTimestamp (lockUpdIncarnation l i) = lockGetTimestamp l := by
  rw [lockUpdIncarnation_eq hi, lockGetTimestamp_eq, lockGetTimestamp_eq]
  omega

/-- The next incarnation is a greater word. -/
theorem lt_lockUpdIncarnation {l : ℕ} (hi : lockGetIncarnation l + 1 ≤ 7) :
    l < lockUpdIncarnation l (lockGetIncarnation l + 1) := by
  rw [lockUpdIncarnation_eq hi, lockGetIncarnation_eq]
  omega

namespace View

variable {Tid Addr Lock : Type} {w : ℕ} [DecidableEq Lock]
  {S : Setting Tid Addr Lock w} {v : View Tid Addr Lock w} {p q : Tid} {ℓ : Lock} {l : ℕ}
  {e : WEntry Addr Lock w} {es : List (WEntry Addr Lock w)} {drop : WEntry Addr Lock w → Prop}

/-! ## The release of a lock -/

/-- A lock that is dropped is not held any more. -/
theorem holds_release (h : v.Holds p ℓ) (m : Lock) :
    View.Holds { v with locks := Function.update v.locks ℓ (.free l) } p m ↔
      v.Holds p m ∧ m ≠ ℓ := by
  by_cases hm : m = ℓ
  · subst hm
    simp [Holds]
  · simp [Holds, hm]

/-- The other locks keep their last words. -/
theorem lastWord_release {m : Lock} (hm : m ≠ ℓ) :
    View.lastWord { v with locks := Function.update v.locks ℓ (.free l) } m = v.lastWord m := by
  simp [lastWord, hm]

/-- The first entry drops its lock. -/
theorem Drops.release (h : v.Drops p drop (e :: es)) (hd : drop e) :
    View.Drops { v with locks := Function.update v.locks e.lock (.free l) } p drop es where
  holds m := by
    obtain ⟨hde, -⟩ := List.pairwise_cons.1 h.distinct
    rw [holds_release ((h.holds _).2 ⟨e, .head _, hd, rfl⟩), h.holds]
    constructor
    · rintro ⟨⟨f, hf, hdf, rfl⟩, hne⟩
      rcases List.mem_cons.1 hf with rfl | hf
      · exact (hne rfl).elim
      · exact ⟨f, hf, hdf, rfl⟩
    · rintro ⟨f, hf, hdf, rfl⟩
      exact ⟨⟨f, .tail _ hf, hdf, rfl⟩, (hde f hf hd hdf).symm⟩
  distinct := (List.pairwise_cons.1 h.distinct).2

omit [DecidableEq Lock] in
/-- The first entry does not drop its lock. -/
theorem Drops.skip (h : v.Drops p drop (e :: es)) (hd : ¬ drop e) : v.Drops p drop es where
  holds m := by
    rw [h.holds]
    refine ⟨?_, fun ⟨f, hf, h⟩ => ⟨f, .tail _ hf, h⟩⟩
    rintro ⟨f, hf, hdf, rfl⟩
    rcases List.mem_cons.1 hf with rfl | hf
    · exact (hd hdf).elim
    · exact ⟨f, hf, hdf, rfl⟩
  distinct := (List.pairwise_cons.1 h.distinct).2

omit [DecidableEq Lock] in
/-- Nothing is left to drop. -/
theorem Drops.noLocks (h : v.Drops p drop es) (hd : ∀ e ∈ es, ¬ drop e) : v.NoLocks p := by
  intro ℓ hp
  obtain ⟨e, he, hde, -⟩ := (h.holds ℓ).1 hp
  exact hd e he hde

/-- The first entry drops its lock, with write-back. -/
theorem WbUndo.release (h : v.WbUndo p drop (e :: es)) (hd : drop e) :
    View.WbUndo { v with locks := Function.update v.locks e.lock (.free l) } p drop es where
  drops := h.drops.release hd
  version f hf hdf := by
    have hne := (List.pairwise_cons.1 h.drops.distinct).1 f hf hd hdf
    rw [lastTs, lastWord_release hne.symm]
    exact h.version f (.tail _ hf) hdf

omit [DecidableEq Lock] in
/-- The first entry does not drop its lock, with write-back. -/
theorem WbUndo.skip (h : v.WbUndo p drop (e :: es)) (hd : ¬ drop e) : v.WbUndo p drop es :=
  ⟨h.drops.skip hd, fun f hf => h.version f (.tail _ hf)⟩

end View

section
variable {Tid Addr Lock : Type} {w : ℕ} [DecidableEq Tid] [DecidableEq Addr] [DecidableEq Lock]
  {S : Setting Tid Addr Lock w} {p : Tid} {tx : StmTx Addr Lock w} {α : Type} {J : Asn S p}

/-- The thread owns no lock. -/
def noLocks (S : Setting Tid Addr Lock w) (p : Tid) : VAsn S p :=
  heldAsn S p (·.NoLocks p) fun _ _ => View.NoLocks.congr

/-- What the rollback of a write-back design needs. -/
def wbUndo (S : Setting Tid Addr Lock w) (p : Tid) (drop : WEntry Addr Lock w → Prop)
    (es : List (WEntry Addr Lock w)) : VAsn S p :=
  heldAsn S p (·.WbUndo p drop es) fun _ _ => View.WbUndo.congr

omit [DecidableEq Tid] [DecidableEq Lock] in
/-- A transaction of a write-back design aborts only with locks whose words had no incarnation
number. -/
theorem Linked.plain {v : View Tid Addr Lock w} {ℓ : Lock} {i : ℕ} (hl : Linked S p tx v)
    (hS : S.cfg.designOf tx.attr ≠ .writeThrough) (hph : tx.phase = .aborting)
    (hi : v.locks ℓ = .owned p i) : Plain (v.saved ℓ) := by
  rcases hl.inv.plain ℓ with h | ⟨attr, ha, hd⟩
  · rwa [View.lastWord_of_owned hi] at h
  · exact S.plain attr ha hd v hl.obs p (hl.inv.owner p ℓ ⟨i, hi⟩) (hl.attr ▸ hS)
      (hl.phase.trans hph) ℓ i hi

omit [DecidableEq Tid] in
/-- The release of a lock by the rollback of a write-back design. -/
theorem storeLock_wbUndo {drop : WEntry Addr Lock w → Prop} {e : WEntry Addr Lock w}
    {es : List (WEntry Addr Lock w)} {Q : α → Asn S p} {k : Unit → M Tid Addr Lock w α}
    (hS : S.cfg.designOf tx.attr ≠ .writeThrough) (hph : tx.phase = .aborting) (hd : drop e)
    (hk : Triple (protocol S) p (At tx (wbUndo S p drop es)) (k ()) Q J) :
    Triple (protocol S) p (At tx (wbUndo S p drop (e :: es)))
      (storeLock e.lock (lockSetTimestamp e.version) >>= k) Q J := by
  refine .storeLock (fun v hl hu => ?_) hk
  have hh : v.Holds p e.lock := (hu.drops.holds _).2 ⟨e, .head _, hd, rfl⟩
  have hab : v.phase p = .aborting := hl.phase.trans hph
  have hni : ∀ t, v.phase p ≠ .installing t := fun t ht => nomatch hab.symm.trans ht
  have hdue : v.due e.lock = e.version := by
    obtain ⟨i, hi⟩ := hh
    rw [View.due_of_owned hi hni, hu.version e (.head _) hd]
  refine ⟨hh, fun a ha => ?_, ?_, ?_, ?_,
    ⟨fun t ht => (hni t ht).elim, fun _ => ⟨hab, fun _ => ?_⟩⟩, hu.release hd⟩
  · exact hl.inv.mem a ((View.quiet_of_owned (ha ▸ hh)).2 ⟨hl.attr ▸ hS, hni⟩)
  · simp [hdue]
  · rw [lockGetTimestamp_lockSetTimestamp, ← hdue]
    exact hl.inv.due_le _
  · -- the word given back is the one that was there
    obtain ⟨i, hi⟩ := hh
    rw [View.stamp_of_owned hi, if_neg (hl.attr ▸ hS), hu.version e (.head _) hd, View.lastTs,
      View.lastWord_of_owned hi, hl.plain hS hph hi]
    exact le_rfl
  · rw [hu.version e (.head _) hd]

omit [DecidableEq Tid] in
/-- `stm_wbetl_rollback` releases all locks. -/
theorem wbetlDropLocks_spec (hS : S.cfg.designOf tx.attr ≠ .writeThrough)
    (hph : tx.phase = .aborting) (es : List (WEntry Addr Lock w)) :
    Triple (protocol S) p (At tx (wbUndo S p (·.next = none) es)) (wbetlDropLocks es)
      (fun _ => At tx (noLocks S p)) J := by
  induction es with
  | nil => exact .of_ret fun s hs h => ⟨h.1, h.2.drops.noLocks (by simp)⟩
  | cons e es ih =>
    unfold wbetlDropLocks dropLast
    by_cases hn : e.next = none
    · rw [if_pos hn]
      exact storeLock_wbUndo hS hph hn ih
    · rw [if_neg hn]
      exact .weaken ih fun v _ h => h.skip hn

/-- `stm_wbctl_rollback` releases all locks. The number of locks held tells it when to stop. -/
theorem wbctlDropLocks_spec (es : List (WEntry Addr Lock w)) :
    ∀ (tx : StmTx Addr Lock w), S.cfg.designOf tx.attr ≠ .writeThrough → tx.phase = .aborting →
    Triple (protocol S) p (At tx (wbUndo S p (·.noDrop = false) es))
      (wbctlDropLocks p es (es.filter fun e => !e.noDrop).length)
      (fun _ => .ex fun n =>
        At { tx with wSet := { tx.wSet with nbAcquired := n } } (noLocks S p)) J := by
  induction es with
  | nil =>
    intro tx _ _
    exact .of_ret fun s hs h => ⟨_, h.1, h.2.drops.noLocks (by simp)⟩
  | cons e es ih =>
    intro tx hS hph
    by_cases hn : e.noDrop = false
    · have hlen : ((e :: es).filter fun e => !e.noDrop).length =
          (es.filter fun e => !e.noDrop).length + 1 := by simp [hn]
      rw [hlen, wbctlDropLocks, if_neg (by simp [hn])]
      refine .modifyTx rfl rfl rfl (storeLock_wbUndo hS hph hn ?_)
      exact ih _ hS hph
    · have hlen : ((e :: es).filter fun e => !e.noDrop).length =
          (es.filter fun e => !e.noDrop).length := by simp [hn]
      rw [hlen]
      cases hk : (es.filter fun e => !e.noDrop).length with
      | zero =>
        refine .of_ret fun s hs h => ⟨_, h.1, h.2.drops.noLocks fun f hf hdf => ?_⟩
        rcases List.mem_cons.1 hf with rfl | hf
        · exact hn hdf
        · rw [List.length_eq_zero_iff, List.filter_eq_nil_iff] at hk
          exact hk f hf (by simp [hdf])
      | succ k =>
        rw [wbctlDropLocks, if_pos (by simpa using hn), ← hk]
        exact .weaken (ih tx hS hph) fun v _ h => h.skip hn

/-- The undo log of write-through. -/
def wtUndoLog (S : Setting Tid Addr Lock w) (p : Tid) (es : List (WEntry Addr Lock w)) :
    VAsn S p :=
  heldAsn S p (·.WtUndo S p es) fun _ _ => View.WtUndo.congr

/-- The words that the entries restore may not be in memory. -/
def dirty (S : Setting Tid Addr Lock w) (p : Tid) (es : List (WEntry Addr Lock w)) : VAsn S p :=
  heldAsn S p (·.Dirty S p es) fun _ _ => View.Dirty.congr

/-- If it is not 0, `t` is a timestamp newer than all versions of the thread's locks. -/
def newTs (S : Setting Tid Addr Lock w) (p : Tid) (t : ℕ) : VAsn S p where
  holds v := t ≠ 0 → t ≤ v.clock ∧ ∀ ℓ, v.Holds p ℓ → v.lastTs ℓ < t
  stable q hq v v' _ _ hg h ht := by
    obtain ⟨hc, hl⟩ := h ht
    refine ⟨hc.trans hg.clock, fun ℓ hp => ?_⟩
    have hp := (hg.holds_iff hq).1 hp
    rw [hg.lastTs_of_holds hq hp]
    exact hl ℓ hp

omit [DecidableEq Tid] [DecidableEq Lock] in
/-- The old value of a word is restored. -/
theorem wtRestore_spec (hS : S.cfg.designOf tx.attr = .writeThrough) (e : WEntry Addr Lock w)
    (es : List (WEntry Addr Lock w)) (t : ℕ) {Q : α → Asn S p} {k : Unit → M Tid Addr Lock w α}
    (hk : Triple (protocol S) p
      (At tx (wtUndoLog S p (e :: es) ⊓ dirty S p es ⊓ newTs S p t)) (k ()) Q J) :
    Triple (protocol S) p (At tx (wtUndoLog S p (e :: es) ⊓ dirty S p (e :: es) ⊓ newTs S p t))
      (storeWordIf e.addr e.value e.mask >>= k) Q J := by
  unfold storeWordIf
  by_cases hm : e.mask = 0#w
  · rw [if_neg (not_not.2 hm)]
    refine .weaken hk fun v _ ⟨⟨hu, hd⟩, ht⟩ => ⟨⟨hu, fun a ha => ?_⟩, ht⟩
    refine (hd a ha).imp id ?_
    rintro ⟨f, hf, hfa, hfm⟩
    rcases List.mem_cons.1 hf with rfl | hf
    · exact (hfm hm).elim
    · exact ⟨f, hf, hfa, hfm⟩
  · rw [if_pos hm]
    refine .storeWord (fun v hl ⟨⟨hu, hd⟩, ht⟩ => ?_) hk
    have hh : v.Holds p (S.cfg.getLock e.addr) := hu.lock e (.head _) ▸ hu.held e (.head _)
    refine ⟨hh, fun hq => ((View.quiet_of_owned hh).1 hq).1 (hl.attr ▸ hS), ⟨⟨⟨hu.drops.holds,
      hu.drops.distinct⟩, hu.last, hu.held, hu.lock, hu.version, hu.value⟩, fun a ha => ?_⟩, ht⟩
    by_cases hae : a = e.addr
    · subst hae
      exact .inl ((Function.update_self ..).trans (hu.value e (.head _) hm))
    · refine (hd a ha).imp (Function.update_of_ne hae _ _).trans ?_
      rintro ⟨f, hf, hfa, hfm⟩
      rcases List.mem_cons.1 hf with rfl | hf
      · exact (hae hfa.symm).elim
      · exact ⟨f, hf, hfa, hfm⟩

omit [DecidableEq Tid] [DecidableEq Lock] in
/-- The first entry does not drop its lock, with write-through. -/
theorem View.WtUndo.skip {v : View Tid Addr Lock w} {e : WEntry Addr Lock w}
    {es : List (WEntry Addr Lock w)} (h : v.WtUndo S p (e :: es)) (hn : e.next ≠ none) :
    v.WtUndo S p es where
  drops := h.drops.skip hn
  last := (List.pairwise_cons.1 h.last).2
  held f hf := h.held f (.tail _ hf)
  lock f hf := h.lock f (.tail _ hf)
  version f hf := h.version f (.tail _ hf)
  value f hf := h.value f (.tail _ hf)

omit [DecidableEq Tid] in
/-- The first entry drops its lock, with write-through. -/
theorem View.WtUndo.release {v : View Tid Addr Lock w} {e : WEntry Addr Lock w}
    {es : List (WEntry Addr Lock w)} {l : ℕ} (h : v.WtUndo S p (e :: es)) (hn : e.next = none) :
    View.WtUndo S { v with locks := Function.update v.locks e.lock (.free l) } p es := by
  have hne : ∀ f ∈ es, f.lock ≠ e.lock := fun f hf => (List.pairwise_cons.1 h.last).1 f hf hn
  have hh : v.Holds p e.lock := h.held e (.head _)
  exact {
    drops := h.drops.release hn
    last := (List.pairwise_cons.1 h.last).2
    held := fun f hf => (View.holds_release hh _).2 ⟨h.held f (.tail _ hf), hne f hf⟩
    lock := fun f hf => h.lock f (.tail _ hf)
    version := fun f hf => by
      rw [View.lastWord_release (hne f hf)]
      exact h.version f (.tail _ hf)
    value := fun f hf => h.value f (.tail _ hf) }

omit [DecidableEq Tid] in
/-- A lock is released with a greater word whose timestamp is not older. -/
theorem wtRelease_spec {e : WEntry Addr Lock w} {es : List (WEntry Addr Lock w)} {l t : ℕ}
    (hS : S.cfg.designOf tx.attr = .writeThrough) (hph : tx.phase = .aborting) (hn : e.next = none)
    (hl : ∀ v, Linked S p tx v → v.WtUndo S p (e :: es) → newTs S p t v →
      v.saved e.lock < l ∧ lockGetTimestamp (v.saved e.lock) ≤ lockGetTimestamp l ∧
        lockGetTimestamp l ≤ v.clock)
    {Q : α → Asn S p} {k : Unit → M Tid Addr Lock w α}
    (hk : Triple (protocol S) p (At tx (wtUndoLog S p es ⊓ dirty S p es ⊓ newTs S p t))
      (k ()) Q J) :
    Triple (protocol S) p (At tx (wtUndoLog S p (e :: es) ⊓ dirty S p es ⊓ newTs S p t))
      (storeLock e.lock l >>= k) Q J := by
  refine .storeLock (fun v hv ⟨⟨hu, hd⟩, ht⟩ => ?_) hk
  have hh : v.Holds p e.lock := hu.held e (.head _)
  obtain ⟨hlt, hle, hc⟩ := hl v hv hu ht
  have hab : v.phase p = .aborting := hv.phase.trans hph
  have hni : ∀ t, v.phase p ≠ .installing t := fun t ht => nomatch hab.symm.trans ht
  refine ⟨hh, fun a ha => ?_, ?_, hc, ?_,
    ⟨fun t ht => (hni t ht).elim, fun _ => ⟨hab, fun hne => (hne (hv.attr ▸ hS)).elim⟩⟩,
    ⟨hu.release hn, fun a ha => ?_⟩, fun ht0 => ⟨(ht ht0).1, fun ℓ hℓ => ?_⟩⟩
  · refine (hd a (ha ▸ hh)).resolve_right ?_
    rintro ⟨f, hf, rfl, -⟩
    exact (List.pairwise_cons.1 hu.last).1 f hf hn ((hu.lock f (.tail _ hf)).trans ha)
  · obtain ⟨i, hi⟩ := hh
    rw [View.due_of_owned hi hni, View.lastTs, View.lastWord_of_owned hi]
    exact hle
  · obtain ⟨i, hi⟩ := hh
    exact View.stamp_le_of_lt hi hlt
  · exact hd a ((View.holds_release hh _).1 ha).1
  · obtain ⟨hℓ, hne⟩ := (View.holds_release hh _).1 hℓ
    rw [View.lastTs, View.lastWord_release hne]
    exact (ht ht0).2 ℓ hℓ

omit [DecidableEq Tid] in
/-- `stm_wt_rollback` restores all words and releases all locks. -/
theorem wtUndo_spec (hS : S.cfg.designOf tx.attr = .writeThrough) (hph : tx.phase = .aborting)
    (es : List (WEntry Addr Lock w)) (t : ℕ) :
    Triple (protocol S) p (At tx (wtUndoLog S p es ⊓ dirty S p es ⊓ newTs S p t)) (wtUndo es t)
      (fun _ => At tx (noLocks S p)) J := by
  induction es generalizing t with
  | nil => exact .of_ret fun s hs h => ⟨h.1, h.2.1.1.drops.noLocks (by simp)⟩
  | cons e es ih =>
    rw [wtUndo]
    refine wtRestore_spec hS e es t ?_
    by_cases hn : e.next = none
    · rw [if_neg (not_not.2 hn)]
      by_cases hj : lockGetIncarnation e.version + 1 > incarnationMax
      · -- no incarnation number is left: the lock gets a new timestamp
        rw [if_pos hj]
        refine .bind (R := fun t => .pure (t ≠ 0) ⊓
          At tx (wtUndoLog S p (e :: es) ⊓ dirty S p es ⊓ newTs S p t)) ?_ fun t => ?_
        · unfold wtNewTimestamp
          by_cases h0 : t = 0
          · rw [if_pos h0]
            refine .last (.fetchIncClock (fun t =>
              .pure (t ≠ 0) ⊓ (wtUndoLog S p (e :: es) ⊓ dirty S p es ⊓ newTs S p t))
              (fun v hv ⟨⟨hu, hd⟩, _⟩ => ?_) fun t => .of_ret fun s _ h => ⟨h.2.1, h.1, h.2.2⟩)
            have hsame : View.SameHeld S p v { v with clock := v.clock + 1 } :=
              .self hv.inv rfl rfl rfl rfl (Nat.le_succ _)
            exact ⟨Nat.succ_ne_zero _, ⟨hu.congr hsame, hd.congr hsame⟩, fun _ =>
              ⟨le_refl _, fun ℓ _ => Nat.lt_succ_of_le (hv.inv.lastTs_le_clock ℓ)⟩⟩
          · rw [if_neg h0]
            exact .of_ret fun s _ h => ⟨h0, h⟩
        · refine .of_fact (fun _ _ h => h.1) fun h0 => .pre ?_ fun _ _ h => h.2
          refine wtRelease_spec hS hph hn (fun v hv hu ht => ?_) (ih t)
          obtain ⟨hc, hlt⟩ := ht h0
          have hh := hu.held e (.head _)
          have hlt := hlt _ hh
          obtain ⟨i, hi⟩ := hh
          rw [View.lastTs, View.lastWord_of_owned hi] at hlt
          rw [lockGetTimestamp_lockSetTimestamp]
          exact ⟨lt_lockSetTimestamp hlt, hlt.le, hc⟩
      · rw [if_neg hj]
        refine wtRelease_spec hS hph hn (fun v hv hu _ => ?_) (ih t)
        have hj' : lockGetIncarnation e.version + 1 ≤ 7 := Nat.le_of_not_lt hj
        have hver := hu.version e (.head _)
        have hc := hv.inv.lastTs_le_clock e.lock
        obtain ⟨i, hi⟩ := hu.held e (.head _)
        rw [View.lastWord_of_owned hi] at hver
        rw [View.lastTs, View.lastWord_of_owned hi] at hc
        rw [lockGetTimestamp_lockUpdIncarnation hj', ← hver]
        exact ⟨lt_lockUpdIncarnation hj', le_refl _, hver ▸ hc⟩
    · rw [if_pos hn]
      exact .weaken (ih t) fun v _ h => ⟨⟨h.1.1.skip hn, h.1.2⟩, h.2⟩

end

end TinyStm
