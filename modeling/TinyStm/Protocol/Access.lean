import TinyStm.Protocol.Snapshot

/-!
# Rules for the accesses that change the view

One rule for each atomic access of `TinyStm.Model.Atomic` that another thread can see. A rule asks
for what the protocol demands of the access and for the assertion about the view after it. With the
rules a proof about a function of the library never looks at the shared state: it says what the view
is before and after each access, and the rule gives the invariant and the guarantee.
-/

open TinyStm

namespace Triple

variable {Tid Addr Lock : Type} {w : ℕ} [DecidableEq Tid] [DecidableEq Addr] [DecidableEq Lock]
  {S : Setting Tid Addr Lock w} {p : Tid} {tx : StmTx Addr Lock w} {α : Type} {Φ Ψ : VAsn S p}
  {Q : α → Asn S p} {J : Asn S p}

omit [DecidableEq Tid] in
/-- The owner of a lock releases it. -/
theorem storeLock {lock : Lock} {l : ℕ} {k : Unit → M Tid Addr Lock w α}
    (h : ∀ v, Linked S p tx v → Φ v → v.Holds p lock ∧
      (∀ a, S.cfg.getLock a = lock → v.mem a = v.cur S a) ∧ v.due lock ≤ lockGetTimestamp l ∧
      lockGetTimestamp l ≤ v.clock ∧ v.stamp S lock ≤ 2 * l ∧
      v.Releases S p lock l ∧ Ψ { v with locks := Function.update v.locks lock (.free l) })
    (hk : Triple (protocol S) p (At tx Ψ) (k ()) Q J) :
    Triple (protocol S) p (At tx Φ) (TinyStm.storeLock lock l >>= k) Q J := by
  refine .access (fun _ => tx) (fun _ => Ψ) (fun s hl htx hΦ => ?_) fun _ => hk
  obtain ⟨⟨i, hi⟩, hm, hd, hc, hs, hr, hΨ⟩ := h _ hl hΦ
  exact ⟨hl.inv.release hi hm hd hc hs hr, fun _ _ => rfl, htx, hΨ⟩

omit [DecidableEq Tid] [DecidableEq Lock] in
/-- The owner of a stripe that is not quiet stores to it. -/
theorem storeWord {addr : Addr} {x : BitVec w} {k : Unit → M Tid Addr Lock w α}
    (h : ∀ v, Linked S p tx v → Φ v → v.Holds p (S.cfg.getLock addr) ∧
      ¬ v.Quiet S (S.cfg.getLock addr) ∧ Ψ { v with mem := Function.update v.mem addr x })
    (hk : Triple (protocol S) p (At tx Ψ) (k ()) Q J) :
    Triple (protocol S) p (At tx Φ) (TinyStm.storeWord addr x >>= k) Q J := by
  refine .access (fun _ => tx) (fun _ => Ψ) (fun s hl htx hΦ => ?_) fun _ => hk
  obtain ⟨hh, hq, hΨ⟩ := h _ hl hΦ
  exact ⟨hl.inv.store hh hq x, fun _ _ => rfl, htx, hΨ⟩

/-- A thread that has not begun to commit tries to acquire a lock. -/
theorem casLock {lock : Lock} {l i : ℕ} {k : Bool → M Tid Addr Lock w α}
    (hp : tx.phase = .running) (ha : S.attrs tx.attr)
    (h : ∀ v, Linked S p tx v → Φ v → v.locks lock = .free l →
      Ψ { v with locks := Function.update v.locks lock (.owned p i)
                 saved := Function.update v.saved lock l })
    (hk : Triple (protocol S) p (At tx Ψ) (k true) Q J)
    (hk' : Triple (protocol S) p (At tx Φ) (k false) Q J) :
    Triple (protocol S) p (At tx Φ) (TinyStm.casLock p lock l i >>= k) Q J := by
  refine .access (fun _ => tx) (fun b => if b then Ψ else Φ) (fun s hl htx hΦ => ?_) fun b => ?_
  · by_cases hf : s.locks lock = .free l
    · simp only [if_pos hf]
      exact ⟨hl.inv.acquire hf (hl.phase.trans hp) (hl.attr ▸ ha) i, fun _ _ => trivial, htx, h _ hl hΦ hf⟩
    · simp only [if_neg hf]
      exact ⟨⟨hl.inv, .refl ..⟩, fun _ _ => trivial, htx, hΦ⟩
  · cases b with
    | true => exact hk
    | false => exact hk'

omit [DecidableEq Tid] [DecidableEq Lock] in
/-- The clock is incremented. -/
theorem fetchIncClock {k : ℕ → M Tid Addr Lock w α} (Ψ : ℕ → VAsn S p)
    (h : ∀ v, Linked S p tx v → Φ v → Ψ (v.clock + 1) { v with clock := v.clock + 1 })
    (hk : ∀ t, Triple (protocol S) p (At tx (Ψ t)) (k t) Q J) :
    Triple (protocol S) p (At tx Φ) (TinyStm.fetchIncClock >>= k) Q J :=
  .access (fun _ => tx) Ψ
    (fun _ hl htx hΦ => ⟨hl.inv.bump, fun _ _ => rfl, htx, h _ hl hΦ⟩) hk

omit [DecidableEq Lock] in
/-- The check for an irrevocable transaction. -/
theorem checkIrrevocable {k : ℕ → M Tid Addr Lock w α} (hp : tx.phase = .running)
    (h : ∀ v, Linked S p tx v → Φ v →
      Ψ { v with phase := Function.update v.phase p .checked })
    (hk : Triple (protocol S) p (At { tx with phase := .checked } Ψ) (k 0) Q J)
    (hk' : ∀ n, n ≠ 0 → Triple (protocol S) p (At tx Φ) (k n) Q J) :
    Triple (protocol S) p (At tx Φ) (TinyStm.checkIrrevocable p >>= k) Q J := by
  refine .access (fun n => if n = 0 then { tx with phase := .checked } else tx)
    (fun n => if n = 0 then Ψ else Φ) (fun s hl htx hΦ => ?_) fun n => ?_
  · by_cases hf : s.irrevocable = 0
    · simp only [if_pos hf]
      have hni : (∀ t, s.view.phase p ≠ .installing t) ∧
          (s.view.phase p = .aborting → Phase.checked = .aborting) := by
        rw [hl.phase, hp]
        exact ⟨nofun, nofun⟩
      refine ⟨?_, fun q hq => Function.update_of_ne hq _ _, ?_, ?_⟩
      · rw [State.view_setTx_phase rfl rfl]
        exact hl.inv.setPhase (.inr (.inl rfl)) (.inl hni) fun _ => .inr (.inl hf)
      · rw [State.setTx_txs_self, htx]
      · rw [State.view_setTx_phase rfl rfl]
        exact h _ hl hΦ
    · simp only [if_neg hf]
      exact ⟨⟨hl.inv, .refl ..⟩, fun _ _ => trivial, htx, hΦ⟩
  · by_cases hn : n = 0
    · subst hn
      exact hk
    · simp only [if_neg hn]
      exact hk' n hn

omit [DecidableEq Lock] in
/-- A committing thread draws its timestamp. It has passed the check, or it holds the token, or
there is no token. -/
theorem fetchTimestamp {k : ℕ → M Tid Addr Lock w α} (Ψ : ℕ → VAsn S p)
    (hp : tx.phase = .checked ∨ tx.phase = .running ∧
      (2 ≤ tx.irrevocable ∨ S.cfg.irrevocableEnabled = false))
    (h : ∀ v, Linked S p tx v → Φ v → Ψ (v.clock + 1) { v with
      clock := v.clock + 1
      phase := Function.update v.phase p (.ticket (v.clock + 1)) })
    (hk : ∀ t, Triple (protocol S) p (At { tx with phase := .ticket t } (Ψ t)) (k t) Q J) :
    Triple (protocol S) p (At tx Φ) (TinyStm.fetchTimestamp p >>= k) Q J := by
  refine .access (fun t => { tx with phase := .ticket t }) Ψ (fun s hl htx hΦ => ?_) hk
  have hni : (∀ t, s.view.phase p ≠ .installing t) ∧ s.view.phase p ≠ .aborting := by
    rw [hl.phase]
    rcases hp with hp | ⟨hp, -⟩ <;> rw [hp] <;> exact ⟨nofun, nofun⟩
  have hpass : (s.view.phase p).Passed ∨ s.view.token = 0 ∨ 2 ≤ s.view.irr p := by
    rw [hl.phase, hl.irr]
    rcases hp with hp | ⟨hp, hp' | hp'⟩
    · exact .inl (by rw [hp]; trivial)
    · exact .inr (.inr hp')
    · refine .inr (.inl (hl.inv.off fun ht => ?_).1)
      rw [S.enabled_of_tokens ht] at hp'
      cases hp'
  refine ⟨?_, fun q hq => Function.update_of_ne hq _ _, ?_, ?_⟩
  · rw [State.view_setTx_phase rfl rfl]
    exact hl.inv.draw hni hpass
  · rw [State.setTx_txs_self]
    exact congrArg (fun tx => { tx with phase := .ticket (s.clock + 1) }) htx
  · rw [State.view_setTx_phase rfl rfl]
    exact h _ hl hΦ

omit [DecidableEq Lock] in
/-- The commit of a thread with a ticket can no longer fail. -/
theorem recordUpdate {t : ℕ} {k : Unit → M Tid Addr Lock w α} (hp : tx.phase = .ticket t)
    (h : ∀ v, Linked S p tx v → Φ v → (∀ a ∈ tx.trace.writes, v.Holds p (S.cfg.getLock a)) ∧
      (S.hint → tx.trace.Consistent (v.memAt S (t - 1)) ∧ ∀ a ∈ tx.trace.reads, ∀ q t', q ≠ p →
        v.phase q = .ticket t' → v.Holds q (S.cfg.getLock a) → t ≤ t') ∧
      Ψ { v with commits := ⟨p, t, true, tx.trace⟩ :: v.commits
                 phase := Function.update v.phase p (.installing t) })
    (hk : Triple (protocol S) p (At { tx with phase := .installing t } Ψ) (k ()) Q J) :
    Triple (protocol S) p (At tx Φ) (TinyStm.recordUpdate p t >>= k) Q J := by
  refine .access (fun _ => { tx with phase := .installing t }) (fun _ => Ψ)
    (fun s hl htx hΦ => ?_) fun _ => hk
  obtain ⟨hw, hr, hΨ⟩ := h _ hl hΦ
  refine ⟨?_, fun q hq => Function.update_of_ne hq _ _, ?_, ?_⟩
  · rw [State.view_setTx_phase rfl rfl]
    change View.Inv S { s.view with
      commits := ⟨p, t, true, (s.txs p).trace⟩ :: s.commits, phase := _ } ∧ _
    rw [htx]
    exact hl.inv.decide (hl.phase.trans hp) hw hr
  · rw [State.setTx_txs_self]
    exact congrArg (fun tx => { tx with phase := .installing t }) htx
  · rw [State.view_setTx_phase rfl rfl]
    change Ψ { s.view with
      commits := ⟨p, t, true, (s.txs p).trace⟩ :: s.commits, phase := _ }
    rw [htx]
    exact hΨ

omit [DecidableEq Tid] [DecidableEq Lock] in
/-- The commit of a thread that has stored nothing. -/
theorem recordReadOnly {k : Unit → M Tid Addr Lock w α}
    (h : ∀ v, Linked S p tx v → Φ v → tx.trace.writes = [] ∧ tx.end_ ≤ v.clock ∧
      (∀ n, n = (if tx.irrevocable = 0 then tx.end_ else v.clock) →
        (S.hint → tx.trace.Consistent (v.memAt S n) ∧ ∀ a ∈ tx.trace.reads, ∀ q t',
          v.phase q = .ticket t' → v.Holds q (S.cfg.getLock a) → n < t') ∧
        Ψ { v with commits := ⟨p, n, false, tx.trace⟩ :: v.commits }))
    (hk : Triple (protocol S) p (At tx Ψ) (k ()) Q J) :
    Triple (protocol S) p (At tx Φ) (TinyStm.recordReadOnly p >>= k) Q J := by
  refine .access (fun _ => tx) (fun _ => Ψ) (fun s hl htx hΦ => ?_) fun _ => hk
  obtain ⟨hw, he, hr⟩ := h _ hl hΦ
  obtain ⟨hr, hΨ⟩ := hr _ rfl
  have hview : ∀ n, State.view { s with
      commits := ⟨p, if (s.txs p).irrevocable = 0 then (s.txs p).end_ else s.clock, false,
        (s.txs p).trace⟩ :: s.commits } = { s.view with commits := ⟨p, n, false, tx.trace⟩ ::
        s.view.commits } ↔ n = if tx.irrevocable = 0 then tx.end_ else s.clock := by
    intro n
    subst htx
    simp [State.view, eq_comm]
  rw [(hview _).2 rfl]
  refine ⟨hl.inv.commitReadOnly ?_ hw hr, fun _ _ => rfl, htx, hΨ⟩
  split
  · exact he
  · exact le_refl _

omit [DecidableEq Lock] in
/-- A thread tries to take the token. -/
theorem casIrrevocable {k : Bool → M Tid Addr Lock w α}
    (he : S.tokens)
    (h : ∀ v, Linked S p tx v → Φ v → Ψ { v with
      token := 1
      irr := Function.update v.irr p (tx.irrevocable + 1) })
    (hk : Triple (protocol S) p (At { tx with irrevocable := tx.irrevocable + 1 } Ψ) (k true) Q J)
    (hk' : Triple (protocol S) p (At tx Φ) (k false) Q J) :
    Triple (protocol S) p (At tx Φ) (TinyStm.casIrrevocable p >>= k) Q J := by
  refine .access (fun b => if b then { tx with irrevocable := tx.irrevocable + 1 } else tx)
    (fun b => if b then Ψ else Φ) (fun s hl htx hΦ => ?_) fun b => ?_
  · by_cases hf : s.irrevocable = 0
    · simp only [if_pos hf]
      refine ⟨?_, fun q hq => Function.update_of_ne hq _ _, ?_, ?_⟩
      · rw [State.view_setTx_irr rfl rfl]
        exact hl.inv.takeToken hf he _
      · rw [State.setTx_txs_self]
        exact congrArg (fun tx => { tx with irrevocable := tx.irrevocable + 1 }) htx
      · rw [State.view_setTx_irr rfl rfl]
        subst htx
        exact h s.view hl hΦ
    · simp only [if_neg hf]
      exact ⟨⟨hl.inv, .refl ..⟩, fun _ _ => trivial, htx, hΦ⟩
  · cases b with
    | true => exact hk
    | false => exact hk'

omit [DecidableEq Lock] in
/-- The token is given back, by its holder where that matters. -/
theorem releaseIrrevocable {k : Unit → M Tid Addr Lock w α} (hi : S.hint → 2 ≤ tx.irrevocable)
    (h : ∀ v, Linked S p tx v → Φ v →
      Ψ { v with token := 0, irr := Function.update v.irr p 0 })
    (hk : Triple (protocol S) p (At { tx with irrevocable := 0 } Ψ) (k ()) Q J) :
    Triple (protocol S) p (At tx Φ) (TinyStm.releaseIrrevocable p >>= k) Q J := by
  refine .access (fun _ => { tx with irrevocable := 0 }) (fun _ => Ψ)
    (fun s hl htx hΦ => ?_) fun _ => hk
  refine ⟨?_, fun q hq => Function.update_of_ne hq _ _, ?_, ?_⟩
  · rw [State.view_setTx_irr rfl rfl]
    exact hl.inv.giveToken fun hh => hl.irr.symm ▸ hi hh
  · rw [State.setTx_txs_self]
    exact congrArg (fun tx => { tx with irrevocable := 0 }) htx
  · rw [State.view_setTx_irr rfl rfl]
    exact h s.view hl hΦ

omit [DecidableEq Lock] in
/-- Assignments to the thread's irrevocability. -/
theorem modifyIrr {f : StmTx Addr Lock w → StmTx Addr Lock w} {k : Unit → M Tid Addr Lock w α}
    (he : S.tokens) (hi : 2 ≤ (f tx).irrevocable → 2 ≤ tx.irrevocable)
    (hph : (f tx).phase = tx.phase) (hattr : (f tx).attr = tx.attr)
    (h : ∀ v, Linked S p tx v → Φ v →
      Ψ { v with irr := Function.update v.irr p (f tx).irrevocable })
    (hk : Triple (protocol S) p (At (f tx) Ψ) (k ()) Q J) :
    Triple (protocol S) p (At tx Φ) (TinyStm.modifyTx p f >>= k) Q J := by
  refine .access (fun _ => f tx) (fun _ => Ψ) (fun s hl htx hΦ => ?_) fun _ => hk
  subst htx
  refine ⟨?_, fun q hq => Function.update_of_ne hq _ _, State.setTx_txs_self, ?_⟩
  · change (s.setTx p f).view.Inv S ∧ s.view.Guar S p (s.setTx p f).view
    rw [State.view_setTx_irr hph hattr]
    exact hl.inv.setIrr he fun h2 => hl.irr ▸ hi h2
  · change Ψ (s.setTx p f).view
    rw [State.view_setTx_irr hph hattr]
    exact h _ hl hΦ

omit [DecidableEq Lock] in
/-- A thread that owns no lock sets its attributes. -/
theorem modifyAttr {f : StmTx Addr Lock w → StmTx Addr Lock w} {k : Unit → M Tid Addr Lock w α}
    (hph : (f tx).phase = tx.phase) (hirr : (f tx).irrevocable = tx.irrevocable)
    (hno : ∀ v, Linked S p tx v → Φ v → ∀ ℓ, ¬ v.Holds p ℓ)
    (h : ∀ v, Linked S p tx v → Φ v → Ψ { v with attr := Function.update v.attr p (f tx).attr })
    (hk : Triple (protocol S) p (At (f tx) Ψ) (k ()) Q J) :
    Triple (protocol S) p (At tx Φ) (TinyStm.modifyTx p f >>= k) Q J := by
  refine .access (fun _ => f tx) (fun _ => Ψ) (fun s hl htx hΦ => ?_) fun _ => hk
  subst htx
  refine ⟨?_, fun q hq => Function.update_of_ne hq _ _, State.setTx_txs_self, ?_⟩
  · change (s.setTx p f).view.Inv S ∧ s.view.Guar S p (s.setTx p f).view
    rw [State.view_setTx_attr hph hirr]
    exact hl.inv.setAttr (hno _ hl hΦ) _
  · change Ψ (s.setTx p f).view
    rw [State.view_setTx_attr hph hirr]
    exact h _ hl hΦ

omit [DecidableEq Lock] in
/-- Assignments of a thread that leaves its commit or starts to abort. -/
theorem modifyPhase {f : StmTx Addr Lock w → StmTx Addr Lock w} {k : Unit → M Tid Addr Lock w α}
    (hph : (f tx).phase = .running ∨ (f tx).phase = .aborting)
    (hirr : (f tx).irrevocable = tx.irrevocable) (hattr : (f tx).attr = tx.attr)
    (hi : (∀ t, tx.phase ≠ .installing t) ∧ (tx.phase = .aborting → (f tx).phase = .aborting) ∨
      ∀ v, Linked S p tx v → Φ v → ∀ ℓ, ¬ v.Holds p ℓ)
    (h : ∀ v, Linked S p tx v → Φ v →
      Ψ { v with phase := Function.update v.phase p (f tx).phase })
    (hk : Triple (protocol S) p (At (f tx) Ψ) (k ()) Q J) :
    Triple (protocol S) p (At tx Φ) (TinyStm.modifyTx p f >>= k) Q J := by
  refine .access (fun _ => f tx) (fun _ => Ψ) (fun s hl htx hΦ => ?_) fun _ => hk
  subst htx
  have hv : (s.setTx p f).view =
      { s.view with phase := Function.update s.view.phase p (f (s.txs p)).phase } :=
    State.view_setTx_phase hirr hattr
  refine ⟨?_, fun q hq => Function.update_of_ne hq _ _, State.setTx_txs_self, ?_⟩
  · change (s.setTx p f).view.Inv S ∧ s.view.Guar S p (s.setTx p f).view
    rw [hv]
    refine hl.inv.setPhase (hph.imp id .inr) ?_ fun h => ?_
    · exact hi.imp id fun hi => hi _ hl hΦ
    · rcases hph with hph | hph
      · rw [hph] at h
        exact h.elim
      · rw [hph] at h
        exact h.elim
  · change Ψ (s.setTx p f).view
    rw [hv]
    exact h _ hl hΦ

end Triple
