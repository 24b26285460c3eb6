import TinyStm.Conc.Steps
import TinyStm.Model.Stm

/-!
# The rollback of a thread that runs alone

The designs' rollback functions end. Of the descriptors they change only the `nb_acquired` of the
thread's own, and the locks that they store to are free. The number of steps depends on the length
of the write set only. What is left of the state is said by one equation for the descriptors and one
for the locks.
-/

namespace TinyStm

section
variable {Tid Addr Lock : Type} {w : ℕ}

/-- The state `t` has the commits and the descriptors of `s`, but for the phase and `nb_acquired`
of `p`, and its locks are those of `s` or free. -/
structure Untouched (p : Tid) (s t : State Tid Addr Lock w) : Prop where
  commits : t.commits = s.commits
  tx : ∃ ph n, t.txs p =
    { s.txs p with phase := ph, wSet := { (s.txs p).wSet with nbAcquired := n } }
  locks : ∀ ℓ, t.locks ℓ = s.locks ℓ ∨ ∃ l, t.locks ℓ = .free l

theorem Untouched.of_eq {p : Tid} {s t : State Tid Addr Lock w} (hc : t.commits = s.commits)
    (ht : t.txs = s.txs) (hl : t.locks = s.locks) : Untouched p s t :=
  ⟨hc, ⟨(s.txs p).phase, (s.txs p).wSet.nbAcquired, by rw [ht]⟩, fun _ => .inl (by rw [hl])⟩

theorem Untouched.refl (p : Tid) (s : State Tid Addr Lock w) : Untouched p s s := .of_eq rfl rfl rfl

theorem Untouched.trans {p : Tid} {s t u : State Tid Addr Lock w} (h : Untouched p s t)
    (h' : Untouched p t u) : Untouched p s u := by
  obtain ⟨_, n, hn⟩ := h.tx
  obtain ⟨ph, k, hk⟩ := h'.tx
  refine ⟨h'.commits.trans h.commits, ⟨ph, k, by rw [hk, hn]⟩, fun ℓ => ?_⟩
  rcases h'.locks ℓ with hℓ | hℓ
  · rw [hℓ]
    exact h.locks ℓ
  · exact .inr hℓ

/-- A lock that is free stays free. -/
theorem Untouched.free {p : Tid} {s t : State Tid Addr Lock w} (h : Untouched p s t) {ℓ : Lock}
    (hℓ : ∃ l, s.locks ℓ = .free l) : ∃ l, t.locks ℓ = .free l :=
  (h.locks ℓ).elim (fun h => h ▸ hℓ) id

/-- The last entries of the chains have dropped their locks. -/
def Dropped (es : List (WEntry Addr Lock w)) (t : State Tid Addr Lock w) : Prop :=
  ∀ e ∈ es, e.next = none → ∃ l, t.locks e.lock = .free l

end

variable {Tid Addr Lock : Type} {w : ℕ} [DecidableEq Tid] [DecidableEq Addr] [DecidableEq Lock]
  {p : Tid} {cfg : Config Addr Lock} {J : State Tid Addr Lock w → Prop} {s : State Tid Addr Lock w}

omit [DecidableEq Tid] [DecidableEq Addr] [DecidableEq Lock] in
/-- Two programs of which each keeps the descriptors. -/
theorem untouched_bind {α β : Type} {c : M Tid Addr Lock w α} {f : α → M Tid Addr Lock w β}
    (hc : c.Ends (fun _ t => Untouched p s t) J s)
    (hf : ∀ a t, (f a).Ends (fun _ u => Untouched p t u) J t) :
    (c >>= f).Ends (fun _ t => Untouched p s t) J s :=
  .bind hc fun a t h => (hf a t).mono (fun _ _ h' => h.trans h') fun _ h => h

omit [DecidableEq Tid] [DecidableEq Addr] in
/-- A lock is dropped. -/
theorem storeLock_ends (lock : Lock) (l : ℕ) : (storeLock lock l).Ends
    (fun _ t => Untouched p s t ∧ ∃ l, t.locks lock = .free l) J s := by
  refine .atomic ⟨⟨rfl, ⟨(s.txs p).phase, (s.txs p).wSet.nbAcquired, rfl⟩, fun ℓ => ?_⟩, l,
    Function.update_self ..⟩
  by_cases hℓ : ℓ = lock
  · subst hℓ
    exact .inr ⟨l, Function.update_self ..⟩
  · exact .inl (Function.update_of_ne hℓ ..)

omit [DecidableEq Tid] [DecidableEq Addr] [DecidableEq Lock] in
/-- An entry is undone, then the others. -/
theorem dropped_bind {α β : Type} {c : M Tid Addr Lock w α} {f : α → M Tid Addr Lock w β}
    {e : WEntry Addr Lock w} {es : List (WEntry Addr Lock w)}
    (hc : c.Ends (fun _ t => Untouched p s t ∧ (e.next = none → ∃ l, t.locks e.lock = .free l)) J s)
    (hf : ∀ a t, (f a).Ends (fun _ u => Untouched p t u ∧ Dropped es u) J t) :
    (c >>= f).Ends (fun _ t => Untouched p s t ∧ Dropped (e :: es) t) J s := by
  refine .bind hc fun a t ⟨h, hl⟩ => (hf a t).mono (fun _ u ⟨h', hes⟩ => ⟨h.trans h', ?_⟩) fun _ h => h
  intro f hmem hnext
  rcases List.mem_cons.1 hmem with rfl | hmem
  · exact h'.free (hl hnext)
  · exact hes f hmem hnext

omit [DecidableEq Tid] [DecidableEq Addr] in
theorem wbetlDropLocks_ends (es : List (WEntry Addr Lock w)) (s : State Tid Addr Lock w) :
    (wbetlDropLocks es).Ends (fun _ t => Untouched p s t ∧ Dropped es t) J s := by
  induction es generalizing s with
  | nil => exact .ret ⟨.refl p s, nofun⟩
  | cons e es ih =>
    refine dropped_bind ?_ fun _ => ih
    unfold dropLast
    split
    · exact (storeLock_ends ..).mono (fun _ _ h => ⟨h.1, fun _ => h.2⟩) fun _ h => h
    · exact .ret ⟨.refl p s, fun h => absurd h ‹_›⟩

omit [DecidableEq Addr] in
theorem wbctlDropLocks_ends (es : List (WEntry Addr Lock w)) (n : ℕ)
    (s : State Tid Addr Lock w) :
    (wbctlDropLocks p es n).Ends (fun _ t => Untouched p s t) J s := by
  induction es generalizing n s with
  | nil =>
    cases n with
    | zero => exact .ret (.refl p s)
    | succ n => exact .atomic (.of_eq rfl rfl rfl)
  | cons e es ih =>
    cases n with
    | zero => exact .ret (.refl p s)
    | succ n =>
      unfold wbctlDropLocks
      split
      · exact ih _ _
      · refine untouched_bind (.atomic ⟨rfl, ⟨(s.txs p).phase, n, ?_⟩, fun _ => .inl rfl⟩) fun _ t =>
          untouched_bind ((storeLock_ends ..).mono (fun _ _ h => h.1) fun _ h => h) fun _ => ih n
        simp [State.setTx]

omit [DecidableEq Tid] [DecidableEq Lock] in
theorem storeWordIf_ends (a : Addr) (x k : BitVec w) :
    (storeWordIf a x k).Ends (fun _ t => Untouched p s t) J s := by
  unfold storeWordIf
  split
  · exact .atomic (.of_eq rfl rfl rfl)
  · exact .ret (.refl p s)

omit [DecidableEq Tid] in
theorem wtUndo_ends (es : List (WEntry Addr Lock w)) (t : ℕ) (s : State Tid Addr Lock w) :
    (wtUndo es t).Ends (fun _ u => Untouched p s u ∧ Dropped es u) J s := by
  induction es generalizing t s with
  | nil => exact .ret ⟨.refl p s, nofun⟩
  | cons e es ih =>
    have next : ∀ l t s, (storeLock e.lock l >>= fun _ => wtUndo es t).Ends
        (fun _ u => Untouched p s u ∧ Dropped (e :: es) u) J s := fun l t s =>
      dropped_bind ((storeLock_ends ..).mono (fun _ _ h => ⟨h.1, fun _ => h.2⟩) fun _ h => h)
        fun _ => ih t
    refine .bind (storeWordIf_ends (p := p) ..) fun _ u hu => ?_
    refine Prog.Ends.mono (Q := fun _ v => Untouched p u v ∧ Dropped (e :: es) v) (J := J) ?_
      (fun _ _ h => ⟨hu.trans h.1, h.2⟩) fun _ h => h
    split
    · refine (ih t u).mono (fun _ _ h => ⟨h.1, fun f hf hn => ?_⟩) fun _ h => h
      rcases List.mem_cons.1 hf with rfl | hf
      · exact absurd hn ‹_›
      · exact h.2 f hf hn
    · split
      · refine .bind (Q := fun _ t => Untouched p u t) ?_ fun t v hv => ?_
        · unfold wtNewTimestamp
          split
          · exact .atomic (.of_eq rfl rfl rfl)
          · exact .ret (.refl p u)
        · exact (next ..).mono (fun _ _ h => ⟨hv.trans h.1, h.2⟩) fun _ h => h
      · exact next ..

/-- The design's rollback function. -/
theorem stmDesignRollback_ends (s : State Tid Addr Lock w) :
    (stmDesignRollback cfg p).Ends (fun _ t => Untouched p s t ∧
      (cfg.designOf (s.txs p).attr ≠ .writeBackCtl → Dropped (s.txs p).wSet.entries t)) J s := by
  set u := s.setTx p fun tx => { tx with phase := .aborting } with hu
  have htx : u.txs p = { s.txs p with phase := .aborting } := by simp [hu, State.setTx]
  have habort : Untouched p s u :=
    ⟨rfl, ⟨.aborting, (s.txs p).wSet.nbAcquired, htx⟩, fun _ => .inl rfl⟩
  have hattr : (u.txs p).attr = (s.txs p).attr := by rw [htx]
  have hes : (u.txs p).wSet.entries = (s.txs p).wSet.entries := by rw [htx]
  rw [← hattr, ← hes]
  refine .access (.access ?_)
  dsimp only
  rw [← hu]
  split
  · refine .access ((wbctlDropLocks_ends ..).mono (fun _ _ h => ⟨habort.trans h, fun hd => ?_⟩)
      fun _ h => h)
    exact absurd ‹_› hd
  · exact .access ((wtUndo_ends ..).mono (fun _ _ h => ⟨habort.trans h.1, fun _ => h.2⟩)
      fun _ h => h)
  · exact .access ((wbetlDropLocks_ends ..).mono (fun _ _ h => ⟨habort.trans h.1, fun _ => h.2⟩)
      fun _ h => h)

end TinyStm
