import TinyStm.Result.NoRetry

/-!
# What a reader may rely on

A load reads the lock, the word and the lock again. If the lock was free with the same version both
times, no word of its stripe has changed meanwhile: a lock word does not come back once the stripe
has been written, not even after aborts and, in write-through, after the old values have been
written back.
-/

namespace TinyStm

namespace View

variable {Tid Addr Lock : Type} {w : ℕ} [DecidableEq Addr] {S : Setting Tid Addr Lock w}
  {v v' v'' : View Tid Addr Lock w} {p : Tid} {ℓ : Lock} {l : ℕ} {a : Addr}

variable (S) in
/-- What a run may do to a stripe: the committed words do not change without the time at which they
are due, and the stamps never fall. -/
structure Ages (v v' : View Tid Addr Lock w) : Prop where
  lastTs : ∀ ℓ, v.lastTs ℓ ≤ v'.lastTs ℓ
  due : ∀ ℓ, v.due ℓ ≤ v'.due ℓ
  cur : ∀ a, v'.due (S.cfg.getLock a) = v.due (S.cfg.getLock a) → v'.cur S a = v.cur S a
  stamp : ∀ ℓ, v.stamp S ℓ ≤ v'.stamp S ℓ

theorem Ages.refl (v : View Tid Addr Lock w) : v.Ages S v :=
  ⟨fun _ => le_rfl, fun _ => le_rfl, fun _ _ => rfl, fun _ => le_rfl⟩

theorem Ages.trans (h : v.Ages S v') (h' : v'.Ages S v'') : v.Ages S v'' where
  lastTs ℓ := (h.lastTs ℓ).trans (h'.lastTs ℓ)
  due ℓ := (h.due ℓ).trans (h'.due ℓ)
  cur a heq := by
    have h1 := h.due (S.cfg.getLock a)
    have h2 := h'.due (S.cfg.getLock a)
    exact (h'.cur a (by omega)).trans (h.cur a (by omega))
  stamp ℓ := (h.stamp ℓ).trans (h'.stamp ℓ)

/-- One step. -/
theorem Guar.ages (hg : Guar S p v v') : v.Ages S v' where
  lastTs := hg.lastTs
  due := hg.due
  cur a heq := (hg.cur a).resolve_right fun h => h.1.ne' heq
  stamp := hg.stamp

/-- A lock that is free with the same version before and after: nothing has changed in between. -/
theorem Ages.mem_eq (hv : v.Inv S) (hv' : v'.Inv S) (h : v.Ages S v') (h' : v'.Ages S v'')
    (hl : v.locks (S.cfg.getLock a) = .free l)
    (hl'' : v''.locks (S.cfg.getLock a) = .free l) : v'.mem a = v.mem a := by
  have hdue := h.due (S.cfg.getLock a)
  have hdue' := h'.due (S.cfg.getLock a)
  rw [due_of_free hl] at hdue
  rw [due_of_free hl''] at hdue'
  have hcur : v'.cur S a = v.cur S a := h.cur a (by rw [due_of_free hl]; omega)
  suffices v'.Quiet S (S.cfg.getLock a) by
    rw [hv'.mem a this, hv.mem_of_free hl, hcur]
  cases hown : v'.locks (S.cfg.getLock a) with
  | free l' => exact quiet_of_free hown
  | owned q i =>
    refine (quiet_of_owned ⟨i, hown⟩).2 ⟨fun hwt => ?_, fun t ht => ?_⟩
    · -- under a write-through transaction the stamp would be odd
      have hst := h.stamp (S.cfg.getLock a)
      have hst' := h'.stamp (S.cfg.getLock a)
      rw [stamp_of_free hl, stamp_of_owned hown, if_pos hwt] at hst
      rw [stamp_of_free hl'', stamp_of_owned hown, if_pos hwt] at hst'
      omega
    · -- the owner is installing a version that is newer than the one before
      have hlate := hv'.late _ q i t hown (.inr ht)
      have hlast := h.lastTs (S.cfg.getLock a)
      rw [due_of_installing hown ht] at hdue'
      rw [lastTs_of_free hl] at hlast
      omega

end View

variable {Tid Addr Lock : Type} {w : ℕ} [DecidableEq Tid] [DecidableEq Addr] [DecidableEq Lock]

/-- The calls of transactions with any attributes that leave nothing behind when they abort. -/
def CleanCall (cfg : Config Addr Lock) (p : Tid) (cmd : Cmd Addr w) (s : State Tid Addr Lock w) :
    Prop :=
  AnyCall cfg cfg.design p cmd s ∧ (cfg.design ≠ .writeBackCtl → TidyCall cfg p cmd s)

instance (cfg : Config Addr Lock) (p : Tid) (cmd : Cmd Addr w) (s : State Tid Addr Lock w) :
    Decidable (CleanCall cfg p cmd s) :=
  inferInstanceAs (Decidable (_ ∧ _))

/-- If a lock is free with the same word at two moments of a run, then at all moments in between the
words of its stripe are what they were, in all three designs and whatever the threads do. -/
theorem free_lock_stable {cfg : Config Addr Lock} (hm : cfg.design ≠ .modular) {m₀ : Mem Addr w}
    {size : ℕ} {T V U : Pool (State Tid Addr Lock w) Tid} (hT : Run cfg m₀ size (CleanCall cfg) T)
    (hV : Pool.Reaches (exec cfg) (CleanCall cfg) T V)
    (hU : Pool.Reaches (exec cfg) (CleanCall cfg) V U) {a : Addr} {l : ℕ}
    (hl : T.st.locks (cfg.getLock a) = .free l) (hl' : U.st.locks (cfg.getLock a) = .free l) :
    V.st.mem a = T.st.mem a := by
  have hC : ∀ (p : Tid) cmd (s : State Tid Addr Lock w),
      s.view.Inv (anySetting cfg hm m₀ : Setting Tid Addr Lock w) →
      boundary (anySetting cfg hm m₀) p s → CleanCall cfg p cmd s →
        Admits (anySetting cfg hm m₀) p cmd s :=
    fun p cmd s _ hB hk => admits_of_any p cmd s hB hk.1 hk.2
  have hages : ∀ {T V : Pool (State Tid Addr Lock w) Tid}, Run cfg m₀ size (CleanCall cfg) T →
      Pool.Reaches (exec cfg) (CleanCall cfg) T V →
        T.st.view.Ages (anySetting cfg hm m₀) V.st.view := fun hT hV =>
    Run.sound_rel (S := anySetting cfg hm m₀)
      (R := fun s t => s.view.Ages (anySetting cfg hm m₀) t.view) hC (fun s => .refl s.view)
      (fun _ _ _ h h' => h.trans h') (fun _ _ _ _ _ hg => hg.2.ages) hT hV fun _ => trivial
  have hinv := (Run.sound (S := anySetting cfg hm m₀) hC hT fun _ _ _ => trivial).1
  have hinv' := (Run.sound (S := anySetting cfg hm m₀) hC (hT.trans hV) fun _ _ _ => trivial).1
  exact (hages hT hV).mem_eq hinv hinv' (hages (hT.trans hV) hU) hl hl'

/-- A transaction that holds a lock. -/
def lockedCalls : List (Fin 2 × Cmd (Fin 2) 8) := [(0, .start .readWrite), (0, .store 1 5)]

set_option maxRecDepth 10000 in
/-- After the abort the lock has its first word again. -/
theorem free_lock_stable_locked :
    (after (.plain .writeBackEtl id) 4 30 lockedCalls).st.mem 1 = 0#8 :=
  free_lock_stable (by decide) (T := after (.plain .writeBackEtl id) 4 30 [])
    (U := (after (.plain .writeBackEtl id) 4 30 lockedCalls).follow (exec (.plain .writeBackEtl id))
      (Pool.Label.calls 30 [(0, .abort 0)]))
    (l := 0) .refl (run_after (by decide)) (Pool.Follows.reaches (by decide)) (by rfl) (by rfl)

end TinyStm
