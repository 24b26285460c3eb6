import TinyStm.Result.Serializable

/-!
# Aborts without retry

With encounter-time locking an operation that aborts a transaction leaves nothing behind when it
returns: no lock, no value in memory, and no version that is older than one seen before. The state
after such a call is that of a thread between two transactions, and it is compared with the one at
the start: no lock of the thread, committed words in every stripe it held, and last versions that
are not smaller. The failing run writes after its rollback.
-/

namespace TinyStm

variable {Tid Addr Lock : Type} {w : ℕ} [DecidableEq Tid] [DecidableEq Addr] [DecidableEq Lock]

/-- The committed memory. -/
def State.committed (m₀ : Mem Addr w) (s : State Tid Addr Lock w) : Mem Addr w :=
  History.memAt m₀ s.commits s.clock

/-- No store is under way in the stripe: it is free, or (in write-back) its owner has not begun to
install. -/
def State.Settled (d : Design) (s : State Tid Addr Lock w) (ℓ : Lock) : Prop :=
  match s.locks ℓ with
  | .free _ => True
  | .owned q _ => d = .writeBackEtl ∧ ∀ t, (s.txs q).phase ≠ .installing t

/-- Nothing is left of the attempts of `p` in the state `t`, which comes after `s`: no lock is owned
by `p`, the data words hold their committed values unless another thread is storing to them, and
each lock has a version, in it or under its new owner, that is not smaller than it was. -/
structure CleanSince (cfg : Config Addr Lock) (m₀ : Mem Addr w) (p : Tid)
    (s t : State Tid Addr Lock w) : Prop where
  locks : ∀ ℓ i, t.locks ℓ ≠ .owned p i
  mem : ∀ a, t.Settled cfg.design (cfg.getLock a) → t.mem a = t.committed m₀ a
  version : ∀ ℓ, s.view.lastTs ℓ ≤ t.view.lastTs ℓ

/-- What is assumed of runs of transactions with any attributes in a build with the design `d`. -/
def anySetting (cfg : Config Addr Lock) (hd : cfg.design ≠ .modular) (m₀ : Mem Addr w) :
    Setting Tid Addr Lock w where
  cfg := cfg
  attrs _ := True
  mem₀ := m₀
  tokens := cfg.irrevocableEnabled = true
  enabled_of_tokens := id
  tokens_of_requests := enabled_of_requests cfg
  strict := False
  hint := False
  mask _ := True
  mask_or := any_mask_or
  obs _ := True
  plain := .of_one fun attr _ => designOf_static hd attr

/-- The calls that leave nothing behind. -/
def TidyCall (cfg : Config Addr Lock) (p : Tid) (cmd : Cmd Addr w) (s : State Tid Addr Lock w) :
    Prop :=
  RoomyStore cfg p cmd s ∧ (cfg.design = .writeThrough → SavedStore cfg p cmd s)

instance (cfg : Config Addr Lock) (p : Tid) (cmd : Cmd Addr w) (s : State Tid Addr Lock w) :
    Decidable (TidyCall cfg p cmd s) :=
  inferInstanceAs (Decidable (_ ∧ _))

omit [DecidableEq Tid] in
/-- The calls of such transactions are admitted. -/
theorem admits_of_any {cfg : Config Addr Lock} {hd : cfg.design ≠ .modular} {m₀ : Mem Addr w}
    (p : Tid) (cmd : Cmd Addr w) (s : State Tid Addr Lock w)
    (hB : boundary (anySetting cfg hd m₀) p s) (h : AnyCall cfg cfg.design p cmd s)
    (ht : cfg.design ≠ .writeBackCtl → TidyCall cfg p cmd s) :
    Admits (anySetting cfg hd m₀) p cmd s := by
  obtain ⟨hcall, -, he⟩ := h
  have hdesign := designOf_static hd
  have hstore : ∀ x ∈ cmd.target,
      MayStore (anySetting cfg hd m₀ : Setting Tid Addr Lock w) (s.txs p) x.1 x.2 :=
    fun x hx => ⟨False.elim, trivial, fun hc => (ht fun h => hc ((hdesign _).trans h)).1 x hx,
      fun hc => (ht fun hc' => nomatch hc.symm.trans ((hdesign _).trans hc')).2
        ((hdesign _).symm.trans hc) x hx⟩
  cases cmd with
  | start attr => exact ⟨trivial, hcall⟩
  | load a =>
    refine ⟨hcall, nofun, fun _ hb hi => (hb ⟨False.elim, .inr ?_⟩).elim⟩
    exact (active_of_boundary hB hcall).irr.resolve_left hi
  | store a x => exact ⟨hcall, hstore _ rfl⟩
  | store2 a x k => exact ⟨hcall, hstore _ rfl⟩
  | commit => exact ⟨hcall, fun _ => False.elim⟩
  | abort reason => exact hcall
  | setIrrevocable => exact ⟨he rfl, False.elim⟩

omit [DecidableEq Tid] [DecidableEq Lock] in
/-- An idle thread owns no lock. -/
theorem noLocks_of_boundary {S : Setting Tid Addr Lock w} {p : Tid} {s : State Tid Addr Lock w}
    (h : boundary S p s) (hs : (s.txs p).status.isActive = false) (ℓ : Lock) (i : ℕ) :
    s.locks ℓ ≠ .owned p i := by
  rcases h with ⟨tx, -, -, hno⟩ | ⟨tx, hact, htx, -⟩
  · exact fun hl => hno ℓ ⟨i, hl⟩
  · rw [htx, hact.active] at hs
    cases hs

/-- With encounter-time locking, a call that leaves its transaction inactive has cleaned up after
it, in every run in which no store of a `no_retry` transaction needs a new entry while its write set
is full and every store in write-through saves the old value. -/
theorem noRetry_clean {cfg : Config Addr Lock}
    (hd : cfg.design = .writeBackEtl ∨ cfg.design = .writeThrough) {m₀ : Mem Addr w} {size : ℕ}
    {T U : Pool (State Tid Addr Lock w) Tid}
    (hT : Run cfg m₀ size (fun p cmd s => AnyCall cfg cfg.design p cmd s ∧ TidyCall cfg p cmd s) T)
    (hU : Pool.Reaches (exec cfg) (fun p cmd s => AnyCall cfg cfg.design p cmd s ∧
      TidyCall cfg p cmd s) T U) (p : Tid) (hp : (U.ctl p).Done)
    (ha : (U.st.txs p).status.isActive = false) : CleanSince cfg m₀ p T.st U.st := by
  have hctl : cfg.design ≠ .writeBackCtl := by
    rcases hd with h | h <;> simp [h]
  have hm : cfg.design ≠ .modular := by
    rcases hd with h | h <;> simp [h]
  have hsound := Run.sound (S := anySetting cfg hm m₀)
    (fun q cmd s _ hB ⟨hk, ht⟩ => admits_of_any q cmd s hB hk fun _ => ht) (hT.trans hU)
    fun _ _ _ => trivial
  have hB := (hsound.2 p).of_done ⟨hsound.1, trivial⟩ hp
  refine ⟨noLocks_of_boundary hB ha, fun a hset => hsound.1.mem a ?_, ?_⟩
  · unfold State.Settled at hset
    unfold View.Quiet
    change match U.st.locks (cfg.getLock a) with | .free _ => True | .owned q _ => _
    split
    · trivial
    · next q i hl =>
      rw [hl] at hset
      refine ⟨?_, hset.2⟩
      have hd : cfg.designOf (U.st.view.attr q) = .writeBackEtl := (designOf_static hm _).trans hset.1
      exact (congrArg (· ≠ Design.writeThrough) hd).mpr (by decide)
  · exact Run.sound_rel (S := anySetting cfg hm m₀)
      (R := fun s t => ∀ ℓ, s.view.lastTs ℓ ≤ t.view.lastTs ℓ)
      (fun q cmd s _ hB ⟨hk, ht⟩ => admits_of_any q cmd s hB hk fun _ => ht) (fun _ _ => le_rfl)
      (fun _ _ _ h h' ℓ => (h ℓ).trans (h' ℓ)) (fun _ _ _ _ _ hg => hg.2.lastTs) hT hU
      fun _ => trivial

/-- A transaction that is not retried meets a lock of another one. -/
def conflict : List (Fin 2 × Cmd (Fin 2) 8) :=
  [(1, .start .readWrite), (1, .store 0 1), (0, .start .once), (0, .store 1 5), (0, .store 0 7)]

set_option maxRecDepth 10000 in
theorem noRetry_clean_conflict : CleanSince (.plain .writeThrough id) (fun _ => 0#8) 0
    (State.init (fun _ => 0#8) 4) (after (.plain .writeThrough id) 4 30 conflict).st :=
  have h : Run (.plain .writeThrough id) (fun _ => 0#8) 4 (fun p cmd s =>
      AnyCall (.plain .writeThrough id) .writeThrough p cmd s ∧
        TidyCall (.plain .writeThrough id) p cmd s)
      (after (.plain .writeThrough id) 4 30 conflict) := run_after (by decide)
  noRetry_clean (.inr rfl) .refl h 0 (by decide) (by decide)

/-- The second store of a transaction that is not retried needs an entry in a full write set. -/
def fullStore : List (Fin 1 × Cmd (Fin 2) 8) :=
  [(0, .start .once), (0, .store 1 5), (0, .store 0 7)]

set_option maxRecDepth 10000 in
/-- The store returns with the lock of its word, although the transaction has aborted. -/
theorem noRetry_not_clean : ∃ T : Pool (State (Fin 1) (Fin 2) (Fin 2) 8) (Fin 1),
    Run (.plain .writeThrough id) (fun _ => 0#8) 1 (AnyCall (.plain .writeThrough id) .writeThrough)
      T ∧ (T.ctl 0).Done ∧ (T.st.txs 0).status = .aborted ∧
      ¬ CleanSince (.plain .writeThrough id) (fun _ => 0#8) 0 (State.init (fun _ => 0#8) 1) T.st := by
  refine ⟨after (.plain .writeThrough id) 1 30 fullStore, run_after (by decide),
    by decide, by decide, fun h => h.locks 0 1 (by decide)⟩

end TinyStm
