import TinyStm.Proof.Levels
import TinyStm.Result.NoRetry

/-!
# Undo

With in-place stores the memory is, between two calls of a thread, the one that the stores of its
attempt make of the committed memory. A rollback leaves the thread with no attempt or with one that
has stored nothing, so it restores every word. The stores of other threads are held off by the
locks, so what an attempt makes of the committed words is a function of its trace. Where an old
value is not saved the rollback leaves the store in place, which is the run at the end.
-/

namespace TinyStm

section
variable {Tid Addr Lock : Type} {w : ℕ}

/-- The events of the attempt that is under way, if there is one. -/
def StmTx.attempt (tx : StmTx Addr Lock w) : Trace Addr w :=
  if tx.status.isActive then tx.trace else []

end

variable {Tid Addr Lock : Type} {w : ℕ} [DecidableEq Tid] [DecidableEq Addr] [DecidableEq Lock]
  {cfg : Config Addr Lock} {p : Tid}

/-- Whatever the other threads do, a rollback leaves no event in the attempt of its thread. -/
theorem stmAbort_attempt (reason : ℕ) {s t : State Tid Addr Lock w} {c : M Tid Addr Lock w Unit}
    (hc : c.Done) (h : Prog.Steps (Others p) (fun _ => True) (stmAbort cfg p reason) s c t) :
    (t.txs p).attempt = [] := by
  have htriple : Triple (bounded p (max 1 (s.txs p).nesting)) true (Has fun _ => True)
      (stmAbort cfg p reason : M Tid Addr Lock w Unit) _ _ :=
    stmRollback_levels (le_max_left ..) (.explicit reason)
  have hin : AtMost (max 1 (s.txs p).nesting) (s.own p) := le_max_right ..
  cases c with
  | ret x =>
    have ht := htriple.steps_ret (fun _ _ => Others.rely) h hin trivial
    have hst : (t.txs p).status = .aborted := ht.2
    simp [StmTx.attempt, hst, Status.isActive]
  | jump =>
    have ht := htriple.steps_jump (fun _ _ => Others.rely) h hin trivial
    have htr : (t.txs p).trace = [] := Fresh.trace ht
    simp [StmTx.attempt, htr]
  | act => exact hc.elim
  | loop => exact hc.elim

omit [DecidableEq Tid] [DecidableEq Lock] in
/-- The memory is what the attempt makes of the committed memory, in a state in which no other thread owns
a lock. -/
theorem mem_of_boundary {S : Setting Tid Addr Lock w}
    (hS : ∀ attr, S.cfg.designOf attr = .writeThrough) {s : State Tid Addr Lock w} (hinv : s.view.Inv S)
    (hB : boundary S p s) (hothers : ∀ ℓ q, (s.locks ℓ).owner = some q → q = p) (a : Addr) :
    s.mem a = (s.txs p).attempt.apply (s.view.cur S) a := by
  rcases hB with ⟨tx, hidle, htx, hno⟩ | ⟨tx, hact, htx, -, hws⟩
  · have hnil : (s.txs p).attempt = [] := by
      rw [htx]
      simp [StmTx.attempt, hidle.inactive]
    rw [hnil]
    cases hl : s.locks (S.cfg.getLock a) with
    | free l => exact hinv.mem_of_free hl
    | owned q i =>
      obtain rfl := hothers (S.cfg.getLock a) q (by rw [hl]; rfl)
      exact (hno _ ⟨i, hl⟩).elim
  · have hws : s.view.Ws S p tx := hws
    have htrace : (s.txs p).attempt = tx.trace := by
      rw [htx]
      simp [StmTx.attempt, hact.active]
    rw [htrace]
    cases hl : s.locks (S.cfg.getLock a) with
    | free l =>
      have hnot : a ∉ tx.trace.writes := fun ha =>
        View.not_holds_of_free hl (hws.holds_of_mem_writes (by simp [hS]) ha)
      rw [Trace.apply_of_not_mem_writes hnot]
      exact hinv.mem_of_free hl
    | owned q i =>
      obtain rfl := hothers (S.cfg.getLock a) q (by rw [hl]; rfl)
      rw [View.Ws, hS] at hws
      exact hws.mem a ⟨i, hl⟩

/-- In every run of WRITE_THROUGH in which every store saves the old value and no store of a `no_retry`
transaction needs a new entry while its write set is full: as long as nothing is committed, the memory is
the one from which the transaction started but for the stores of its attempt, and a rollback leaves it an
attempt without stores. -/
theorem wt_undone (hd : cfg.design = .writeThrough) {m₀ : Mem Addr w} {size : ℕ}
    {T U : Pool (State Tid Addr Lock w) Tid}
    (hT : Run cfg m₀ size (fun q cmd s => AnyCall cfg .writeThrough q cmd s ∧ TidyCall cfg q cmd s) T)
    (hfree : ∀ ℓ, (T.st.locks ℓ).owner = none)
    (hU : Pool.Reaches (exec cfg) (fun q cmd s => AnyCall cfg .writeThrough q cmd s ∧
      TidyCall cfg q cmd s) T U) (hp : (U.ctl p).Done) (hcommits : U.st.commits = T.st.commits)
    (hothers : ∀ ℓ q, (U.st.locks ℓ).owner = some q → q = p) :
    U.st.mem = (U.st.txs p).attempt.apply T.st.mem ∧
      ∀ reason (s t : State Tid Addr Lock w) c, c.Done →
        Prog.Steps (Others p) (fun _ => True) (stmAbort cfg p reason) s c t →
        (t.txs p).attempt = [] := by
  refine ⟨funext fun a => ?_, fun reason s t c hc h => stmAbort_attempt reason hc h⟩
  have hm : cfg.design ≠ .modular := by simp [hd]
  have hadm : ∀ (q : Tid) (cmd : Cmd Addr w) (s : State Tid Addr Lock w),
      s.view.Inv (anySetting cfg hm m₀ : Setting Tid Addr Lock w) →
      boundary (anySetting cfg hm m₀) q s → AnyCall cfg .writeThrough q cmd s ∧ TidyCall cfg q cmd s →
      Admits (anySetting cfg hm m₀) q cmd s := fun q cmd s _ hB ⟨hk, ht⟩ =>
    admits_of_any q cmd s hB (by rwa [hd]) fun _ => ht
  have hsT := Run.sound (S := anySetting cfg hm m₀) hadm hT fun _ _ _ => trivial
  have hsU := Run.sound (S := anySetting cfg hm m₀) hadm (hT.trans hU) fun _ _ _ => trivial
  have hclock : T.st.view.clock ≤ U.st.view.clock :=
    Run.sound_rel (S := anySetting cfg hm m₀) (R := fun s t => s.view.clock ≤ t.view.clock) hadm
      (fun _ => le_rfl) (fun _ _ _ h h' => h.trans h') (fun _ _ _ _ _ hg => hg.2.clock) hT hU
      fun _ => trivial
  have hcur : U.st.committed m₀ = T.st.committed m₀ :=
    hsT.1.cur_of_clock_le hcommits hclock
  have hmem : T.st.mem a = T.st.committed m₀ a := by
    cases hl : T.st.locks (cfg.getLock a) with
    | free l => exact hsT.1.mem_of_free hl
    | owned q i =>
      have := hfree (cfg.getLock a)
      rw [hl] at this
      cases this
  have hB := (hsU.2 p).of_done ⟨hsU.1, trivial⟩ hp
  have hbetween : U.st.mem a = (U.st.txs p).attempt.apply (U.st.committed m₀) a :=
    mem_of_boundary (fun attr => (designOf_static hm attr).trans hd) hsU.1 hB hothers a
  rw [hbetween, hcur]
  exact Trace.apply_congr hmem.symm

/-- Two words of a stripe are stored, one of them in part, and the transaction aborts. -/
def undoneCalls : List (Fin 1 × Cmd (Fin 2) 8) :=
  [(0, .start .readWrite), (0, .store2 0 0xab 0xf0), (0, .store 1 7), (0, .store 1 8), (0, .abort 0)]

set_option maxRecDepth 10000 in
theorem wt_undone_calls :
    (after (.plain .writeThrough fun _ => (0 : Fin 1)) 4 30 undoneCalls).st.mem =
      ((after (.plain .writeThrough fun _ => (0 : Fin 1)) 4 30 undoneCalls).st.txs 0).attempt.apply
        fun _ => 0#8 :=
  have h : Run (.plain .writeThrough fun _ => (0 : Fin 1)) (fun _ => 0#8) 4 (fun q cmd s =>
      AnyCall (.plain .writeThrough fun _ => (0 : Fin 1)) .writeThrough q cmd s ∧
        TidyCall (.plain .writeThrough fun _ => (0 : Fin 1)) q cmd s)
      (after (.plain .writeThrough fun _ => (0 : Fin 1)) 4 30 undoneCalls) := run_after (by decide)
  (wt_undone (p := 0) rfl .refl (fun _ => rfl) h (by decide) (by decide)
    fun _ _ _ => Subsingleton.elim _ _).1

/-- The first store to a stripe has an empty mask, and another word of the stripe is stored twice. -/
def lateSave : List (Fin 1 × Cmd (Fin 2) 8) :=
  [(0, .start .readWrite), (0, .store2 0 5 0), (0, .store 1 7), (0, .store 1 8), (0, .abort 0)]

set_option maxRecDepth 10000 in
/-- The rollback stores to the word that has not been stored to. -/
theorem wt_not_undone : ∃ T : Pool (State (Fin 1) (Fin 2) (Fin 1) 8) (Fin 1),
    Run (.plain .writeThrough fun _ => 0) (fun _ => 0#8) 4
      (AnyCall (.plain .writeThrough fun _ => 0) .writeThrough) T ∧
      (T.ctl 0).Done ∧ T.st.commits = [] ∧ (T.st.txs 0).attempt = [] ∧ T.st.mem 0 ≠ 0#8 :=
  ⟨after (.plain .writeThrough fun _ => 0) 4 30 lateSave, run_after (by decide), by decide⟩

end TinyStm
