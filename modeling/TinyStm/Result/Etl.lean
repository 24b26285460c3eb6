import TinyStm.Result.Serializable

/-!
# WRITE_BACK_ETL

Serializability with encounter-time locking and write-back. The result has one condition, on stores:
no transaction with `no_retry` needs a new entry while its write set is full. The rollback of such a
store returns to `stm_wbetl_write`, which goes on without an attempt; the run that shows it stands
at the end.
-/

namespace TinyStm

variable {Tid Addr Lock : Type} {w : ℕ} [DecidableEq Tid] [DecidableEq Addr] [DecidableEq Lock]

/-- WRITE_BACK_ETL is serializable in every run in which no store of a `no_retry` transaction needs a
new entry while its write set is full. -/
theorem wbetl_serializable {cfg : Config Addr Lock} (hd : cfg.design = .writeBackEtl)
    (hr : cfg.NoRequests) {m₀ : Mem Addr w} {size : ℕ} {T : Pool (State Tid Addr Lock w) Tid}
    (h : Run cfg m₀ size (fun p cmd s => PlainCall p cmd s ∧ RoomyStore cfg p cmd s) T) :
    Serializable m₀ T.st :=
  Run.serializable (S := plainSetting cfg .writeBackEtl hd (by decide) hr m₀ (fun _ => True) (by simp))
    trivial (fun _ => trivial) (fun p cmd s hv hB ⟨hk, hroom⟩ =>
      admits_of_plain p cmd s hv hB hk (fun _ _ => trivial) (fun _ => hroom) nofun) h

/-- Two transactions that increment a word, one after the other. -/
def increments : List (Fin 2 × Cmd (Fin 2) 8) :=
  [(0, .start .readWrite), (0, .load 0), (1, .start .readWrite), (1, .load 0), (0, .store 0 1),
    (0, .commit), (1, .store 0 1), (1, .load 0), (1, .store 0 2), (1, .commit)]

set_option maxRecDepth 10000 in
/-- The run of two transactions of which the second one aborts at first is serializable. -/
theorem wbetl_serializable_increments :
    Serializable (fun _ => 0#8) (after (.plain .writeBackEtl id) 4 30 increments).st :=
  wbetl_serializable (by rfl) (fun _ _ => rfl) (run_after (by decide))

/-- A transaction that is not retried goes on after its write set has overflowed: it acquires the lock
of word 0 with an entry of the aborted attempt, thread 0 finds it later in another attempt and
releases it with an old version. -/
def overflow : List (Fin 3 × Cmd (Fin 5) 8) :=
  [(2, .start .readWrite), (2, .load 1),
    (1, .start .readWrite), (1, .store 0 1), (1, .store 1 1), (1, .store 0 1), (1, .store 1 1),
    (1, .commit),
    (0, .start .once), (0, .store 2 5), (0, .store 0 7),
    (0, .start .readWrite), (0, .store 3 1), (0, .store 4 1), (0, .store 0 3), (0, .store 3 1),
    (0, .store 4 1), (0, .store 0 3), (0, .abort 0),
    (2, .load 0), (2, .commit)]

set_option maxRecDepth 10000 in
/-- A write set of one entry is enough to make a run that is not serializable. -/
theorem wbetl_not_serializable : ∃ T : Pool (State (Fin 3) (Fin 5) (Fin 5) 8) (Fin 3),
    Run (.plain .writeBackEtl id) (fun _ => 0#8) 1 PlainCall T ∧
      ¬ Serializable (fun _ => 0#8) T.st := by
  refine ⟨after (.plain .writeBackEtl id) 1 30 overflow, run_after (by decide), fun h => ?_⟩
  have hl := h.replayable (l := (after (.plain .writeBackEtl id) 1 30 overflow).st.commits)
    (.refl _) (by decide)
  exact absurd hl (by decide)

end TinyStm
