import TinyStm.Result.Serializable

/-!
# WRITE_THROUGH

Serializability with in-place stores. The memory of a state without owned locks is that of the
serial order, since nobody is between a store and its commit or undo. The two conditions are that of
encounter-time locking and that the old value of a word is saved before the first store to it; runs
that break them stand at the end.
-/

namespace TinyStm

variable {Tid Addr Lock : Type} {w : ℕ} [DecidableEq Tid] [DecidableEq Addr] [DecidableEq Lock]

/-- No store has an empty mask. -/
def MaskedStore (cmd : Cmd Addr w) : Prop := ∀ x ∈ cmd.target, x.2 ≠ 0#w

instance (cmd : Cmd Addr w) : Decidable (MaskedStore cmd) :=
  inferInstanceAs (Decidable (∀ x ∈ cmd.target, _))

/-- A mask that is not empty is not made empty by another one. -/
theorem or_ne_zero (j k : BitVec w) (hj : j ≠ 0#w) (_ : k ≠ 0#w) : j ||| k ≠ 0#w := by
  refine fun h => hj (BitVec.eq_of_getLsbD_eq fun i hi => ?_)
  have := congrArg (·.getLsbD i) h
  simp only [BitVec.getLsbD_or, BitVec.getLsbD_zero, Bool.or_eq_false_iff] at this
  simpa using this.1

/-- WRITE_THROUGH is serializable in every run in which no store of a `no_retry` transaction needs a
new entry while its write set is full, if no mask is empty. -/
theorem wt_serializable {cfg : Config Addr Lock} (hd : cfg.design = .writeThrough)
    (hr : cfg.NoRequests) {m₀ : Mem Addr w} {size : ℕ} {T : Pool (State Tid Addr Lock w) Tid}
    (h : Run cfg m₀ size (fun p cmd s => (PlainCall p cmd s ∧ MaskedStore cmd) ∧
      RoomyStore cfg p cmd s) T) : Serializable m₀ T.st :=
  Run.serializable (S := plainSetting cfg .writeThrough hd (by decide) hr m₀ (· ≠ 0#w) or_ne_zero)
    trivial (fun _ => trivial) (fun p cmd s hv hB ⟨⟨hk, hmask⟩, hroom⟩ =>
      admits_of_plain p cmd s hv hB hk hmask (fun _ => hroom) fun _ h0 => h0 rfl) h

/-- Two increments of a word, the second one after an abort, and a masked store next to it. -/
def wtCalls : List (Fin 2 × Cmd (Fin 2) 8) :=
  [(0, .start .readWrite), (0, .load 0), (1, .start .readWrite), (1, .load 0), (0, .store 0 1),
    (0, .store2 1 0xab 0xf0), (1, .store 0 1), (0, .commit), (1, .load 0), (1, .store 0 2),
    (1, .commit)]

set_option maxRecDepth 10000 in
/-- The run of two transactions of which the second one aborts at first is serializable. -/
theorem wt_serializable_calls :
    Serializable (fun _ => 0#8) (after (.plain .writeThrough fun _ => (0 : Fin 1)) 4 30 wtCalls).st :=
  wt_serializable (by rfl) (fun _ _ => rfl)
    (run_after (by decide))

/-- A transaction that is not retried goes on after its write set has overflowed: it stores to word 0,
whose lock it acquires with an entry of the aborted attempt. -/
def wtOverflow : List (Fin 1 × Cmd (Fin 5) 8) :=
  [(0, .start .once), (0, .store 2 5), (0, .store 0 7),
    (0, .start .readWrite), (0, .store 3 1), (0, .store 4 1), (0, .load 0), (0, .commit)]

set_option maxRecDepth 10000 in
/-- One thread is enough to make a run that is not serializable: the second transaction finds the
value that the first one stored after its abort. -/
theorem wt_not_serializable : ∃ T : Pool (State (Fin 1) (Fin 5) (Fin 5) 8) (Fin 1),
    Run (.plain .writeThrough id) (fun _ => 0#8) 1
      (fun p cmd s => PlainCall p cmd s ∧ MaskedStore cmd) T ∧
      ¬ Serializable (fun _ => 0#8) T.st := by
  refine ⟨after (.plain .writeThrough id) 1 30 wtOverflow, run_after (by decide),
    fun h => ?_⟩
  have hl := h.replayable (l := (after (.plain .writeThrough id) 1 30 wtOverflow).st.commits)
    (.refl _) (by decide)
  exact absurd hl (by decide)

end TinyStm
