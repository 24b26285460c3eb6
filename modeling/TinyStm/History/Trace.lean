import TinyStm.Conc.Small
import Mathlib.Data.BitVec
import Mathlib.Data.List.Basic
import Mathlib.Logic.Function.Basic
import Mathlib.Tactic.Common

/-!
# Traces of memory operations

The loads and masked stores that a transaction has performed, with the values the loads returned.
A trace is a list with the newest event first. `Trace.apply` executes the stores of a trace on a
memory, `Trace.Consistent` says that executing the trace alone from a memory returns the values the
loads returned. A trace depends on a memory only at the words it read before it had stored all
their bits (`Trace.reads`), and changes it only at the words it stored to (`Trace.writes`).
-/

/-- The bits of `v` selected by the mask `k`, over the other bits of `old`. -/
def BitVec.merge {w : ℕ} (old v k : BitVec w) : BitVec w :=
  (old &&& ~~~k) ||| (v &&& k)

namespace BitVec

variable {w : ℕ}

/-- The bits of a word that is stored under a mask. -/
theorem getLsbD_merge (old v k : BitVec w) (i : ℕ) :
    (merge old v k).getLsbD i = if k.getLsbD i then v.getLsbD i else old.getLsbD i := by
  by_cases hi : i < w
  · simp only [merge, getLsbD_or, getLsbD_and, getLsbD_not, decide_eq_true hi, Bool.true_and]
    cases k.getLsbD i <;> simp
  · simp [BitVec.getLsbD_of_ge _ _ (Nat.le_of_not_lt hi)]

/-- A word that is stored whole. -/
@[simp] theorem merge_allOnes (old v : BitVec w) : merge old v (allOnes w) = v := by
  simp [merge]

/-- A store under an empty mask. -/
@[simp] theorem merge_zero (old v : BitVec w) : merge old v 0#w = old := by
  ext i hi
  simp [merge]

/-- Two masked stores are one store of the union of the masks. -/
theorem merge_merge (old v v' k k' : BitVec w) :
    merge (merge old v k) v' k' = merge old (merge v v' k') (k' ||| k) := by
  apply eq_of_getLsbD_eq
  intro i hi
  simp only [getLsbD_merge, getLsbD_or]
  cases k.getLsbD i <;> cases k'.getLsbD i <;> rfl

end BitVec

/-- A memory: a word for every address. -/
abbrev Mem (α : Type) (w : ℕ) := α → BitVec w

/-- A load with the value it returned, or a store of the bits `k` of `v`. -/
inductive Event (α : Type) (w : ℕ)
  | load (a : α) (x : BitVec w)
  | store (a : α) (v k : BitVec w)
  deriving DecidableEq

/-- The events of a transaction, the newest first. -/
abbrev Trace (α : Type) (w : ℕ) := List (Event α w)

namespace Trace

variable {α : Type} {w : ℕ} [DecidableEq α]

/-- The memory after the trace's stores. -/
def apply : Trace α w → Mem α w → Mem α w
  | [], m => m
  | .load _ _ :: tr, m => apply tr m
  | .store a v k :: tr, m => Function.update (apply tr m) a (BitVec.merge (apply tr m a) v k)

/-- Executed alone from `m`, the trace's loads return the values they returned. -/
def Consistent : Trace α w → Mem α w → Prop
  | [], _ => True
  | .load a x :: tr, m => apply tr m a = x ∧ Consistent tr m
  | .store _ _ _ :: tr, m => Consistent tr m

instance Consistent.decidable : (tr : Trace α w) → (m : Mem α w) → Decidable (Consistent tr m)
  | [], _ => .isTrue trivial
  | .load a x :: tr, m =>
    have := Consistent.decidable tr m
    inferInstanceAs (Decidable (apply tr m a = x ∧ Consistent tr m))
  | .store _ _ _ :: tr, m => Consistent.decidable tr m

/-- The bits of the word at `a` that the trace has stored. -/
def cover : Trace α w → α → BitVec w
  | [], _ => 0#w
  | .load _ _ :: tr, a => cover tr a
  | .store b _ k :: tr, a => if b = a then k ||| cover tr a else cover tr a

/-- The addresses stored to. -/
def writes : Trace α w → List α
  | [] => []
  | .load _ _ :: tr => writes tr
  | .store a _ _ :: tr => a :: writes tr

/-- The addresses loaded before all their bits were stored. -/
def reads : Trace α w → List α
  | [] => []
  | .load a _ :: tr => if cover tr a = BitVec.allOnes w then reads tr else a :: reads tr
  | .store _ _ _ :: tr => reads tr

/-- The addresses whose words the trace depends on or changes. -/
def footprint (tr : Trace α w) : List α := reads tr ++ writes tr

variable {tr : Trace α w} {m m' : Mem α w} {a : α}

/-- A transaction that has done nothing. -/
@[simp] theorem apply_nil : apply ([] : Trace α w) m = m := rfl

/-- A load changes nothing. -/
@[simp] theorem apply_load (x : BitVec w) : apply (.load a x :: tr) m = apply tr m := rfl

/-- A store changes the bits of its mask. -/
@[simp] theorem apply_store (v k : BitVec w) : apply (.store a v k :: tr) m =
    Function.update (apply tr m) a (BitVec.merge (apply tr m a) v k) := rfl

/-- A transaction that has done nothing is consistent. -/
@[simp] theorem consistent_nil : Consistent ([] : Trace α w) m := trivial

/-- A load returns the word that the accesses before it leave. -/
@[simp] theorem consistent_load (x : BitVec w) :
    Consistent (.load a x :: tr) m ↔ apply tr m a = x ∧ Consistent tr m := Iff.rfl

/-- A store is consistent with every memory. -/
@[simp] theorem consistent_store (v k : BitVec w) :
    Consistent (.store a v k :: tr) m ↔ Consistent tr m := Iff.rfl

omit [DecidableEq α] in
/-- The footprint has what is loaded and what is stored. -/
@[simp] theorem mem_footprint [DecidableEq α] : a ∈ footprint tr ↔ a ∈ reads tr ∨ a ∈ writes tr :=
  List.mem_append

/-- What the trace leaves in a word depends only on what the word was. -/
theorem apply_congr (h : m a = m' a) : apply tr m a = apply tr m' a := by
  induction tr with
  | nil => exact h
  | cons e tr ih =>
    cases e with
    | load b x => exact ih
    | store b v k =>
      by_cases hb : a = b
      · subst hb
        simp [ih]
      · simp [Function.update_of_ne hb, ih]

/-- A word is the old word under the bits that the trace stored. -/
theorem apply_eq_merge (tr : Trace α w) (m m' : Mem α w) (a : α) :
    apply tr m a = BitVec.merge (m a) (apply tr m' a) (cover tr a) := by
  induction tr with
  | nil => simp [cover]
  | cons e tr ih =>
    cases e with
    | load b x => exact ih
    | store b v k =>
      by_cases hb : a = b
      · subst hb
        simp only [apply_store, Function.update_self, cover, if_pos]
        rw [ih, BitVec.merge_merge]
      · simp only [apply_store, Function.update_of_ne hb, cover, if_neg (Ne.symm hb)]
        exact ih

/-- A word that is not covered is as it was. -/
theorem apply_of_cover_zero (h : cover tr a = 0#w) : apply tr m a = m a := by
  rw [apply_eq_merge tr m m, h, BitVec.merge_zero]

/-- A word that is covered whole does not depend on the memory. -/
theorem apply_of_cover_allOnes (h : cover tr a = BitVec.allOnes w) :
    apply tr m a = apply tr m' a := by
  rw [apply_eq_merge tr m m', h, BitVec.merge_allOnes]

/-- What is not stored to is not covered. -/
theorem cover_of_not_mem_writes (h : a ∉ writes tr) : cover tr a = 0#w := by
  induction tr with
  | nil => rfl
  | cons e tr ih =>
    cases e with
    | load b x => exact ih h
    | store b v k =>
      simp only [writes, List.mem_cons, not_or] at h
      simp [cover, if_neg (Ne.symm h.1), ih h.2]

/-- A store under an empty mask changes nothing. -/
theorem apply_store_zero (tr : Trace α w) (a : α) (v : BitVec w) (m : Mem α w) :
    apply (.store a v 0#w :: tr) m = apply tr m := by
  rw [apply_store, BitVec.merge_zero, Function.update_eq_self]

/-- A store under an empty mask covers nothing. -/
theorem cover_store_zero (tr : Trace α w) (a b : α) (v : BitVec w) :
    cover (.store a v 0#w :: tr) b = cover tr b := by
  by_cases hab : a = b <;> simp [cover, hab]

/-- What a store does to its own word. -/
theorem apply_store_self (tr : Trace α w) (a : α) (v k : BitVec w) (m : Mem α w) :
    apply (.store a v k :: tr) m a = BitVec.merge (apply tr m a) v k := by
  simp

/-- What a store does to another word. -/
theorem apply_store_of_ne {b : α} (h : b ≠ a) (tr : Trace α w) (v k : BitVec w) (m : Mem α w) :
    apply (.store a v k :: tr) m b = apply tr m b := by
  simp [h]

/-- A store covers the bits of its mask. -/
theorem cover_store_self (tr : Trace α w) (a : α) (v k : BitVec w) :
    cover (.store a v k :: tr) a = k ||| cover tr a := by
  simp [cover]

/-- A store covers no other word. -/
theorem cover_store_of_ne {b : α} (h : b ≠ a) (tr : Trace α w) (v k : BitVec w) :
    cover (.store a v k :: tr) b = cover tr b := by
  simp [cover, h.symm]

/-- A trace changes only the words it stores to. -/
theorem apply_of_not_mem_writes (h : a ∉ writes tr) : apply tr m a = m a :=
  apply_of_cover_zero (cover_of_not_mem_writes h)

/-- The loads of a trace depend only on the words it read. -/
theorem Consistent.congr (h : Consistent tr m) (hm : ∀ a ∈ reads tr, m a = m' a) :
    Consistent tr m' := by
  induction tr with
  | nil => trivial
  | cons e tr ih =>
    cases e with
    | load b x =>
      obtain ⟨hx, h⟩ := h
      by_cases hc : cover tr b = BitVec.allOnes w
      · simp only [reads, if_pos hc] at hm
        exact ⟨(apply_of_cover_allOnes hc).trans hx, ih h hm⟩
      · simp only [reads, if_neg hc, List.forall_mem_cons] at hm
        exact ⟨(apply_congr hm.1).symm.trans hx, ih h hm.2⟩
    | store b v k => exact ih h hm

end Trace
