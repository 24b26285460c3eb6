import TinyStm.Conc.Small
import Mathlib.Algebra.BigOperators.Group.Finset.Basic
import Mathlib.Data.Finset.Fold

/-!
# Accumulators merged into one

Threads count into accumulators of their own, each of which is merged into a common one when its thread
leaves. `Tally f e total b g live` says that merging those of the threads `live` into the common
accumulator `b` would give `total`; `f` merges two values, and `e` is what an empty accumulator holds.
-/

section
variable {ι α : Type} (f : α → α → α) [Std.Commutative f] [Std.Associative f]

/-- The common accumulator `b` and what the threads `live` still hold make up `total`. -/
structure Tally (e total b : α) (g : ι → α) (live : Finset ι) : Prop where
  neutral : f e b = b
  total_eq : total = live.fold f b g

/-- The common accumulator may be merged with a value first or last. -/
theorem fold_base [DecidableEq ι] (x b : α) (s : Finset ι) (g : ι → α) :
    s.fold f (f x b) g = f x (s.fold f b g) := by
  have hassoc : ∀ a b c, f (f a b) c = f a (f b c) := Std.Associative.assoc
  have hcomm : ∀ a b, f a b = f b a := Std.Commutative.comm
  induction s using Finset.induction_on with
  | empty => rfl
  | insert a s ha ih =>
    rw [Finset.fold_insert ha, Finset.fold_insert ha, ih, ← hassoc, ← hassoc,
      hcomm (g a) x]

variable {f} {e total b x : α} {g g' : ι → α} {live : Finset ι} {p : ι}

/-- One thread's accumulator may be merged first. -/
theorem fold_erase [DecidableEq ι] (h : p ∈ live) :
    live.fold f b g = f (g p) ((live.erase p).fold f b g) := by
  have hins : (insert p (live.erase p)).fold f b g = f (g p) ((live.erase p).fold f b g) :=
    Finset.fold_insert (Finset.notMem_erase p live)
  rwa [Finset.insert_erase h] at hins

/-- What is not counted for `p` does not depend on it. -/
theorem fold_erase_congr [DecidableEq ι] (hg : ∀ q, q ≠ p → g' q = g q) :
    (live.erase p).fold f b g' = (live.erase p).fold f b g :=
  Finset.fold_congr fun q hq => hg q (Finset.ne_of_mem_erase hq)

namespace Tally

/-- Nothing changes. -/
theorem congr (h : Tally f e total b g live) (hg : ∀ q ∈ live, g' q = g q) :
    Tally f e total b g' live :=
  ⟨h.neutral, h.total_eq.trans (Finset.fold_congr fun q hq => (hg q hq).symm)⟩

/-- All threads have left. -/
theorem eq_of_empty (h : Tally f e total b g ∅) : total = b := h.total_eq

variable [DecidableEq ι]

/-- A thread counts. -/
theorem count (h : Tally f e total b g live) (hp : p ∈ live) (hg : ∀ q, q ≠ p → g' q = g q)
    (hgp : g' p = f x (g p)) : Tally f e (f x total) b g' live := by
  have hassoc : ∀ a b c, f (f a b) c = f a (f b c) := Std.Associative.assoc
  refine ⟨h.neutral, ?_⟩
  rw [h.total_eq, fold_erase hp, fold_erase hp, fold_erase_congr hg, hgp, hassoc]

/-- A thread merges its accumulator. -/
theorem merge (h : Tally f e total b g live) (hp : p ∈ live) (hg : ∀ q, q ≠ p → g' q = g q)
    (hgp : g' p = e) : Tally f e total (f (g p) b) g' live := by
  have hassoc : ∀ a b c, f (f a b) c = f a (f b c) := Std.Associative.assoc
  have hcomm : ∀ a b, f a b = f b a := Std.Commutative.comm
  have hn : f e (f (g p) b) = f (g p) b := by rw [← hassoc, hcomm e, hassoc, h.neutral]
  refine ⟨hn, ?_⟩
  rw [h.total_eq, fold_erase hp, fold_erase hp, fold_erase_congr hg, hgp, ← fold_base f,
    ← fold_base f, hn]

/-- A thread merges a part of its accumulator. -/
theorem settle (h : Tally f e total b g live) (hp : p ∈ live) (hg : ∀ q, q ≠ p → g' q = g q)
    (hgp : g p = f x (g' p)) : Tally f e total (f x b) g' live := by
  have hassoc : ∀ a b c, f (f a b) c = f a (f b c) := Std.Associative.assoc
  have hcomm : ∀ a b, f a b = f b a := Std.Commutative.comm
  have hn : f e (f x b) = f x b := by rw [← hassoc, hcomm e, hassoc, h.neutral]
  refine ⟨hn, ?_⟩
  rw [h.total_eq, fold_erase hp, fold_base f, fold_erase (b := b) (g := g') hp, fold_erase_congr hg, hgp,
    hassoc]

/-- A thread starts with an empty accumulator. -/
theorem enter (h : Tally f e total b g live) (hp : p ∉ live) (hg : ∀ q, q ≠ p → g' q = g q)
    (hgp : g' p = e) : Tally f e total b g' (insert p live) := by
  refine ⟨h.neutral, ?_⟩
  rw [Finset.fold_insert hp, hgp, ← fold_base f, h.neutral, h.total_eq]
  exact Finset.fold_congr fun q hq => (hg q fun hqp => hp (hqp ▸ hq)).symm

/-- All accumulators are empty. -/
theorem init (hn : f e b = b) (hg : ∀ q ∈ live, g q = e) : Tally f e b b g live := by
  induction live using Finset.induction_on with
  | empty => exact ⟨hn, rfl⟩
  | insert p live hp ih =>
    exact (ih fun q hq => hg q (Finset.mem_insert_of_mem hq)).enter hp (fun _ _ => rfl)
      (hg p (Finset.mem_insert_self p live))

/-- A thread leaves with an empty accumulator. -/
theorem leave (h : Tally f e total b g live) (hp : p ∈ live) (hgp : g p = e) :
    Tally f e total b g (live.erase p) := by
  refine ⟨h.neutral, ?_⟩
  rw [h.total_eq, fold_erase hp, hgp, ← fold_base f, h.neutral]

end Tally

end

/-- What the common accumulator and the others add up to. -/
theorem Tally.eq_add_sum {ι α : Type} [AddCommMonoid α] {total b : α} {g : ι → α} {live : Finset ι}
    (h : Tally (fun m n : α => m + n) 0 total b g live) : total = b + ∑ p ∈ live, g p := by
  classical
  rw [h.total_eq]
  clear h
  induction live using Finset.induction_on with
  | empty => rw [Finset.fold_empty, Finset.sum_empty, add_zero]
  | insert p s hp ih => rw [Finset.fold_insert hp, Finset.sum_insert hp, ih, add_left_comm]
