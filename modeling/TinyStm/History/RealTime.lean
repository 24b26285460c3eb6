import TinyStm.History.Serial
import Mathlib.Data.Fin.Tuple.Sort
import Mathlib.Data.List.FinRange

/-!
# Serial orders and the order of the commits

The commits of a history in the order in which they were made, and the serial order by their keys that
keeps this order between commits of the same key.
-/

namespace History

variable {τ α : Type} {w : ℕ}

/-- The commits in the order in which they were made. -/
def log (L : History τ α w) (i : Fin L.length) : Commit τ α w := L.get i.rev

/-- The serial order: the commit that is executed at each place. -/
def order (L : History τ α w) : Equiv.Perm (Fin L.length) := Tuple.sort fun i => (L.log i).key

variable {L : History τ α w} {i j : Fin L.length}

/-- The log has the commits of the history. -/
theorem log_perm (L : History τ α w) : (List.ofFn L.log).Perm L := by
  have hrev : (List.ofFn L.log).Perm (List.ofFn L.get) := Fin.revPerm.ofFn_comp_perm L.get
  rwa [List.ofFn_get] at hrev

/-- Nothing is left out of a serial order. -/
theorem order_perm (L : History τ α w) (σ : Equiv.Perm (Fin L.length)) :
    (List.ofFn fun i => L.log (σ i)).Perm L :=
  (σ.ofFn_comp_perm L.log).trans L.log_perm

/-- The keys do not decrease. -/
theorem order_sorted (L : History τ α w) :
    (List.ofFn fun i => L.log (L.order i)).Pairwise (·.key ≤ ·.key) := by
  rw [List.pairwise_ofFn]
  exact fun i j hij => Tuple.monotone_sort (fun i => (L.log i).key) hij.le

/-- An earlier commit whose key is not greater is executed earlier. -/
theorem order_lt (hij : i < j) (hkey : (L.log i).key ≤ (L.log j).key) :
    L.order.symm i < L.order.symm j := by
  have hsort : Monotone ((fun i => (L.log i).key) ∘ L.order) ∧ ∀ i j, i < j →
      (L.log (L.order i)).key = (L.log (L.order j)).key → L.order i < L.order j :=
    Tuple.eq_sort_iff.1 rfl
  by_contra hle
  have hlt : L.order.symm j < L.order.symm i := by
    refine (not_lt.1 hle).lt_of_ne fun heq => ?_
    exact hij.ne' (L.order.symm.injective heq)
  have hmono := hsort.1 hlt.le
  have hswap := hsort.2 _ _ hlt
  simp only [Function.comp, Equiv.apply_symm_apply] at hmono hswap
  exact absurd (hswap (le_antisymm hmono hkey)) hij.asymm

variable {L' l : History τ α w}

/-- The first commits are those of the part of the history that was there first. -/
theorem log_mem_of_lt (heq : L = l ++ L') (hi : (i : ℕ) < L'.length) : L.log i ∈ L' := by
  subst heq
  rw [log, List.get_eq_getElem, List.getElem_append_right (by simp; omega)]
  exact List.getElem_mem _

/-- The others have been added since. -/
theorem log_mem_of_le (heq : L = l ++ L') (hi : L'.length ≤ (i : ℕ)) : L.log i ∈ l := by
  subst heq
  have hlt : (i.rev : ℕ) < l.length := by
    have := i.isLt
    simp only [List.length_append] at this
    simp only [Fin.val_rev, List.length_append]
    omega
  rw [log, List.get_eq_getElem, List.getElem_append_left hlt]
  exact List.getElem_mem _

end History
