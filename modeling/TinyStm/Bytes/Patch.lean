import TinyStm.Conc.Small
import Mathlib.Data.List.Basic

/-!
# Undo logs

A patch says what some addresses of a memory are set to. Patches that are recorded one after the other
and applied in the reverse order leave an address with what the first patch that covers it says.
-/

/-- What some addresses are set to. -/
abbrev Patch (α β : Type) := α → Option β

namespace Patch

variable {α β : Type}

/-- The memory with the addresses that the patch covers set. -/
def apply (p : Patch α β) (m : α → β) : α → β := fun x => (p x).getD (m x)

/-- The patches are applied, the last one first. -/
def undo (ps : List (Patch α β)) (m : α → β) : α → β := ps.foldr apply m

variable {p : Patch α β} {ps qs : List (Patch α β)} {m : α → β} {x : α} {b : β}

@[simp] theorem undo_nil : undo [] m = m := rfl

@[simp] theorem undo_cons : undo (p :: ps) m = p.apply (undo ps m) := rfl

/-- What the first patch that covers an address says. -/
def first (ps : List (Patch α β)) (x : α) : Option β := ps.findSome? (· x)

theorem undo_apply : undo ps m x = (first ps x).getD (m x) := by
  induction ps with
  | nil => rfl
  | cons p ps ih =>
    rw [undo_cons, apply, first, List.findSome?_cons]
    cases p x with
    | none => exact ih
    | some b => rfl

theorem first_append : first (ps ++ qs) x = (first ps x).or (first qs x) := List.findSome?_append ..

/-- The first patch is applied last. -/
theorem first_append_of_some (h : first ps x = some b) : first (ps ++ qs) x = some b := by
  rw [first_append, h, Option.some_or]

theorem first_append_of_none (h : first ps x = none) : first (ps ++ qs) x = first qs x := by
  rw [first_append, h, Option.none_or]

theorem first_singleton : first [p] x = p x := by
  rw [first, List.findSome?_cons]
  cases p x <;> rfl

/-- What the first patch after `ps` and all patches together must satisfy, at the addresses that `ps` do
not cover. -/
theorem forall_first_append {P : α → β → Prop} :
    (∀ x, first ps x = none → ∀ b, first (ps ++ p :: qs) x = some b → P x b) ↔
      (∀ x, first ps x = none → ∀ b, p x = some b → P x b) ∧
        ∀ x, first (ps ++ [p]) x = none → ∀ b, first (ps ++ p :: qs) x = some b → P x b := by
  have hcons : ps ++ p :: qs = ps ++ [p] ++ qs := by simp
  constructor
  · intro h
    refine ⟨fun x hx b hb => h x hx b ?_, fun x hx => h x ?_⟩
    · rw [hcons]
      apply first_append_of_some
      rw [first_append_of_none hx, first_singleton, hb]
    · rw [first_append] at hx
      exact (Option.or_eq_none_iff.1 hx).1
  · rintro ⟨hp, hq⟩ x hx b hb
    have hlast : first (ps ++ [p]) x = p x := by rw [first_append_of_none hx, first_singleton]
    cases hpx : p x with
    | none => exact hq x (hlast.trans hpx) b hb
    | some b' =>
      have hb' : first (ps ++ p :: qs) x = some b' := by
        rw [hcons]
        exact first_append_of_some (hlast.trans hpx)
      obtain rfl : b' = b := Option.some.inj (hb'.symm.trans hb)
      exact hp x hx b' hpx

end Patch
