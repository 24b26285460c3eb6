import TinyStm.Conc.Small
import Mathlib.Logic.Function.Basic
import Mathlib.Tactic.Common

/-!
# Programs of atomic actions

A sequential thread of a shared-memory program, as the tree of the atomic actions it can perform on
a state `σ`. `Prog σ α` is the type of programs that return a value of type `α`: an action is a
function `σ → β × σ` performed in one step, `loop` is a `goto` back to a label, and `jump` is a
non-local exit (`longjmp`) that ends the whole program. `Prog.step` is the small-step semantics;
another thread may act on the state between two steps.
-/

/-- A program that acts on states `σ` and returns an `α`. -/
inductive Prog (σ : Type) : Type → Type 1
  | ret {α : Type} (a : α) : Prog σ α
  | jump {α : Type} : Prog σ α
  | act {α β : Type} (g : σ → β × σ) (k : β → Prog σ α) : Prog σ α
  | loop {α β γ : Type} (body : β → Prog σ (β ⊕ γ)) (b : β) (k : γ → Prog σ α) : Prog σ α

namespace Prog

variable {σ α β γ : Type}

/-- Sequential composition. A non-local exit skips the continuation. -/
def bind : Prog σ α → (α → Prog σ β) → Prog σ β
  | ret a, f => f a
  | jump, _ => jump
  | act g k, f => act g fun b => (k b).bind f
  | loop body b k, f => loop body b fun c => (k c).bind f

instance : Monad (Prog σ) where
  pure := ret
  bind := bind

/-- `pure` of the monad. -/
@[simp] theorem pure_eq (a : α) : (pure a : Prog σ α) = ret a := rfl

/-- `>>=` of the monad. -/
@[simp] theorem bind_eq (c : Prog σ α) (f : α → Prog σ β) : c >>= f = c.bind f := rfl

/-- What follows a result. -/
@[simp] theorem ret_bind (a : α) (f : α → Prog σ β) : (ret a).bind f = f a := rfl

/-- Nothing follows a jump. -/
@[simp] theorem jump_bind (f : α → Prog σ β) : (jump : Prog σ α).bind f = jump := rfl

/-- What follows an action. -/
@[simp] theorem act_bind (g : σ → γ × σ) (k : γ → Prog σ α) (f : α → Prog σ β) :
    (act g k).bind f = act g fun b => (k b).bind f := rfl

/-- The result is returned. -/
theorem bind_ret (c : Prog σ α) : c.bind ret = c := by
  induction c with
  | ret a => rfl
  | jump => rfl
  | act g k ih => simp only [act_bind, ih]
  | loop body b k _ ih => simp only [bind, ih]

/-- Three parts after each other. -/
theorem bind_assoc (c : Prog σ α) (f : α → Prog σ β) (g : β → Prog σ γ) :
    (c.bind f).bind g = c.bind fun a => (f a).bind g := by
  induction c with
  | ret a => rfl
  | jump => rfl
  | act h k ih => simp only [act_bind, ih]
  | loop body b k _ ih => simp only [bind, ih]

/-- A single atomic action. -/
def atomic (g : σ → α × σ) : Prog σ α := act g ret

/-- An atomic action that only reads the state. -/
def read (g : σ → α) : Prog σ α := atomic fun s => (g s, s)

/-- An atomic action that only changes the state. -/
def modify (g : σ → σ) : Prog σ Unit := atomic fun s => ((), g s)

/-- The loop `b := init; label: …; goto label`, left with a result. -/
def iterate (b : β) (body : β → Prog σ (β ⊕ γ)) : Prog σ γ := loop body b ret

/-- The program has ended, by a return or by a non-local exit. -/
def Done : Prog σ α → Prop
  | ret _ | jump => True
  | act .. | loop .. => False

instance : (c : Prog σ α) → Decidable c.Done
  | ret _ | jump => .isTrue trivial
  | act .. | loop .. => .isFalse id

/-- One step: an atomic action, or the unfolding of a loop. -/
def step : Prog σ α → σ → Prog σ α × σ
  | ret a, s => (ret a, s)
  | jump, s => (jump, s)
  | act g k, s => (k (g s).1, (g s).2)
  | loop body b k, s => ((body b).bind (Sum.elim (fun b' => loop body b' k) k), s)

/-- A sequence steps as its first part does until that has ended. -/
theorem step_bind {c : Prog σ α} (hc : ¬ c.Done) (f : α → Prog σ β) (s : σ) :
    (c.bind f).step s = ((c.step s).1.bind f, (c.step s).2) := by
  cases c with
  | ret a => exact (hc trivial).elim
  | jump => exact (hc trivial).elim
  | act g k => rfl
  | loop body b k =>
    simp only [bind, step, bind_assoc]
    congr 2
    funext r
    cases r <;> rfl

/-- A program that has not ended has not ended with what follows it. -/
theorem not_done_bind {c : Prog σ α} (hc : ¬ c.Done) (f : α → Prog σ β) : ¬ (c.bind f).Done := by
  cases c with
  | ret a => exact (hc trivial).elim
  | jump => exact (hc trivial).elim
  | act g k => exact id
  | loop body b k => exact id

/-- A program that has ended takes no step. -/
theorem step_of_done {c : Prog σ α} (hc : c.Done) (s : σ) : c.step s = (c, s) := by
  cases c with
  | ret a => rfl
  | jump => rfl
  | act g k => exact hc.elim
  | loop body b k => exact hc.elim

/-- The state and the rest of the program after `n` steps without interference. -/
def run : ℕ → Prog σ α → σ → Prog σ α × σ
  | 0, c, s => (c, s)
  | n + 1, c, s => run n (c.step s).1 (c.step s).2

end Prog
