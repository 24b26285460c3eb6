import TinyStm.Conc.Prog
import Mathlib.Order.Notation

/-!
# Rely-guarantee reasoning

A protocol (`RG`) is an invariant of the shared state and, for each thread, the steps that the
thread may take on it; the reasoning may be confined to runs all of whose states are observed to
satisfy `obs`. An assertion of a thread (`Assn`) is a predicate on states that no step of
another thread falsifies, so it may be used at any point of the thread's program. `Triple P c Q J`
says that the program `c`, started where `P` holds, follows the protocol, ends with `Q` when it
returns and with `J` when it leaves by a non-local exit. A triple is a proof outline: an assertion
for every point of the program between two actions.
-/

/-- A protocol: an invariant of the states and the steps each thread may take. Only runs whose
states all satisfy `obs` are considered. -/
structure RG (σ ι : Type) where
  inv : σ → Prop
  guar : ι → σ → σ → Prop
  obs : σ → Prop
  refl : ∀ p s, inv s → guar p s s

/-- What a program may assume of the state before each of its actions. -/
structure RG.Ok {σ ι : Type} (G : RG σ ι) (s : σ) : Prop where
  inv : G.inv s
  obs : G.obs s

/-- An assertion of thread `p`: stable under the steps of the other threads. -/
structure Assn {σ ι : Type} (G : RG σ ι) (p : ι) where
  holds : σ → Prop
  stable : ∀ q, q ≠ p → ∀ s s', G.inv s → G.inv s' → G.guar q s s' → holds s → holds s'

namespace Assn

variable {σ ι : Type} {G : RG σ ι} {p : ι}

instance : CoeFun (Assn G p) fun _ => σ → Prop := ⟨holds⟩

/-- Both assertions hold. -/
def and (P Q : Assn G p) : Assn G p where
  holds s := P s ∧ Q s
  stable q hq s s' hs hs' hg h := ⟨P.stable q hq s s' hs hs' hg h.1, Q.stable q hq s s' hs hs' hg h.2⟩

/-- One of the assertions holds. -/
def or (P Q : Assn G p) : Assn G p where
  holds s := P s ∨ Q s
  stable q hq s s' hs hs' hg h :=
    h.imp (P.stable q hq s s' hs hs' hg) (Q.stable q hq s s' hs hs' hg)

/-- A fact that does not depend on the state. -/
def pure (φ : Prop) : Assn G p where
  holds _ := φ
  stable _ _ _ _ _ _ _ h := h

/-- The assertion holds for some value. -/
def ex {α : Type} (P : α → Assn G p) : Assn G p where
  holds s := ∃ a, P a s
  stable q hq s s' hs hs' hg h := h.imp fun a => (P a).stable q hq s s' hs hs' hg

/-- The assertion holds for every value. -/
def all {α : Sort*} (P : α → Assn G p) : Assn G p where
  holds s := ∀ a, P a s
  stable q hq s s' hs hs' hg h a := (P a).stable q hq s s' hs hs' hg (h a)

/-- The assertion holds if `φ` does. -/
def imp (φ : Prop) (P : Assn G p) : Assn G p where
  holds s := φ → P s
  stable q hq s s' hs hs' hg h hφ := P.stable q hq s s' hs hs' hg (h hφ)

instance : Min (Assn G p) := ⟨and⟩
instance : Max (Assn G p) := ⟨or⟩

/-- Both assertions hold. -/
@[simp] theorem inf_holds (P Q : Assn G p) (s : σ) : (P ⊓ Q) s ↔ P s ∧ Q s := Iff.rfl

/-- One of the assertions holds. -/
@[simp] theorem sup_holds (P Q : Assn G p) (s : σ) : (P ⊔ Q) s ↔ P s ∨ Q s := Iff.rfl

/-- The state does not matter. -/
@[simp] theorem pure_holds (φ : Prop) (s : σ) : (pure φ : Assn G p) s ↔ φ := Iff.rfl

/-- The assertion holds for one value. -/
@[simp] theorem ex_holds {α : Type} (P : α → Assn G p) (s : σ) : ex P s ↔ ∃ a, P a s := Iff.rfl

/-- The assertion holds for all values. -/
@[simp] theorem all_holds {α : Sort*} (P : α → Assn G p) (s : σ) : all P s ↔ ∀ a, P a s := Iff.rfl

/-- The assertion holds under a condition. -/
@[simp] theorem imp_holds (φ : Prop) (P : Assn G p) (s : σ) : imp φ P s ↔ (φ → P s) := Iff.rfl

end Assn

section
variable {σ ι : Type} (G : RG σ ι) (p : ι)

/-- The program follows the protocol from `P`; it ends with `Q` at a return and with `J` at a
non-local exit. -/
inductive Triple : {α : Type} → Assn G p → Prog σ α → (α → Assn G p) → Assn G p → Prop
  | ret {α : Type} {a : α} {P : Assn G p} {Q : α → Assn G p} {J : Assn G p} :
      (∀ s, G.Ok s → P s → Q a s) → Triple P (.ret a) Q J
  | jump {α : Type} {P : Assn G p} {Q : α → Assn G p} {J : Assn G p} :
      (∀ s, G.Ok s → P s → J s) → Triple P .jump Q J
  | act {α β : Type} {g : σ → β × σ} {k : β → Prog σ α} {P : Assn G p} {Q : α → Assn G p}
      {J : Assn G p} (R : β → Assn G p) :
      (∀ s, G.Ok s → P s →
        G.inv (g s).2 ∧ G.guar p s (g s).2 ∧ R (g s).1 (g s).2) →
      (∀ b, Triple (R b) (k b) Q J) → Triple P (.act g k) Q J
  | loop {α β γ : Type} {body : β → Prog σ (β ⊕ γ)} {b : β} {k : γ → Prog σ α} {P : Assn G p}
      {Q : α → Assn G p} {J : Assn G p} (I : β → Assn G p) (R : γ → Assn G p) :
      (∀ s, G.Ok s → P s → I b s) →
      (∀ b, Triple (I b) (body b) (Sum.elim I R) J) →
      (∀ c, Triple (R c) (k c) Q J) → Triple P (.loop body b k) Q J

end

namespace Triple

variable {σ ι : Type} {G : RG σ ι} {p : ι} {α β γ : Type} {P P' : Assn G p} {J J' : Assn G p}

/-- The precondition may be strengthened. -/
theorem pre {c : Prog σ α} {Q : α → Assn G p} (h : Triple G p P c Q J)
    (hP : ∀ s, G.Ok s → P' s → P s) : Triple G p P' c Q J := by
  cases h with
  | ret h => exact .ret fun s hs h' => h s hs (hP s hs h')
  | jump h => exact .jump fun s hs h' => h s hs (hP s hs h')
  | act R h hk => exact .act R (fun s hs h' => h s hs (hP s hs h')) hk
  | loop I R h hb hk => exact .loop I R (fun s hs h' => h s hs (hP s hs h')) hb hk

/-- The postconditions may be weakened. -/
theorem post {c : Prog σ α} {Q Q' : α → Assn G p} (h : Triple G p P c Q J)
    (hQ : ∀ a s, G.Ok s → Q a s → Q' a s) (hJ : ∀ s, G.Ok s → J s → J' s) :
    Triple G p P c Q' J' := by
  induction h with
  | ret h => exact .ret fun s hs h' => hQ _ s hs (h s hs h')
  | jump h => exact .jump fun s hs h' => hJ s hs (h s hs h')
  | act R h _ ih => exact .act R h fun b => ih b hQ hJ
  | loop I R h _ _ ihb ihk =>
    refine .loop I R h (fun b => ihb b (fun a s _ h => ?_) hJ) fun c => ihk c hQ hJ
    exact h

/-- Sequential composition. -/
theorem bind {c : Prog σ α} {f : α → Prog σ β} {R : α → Assn G p} {Q : β → Assn G p}
    (h : Triple G p P c R J) (hf : ∀ a, Triple G p (R a) (f a) Q J) :
    Triple G p P (c.bind f) Q J := by
  induction h with
  | ret h => exact (hf _).pre h
  | jump h => exact .jump h
  | act R h _ ih => exact .act R h fun b => ih b hf
  | loop I R h hb _ _ ihk => exact .loop I R h hb fun c => ihk c hf

/-- The rules for an action and what follows it apply to the last action. -/
theorem last {c : Prog σ α} {Q : α → Assn G p} (h : Triple G p P (c.bind .ret) Q J) :
    Triple G p P c Q J := by
  rwa [Prog.bind_ret] at h

/-- A return. -/
theorem of_ret {a : α} {Q : α → Assn G p} (h : ∀ s, G.Ok s → P s → Q a s) :
    Triple G p P (.ret a) Q J :=
  .ret h

/-- One atomic action. -/
theorem atomic {g : σ → α × σ} {Q : α → Assn G p}
    (h : ∀ s, G.Ok s → P s → G.inv (g s).2 ∧ G.guar p s (g s).2 ∧ Q (g s).1 (g s).2) :
    Triple G p P (.atomic g) Q J :=
  .act Q h fun _ => .ret fun _ _ h => h

/-- One atomic action that only reads. -/
theorem read {g : σ → α} {Q : α → Assn G p} (h : ∀ s, G.Ok s → P s → Q (g s) s) :
    Triple G p P (.read g) Q J :=
  .atomic fun s hs hP => ⟨hs.inv, G.refl p s hs.inv, h s hs hP⟩

/-- One atomic action that only writes. -/
theorem modify {g : σ → σ} {Q : Unit → Assn G p}
    (h : ∀ s, G.Ok s → P s → G.inv (g s) ∧ G.guar p s (g s) ∧ Q () (g s)) :
    Triple G p P (.modify g) Q J :=
  .atomic h

/-- A loop, by an invariant `I` of the label's argument. -/
theorem iterate {body : β → Prog σ (β ⊕ γ)} {b : β} (I : β → Assn G p) {Q : γ → Assn G p}
    (h : ∀ s, G.Ok s → P s → I b s) (hb : ∀ b, Triple G p (I b) (body b) (Sum.elim I Q) J) :
    Triple G p P (.iterate b body) Q J :=
  .loop I Q h hb fun _ => .ret fun _ _ h => h

/-- A case distinction on a decidable condition. -/
theorem ite {φ : Prop} [Decidable φ] {c d : Prog σ α} {Q : α → Assn G p}
    (hc : φ → Triple G p P c Q J) (hd : ¬ φ → Triple G p P d Q J) :
    Triple G p P (if φ then c else d) Q J := by
  split
  · exact hc ‹_›
  · exact hd ‹_›

/-- What a triple of an action says. -/
theorem act_inv {g : σ → β × σ} {k : β → Prog σ α} {Q : α → Assn G p}
    (h : Triple G p P (.act g k) Q J) : ∃ R : β → Assn G p,
      (∀ s, G.Ok s → P s → G.inv (g s).2 ∧ G.guar p s (g s).2 ∧ R (g s).1 (g s).2) ∧
      ∀ b, Triple G p (R b) (k b) Q J := by
  cases h with
  | act R h hk => exact ⟨R, h, hk⟩

/-- What a triple of a loop says. -/
theorem loop_inv {body : β → Prog σ (β ⊕ γ)} {b : β} {k : γ → Prog σ α} {Q : α → Assn G p}
    (h : Triple G p P (.loop body b k) Q J) : ∃ (I : β → Assn G p) (R : γ → Assn G p),
      (∀ s, G.Ok s → P s → I b s) ∧ (∀ b, Triple G p (I b) (body b) (Sum.elim I R) J) ∧
      ∀ c, Triple G p (R c) (k c) Q J := by
  cases h with
  | loop I R h hb hk => exact ⟨I, R, h, hb, hk⟩

/-- A program that follows the protocol from each `P i` follows it from their disjunction. -/
theorem of_ex {ι' : Type} {c : Prog σ α} {R : ι' → Assn G p} {Q : α → Assn G p}
    (h : ∀ i, Triple G p (R i) c Q J) : Triple G p (.ex R) c Q J := by
  induction c generalizing R with
  | ret a =>
    refine .ret fun s hs ⟨i, hi⟩ => ?_
    cases h i with | ret h => exact h s hs hi
  | jump =>
    refine .jump fun s hs ⟨i, hi⟩ => ?_
    cases h i with | jump h => exact h s hs hi
  | act g k ih =>
    choose R' hR' hk using fun i => act_inv (h i)
    refine .act (fun b => .ex fun i => R' i b) (fun s hs ⟨i, hi⟩ => ?_) fun b =>
      ih b fun i => hk i b
    have ⟨h1, h2, h3⟩ := hR' i s hs hi
    exact ⟨h1, h2, i, h3⟩
  | loop body b k ihb ihk =>
    choose I R' hI hb hk using fun i => loop_inv (h i)
    refine .loop (fun b => .ex fun i => I i b) (fun c => .ex fun i => R' i c)
      (fun s hs ⟨i, hi⟩ => ⟨i, hI i s hs hi⟩) (fun b => ihb b fun i => ?_) fun c =>
      ihk c fun i => hk i c
    refine (hb i b).post (fun r s _ hr => ?_) fun _ _ hJ => hJ
    cases r with
    | inl b => exact ⟨i, hr⟩
    | inr c => exact ⟨i, hr⟩

/-- A witness of the precondition may be fixed for the whole program. -/
theorem of_exists {ι' : Type} {c : Prog σ α} {R : ι' → Assn G p} {Q : α → Assn G p}
    (hP : ∀ s, G.Ok s → P s → ∃ i, R i s) (h : ∀ i, Triple G p (R i) c Q J) :
    Triple G p P c Q J :=
  (of_ex h).pre hP

/-- A case distinction on the precondition. -/
theorem of_sup {c : Prog σ α} {Q : α → Assn G p} (h : Triple G p P c Q J)
    (h' : Triple G p P' c Q J) : Triple G p (P ⊔ P') c Q J := by
  refine of_exists (R := fun b : Bool => cond b P P') (fun s _ hP => ?_) fun b => ?_
  · exact hP.elim (fun hP => ⟨true, hP⟩) fun hP => ⟨false, hP⟩
  · cases b with
    | true => exact h
    | false => exact h'

/-- A fact that follows from the precondition may be assumed of the whole program. -/
theorem of_fact {φ : Prop} {c : Prog σ α} {Q : α → Assn G p} (hφ : ∀ s, G.Ok s → P s → φ)
    (h : φ → Triple G p P c Q J) : Triple G p P c Q J :=
  of_exists (R := fun _ : PLift φ => P) (fun s hs hP => ⟨⟨hφ s hs hP⟩, hP⟩) fun i => h i.down

/-- What one step of a program preserves: the invariant, the guarantee and a proof outline. -/
theorem step {c : Prog σ α} {Q : α → Assn G p} (h : Triple G p P c Q J) {s : σ} (hs : G.Ok s)
    (hP : P s) : G.inv (c.step s).2 ∧ G.guar p s (c.step s).2 ∧
      ∃ P' : Assn G p, Triple G p P' (c.step s).1 Q J ∧ P' (c.step s).2 := by
  cases h with
  | ret h => exact ⟨hs.inv, G.refl p s hs.inv, P, .ret h, hP⟩
  | jump h => exact ⟨hs.inv, G.refl p s hs.inv, P, .jump h, hP⟩
  | act R h hk =>
    have ⟨h1, h2, h3⟩ := h s hs hP
    exact ⟨h1, h2, _, hk _, h3⟩
  | loop I R h hb hk =>
    refine ⟨hs.inv, G.refl p s hs.inv, I _, (hb _).bind fun r => ?_, h s hs hP⟩
    cases r with
    | inl b => exact .loop I R (fun _ _ h => h) hb hk
    | inr c => exact hk c

end Triple
