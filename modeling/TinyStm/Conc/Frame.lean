import TinyStm.Conc.RelyGuarantee

/-!
# Frames

What all actions of a program leave alone: `c.Actions r` says that every action of `c` is a step of the
relation `r`, and `c.Within r` that `c` makes no non-local exit either.
-/

namespace Prog

variable {σ α β γ : Type} {r : σ → σ → Prop}

/-- Every action is a step of `r`, and there is no non-local exit. -/
def Within (r : σ → σ → Prop) {α : Type} : Prog σ α → Prop
  | ret _ => True
  | jump => False
  | act g k => (∀ s, r s (g s).2) ∧ ∀ b, (k b).Within r
  | loop body _ k => (∀ b, (body b).Within r) ∧ ∀ c, (k c).Within r

/-- Nothing is done. -/
theorem within_pure (a : α) : (pure a : Prog σ α).Within r := trivial

/-- Every step of `r` is one of `r'`. -/
theorem Within.mono {r' : σ → σ → Prop} {c : Prog σ α} (hc : c.Within r)
    (h : ∀ s s', r s s' → r' s s') : c.Within r' := by
  induction c with
  | ret a => trivial
  | jump => exact hc
  | act g k ih => exact ⟨fun s => h _ _ (hc.1 s), fun b => ih b (hc.2 b)⟩
  | loop body b k ihb ihk => exact ⟨fun b => ihb b (hc.1 b), fun c => ihk c (hc.2 c)⟩

/-- A part and what follows it. -/
theorem Within.bind {c : Prog σ α} {f : α → Prog σ β} (hc : c.Within r)
    (hf : ∀ a, (f a).Within r) : (c >>= f).Within r := by
  rw [bind_eq]
  induction c with
  | ret a => exact hf a
  | jump => exact hc
  | act g k ih => exact ⟨hc.1, fun b => ih b (hc.2 b) hf⟩
  | loop body b k _ ih => exact ⟨hc.1, fun c => ih c (hc.2 c) hf⟩

/-- One action. -/
theorem within_atomic {g : σ → α × σ} (h : ∀ s, r s (g s).2) : (atomic g).Within r :=
  ⟨h, fun _ => trivial⟩

/-- An action and what follows it. -/
theorem within_access {g : σ → α × σ} {f : α → Prog σ β} (h : ∀ s, r s (g s).2)
    (hf : ∀ a, (f a).Within r) : (atomic g >>= f).Within r :=
  (within_atomic h).bind hf

/-- A loop. -/
theorem within_iterate {body : β → Prog σ (β ⊕ γ)} {b : β} (h : ∀ b, (body b).Within r) :
    (iterate b body).Within r :=
  ⟨h, fun _ => trivial⟩

/-- A case distinction. -/
theorem within_ite {φ : Prop} [Decidable φ] {c d : Prog σ α} (hc : c.Within r) (hd : d.Within r) :
    (if φ then c else d).Within r := by
  split
  · exact hc
  · exact hd

/-- Every action is a step of `r`. -/
def Actions (r : σ → σ → Prop) {α : Type} : Prog σ α → Prop
  | ret _ => True
  | jump => True
  | act g k => (∀ s, r s (g s).2) ∧ ∀ b, (k b).Actions r
  | loop body _ k => (∀ b, (body b).Actions r) ∧ ∀ c, (k c).Actions r

/-- Every step is allowed. -/
theorem actions_true (c : Prog σ α) : c.Actions fun _ _ => True := by
  induction c with
  | ret a => trivial
  | jump => trivial
  | act g k ih => exact ⟨fun _ => trivial, ih⟩
  | loop body b k ihb ihk => exact ⟨ihb, ihk⟩

/-- A part and what follows it. -/
theorem Actions.bind {c : Prog σ α} {f : α → Prog σ β} (hc : c.Actions r)
    (hf : ∀ a, (f a).Actions r) : (c >>= f).Actions r := by
  rw [bind_eq]
  induction c with
  | ret a => exact hf a
  | jump => trivial
  | act g k ih => exact ⟨hc.1, fun b => ih b (hc.2 b) hf⟩
  | loop body b k _ ih => exact ⟨hc.1, fun c => ih c (hc.2 c) hf⟩

/-- An action and what follows it. -/
theorem actions_access {g : σ → α × σ} {f : α → Prog σ β} (h : ∀ s, r s (g s).2)
    (hf : ∀ a, (f a).Actions r) : (atomic g >>= f).Actions r :=
  Actions.bind (c := atomic g) ⟨h, fun _ => trivial⟩ hf

/-- A loop. -/
theorem actions_iterate {body : β → Prog σ (β ⊕ γ)} {b : β} (h : ∀ b, (body b).Actions r) :
    (iterate b body).Actions r :=
  ⟨h, fun _ => trivial⟩

/-- A case distinction. -/
theorem actions_ite {φ : Prop} [Decidable φ] {c d : Prog σ α} (hc : c.Actions r)
    (hd : d.Actions r) : (if φ then c else d).Actions r := by
  split
  · exact hc
  · exact hd

/-- A program that returns with each of its ways out has actions of `r'` only. -/
theorem Within.actions {r' : σ → σ → Prop} {c : Prog σ α} (hc : c.Within r)
    (h : ∀ s s', r s s' → r' s s') : c.Actions r' := by
  induction c with
  | ret a => trivial
  | jump => exact hc.elim
  | act g k ih => exact ⟨fun s => h _ _ (hc.1 s), fun b => ih b (hc.2 b)⟩
  | loop body b k ihb ihk => exact ⟨fun b => ihb b (hc.1 b), fun c => ihk c (hc.2 c)⟩

/-- What one step does. -/
theorem Actions.step {c : Prog σ α} (hc : c.Actions r) (hr : ∀ s, r s s) (s : σ) :
    r s (c.step s).2 ∧ (c.step s).1.Actions r := by
  cases c with
  | ret a => exact ⟨hr s, hc⟩
  | jump => exact ⟨hr s, hc⟩
  | act g k => exact ⟨hc.1 s, hc.2 _⟩
  | loop body b k =>
    refine ⟨hr s, Actions.bind (c := body b) (hc.1 b) fun a => ?_⟩
    cases a with
    | inl b => exact hc
    | inr c => exact hc.2 c

end Prog

/-- An assertion that all actions of a program keep may be put beside its outline. -/
theorem Triple.frame {σ ι α : Type} {G : RG σ ι} {p : ι} {P J F : Assn G p} {c : Prog σ α}
    {Q : α → Assn G p} {r : σ → σ → Prop} (h : Triple G p P c Q J) (hc : c.Actions r)
    (hr : ∀ s s', r s s' → F s → F s') :
    Triple G p (P ⊓ F) c (fun a => Q a ⊓ F) (J ⊓ F) := by
  induction h with
  | ret h => exact .ret fun s hs hP => ⟨h s hs hP.1, hP.2⟩
  | jump h => exact .jump fun s hs hP => ⟨h s hs hP.1, hP.2⟩
  | act R h _ ih =>
    refine .act (fun b => R b ⊓ F) (fun s hs hP => ?_) fun b => ih b (hc.2 b)
    obtain ⟨hinv, hguar, hR⟩ := h s hs hP.1
    exact ⟨hinv, hguar, hR, hr s _ (hc.1 s) hP.2⟩
  | loop I R h _ _ ihb ihk =>
    refine .loop (fun b => I b ⊓ F) (fun c => R c ⊓ F) (fun s hs hP => ⟨h s hs hP.1, hP.2⟩)
      (fun b => (ihb b (hc.1 b)).post (fun a _ _ h => ?_) fun _ _ h => h) fun c => ihk c (hc.2 c)
    cases a with
    | inl b => exact h
    | inr c => exact h

/-- A program whose actions all keep an assertion. -/
theorem Triple.of_within {σ ι α : Type} {G : RG σ ι} {p : ι} {P J : Assn G p} {c : Prog σ α}
    {r : σ → σ → Prop} (h : c.Within r)
    (hr : ∀ s s', G.Ok s → r s s' → P s → G.inv s' ∧ G.guar p s s' ∧ P s') :
    Triple G p P c (fun _ => P) J := by
  induction c with
  | ret a => exact .of_ret fun _ _ h => h
  | jump => exact h.elim
  | act g k ih =>
    refine .act (fun _ => P) (fun s hs hP => hr s _ hs (h.1 s) hP) fun b => ih b (h.2 b)
  | loop body b k ihb ihk =>
    refine .loop (fun _ => P) (fun _ => P) (fun _ _ h => h) (fun b => ?_) fun c => ihk c (h.2 c)
    exact (ihb b (h.1 b)).post (fun a _ _ h => by cases a <;> exact h) fun _ _ h => h

/-- A program whose actions all keep an assertion, which may also make a non-local exit. -/
theorem Triple.of_actions {σ ι α : Type} {G : RG σ ι} {p : ι} {P : Assn G p} {c : Prog σ α}
    {r : σ → σ → Prop} (h : c.Actions r)
    (hr : ∀ s s', G.Ok s → r s s' → P s → G.inv s' ∧ G.guar p s s' ∧ P s') :
    Triple G p P c (fun _ => P) P := by
  induction c with
  | ret a => exact .of_ret fun _ _ h => h
  | jump => exact .jump fun _ _ h => h
  | act g k ih =>
    refine .act (fun _ => P) (fun s hs hP => hr s _ hs (h.1 s) hP) fun b => ih b (h.2 b)
  | loop body b k ihb ihk =>
    refine .loop (fun _ => P) (fun _ => P) (fun _ _ h => h) (fun b => ?_) fun c => ihk c (h.2 c)
    exact (ihb b (h.1 b)).post (fun a _ _ h => by cases a <;> exact h) fun _ _ h => h
