import TinyStm.Conc.Steps
import Mathlib.Logic.Relation

/-!
# The steps that a program makes itself

`Prog.Trail R` is the execution of `Prog.Steps` with its trail, the states before and after each step of
the program itself. What the other threads do in between is not in the trail. A trail that ends with a
return is split along the program: the trail of a sequence is a trail of its first part and then one of
the second, and that of an access has its action first. What holds of every action of a program
(`Prog.Actions`) holds of every step of its trails.
-/

namespace Prog

variable {σ α β γ : Type}

/-- The program and the state after some steps of the program, with the states before and after each,
and of the other threads. -/
inductive Trail (R : σ → σ → Prop) {α : Type} :
    Prog σ α → σ → List (σ × σ) → Prog σ α → σ → Prop
  | refl {c : Prog σ α} {s : σ} : Trail R c s [] c s
  | env {c c' : Prog σ α} {s s' t : σ} {l : List (σ × σ)} : R s s' → Trail R c s' l c' t →
      Trail R c s l c' t
  | step {c c' : Prog σ α} {s t : σ} {l : List (σ × σ)} : ¬ c.Done →
      Trail R (c.step s).1 (c.step s).2 l c' t → Trail R c s ((s, (c.step s).2) :: l) c' t

namespace Trail

variable {R : σ → σ → Prop} {c c' : Prog σ α} {s t : σ} {l : List (σ × σ)}

/-- A trail is that of an execution. -/
theorem steps (h : Trail R c s l c' t) : Steps R (fun _ => True) c s c' t := by
  induction h with
  | refl => exact .refl trivial
  | env hR _ ih => exact .trans (.env (.refl trivial) hR trivial) ih
  | step hd _ ih => exact .trans (.step (.refl trivial) hd trivial) ih

/-- The trail of a program that runs alone. -/
theorem run (n : ℕ) (c : Prog σ α) (s : σ) : ∃ l, Trail R c s l (run n c s).1 (run n c s).2 := by
  induction n generalizing c s with
  | zero => exact ⟨[], .refl⟩
  | succ n ih =>
    obtain ⟨l, h⟩ := ih (c.step s).1 (c.step s).2
    by_cases hd : c.Done
    · rw [step_of_done hd] at h
      exact ⟨l, by rwa [Prog.run, step_of_done hd]⟩
    · exact ⟨_, .step hd h⟩

/-- A program that has returned makes no step. -/
theorem of_ret {a b : α} (h : Trail R (.ret a) s l (.ret b) t) :
    b = a ∧ l = [] ∧ Relation.ReflTransGen R s t := by
  generalize hc : Prog.ret a = c, hc' : Prog.ret b = c' at h
  induction h with
  | refl =>
    subst hc
    injection hc' with _ h
    exact ⟨h, rfl, .refl⟩
  | env hR _ ih =>
    obtain ⟨ha, hl, hst⟩ := ih hc hc'
    exact ⟨ha, hl, .head hR hst⟩
  | step hd _ _ =>
    subst hc
    exact (hd trivial).elim

/-- The trail of an access begins with its action, after steps of other threads. -/
theorem access {g : σ → β × σ} {f : β → Prog σ α} {a : α}
    (h : Trail R (.atomic g >>= f) s l (.ret a) t) :
    ∃ u l', Relation.ReflTransGen R s u ∧ l = (u, (g u).2) :: l' ∧
      Trail R (f (g u).1) (g u).2 l' (.ret a) t := by
  generalize hc : (Prog.atomic g >>= f) = c, hc' : Prog.ret a = c' at h
  induction h with
  | refl =>
    subst hc
    cases hc'
  | env hR _ ih =>
    obtain ⟨u, l', hsu, hl, htail⟩ := ih hc hc'
    exact ⟨u, l', .head hR hsu, hl, htail⟩
  | @step _ _ s _ l' _ htail _ =>
    subst hc hc'
    exact ⟨s, l', .refl, rfl, htail⟩

/-- The trail of a single action. -/
theorem atomic {g : σ → α × σ} {a : α} (h : Trail R (.atomic g) s l (.ret a) t) :
    ∃ u, Relation.ReflTransGen R s u ∧ l = [(u, (g u).2)] := by
  rw [← bind_ret (Prog.atomic g)] at h
  obtain ⟨u, l', hsu, hl, htail⟩ := h.access
  obtain ⟨-, rfl, -⟩ := htail.of_ret
  exact ⟨u, hsu, hl⟩

/-- The trail of a sequence that returns: its first part returns, and then the second does. -/
theorem bind {c : Prog σ β} {f : β → Prog σ α} {a : α} (h : Trail R (c >>= f) s l (.ret a) t) :
    ∃ b u l₁ l₂, l = l₁ ++ l₂ ∧ Trail R c s l₁ (.ret b) u ∧ Trail R (f b) u l₂ (.ret a) t := by
  rw [bind_eq] at h
  generalize hd : c.bind f = d, hd' : Prog.ret a = d' at h
  induction h generalizing c with
  | @refl _ s =>
    subst hd
    cases c with
    | ret b =>
      exact ⟨b, s, [], [], rfl, .refl, .refl⟩
    | jump => cases hd'
    | act g k => cases hd'
    | loop body b k => cases hd'
  | env hR _ ih =>
    obtain ⟨b, u, l₁, l₂, hl, h₁, h₂⟩ := ih hd hd'
    exact ⟨b, u, l₁, l₂, hl, .env hR h₁, h₂⟩
  | @step _ _ s _ l hdone htail ih =>
    subst hd hd'
    by_cases hc : c.Done
    · cases c with
      | ret b => exact ⟨b, s, [], _, rfl, .refl, .step hdone htail⟩
      | jump => exact (hdone trivial).elim
      | act g k => exact hc.elim
      | loop body b k => exact hc.elim
    · rw [step_bind hc] at ih ⊢
      obtain ⟨b, u, l₁, l₂, rfl, h₁, h₂⟩ := ih rfl rfl
      exact ⟨b, u, _, l₂, rfl, .step hc h₁, h₂⟩

/-- What holds of every action of a program holds of every step of a trail. -/
theorem actions {r : σ → σ → Prop} (h : Trail R c s l c' t) (hr : ∀ s, r s s) (hc : c.Actions r) :
    ∀ st ∈ l, r st.1 st.2 := by
  induction h with
  | refl => exact fun _ hst => absurd hst List.not_mem_nil
  | env _ _ ih => exact ih hc
  | @step c _ s _ _ _ _ ih =>
    obtain ⟨hstep, hc'⟩ := hc.step hr s
    intro st hst
    rcases List.mem_cons.1 hst with rfl | hst
    · exact hstep
    · exact ih hc' st hst

/-- What holds of every step of the body of a loop, when it goes on or leaves the loop as the loop is
left, holds of every step of the loop. -/
theorem iterate {P : σ × σ → Prop} {body : β → Prog σ (β ⊕ γ)} {b : β} {a : γ}
    (h : Trail R (.iterate b body) s l (.ret a) t) (hrefl : ∀ s, P (s, s))
    (hbody : ∀ b s l r t, Trail R (body b) s l (.ret r) t → (∀ a', r = .inr a' → a' = a) →
      ∀ st ∈ l, P st) : ∀ st ∈ l, P st := by
  -- by induction on the length of the trail, which the unfolding of the loop shortens
  induction hn : l.length using Nat.strongRecOn generalizing b s l with
  | ind n ih =>
    generalize hc : Prog.iterate b body = c, hc' : Prog.ret a = c' at h
    induction h with
    | refl =>
      subst hc
      cases hc'
    | env _ _ ih' => exact ih' ih hn hc hc'
    | @step _ _ s _ l _ htail _ =>
      subst hc hc'
      obtain ⟨r, u, l₁, l₂, rfl, h₁, h₂⟩ := Trail.bind (c := body b) htail
      have hleave : ∀ a', r = .inr a' → a' = a := by
        rintro a' rfl
        exact h₂.of_ret.1.symm
      have hbefore : ∀ st ∈ l₁, P st := hbody b _ _ r _ h₁ hleave
      have hafter : ∀ st ∈ l₂, P st := by
        cases r with
        | inl b' =>
          refine ih l₂.length ?_ h₂ rfl
          rw [← hn, List.length_cons, List.length_append]
          omega
        | inr a' =>
          rw [h₂.of_ret.2.1]
          exact fun _ hst => absurd hst List.not_mem_nil
      intro st hst
      rcases List.mem_cons.1 hst with rfl | hst
      · exact hrefl s
      · rcases List.mem_append.1 hst with hst | hst
        · exact hbefore st hst
        · exact hafter st hst

end Trail

end Prog
