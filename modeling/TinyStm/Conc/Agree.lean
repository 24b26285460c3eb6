import TinyStm.Conc.Frame
import TinyStm.Conc.Steps

/-!
# Programs that agree

`Agree I c c'`: in states that satisfy `I` the programs perform the same actions, and these keep `I`;
so they have the same executions (`Agree.ended_iff`). `Mirrors r ρ ρ' c c'`: the programs are the same
but for calls of subprograms, `ρ i` in one of them where the other calls `ρ' i`.
-/

namespace Prog

variable {σ ι : Type} {α β γ : Type} {I : σ → Prop}

/-- In states that satisfy `I`, the two programs perform the same actions, which keep `I`. -/
inductive Agree (I : σ → Prop) : {α : Type} → Prog σ α → Prog σ α → Prop
  | ret {α : Type} (a : α) : Agree I (.ret a) (.ret a)
  | jump {α : Type} : Agree I (.jump : Prog σ α) .jump
  | act {α β : Type} (g : σ → β × σ) {k k' : β → Prog σ α} :
      (∀ s, I s → I (g s).2) → (∀ s, I s → Agree I (k (g s).1) (k' (g s).1)) →
      Agree I (.act g k) (.act g k')
  | loop {α β γ : Type} {body body' : β → Prog σ (β ⊕ γ)} (b : β) {k k' : γ → Prog σ α} :
      (∀ b, Agree I (body b) (body' b)) → (∀ c, Agree I (k c) (k' c)) →
      Agree I (.loop body b k) (.loop body' b k')

namespace Agree

variable {c c' : Prog σ α}

/-- The two programs may be exchanged. -/
theorem symm (h : Agree I c c') : Agree I c' c := by
  induction h with
  | ret a => exact .ret a
  | jump => exact .jump
  | act g hg _ ih => exact .act g hg ih
  | loop b _ _ ihb ihk => exact .loop b ihb ihk

/-- Programs that agree, and what follows them. -/
theorem bind (h : Agree I c c') {f f' : α → Prog σ β} (hf : ∀ a, Agree I (f a) (f' a)) :
    Agree I (c.bind f) (c'.bind f') := by
  induction h with
  | ret a => exact hf a
  | jump => exact .jump
  | act g hg _ ih => exact .act g hg fun s hs => ih s hs hf
  | loop b hb _ _ ihk => exact .loop b hb fun c => ihk c hf

/-- A program that keeps `I` agrees with itself. -/
theorem of_within {r : σ → σ → Prop} (hr : ∀ s s', r s s' → I s → I s') (h : c.Within r) :
    Agree I c c := by
  induction c with
  | ret a => exact .ret a
  | jump => exact h.elim
  | act g k ih => exact .act g (fun s => hr _ _ (h.1 s)) fun s _ => ih _ (h.2 _)
  | loop body b k ihb ihk => exact .loop b (fun b => ihb b (h.1 b)) fun c => ihk c (h.2 c)

/-- Loops whose bodies agree. -/
theorem iterate {body body' : β → Prog σ (β ⊕ γ)} (b : β) (h : ∀ b, Agree I (body b) (body' b)) :
    Agree I (.iterate b body) (.iterate b body') :=
  .loop b h fun c => .ret c

/-- Programs that agree take the same steps. -/
theorem step (h : Agree I c c') {s : σ} (hs : I s) :
    I (c.step s).2 ∧ (c'.step s).2 = (c.step s).2 ∧ Agree I (c.step s).1 (c'.step s).1 := by
  cases h with
  | ret a => exact ⟨hs, rfl, .ret a⟩
  | jump => exact ⟨hs, rfl, .jump⟩
  | act g hg h => exact ⟨hg s hs, rfl, h s hs⟩
  | loop b hb hk =>
    refine ⟨hs, rfl, (hb b).bind fun r => ?_⟩
    cases r with
    | inl b' => exact .loop b' hb hk
    | inr c => exact hk c

/-- Both have ended, or neither. -/
theorem done_iff (h : Agree I c c') : c.Done ↔ c'.Done := by
  cases h <;> rfl

/-- A program that has ended agrees with nothing but itself. -/
theorem eq_of_done (h : Agree I c c') (hd : c.Done) : c' = c := by
  cases h with
  | ret a => rfl
  | jump => rfl
  | act => exact hd.elim
  | loop => exact hd.elim

/-- Programs that agree have the same executions. -/
theorem steps {R : σ → σ → Prop} (hR : ∀ s s', R s s' → I s → I s') (h : Agree I c c') {s t : σ}
    (hs : I s) {d : Prog σ α} (he : Steps R (fun _ => True) c s d t) :
    ∃ d', Steps R (fun _ => True) c' s d' t ∧ Agree I d d' ∧ I t := by
  induction he with
  | refl _ => exact ⟨c', .refl trivial, h, hs⟩
  | env _ hRs _ ih =>
    obtain ⟨d', he', hd', ht⟩ := ih
    exact ⟨d', .env he' hRs trivial, hd', hR _ _ hRs ht⟩
  | step _ hd _ ih =>
    obtain ⟨d', he', hd', ht⟩ := ih
    obtain ⟨ht', heq, hagree⟩ := hd'.step ht
    exact ⟨_, heq ▸ he'.step (hd'.done_iff.not.1 hd) trivial, hagree, ht'⟩

/-- Programs that agree end alike. -/
theorem ended_iff {R : σ → σ → Prop} (hR : ∀ s s', R s s' → I s → I s') (h : Agree I c c') {s t : σ}
    (hs : I s) {d : Prog σ α} (hd : d.Done) :
    Steps R (fun _ => True) c s d t ↔ Steps R (fun _ => True) c' s d t := by
  constructor
  · intro he
    obtain ⟨d', he', hd', -⟩ := h.steps hR hs he
    exact hd'.eq_of_done hd ▸ he'
  · intro he
    obtain ⟨d', he', hd', -⟩ := h.symm.steps hR hs he
    exact hd'.eq_of_done hd ▸ he'

end Agree

/-! ## Programs with calls -/

/-- The two programs are made alike of programs whose actions are steps of `r`, and of calls: of `ρ i`
in one of them where the other calls `ρ' i`. -/
inductive Mirrors (r : σ → σ → Prop) (ρ ρ' : ι → Prog σ Unit) :
    {α : Type} → Prog σ α → Prog σ α → Prop
  | within {α : Type} {c : Prog σ α} : c.Within r → Mirrors r ρ ρ' c c
  | call (i : ι) : Mirrors r ρ ρ' (ρ i) (ρ' i)
  | bind {α β : Type} {c c' : Prog σ β} {f f' : β → Prog σ α} : Mirrors r ρ ρ' c c' →
      (∀ b, Mirrors r ρ ρ' (f b) (f' b)) → Mirrors r ρ ρ' (c >>= f) (c' >>= f')
  | iterate {β γ : Type} {body body' : β → Prog σ (β ⊕ γ)} (b : β) :
      (∀ b, Mirrors r ρ ρ' (body b) (body' b)) →
      Mirrors r ρ ρ' (.iterate b body) (.iterate b body')

namespace Mirrors

variable {r : σ → σ → Prop} {ρ ρ' : ι → Prog σ Unit} {c c' : Prog σ α}

/-- Nothing is done. -/
theorem pure (a : α) : Mirrors r ρ ρ' (Pure.pure a) (Pure.pure a) :=
  .within trivial

/-- A part without calls, and what follows it. -/
theorem access {d : Prog σ β} {f f' : β → Prog σ α} (hd : d.Within r)
    (hf : ∀ b, Mirrors r ρ ρ' (f b) (f' b)) : Mirrors r ρ ρ' (d >>= f) (d >>= f') :=
  .bind (.within hd) hf

/-- A case distinction. -/
theorem ite {φ : Prop} [Decidable φ] {d d' : Prog σ α} (h : φ → Mirrors r ρ ρ' c c')
    (h' : ¬ φ → Mirrors r ρ ρ' d d') :
    Mirrors r ρ ρ' (if φ then c else d) (if φ then c' else d') := by
  split
  · exact h ‹_›
  · exact h' ‹_›

/-- Programs that mirror each other agree if their calls do and their other actions keep `I`. -/
theorem agree (hr : ∀ s s', r s s' → I s → I s') (hρ : ∀ i, Agree I (ρ i) (ρ' i))
    (h : Mirrors r ρ ρ' c c') : Agree I c c' := by
  induction h with
  | within h => exact .of_within hr h
  | call i => exact hρ i
  | bind _ _ ihc ihf => exact ihc.bind ihf
  | iterate b _ ih => exact .iterate b ih

/-- What the actions of the parts without calls and of the calls do. -/
theorem actions {r' : σ → σ → Prop} (hr : ∀ s s', r s s' → r' s s')
    (hρ : ∀ i, (ρ i).Actions r') (h : Mirrors r ρ ρ' c c') : c.Actions r' := by
  induction h with
  | within h => exact h.actions hr
  | call i => exact hρ i
  | bind _ _ ihc ihf => exact ihc.bind ihf
  | iterate b _ ih => exact actions_iterate ih

/-- An assertion that the parts without calls and the calls keep. -/
theorem triple {κ : Type} {G : RG σ κ} {p : κ} {P J : Assn G p}
    (hr : ∀ s s', G.Ok s → r s s' → P s → G.inv s' ∧ G.guar p s s' ∧ P s')
    (hρ : ∀ i, Triple G p P (ρ i) (fun _ => P) J) (h : Mirrors r ρ ρ' c c') :
    Triple G p P c (fun _ => P) J := by
  induction h with
  | within h => exact .of_within h hr
  | call i => exact hρ i
  | bind _ _ ihc ihf => exact .bind ihc ihf
  | iterate b _ ih =>
    refine .iterate (fun _ => P) (fun _ _ h => h) fun b => (ih b).post (fun a _ _ h => ?_) fun _ _ h => h
    cases a <;> exact h

end Mirrors

end Prog
