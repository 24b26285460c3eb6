import TinyStm.Conc.Frame

/-!
# Executions of one program

`Prog.Steps R O` is the execution of one program while other threads act on the state as the relation
`R` says; all states on the way satisfy `O`. A triple of `TinyStm.Conc.RelyGuarantee` is sound for
it. `Prog.Ends Q J` is total correctness without interference: the program ends, with `Q` at a
return and with `J` at a non-local exit.
-/

namespace Prog

variable {σ α β γ : Type}

/-- The program and the state after some steps of the program and of the other threads. -/
inductive Steps (R : σ → σ → Prop) (O : σ → Prop) (c : Prog σ α) (s : σ) : Prog σ α → σ → Prop
  | refl : O s → Steps R O c s c s
  | env {c' : Prog σ α} {s' s'' : σ} : Steps R O c s c' s' → R s' s'' → O s'' →
      Steps R O c s c' s''
  | step {c' : Prog σ α} {s' : σ} : Steps R O c s c' s' → ¬ c'.Done → O (c'.step s').2 →
      Steps R O c s (c'.step s').1 (c'.step s').2

namespace Steps

variable {R : σ → σ → Prop} {O : σ → Prop} {c c' c'' : Prog σ α} {s s' s'' : σ}

/-- The steps end in a state with `O`. -/
theorem obs (h : Steps R O c s c' s') : O s' := by
  cases h with
  | refl h => exact h
  | env _ _ h => exact h
  | step _ _ h => exact h

/-- Steps after each other. -/
theorem trans (h : Steps R O c s c' s') (h' : Steps R O c' s' c'' s'') : Steps R O c s c'' s'' := by
  induction h' with
  | refl _ => exact h
  | env _ hR hO ih => exact .env ih hR hO
  | step _ hd hO ih => exact .step ih hd hO

/-- The steps of a program that runs alone. -/
theorem run (n : ℕ) (c : Prog σ α) (s : σ) :
    Steps R (fun _ => True) c s (run n c s).1 (run n c s).2 := by
  induction n generalizing c s with
  | zero => exact .refl trivial
  | succ n ih =>
    by_cases hd : c.Done
    · have h := ih c s
      rwa [Prog.run, step_of_done hd]
    · exact .trans (.step (.refl trivial) hd trivial) (ih _ _)

end Steps

/-! ## Total correctness without interference -/

/-- The program ends: with `Q` at a return, with `J` at a non-local exit. -/
inductive Ends (Q : α → σ → Prop) (J : σ → Prop) : Prog σ α → σ → Prop
  | ret {a : α} {s : σ} : Q a s → Ends Q J (.ret a) s
  | jump {s : σ} : J s → Ends Q J .jump s
  | step {c : Prog σ α} {s : σ} : ¬ c.Done → Ends Q J (c.step s).1 (c.step s).2 → Ends Q J c s

namespace Ends

variable {Q Q' : α → σ → Prop} {J J' : σ → Prop} {s : σ}

/-- The postconditions may be weakened. -/
theorem mono {c : Prog σ α} (h : Ends Q J c s) (hQ : ∀ a t, Q a t → Q' a t)
    (hJ : ∀ t, J t → J' t) : Ends Q' J' c s := by
  induction h with
  | ret h => exact .ret (hQ _ _ h)
  | jump h => exact .jump (hJ _ h)
  | step hd _ ih => exact .step hd ih

/-- A part that ends, and what follows it. -/
theorem bind {c : Prog σ α} {f : α → Prog σ β} {Q' : β → σ → Prop}
    (h : Ends Q J c s) (hf : ∀ a t, Q a t → Ends Q' J (f a) t) : Ends Q' J (c.bind f) s := by
  induction h with
  | ret h => exact hf _ _ h
  | jump h => exact .jump h
  | step hd _ ih =>
    refine .step (not_done_bind hd f) ?_
    rw [step_bind hd]
    exact ih

/-- A program that ends does so in one way. -/
theorem and {c : Prog σ α} (h : Ends Q J c s) (h' : Ends Q' J' c s) :
    Ends (fun a t => Q a t ∧ Q' a t) (fun t => J t ∧ J' t) c s := by
  induction h with
  | ret h =>
    cases h' with
    | ret h' => exact .ret ⟨h, h'⟩
    | step hd => exact (hd trivial).elim
  | jump h =>
    cases h' with
    | jump h' => exact .jump ⟨h, h'⟩
    | step hd => exact (hd trivial).elim
  | step hd _ ih =>
    cases h' with
    | ret => exact (hd trivial).elim
    | jump => exact (hd trivial).elim
    | step _ h' => exact .step hd (ih h')

/-- A program returns, and both of what it returns with is true. -/
theorem meet {c : Prog σ α} {φ : Prop} (h : Ends Q (fun _ => False) c s) (h' : Ends Q' J' c s)
    (hφ : ∀ a t, Q a t → Q' a t → φ) : φ := by
  have hφ' : Ends (fun _ _ => φ) (fun _ => False) c s :=
    (h.and h').mono (fun a t hq => hφ a t hq.1 hq.2) fun _ hj => hj.1
  clear h h'
  induction hφ' with
  | ret h => exact h
  | jump h => exact h.elim
  | step _ _ ih => exact ih

/-- An action. -/
theorem act {g : σ → β × σ} {k : β → Prog σ α} (h : Ends Q J (k (g s).1) (g s).2) :
    Ends Q J (.act g k) s :=
  .step id h

/-- A single action. -/
theorem atomic {g : σ → α × σ} (h : Q (g s).1 (g s).2) : Ends Q J (.atomic g) s :=
  .act (.ret h)

/-- An action and what follows it. -/
theorem access {g : σ → β × σ} {f : β → Prog σ α} (h : Ends Q J (f (g s).1) (g s).2) :
    Ends Q J (.atomic g >>= f) s :=
  .act h

/-- A loop, unfolded. -/
theorem loop {body : β → Prog σ (β ⊕ γ)} {b : β} {k : γ → Prog σ α}
    (h : Ends (fun r t => Ends Q J (Sum.elim (fun b' => .loop body b' k) k r) t) J (body b) s) :
    Ends Q J (.loop body b k) s :=
  .step id (h.bind fun _ _ h => h)

/-- A loop whose body leaves it. -/
theorem leave {body : β → Prog σ (β ⊕ α)} {b : β}
    (h : Ends (fun r t => ∃ a, r = .inr a ∧ Q a t) J (body b) s) : Ends Q J (.iterate b body) s :=
  .loop (h.mono (fun _ _ ⟨_, hr, ha⟩ => hr ▸ .ret ha) fun _ h => h)

/-- A loop that keeps an invariant and decreases a measure ends. -/
theorem iterate {body : β → Prog σ (β ⊕ γ)} {Q : γ → σ → Prop} (I : β → σ → Prop) (f : β → ℕ)
    (hb : ∀ b s, I b s → (body b).Ends
      (fun r t => Sum.elim (fun b' => I b' t ∧ f b' < f b) (fun c => Q c t) r) J s)
    {b : β} (h : I b s) : Ends Q J (.iterate b body) s := by
  induction hn : f b using Nat.strongRecOn generalizing b s with
  | ind n ih =>
    refine .loop ((hb b s h).mono (fun r t hr => ?_) fun _ h => h)
    cases r with
    | inl b' => exact ih _ (hn ▸ hr.2) hr.1 rfl
    | inr c => exact .ret hr

/-- The steps of a program that runs alone. -/
theorem of_steps {c d : Prog σ α} {t : σ} (h : Ends Q J c s)
    (hs : Steps (fun _ _ => False) (fun _ => True) c s d t) : Ends Q J d t := by
  induction hs with
  | refl _ => exact h
  | env _ hR _ _ => exact hR.elim
  | step _ hd _ ih =>
    cases ih with
    | ret _ => exact (hd trivial).elim
    | jump _ => exact (hd trivial).elim
    | step _ h => exact h

/-- A program that ends has ended after some steps. -/
theorem steps {R : σ → σ → Prop} {c : Prog σ α} (h : Ends Q J c s) :
    ∃ d t, d.Done ∧ Steps R (fun _ => True) c s d t ∧ Ends Q J d t := by
  induction h with
  | @ret a s h => exact ⟨.ret a, s, trivial, .refl trivial, .ret h⟩
  | @jump s h => exact ⟨.jump, s, trivial, .refl trivial, .jump h⟩
  | step hd _ ih =>
    obtain ⟨d, t, hdone, hs, h⟩ := ih
    exact ⟨d, t, hdone, .trans (.step (.refl trivial) hd trivial) hs, h⟩

/-- Programs that end differently when they run alone do not have the same executions. -/
theorem not_same {c c' : Prog σ α} (h : Ends Q (fun _ => False) c s)
    (h' : Ends Q' (fun _ => False) c' s) (hne : ∀ a t, Q a t → ¬ Q' a t) :
    ¬ ∀ d t, d.Done → (Steps (fun _ _ => False) (fun _ => True) c s d t ↔
      Steps (fun _ _ => False) (fun _ => True) c' s d t) := by
  intro hsame
  obtain ⟨d, t, hd, hs, hend⟩ := h.steps
  have hend' := h'.of_steps ((hsame d t hd).1 hs)
  cases hend with
  | ret h =>
    cases hend' with
    | ret h' => exact hne _ _ h h'
    | step hd' _ => exact hd' hd
  | jump h => exact h
  | step hd' _ => exact hd' hd

end Ends

/-- There is neither a loop nor a non-local exit. -/
def Straight {α : Type} : Prog σ α → Prop
  | ret _ => True
  | jump => False
  | act _ k => ∀ b, (k b).Straight
  | loop .. => False

/-- A part without loops, and what follows it. -/
theorem Straight.bind {c : Prog σ α} {f : α → Prog σ β} (hc : c.Straight)
    (hf : ∀ a, (f a).Straight) : (c >>= f).Straight := by
  rw [bind_eq]
  induction c with
  | ret a => exact hf a
  | jump => exact hc
  | act g k ih => exact fun b => ih b (hc b) hf
  | loop body b k => exact hc.elim

/-- One action. -/
theorem straight_atomic (g : σ → α × σ) : (atomic g).Straight := fun _ => trivial

/-- A program without loops ends, and its actions compose. -/
theorem Within.ends {r : σ → σ → Prop} (hr : ∀ s, r s s) (hr' : ∀ s t u, r s t → r t u → r s u)
    {J : σ → Prop} {c : Prog σ α} (hc : c.Within r) (hs : c.Straight) (s : σ) :
    c.Ends (fun _ t => r s t) J s := by
  induction c generalizing s with
  | ret a => exact .ret (hr s)
  | jump => exact hs.elim
  | act g k ih =>
    refine .act ((ih _ (hc.2 _) (hs _) _).mono (fun _ t ht => ?_) fun _ h => h)
    exact hr' _ _ _ (hc.1 s) ht
  | loop body b k => exact hs.elim

/-! ## Reachability -/

/-- Some execution of the program reaches a state in which `Q` holds of the rest of the program. -/
inductive May (R : σ → σ → Prop) (Q : Prog σ α → σ → Prop) : Prog σ α → σ → Prop
  | here {c : Prog σ α} {s : σ} : Q c s → May R Q c s
  | env {c : Prog σ α} {s t : σ} : R s t → May R Q c t → May R Q c s
  | step {c : Prog σ α} {s : σ} : ¬ c.Done → May R Q (c.step s).1 (c.step s).2 → May R Q c s

namespace May

variable {R : σ → σ → Prop} {Q : Prog σ α → σ → Prop} {s : σ}

/-- What may be reached is reached by some execution. -/
theorem steps {c : Prog σ α} (h : May R Q c s) :
    ∃ c' t, Steps R (fun _ => True) c s c' t ∧ Q c' t := by
  induction h with
  | here h => exact ⟨_, _, .refl trivial, h⟩
  | env hR _ ih =>
    obtain ⟨c', t, hs, hq⟩ := ih
    exact ⟨c', t, .trans (.env (.refl trivial) hR trivial) hs, hq⟩
  | step hd _ ih =>
    obtain ⟨c', t, hs, hq⟩ := ih
    exact ⟨c', t, .trans (.step (.refl trivial) hd trivial) hs, hq⟩

/-- A single action. -/
theorem atomic {g : σ → α × σ} (h : Q (.ret (g s).1) (g s).2) : May R Q (.atomic g) s :=
  .step id (.here h)

/-- An action and what follows it. -/
theorem access {g : σ → β × σ} {f : β → Prog σ α} (h : May R Q (f (g s).1) (g s).2) :
    May R Q (.atomic g >>= f) s :=
  .step id h

/-- A program that ends, and what follows it. -/
theorem seq {c : Prog σ β} {f : β → Prog σ α} {P : β → σ → Prop} {J : σ → Prop}
    (h : Ends P J c s) (hf : ∀ a t, P a t → May R Q (f a) t) (hj : ∀ t, J t → May R Q .jump t) :
    May R Q (c >>= f) s := by
  rw [bind_eq]
  induction h with
  | ret h => exact hf _ _ h
  | jump h => exact hj _ h
  | step hd _ ih =>
    refine .step (not_done_bind hd f) ?_
    rw [step_bind hd]
    exact ih

/-- A program that may return, and what follows it. -/
theorem andThen {c : Prog σ β} {f : β → Prog σ α} {P : β → σ → Prop}
    (h : May R (fun c t => ∃ a, c = .ret a ∧ P a t) c s) (hf : ∀ a t, P a t → May R Q (f a) t) :
    May R Q (c >>= f) s := by
  rw [bind_eq]
  induction h with
  | here h =>
    obtain ⟨a, rfl, ha⟩ := h
    exact hf a _ ha
  | env hR _ ih => exact .env hR ih
  | step hd _ ih =>
    refine .step (not_done_bind hd f) ?_
    rw [step_bind hd]
    exact ih

/-- A loop and what follows it, unfolded. -/
theorem again {body : β → Prog σ (β ⊕ γ)} {b : β} {f : γ → Prog σ α}
    (h : May R Q (body b >>= Sum.elim (fun b' => .iterate b' body >>= f) f) s) :
    May R Q (.iterate b body >>= f) s :=
  .step id h

/-- A loop whose body may leave it. -/
theorem leave {body : β → Prog σ (β ⊕ α)} {b : β}
    (h : May R (fun c t => ∃ a, c = .ret (.inr a) ∧ Q (.ret a) t) (body b) s) :
    May R Q (.iterate b body) s := by
  refine .step id (andThen (P := fun r t => ∃ a, r = .inr a ∧ Q (.ret a) t) ?_ fun r t hr => ?_)
  · generalize body b = c at h
    induction h with
    | here h =>
      obtain ⟨a, rfl, ha⟩ := h
      exact .here ⟨_, rfl, a, rfl, ha⟩
    | env hR _ ih => exact .env hR ih
    | step hd _ ih => exact .step hd ih
  · obtain ⟨a, rfl, ha⟩ := hr
    exact .here ha

/-- What the first part of a sequence may reach. -/
theorem bind {Q : σ → Prop} {c : Prog σ β} {f : β → Prog σ α}
    (h : May R (fun _ => Q) c s) : May R (fun _ => Q) (c >>= f) s := by
  rw [bind_eq]
  induction h with
  | here h => exact .here h
  | env hR _ ih => exact .env hR ih
  | step hd _ ih =>
    refine .step (not_done_bind hd f) ?_
    rw [step_bind hd]
    exact ih

/-- What the body of a loop may reach. -/
theorem iterate {Q : σ → Prop} {body : β → Prog σ (β ⊕ γ)} {b : β}
    (h : May R (fun _ => Q) (body b) s) : May R (fun _ => Q) (.iterate b body) s :=
  .step id h.bind

end May

end Prog

/-! ## Soundness of the triples -/

/-- What the other threads may do between two actions of thread `p`: any change that keeps the
invariant and all assertions of `p`. -/
def RG.Rely {σ ι : Type} (G : RG σ ι) (p : ι) (s s' : σ) : Prop :=
  G.inv s → G.inv s' ∧ ∀ P : Assn G p, P s → P s'

namespace Triple

variable {σ ι α : Type} {G : RG σ ι} {p : ι} {P : Assn G p} {c c' : Prog σ α} {Q : α → Assn G p}
  {J : Assn G p} {R : σ → σ → Prop} {s s' : σ}

/-- A program that has a triple keeps the invariant and is at a point of its proof outline at every
point of an execution. -/
theorem steps (h : Triple G p P c Q J) (hR : ∀ s s', R s s' → G.Rely p s s')
    (he : Prog.Steps R G.obs c s c' s') (hs : G.inv s) (hP : P s) :
    G.inv s' ∧ ∃ P' : Assn G p, Triple G p P' c' Q J ∧ P' s' := by
  induction he with
  | refl _ => exact ⟨hs, P, h, hP⟩
  | env _ hRs _ ih =>
    obtain ⟨hs', P', h', hP'⟩ := ih
    obtain ⟨hs'', hP''⟩ := hR _ _ hRs hs'
    exact ⟨hs'', P', h', hP'' P' hP'⟩
  | step he hd _ ih =>
    obtain ⟨hs', P', h', hP'⟩ := ih
    obtain ⟨hs'', -, h''⟩ := h'.step ⟨hs', he.obs⟩ hP'
    exact ⟨hs'', h''⟩

/-- What holds when the program has returned. -/
theorem steps_ret {a : α} (h : Triple G p P c Q J) (hR : ∀ s s', R s s' → G.Rely p s s')
    (he : Prog.Steps R G.obs c s (.ret a) s') (hs : G.inv s) (hP : P s) : Q a s' := by
  obtain ⟨hs', P', h', hP'⟩ := h.steps hR he hs hP
  cases h' with
  | ret h => exact h _ ⟨hs', he.obs⟩ hP'

/-- What holds when the program has ended by a non-local exit. -/
theorem steps_jump (h : Triple G p P c Q J) (hR : ∀ s s', R s s' → G.Rely p s s')
    (he : Prog.Steps R G.obs c s .jump s') (hs : G.inv s) (hP : P s) : J s' := by
  obtain ⟨hs', P', h', hP'⟩ := h.steps hR he hs hP
  cases h' with
  | jump h => exact h _ ⟨hs', he.obs⟩ hP'

end Triple
