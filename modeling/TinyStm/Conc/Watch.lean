import TinyStm.Conc.Agree
import TinyStm.Conc.Pool

/-!
# Properties between the points of an outline

`Watch G p K P c Q`: every action of `c` preserves the property `K`, if the action is a step that the
protocol `G` allows. The assertions say what is known between two actions, as those of a triple do, but the
invariant and the guarantee need not be shown again. The last action of a program may be left to the end
of its outline (`Prog.Watched`). `Pool.Reaches.watched` is the soundness for the runs of a pool.
-/

namespace Prog

variable {σ α : Type}

/-- The program has ended, or it does so with its next action, which is a step of `E`. -/
def Short (E : σ → σ → Prop) : Prog σ α → Prop
  | ret _ | jump => True
  | act g k => (∀ s, E s (g s).2) ∧ ∀ b, (k b).Done
  | loop .. => False

/-- The last step of a program. -/
theorem Short.step {E : σ → σ → Prop} {c : Prog σ α} (h : c.Short E) (s : σ) :
    (c.step s).1.Done ∧ ((c.step s).2 = s ∨ E s (c.step s).2) := by
  cases c with
  | ret a => exact ⟨trivial, .inl rfl⟩
  | jump => exact ⟨trivial, .inl rfl⟩
  | act g k => exact ⟨h.2 _, .inr (h.1 s)⟩
  | loop body b k => exact h.elim

/-- Every action is a step of `r`, but for one that the program ends with. -/
def ActionsBut (r : σ → σ → Prop) {α : Type} : Prog σ α → Prop
  | ret _ | jump => True
  | act g k => (∀ b, ∃ a, k b = ret a) ∨ (∀ s, r s (g s).2) ∧ ∀ b, (k b).ActionsBut r
  | loop body _ k => (∀ b, (body b).Actions r) ∧ ∀ c, (k c).ActionsBut r

/-- A part, and what follows it but for its last action. -/
theorem Actions.bind_but {β : Type} {r : σ → σ → Prop} {c : Prog σ α} {f : α → Prog σ β}
    (hc : c.Actions r) (hf : ∀ a, (f a).ActionsBut r) : (c >>= f).ActionsBut r := by
  rw [bind_eq]
  induction c with
  | ret a => exact hf a
  | jump => trivial
  | act g k ih => exact .inr ⟨hc.1, fun b => ih b (hc.2 b) hf⟩
  | loop body b k _ ihk => exact ⟨hc.1, fun c => ihk c (hc.2 c) hf⟩

end Prog

section
variable {σ ι : Type} (G : RG σ ι) (p : ι) (K : σ → Prop)

/-- The actions of the program that the protocol allows preserve `K`, from `P` on. -/
inductive Watch : {α : Type} → Assn G p → Prog σ α → (α → Assn G p) → Prop
  | ret {α : Type} {a : α} {P : Assn G p} {Q : α → Assn G p} :
      (∀ s, G.Ok s → P s → Q a s) → Watch P (.ret a) Q
  | jump {α : Type} {P : Assn G p} {Q : α → Assn G p} : Watch P .jump Q
  | act {α β : Type} {g : σ → β × σ} {k : β → Prog σ α} {P : Assn G p} {Q : α → Assn G p}
      (R : β → Assn G p) :
      (∀ s, G.Ok s → K s → P s → G.inv (g s).2 → G.guar p s (g s).2 →
        K (g s).2 ∧ R (g s).1 (g s).2) →
      (∀ b, Watch (R b) (k b) Q) → Watch P (.act g k) Q
  | loop {α β γ : Type} {body : β → Prog σ (β ⊕ γ)} {b : β} {k : γ → Prog σ α} {P : Assn G p}
      {Q : α → Assn G p} (I : β → Assn G p) (R : γ → Assn G p) :
      (∀ s, G.Ok s → P s → I b s) → (∀ b, Watch (I b) (body b) (Sum.elim I R)) →
      (∀ c, Watch (R c) (k c) Q) → Watch P (.loop body b k) Q

end

namespace Watch

variable {σ ι : Type} {G : RG σ ι} {p : ι} {K : σ → Prop} {α β γ : Type} {P P' : Assn G p}

/-- The precondition may be strengthened. -/
theorem pre {c : Prog σ α} {Q : α → Assn G p} (h : Watch G p K P c Q)
    (hP : ∀ s, G.Ok s → P' s → P s) : Watch G p K P' c Q := by
  cases h with
  | ret h => exact .ret fun s hs h' => h s hs (hP s hs h')
  | jump => exact .jump
  | act R h hk => exact .act R (fun s hs hK h' => h s hs hK (hP s hs h')) hk
  | loop I R h hb hk => exact .loop I R (fun s hs h' => h s hs (hP s hs h')) hb hk

/-- The postcondition may be weakened. -/
theorem post {c : Prog σ α} {Q Q' : α → Assn G p} (h : Watch G p K P c Q)
    (hQ : ∀ a s, G.Ok s → Q a s → Q' a s) : Watch G p K P c Q' := by
  induction h with
  | ret h => exact .ret fun s hs h' => hQ _ s hs (h s hs h')
  | jump => exact .jump
  | act R h _ ih => exact .act R h fun b => ih b hQ
  | loop I R h hb _ _ ihk => exact .loop I R h hb fun c => ihk c hQ

/-- Sequential composition. -/
theorem bind {c : Prog σ α} {f : α → Prog σ β} {R : α → Assn G p} {Q : β → Assn G p}
    (h : Watch G p K P c R) (hf : ∀ a, Watch G p K (R a) (f a) Q) :
    Watch G p K P (c >>= f) Q := by
  rw [Prog.bind_eq]
  induction h with
  | ret h => exact (hf _).pre h
  | jump => exact .jump
  | act R h _ ih => exact .act R h fun b => ih b hf
  | loop I R h hb _ _ ihk => exact .loop I R h hb fun c => ihk c hf

/-- A return. -/
theorem of_ret {a : α} {Q : α → Assn G p} (h : ∀ s, G.Ok s → P s → Q a s) :
    Watch G p K P (pure a) Q :=
  .ret h

/-- A loop, by an invariant. -/
theorem iterate {body : β → Prog σ (β ⊕ γ)} {b : β} (I : β → Assn G p) {Q : γ → Assn G p}
    (h : ∀ s, G.Ok s → P s → I b s) (hb : ∀ b, Watch G p K (I b) (body b) (Sum.elim I Q)) :
    Watch G p K P (.iterate b body) Q :=
  .loop I Q h hb fun _ => .ret fun _ _ h => h

/-- A case distinction on a decidable condition. -/
theorem ite {φ : Prop} [Decidable φ] {c d : Prog σ α} {Q : α → Assn G p}
    (hc : φ → Watch G p K P c Q) (hd : ¬ φ → Watch G p K P d Q) :
    Watch G p K P (if φ then c else d) Q := by
  split
  · exact hc ‹_›
  · exact hd ‹_›

/-- A program with a triple whose actions preserve the property. -/
theorem of_triple {c : Prog σ α} {Q : α → Assn G p} {J : Assn G p} {r : σ → σ → Prop}
    (hr : ∀ s s', G.Ok s → G.inv s' → G.guar p s s' → r s s' → K s → K s')
    (h : Triple G p P c Q J) (hc : c.Actions r) : Watch G p K P c Q := by
  induction h with
  | ret h => exact .ret h
  | jump => exact .jump
  | act R h _ ih =>
    refine .act R (fun s hs hK hP hi hg => ?_) fun b => ih b (hc.2 b)
    exact ⟨hr s _ hs hi hg (hc.1 s) hK, (h s hs hP).2.2⟩
  | loop I R h _ _ ihb ihk =>
    exact .loop I R h (fun b => ihb b (hc.1 b)) fun c => ihk c (hc.2 c)

/-- The same where the last action leads to the property. -/
theorem of_last {c : Prog σ α} {Q : α → Assn G p} {J : Assn G p} {r : σ → σ → Prop}
    (ho : ∀ s, G.obs s) (hr : ∀ s s', G.Ok s → G.inv s' → G.guar p s s' → r s s' → K s → K s')
    (h : Triple G p P c Q J) (hc : c.ActionsBut r) (hQ : ∀ a s, G.Ok s → Q a s → K s) :
    Watch G p K P c Q := by
  induction h with
  | ret h => exact .ret h
  | jump => exact .jump
  | @act α β g k P Q J R h hk ih =>
    rcases hc with hret | ⟨hg, hc⟩
    · refine .act (fun b => R b) (fun s hs _ hP hi _ => ?_) fun b => ?_
      · obtain ⟨a, ha⟩ := hret (g s).1
        have hR := (h s hs hP).2.2
        have hQs := hk (g s).1
        rw [ha] at hQs
        cases hQs with
        | ret hQs => exact ⟨hQ a _ ⟨hi, ho _⟩ (hQs _ ⟨hi, ho _⟩ hR), hR⟩
      · obtain ⟨a, ha⟩ := hret b
        have hQs := hk b
        rw [ha] at hQs ⊢
        cases hQs with
        | ret hQs => exact .ret hQs
    · refine .act R (fun s hs hK hP hi hg' => ?_) fun b => ih b (hc b) hQ
      exact ⟨hr s _ hs hi hg' (hg s) hK, (h s hs hP).2.2⟩
  | loop I R h hb _ _ ihk =>
    exact .loop I R h (fun b => of_triple hr (hb b) (hc.1 b)) fun c => ihk c (hc.2 c) hQ

/-- A program whose actions preserve the property and an assertion. -/
theorem of_actions {c : Prog σ α} {r : σ → σ → Prop} (hc : c.Actions r)
    (hr : ∀ s s', G.Ok s → G.inv s' → G.guar p s s' → r s s' → K s → P s → K s' ∧ P s') :
    Watch G p K P c fun _ => P := by
  induction c with
  | ret a => exact .ret fun _ _ h => h
  | jump => exact .jump
  | act g k ih =>
    refine .act (fun _ => P) (fun s hs hK hP hi hg => ?_) fun b => ih b (hc.2 b)
    exact hr s _ hs hi hg (hc.1 s) hK hP
  | loop body b k ihb ihk =>
    refine .loop (fun _ => P) (fun _ => P) (fun _ _ h => h) (fun b => ?_) fun c => ihk c (hc.2 c)
    refine (ihb b (hc.1 b)).post fun a _ _ h => ?_
    cases a <;> exact h

/-- An action that reads the state, and what follows it. -/
theorem look {g : σ → β} {k : β → Prog σ α} {Q : α → Assn G p} (R : β → Assn G p)
    (h : ∀ s, G.Ok s → P s → R (g s) s) (hk : ∀ b, Watch G p K (R b) (k b) Q) :
    Watch G p K P (Prog.read g >>= k) Q :=
  .act R (fun s hs hK hP _ _ => ⟨hK, h s hs hP⟩) hk

/-- A program with calls, if an assertion holds of all states. -/
theorem of_mirrors {ι' : Type} {r : σ → σ → Prop} {ρ ρ' : ι' → Prog σ Unit} {c c' : Prog σ α}
    (hP : ∀ s, P s) (hr : ∀ s s', G.Ok s → G.inv s' → G.guar p s s' → r s s' → K s → K s')
    (hρ : ∀ i, Watch G p K P (ρ i) fun _ => P) (h : Prog.Mirrors r ρ ρ' c c') :
    Watch G p K P c fun _ => P := by
  induction h with
  | within h =>
    exact of_actions (h.actions fun _ _ h => h) fun s s' hs hi hg hr' hK _ =>
      ⟨hr s s' hs hi hg hr' hK, hP s'⟩
  | call i => exact hρ i
  | bind _ _ ihc ihf => exact ihc.bind ihf
  | iterate b _ ih =>
    refine iterate (fun _ => P) (fun _ _ h => h) fun b => (ih b).post fun a _ _ h => ?_
    cases a <;> exact h

/-- What a watched action says. -/
theorem act_inv {g : σ → β × σ} {k : β → Prog σ α} {Q : α → Assn G p}
    (h : Watch G p K P (.act g k) Q) : ∃ R : β → Assn G p,
      (∀ s, G.Ok s → K s → P s → G.inv (g s).2 → G.guar p s (g s).2 →
        K (g s).2 ∧ R (g s).1 (g s).2) ∧ ∀ b, Watch G p K (R b) (k b) Q := by
  cases h with
  | act R h hk => exact ⟨R, h, hk⟩

/-- What a watched loop says. -/
theorem loop_inv {body : β → Prog σ (β ⊕ γ)} {b : β} {k : γ → Prog σ α} {Q : α → Assn G p}
    (h : Watch G p K P (.loop body b k) Q) : ∃ (I : β → Assn G p) (R : γ → Assn G p),
      (∀ s, G.Ok s → P s → I b s) ∧ (∀ b, Watch G p K (I b) (body b) (Sum.elim I R)) ∧
      ∀ c, Watch G p K (R c) (k c) Q := by
  cases h with
  | loop I R h hb hk => exact ⟨I, R, h, hb, hk⟩

/-- A program that is watched from each `R i` is watched from their disjunction. -/
theorem of_ex {ι' : Type} {c : Prog σ α} {R : ι' → Assn G p} {Q : α → Assn G p}
    (h : ∀ i, Watch G p K (R i) c Q) : Watch G p K (.ex R) c Q := by
  induction c generalizing R with
  | ret a =>
    refine .ret fun s hs ⟨i, hi⟩ => ?_
    cases h i with | ret h => exact h s hs hi
  | jump => exact .jump
  | act g k ih =>
    choose R' hR' hk using fun i => act_inv (h i)
    refine .act (fun b => .ex fun i => R' i b) (fun s hs hK ⟨i, hi⟩ hinv hg => ?_) fun b =>
      ih b fun i => hk i b
    have ⟨h1, h2⟩ := hR' i s hs hK hi hinv hg
    exact ⟨h1, i, h2⟩
  | loop body b k ihb ihk =>
    choose I R' hI hb hk using fun i => loop_inv (h i)
    refine .loop (fun b => .ex fun i => I i b) (fun c => .ex fun i => R' i c)
      (fun s hs ⟨i, hi⟩ => ⟨i, hI i s hs hi⟩) (fun b => ihb b fun i => ?_) fun c =>
      ihk c fun i => hk i c
    refine (hb i b).post fun r s _ hr => ?_
    cases r with
    | inl b => exact ⟨i, hr⟩
    | inr c => exact ⟨i, hr⟩

/-- A fact that follows from the precondition may be assumed of the whole program. -/
theorem of_fact {φ : Prop} {c : Prog σ α} {Q : α → Assn G p} (hφ : ∀ s, G.Ok s → P s → φ)
    (h : φ → Watch G p K P c Q) : Watch G p K P c Q :=
  (of_ex (R := fun _ : PLift φ => P) fun i => h i.down).pre fun s hs hP => ⟨⟨hφ s hs hP⟩, hP⟩

/-- What one step preserves. -/
theorem step {c : Prog σ α} {Q : α → Assn G p} (h : Watch G p K P c Q) {s : σ} (hs : G.Ok s)
    (hK : K s) (hP : P s) (hinv : G.inv (c.step s).2) (hg : G.guar p s (c.step s).2) :
    K (c.step s).2 ∧ ∃ P' : Assn G p, Watch G p K P' (c.step s).1 Q ∧ P' (c.step s).2 := by
  cases h with
  | ret h => exact ⟨hK, P, .ret h, hP⟩
  | jump => exact ⟨hK, P, .jump, hP⟩
  | act R h hk =>
    have ⟨h1, h2⟩ := h s hs hK hP hinv hg
    exact ⟨h1, _, hk _, h2⟩
  | loop I R h hb hk =>
    refine ⟨hK, I _, (hb _).bind fun r => ?_, h s hs hP⟩
    cases r with
    | inl b => exact .loop I R (fun _ _ h => h) hb hk
    | inr c => exact hk c

end Watch

/-! ## Runs -/

section
variable {σ ι : Type} (G : RG σ ι) (p : ι) (K : σ → Prop) (E : σ → σ → Prop)

/-- The program is watched but for its last action, which is a step of `E`. -/
inductive Watched {α : Type} : Assn G p → Prog σ α → Prop
  | mk {β : Type} {P : Assn G p} {d : Prog σ β} {f : β → Prog σ α} {Q : β → Assn G p} :
      Watch G p K P d Q → (∀ b, (f b).Short E) → Watched P (d.bind f)

end

/-- There may be no last action. -/
theorem Watched.of_watch {σ ι α : Type} {G : RG σ ι} {p : ι} {K : σ → Prop} {E : σ → σ → Prop}
    {P : Assn G p} {c : Prog σ α} {Q : α → Assn G p} (h : Watch G p K P c Q) : Watched G p K E P c := by
  have hw := Watched.mk (f := Prog.ret) (E := E) h fun _ => trivial
  rwa [Prog.bind_ret] at hw

/-- One step of a watched program preserves the property, or it is the last one. -/
theorem Watched.step {σ ι α : Type} {G : RG σ ι} {p : ι} {K : σ → Prop} {E : σ → σ → Prop}
    {P : Assn G p} {c : Prog σ α} (h : Watched G p K E P c) {s : σ} (hs : G.Ok s) (hK : K s)
    (hP : P s) (hinv : G.inv (c.step s).2) (hg : G.guar p s (c.step s).2) :
    (K (c.step s).2 ∧ ∃ P' : Assn G p, Watched G p K E P' (c.step s).1 ∧ P' (c.step s).2) ∨
      (c.step s).1.Done ∧ (K (c.step s).2 ∨ E s (c.step s).2) := by
  cases h with
  | @mk β _ d f Q hd hf =>
    by_cases hdone : d.Done
    · right
      cases d with
      | ret b =>
        obtain ⟨hdone', hs'⟩ := (hf b).step s
        refine ⟨hdone', hs'.imp_left fun heq => ?_⟩
        change K ((f b).step s).2
        rw [heq]
        exact hK
      | jump => exact ⟨trivial, .inl hK⟩
      | act => exact hdone.elim
      | loop => exact hdone.elim
    · left
      rw [Prog.step_bind hdone] at hinv hg ⊢
      obtain ⟨hK', P', hd', hP'⟩ := hd.step hs hK hP hinv hg
      exact ⟨hK', P', .mk hd' hf, hP'⟩

namespace Pool

variable {σ ι κ : Type} [DecidableEq ι] {prog : ι → κ → Prog σ Unit} {C : ι → κ → σ → Prop}
  {S T : Pool σ ι} {G : RG σ ι} {B : (p : ι) → Assn G p} {Pre : (p : ι) → κ → Assn G p}
  {K : ι → σ → Prop} {E : ι → σ → σ → Prop}

/-- In every reachable pool each thread has its property `K`, if the programs of the commands preserve it,
the steps of the other threads do, and after a last action the end of the outline implies it. -/
theorem Reaches.watched
    (hk : ∀ p k, Triple G p (Pre p k) (prog p k) (fun _ => B p) (B p))
    (hC : ∀ p k s, G.Ok s → B p s → C p k s → Pre p k s) (ho : ∀ s, G.obs s)
    (hw : ∀ p k s, C p k s → Watched G p (K p) (E p) (Pre p k) (prog p k))
    (hother : ∀ p q s s', q ≠ p → G.inv s → G.inv s' → G.guar q s s' → K p s → K p s')
    (hend : ∀ p s s', K p s → E p s s' → G.inv s' → G.guar p s s' → B p s' → K p s')
    (hs : G.inv S.st) (hB : ∀ p, AtOutline B S p) (hS : S.AllDone) (hK : ∀ p, K p S.st)
    (h : Reaches prog C S T) : ∀ p, K p T.st := by
  suffices G.inv T.st ∧ (∀ p, AtOutline B T p) ∧ ∀ p, K p T.st ∧ ((T.ctl p).Done ∨
      ∃ P : Assn G p, Watched G p (K p) (E p) P (T.ctl p) ∧ P T.st) from fun p => (this.2.2 p).1
  induction h with
  | refl => exact ⟨hs, hB, fun p => ⟨hK p, .inl (hS p)⟩⟩
  | @tail T l hT hl ih =>
    obtain ⟨hinv, hB, hW⟩ := ih
    have hok : G.Ok T.st := ⟨hinv, ho _⟩
    obtain ⟨hinv', hB'⟩ := (next_sound hk hC hok hB hl).1
    refine ⟨hinv', hB', fun p => ?_⟩
    cases l with
    | invoke q k =>
      refine ⟨(hW p).1, ?_⟩
      by_cases hq : p = q
      · subst hq
        have hctl : (T.next prog (.invoke p k)).ctl p = prog p k := Function.update_self ..
        rw [hctl]
        exact .inr ⟨Pre p k, hw p k _ hl.2, hC p k _ hok (AtOutline.of_done (S := T) hok (hB p) hl.1) hl.2⟩
      · have hctl : (T.next prog (.invoke q k)).ctl p = T.ctl p := Function.update_of_ne hq ..
        rw [hctl]
        exact (hW p).2
    | exec q =>
      obtain ⟨P, hP, hPs⟩ := hB q
      have hg := (hP.step hok hPs).2.1
      by_cases hq : p = q
      · subst hq
        have hctl : (T.next prog (.exec p)).ctl p = ((T.ctl p).step T.st).1 := Function.update_self ..
        rw [hctl]
        rcases (hW p).2 with hdone | ⟨P', hP', hPs'⟩
        · have hstep := Prog.step_of_done hdone T.st
          refine ⟨?_, .inl ?_⟩
          · change K p ((T.ctl p).step T.st).2
            rw [hstep]
            exact (hW p).1
          · rw [hstep]
            exact hdone
        · rcases hP'.step hok (hW p).1 hPs' hinv' hg with ⟨hK', P'', hP'', hPs''⟩ | ⟨hdone, hE⟩
          · exact ⟨hK', .inr ⟨P'', hP'', hPs''⟩⟩
          · refine ⟨hE.elim id fun hE => ?_, .inl hdone⟩
            have hend' := (hB' p).of_done ⟨hinv', ho _⟩ (hctl.symm ▸ hdone)
            exact hend p _ _ (hW p).1 hE hinv' hg hend'
      · have hctl : (T.next prog (.exec q)).ctl p = T.ctl p := Function.update_of_ne hq ..
        rw [hctl]
        refine ⟨hother p q _ _ (Ne.symm hq) hinv hinv' hg (hW p).1, ?_⟩
        refine (hW p).2.imp_right fun ⟨P', hP', hPs'⟩ => ⟨P', hP', ?_⟩
        exact P'.stable q (Ne.symm hq) _ _ hinv hinv' hg hPs'

end Pool
