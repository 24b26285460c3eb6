import TinyStm.Conc.Pool

/-!
# Stronger protocols

A proof outline for one protocol is an outline for another one that asks for more: its steps are steps of
the first, and the steps of the thread that follow the first follow the second. So an outline is taken
over in the middle of a program, where a run is looked at from a later state on.
-/

section
variable {σ ι : Type} {G H : RG σ ι}

/-- The states and the steps of `H` are ones of `G`. -/
structure RG.Refines (H G : RG σ ι) : Prop where
  inv : ∀ s, H.inv s → G.inv s
  obs : ∀ s, H.obs s → G.obs s
  guar : ∀ p s s', H.inv s → H.inv s' → H.guar p s s' → G.guar p s s'

variable {p : ι}

/-- The assertion of the weaker protocol. -/
def Assn.under (hr : H.Refines G) (P : Assn G p) : Assn H p where
  holds := P.holds
  stable q hq s s' hs hs' hg :=
    P.stable q hq s s' (hr.inv s hs) (hr.inv s' hs') (hr.guar q s s' hs hs' hg)

/-- The outline of a thread whose steps all follow the stronger protocol too. -/
theorem Triple.under (hr : H.Refines G)
    (hstep : ∀ s s', H.Ok s → G.inv s' → G.guar p s s' → H.inv s' ∧ H.guar p s s') {α : Type}
    {P J : Assn G p} {c : Prog σ α} {Q : α → Assn G p} (h : Triple G p P c Q J) :
    Triple H p (P.under hr) c (fun a => (Q a).under hr) (J.under hr) := by
  have hok : ∀ s, H.Ok s → G.Ok s := fun s hs => ⟨hr.inv s hs.inv, hr.obs s hs.obs⟩
  induction h with
  | ret h => exact .ret fun s hs hP => h s (hok s hs) hP
  | jump h => exact .jump fun s hs hP => h s (hok s hs) hP
  | act R h _ ih =>
    refine .act (fun b => (R b).under hr) (fun s hs hP => ?_) ih
    obtain ⟨hinv, hguar, hR⟩ := h s (hok s hs) hP
    obtain ⟨hinv', hguar'⟩ := hstep s _ hs hinv hguar
    exact ⟨hinv', hguar', hR⟩
  | loop I R h _ _ ihb ihk =>
    refine .loop (fun b => (I b).under hr) (fun c => (R c).under hr) (fun s hs hP => h s (hok s hs) hP)
      (fun b => (ihb b).post (fun a _ _ h => ?_) fun _ _ h => h) ihk
    cases a with
    | inl b => exact h
    | inr c => exact h

namespace Pool

variable {B : (p : ι) → Assn G p} {B' : (p : ι) → Assn H p} {S : Pool σ ι}

/-- A thread in the middle of a call takes its outline over. -/
theorem AtOutline.under (hr : H.Refines G)
    (hstep : ∀ s s', H.Ok s → G.inv s' → G.guar p s s' → H.inv s' ∧ H.guar p s s')
    (hB : ∀ s, H.Ok s → B p s → B' p s) (h : AtOutline B S p) : AtOutline B' S p := by
  obtain ⟨P, hP, hS⟩ := h
  exact ⟨P.under hr, (hP.under hr hstep).post (fun _ s hs h => hB s hs h) fun s hs h => hB s hs h, hS⟩

/-- A thread that runs no command is at the end of every outline whose end holds. -/
theorem atOutline_done (hd : (S.ctl p).Done) (h : B p S.st) : AtOutline B S p := by
  refine ⟨B p, ?_, h⟩
  generalize S.ctl p = c at hd
  cases c with
  | ret a => exact .ret fun _ _ h => h
  | jump => exact .jump fun _ _ h => h
  | act => exact hd.elim
  | loop => exact hd.elim

end Pool

end
