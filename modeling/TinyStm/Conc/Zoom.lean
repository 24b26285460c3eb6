import TinyStm.Conc.Frame
import TinyStm.Conc.Steps

/-!
# Programs on a part of the state

A program written for a part `τ` of the state runs on the whole state `σ`: its actions read the part by
`get` and write it back by `set`. A non-local exit of such a program is the end of the process
(`exit`), so nothing follows it. A triple for the part becomes a triple for the whole, when the steps of
the other threads look to the part like steps of its own protocol.
-/

namespace Prog

variable {σ τ α β γ : Type}

/-- The program that never ends. -/
def diverge : Prog σ α :=
  .loop (fun _ : Unit => .ret (.inl ())) () fun e : Empty => nomatch e

/-- The program on the whole state. -/
def zoom (get : σ → τ) (set : τ → σ → σ) {α : Type} : Prog τ α → Prog σ α
  | ret a => ret a
  | jump => diverge
  | act g k => act (fun s => ((g (get s)).1, set (g (get s)).2 s)) fun b => (k b).zoom get set
  | loop body b k =>
    loop (fun b => (body b).zoom get set) b fun c => (k c).zoom get set

/-- Nothing follows a program that diverges. -/
theorem diverge_bind (f : α → Prog σ β) : (diverge : Prog σ α).bind f = diverge := by
  simp only [diverge, bind]
  congr 1
  funext e
  cases e

/-- A sequence runs on the whole state as its parts do. -/
theorem zoom_bind {get : σ → τ} {set : τ → σ → σ} (c : Prog τ α) (f : α → Prog τ β) :
    (c.bind f).zoom get set = (c.zoom get set).bind fun a => (f a).zoom get set := by
  induction c with
  | ret a => rfl
  | jump => exact (diverge_bind _).symm
  | act g k ih => simp only [bind, zoom, ih]
  | loop body b k _ ih => simp only [bind, zoom, ih]

end Prog

/-- An assertion about a part of the state, as one about the whole. -/
def Assn.pull {σ τ ι κ : Type} {G : RG τ κ} {H : RG σ ι} {i : κ} {p : ι} (get : σ → τ)
    (hstab : ∀ q, q ≠ p → ∀ s s', H.inv s → H.inv s' → H.guar q s s' →
      G.inv (get s) ∧ G.inv (get s') ∧ ∃ j, j ≠ i ∧ G.guar j (get s) (get s'))
    (P : Assn G i) : Assn H p where
  holds s := P (get s)
  stable q hq s s' hs hs' hg h := by
    obtain ⟨hs, hs', j, hj, hg⟩ := hstab q hq s s' hs hs' hg
    exact P.stable j hj _ _ hs hs' hg h

namespace Triple

variable {σ τ ι κ α : Type} {G : RG τ κ} {H : RG σ ι} {i : κ} {p : ι}

/-- Anything holds after a program that diverges. -/
theorem diverge {P J : Assn H p} {Q : α → Assn H p} : Triple H p P .diverge Q J :=
  .loop (fun _ => P) (fun e => nomatch e) (fun _ _ h => h)
    (fun _ => .of_ret fun _ _ h => h) fun e => nomatch e

/-- What a program does to its part of the state it does to the whole, beside an assertion `F` about the
rest. -/
theorem zoom {get : σ → τ} {set : τ → σ → σ} {F J' : Assn H p}
    (hstab : ∀ q, q ≠ p → ∀ s s', H.inv s → H.inv s' → H.guar q s s' →
      G.inv (get s) ∧ G.inv (get s') ∧ ∃ j, j ≠ i ∧ G.guar j (get s) (get s'))
    (hok : ∀ s, H.Ok s → G.Ok (get s))
    (hstep : ∀ s t, H.Ok s → F s → G.inv t → G.guar i (get s) t →
      H.inv (set t s) ∧ H.guar p s (set t s) ∧ F (set t s) ∧ get (set t s) = t)
    {P J : Assn G i} {c : Prog τ α} {Q : α → Assn G i} (h : Triple G i P c Q J) :
    Triple H p (F ⊓ P.pull get hstab) (c.zoom get set) (fun a => F ⊓ (Q a).pull get hstab) J' := by
  induction h with
  | ret h => exact .ret fun s hs hP => ⟨hP.1, h _ (hok s hs) hP.2⟩
  | jump _ => exact .diverge
  | act R h _ ih =>
    refine .act (fun b => F ⊓ (R b).pull get hstab) (fun s hs hP => ?_) ih
    obtain ⟨hinv, hguar, hR⟩ := h _ (hok s hs) hP.2
    obtain ⟨hinv', hguar', hF, hget⟩ := hstep s _ hs hP.1 hinv hguar
    exact ⟨hinv', hguar', hF, show R _ _ by rw [hget]; exact hR⟩
  | loop I R h _ _ ihb ihk =>
    refine .loop (fun b => F ⊓ (I b).pull get hstab) (fun c => F ⊓ (R c).pull get hstab)
      (fun s hs hP => ⟨hP.1, h _ (hok s hs) hP.2⟩) (fun b => (ihb b).post (fun a _ _ h => ?_)
        fun _ _ h => h) ihk
    cases a with
    | inl b => exact h
    | inr c => exact h

end Triple

namespace Prog

variable {σ τ α : Type} {get : σ → τ} {set : τ → σ → σ} {r : τ → τ → Prop}

/-- What all actions leave alone in the part. -/
theorem Within.zoom {c : Prog τ α} (h : c.Within r) :
    (c.zoom get set).Within fun s s' => ∃ t, r (get s) t ∧ s' = set t s := by
  induction c with
  | ret a => trivial
  | jump => exact h.elim
  | act g k ih => exact ⟨fun s => ⟨_, h.1 _, rfl⟩, fun b => ih b (h.2 b)⟩
  | loop body b k ihb ihk => exact ⟨fun b => ihb b (h.1 b), fun c => ihk c (h.2 c)⟩

/-- What all actions do to the part, and so to the whole. -/
theorem Actions.zoom {r' : σ → σ → Prop} {c : Prog τ α} (h : c.Actions r)
    (hr : ∀ s t, r (get s) t → r' s (set t s)) : (c.zoom get set).Actions r' := by
  induction c with
  | ret a => trivial
  | jump => exact ⟨fun _ => trivial, nofun⟩
  | act g k ih => exact ⟨fun s => hr s _ (h.1 _), fun b => ih b (h.2 b)⟩
  | loop body b k ihb ihk => exact ⟨fun b => ihb b (h.1 b), fun c => ihk c (h.2 c)⟩

/-- A program on a part makes no non-local exit from the whole. -/
theorem Actions.zoom_within {r' : σ → σ → Prop} {c : Prog τ α} (h : c.Actions r)
    (hr : ∀ s t, r (get s) t → r' s (set t s)) : (c.zoom get set).Within r' := by
  induction c with
  | ret a => trivial
  | jump => exact ⟨fun _ => trivial, nofun⟩
  | act g k ih => exact ⟨fun s => hr s _ (h.1 _), fun b => ih b (h.2 b)⟩
  | loop body b k ihb ihk => exact ⟨fun b => ihb b (h.1 b), fun c => ihk c (h.2 c)⟩

/-- What a program that ends does to its part of the state it does to the whole, and nothing else. -/
theorem Ends.zoom (get : σ → τ) (set : τ → σ → σ) {Q : α → τ → Prop} {J : σ → Prop} {c : Prog τ α}
    {u : τ} (hget : ∀ t s, get (set t s) = t) (hset : ∀ t t' s, set t (set t' s) = set t s)
    (hself : ∀ s, set (get s) s = s) (h : c.Ends Q (fun _ => False) u) {s : σ} (hu : get s = u) :
    (c.zoom get set).Ends (fun a s' => Q a (get s') ∧ s' = set (get s') s) J s := by
  induction h generalizing s with
  | ret h => exact .ret ⟨hu ▸ h, (hself s).symm⟩
  | jump h => exact h.elim
  | @step c u hd _ ih =>
    subst hu
    cases c with
    | ret a => exact (hd trivial).elim
    | jump => exact (hd trivial).elim
    | act g k =>
      refine .act ((ih (hget _ s)).mono (fun a s' h => ⟨h.1, ?_⟩) fun _ h => h)
      exact h.2.trans (hset _ _ s)
    | loop body b k =>
      have hstep := ih (s := s) rfl
      have hnext : (fun r => (Sum.elim (fun b' => Prog.loop body b' k) k r).zoom get set) =
          Sum.elim (fun b' => Prog.loop (fun b => (body b).zoom get set) b'
            fun c => (k c).zoom get set) fun c => (k c).zoom get set := by
        funext r
        cases r <;> rfl
      rw [Prog.step, zoom_bind, hnext] at hstep
      exact .step id hstep

end Prog
