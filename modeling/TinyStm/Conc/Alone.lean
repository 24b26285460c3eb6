import TinyStm.Conc.Pool

/-!
# One thread alone

The part of a run in which one thread takes all steps. A program that ends when it runs without
interference (`Prog.Ends`) is a call of such a run, and the steps follow the thread's own guarantee.
-/

namespace Pool

variable {σ ι κ : Type}

/-- The thread that takes the step. -/
def Label.thread : Label ι κ → ι
  | .invoke p _ => p
  | .exec p => p

/-- The pools that thread `p` reaches from `S` while no other thread takes a step. -/
inductive ReachesAlone [DecidableEq ι] (prog : ι → κ → Prog σ Unit) (C : ι → κ → σ → Prop) (p : ι)
    (S : Pool σ ι) : Pool σ ι → Prop
  | refl : ReachesAlone prog C p S S
  | tail {T : Pool σ ι} (l : Label ι κ) : ReachesAlone prog C p S T → l.thread = p →
      T.Enabled C l → ReachesAlone prog C p S (T.next prog l)

variable [DecidableEq ι] {prog : ι → κ → Prog σ Unit} {C : ι → κ → σ → Prop} {p : ι}
  {S T U : Pool σ ι}

namespace ReachesAlone

/-- Two runs after each other. -/
theorem trans (h : ReachesAlone prog C p S T) (h' : ReachesAlone prog C p T U) :
    ReachesAlone prog C p S U := by
  induction h' with
  | refl => exact h
  | tail l _ hp hl ih => exact .tail l ih hp hl

/-- A run of one thread is a run. -/
theorem reaches (h : ReachesAlone prog C p S T) : Reaches prog C S T := by
  induction h with
  | refl => exact .refl
  | tail l _ _ hl ih => exact .tail l ih hl

/-- The other threads are where they were. -/
theorem ctl (h : ReachesAlone prog C p S T) {q : ι} (hq : q ≠ p) : T.ctl q = S.ctl q := by
  induction h with
  | refl => rfl
  | tail l _ hp _ ih =>
    subst hp
    cases l with
    | invoke p k => exact (Function.update_of_ne hq ..).trans ih
    | exec p => exact (Function.update_of_ne hq ..).trans ih

/-- The thread gets to the end of its program. -/
theorem finish {c : Prog σ Unit} {s : σ} {Q : σ → Prop} (he : c.Ends (fun _ => Q) Q s)
    (hc : S.ctl p = c) (hs : S.st = s) :
    ∃ T, ReachesAlone prog C p S T ∧ (T.ctl p).Done ∧ Q T.st := by
  induction he generalizing S with
  | ret hq => exact ⟨S, .refl, by rw [hc]; trivial, hs ▸ hq⟩
  | jump hq => exact ⟨S, .refl, by rw [hc]; trivial, hs ▸ hq⟩
  | step _ _ ih =>
    subst hc hs
    obtain ⟨T, hT, hd, hq⟩ := ih (S := S.next prog (.exec p)) (Function.update_self ..) rfl
    exact ⟨T, .trans (.tail (.exec p) .refl rfl trivial) hT, hd, hq⟩

/-- A call. -/
theorem call {k : κ} {Q : σ → Prop} (hd : (S.ctl p).Done) (hC : C p k S.st)
    (he : (prog p k).Ends (fun _ => Q) Q S.st) :
    ∃ T, ReachesAlone prog C p S T ∧ (T.ctl p).Done ∧ Q T.st := by
  obtain ⟨T, hT, hdone, hq⟩ := finish (C := C) (S := S.next prog (.invoke p k)) he
    (Function.update_self ..) rfl
  exact ⟨T, .trans (.tail (.invoke p k) .refl rfl ⟨hd, hC⟩) hT, hdone, hq⟩

end ReachesAlone

section
variable {G : RG σ ι} {B : (p : ι) → Assn G p} {Pre : (p : ι) → κ → Assn G p}

/-- A label is a step that the protocol allows its thread. -/
theorem next_guar (hs : G.Ok S.st) (hB : ∀ p, AtOutline B S p) (l : Label ι κ) :
    G.guar l.thread S.st (S.next prog l).st := by
  cases l with
  | invoke p k => exact G.refl p _ hs.inv
  | exec p =>
    obtain ⟨P, h, hP⟩ := hB p
    exact (h.step hs hP).2.1

/-- A preorder that contains the steps of `p` contains the runs of `p` alone. -/
theorem ReachesAlone.sound_rel {R : σ → σ → Prop} (hR : ∀ s, R s s)
    (hR' : ∀ s t u, R s t → R t u → R s u)
    (hG : ∀ s s', G.inv s → G.inv s' → G.guar p s s' → R s s')
    (hk : ∀ p k, Triple G p (Pre p k) (prog p k) (fun _ => B p) (B p))
    (hC : ∀ p k s, G.Ok s → B p s → C p k s → Pre p k s) (hobs : ∀ s, G.obs s)
    (hs : G.inv S.st) (hB : ∀ p, AtOutline B S p) (h : ReachesAlone prog C p S T) :
    R S.st T.st := by
  induction h with
  | refl => exact hR _
  | @tail V l hT hp hl ih =>
    obtain ⟨hinv, hout⟩ := sound hk hC hs hB hT.reaches fun _ _ _ => hobs _
    have hguar : G.guar l.thread V.st (V.next prog l).st := next_guar ⟨hinv, hobs _⟩ hout l
    have hinv' := (next_sound hk hC ⟨hinv, hobs _⟩ hout hl).1.1
    exact hR' _ _ _ ih (hG _ _ hinv hinv' (hp ▸ hguar))

end

end Pool
