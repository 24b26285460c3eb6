import TinyStm.Conc.Frame
import TinyStm.Conc.Steps

/-!
# Thread pools

The interleaving of any number of threads. Each thread runs the program of one command at a time
(`prog p k` for thread `p` and command `k`); between two commands its client chooses the next one.
`C p k s` is the set of choices that are considered, so a claim about some clients is a claim about
some `C`. `Pool.sound` is the soundness of the triples of `TinyStm.Conc.RelyGuarantee`:
if the program of every admitted command has a triple, the protocol's invariant holds in every
reachable state and every thread is at a point of its proof outline.
-/

/-- A state of the pool: the shared state and the rest of each thread's program. -/
structure Pool (σ ι : Type) where
  st : σ
  ctl : ι → Prog σ Unit

namespace Pool

variable {σ ι κ : Type}

/-- What happens next: thread `p` is given a command, or it performs its next step. -/
inductive Label (ι κ : Type)
  | invoke (p : ι) (k : κ)
  | exec (p : ι)

/-- The pool after a label. -/
def next [DecidableEq ι] (prog : ι → κ → Prog σ Unit) (S : Pool σ ι) : Label ι κ → Pool σ ι
  | .invoke p k => { S with ctl := Function.update S.ctl p (prog p k) }
  | .exec p =>
    { st := ((S.ctl p).step S.st).2, ctl := Function.update S.ctl p ((S.ctl p).step S.st).1 }

/-- A command may be given to a thread that has ended the previous one, if `C` admits it. -/
def Enabled (C : ι → κ → σ → Prop) (S : Pool σ ι) : Label ι κ → Prop
  | .invoke p k => (S.ctl p).Done ∧ C p k S.st
  | .exec _ => True

/-- The pools that a run from `S` reaches, when the clients choose as `C` admits. -/
inductive Reaches [DecidableEq ι] (prog : ι → κ → Prog σ Unit) (C : ι → κ → σ → Prop)
    (S : Pool σ ι) : Pool σ ι → Prop
  | refl : Reaches prog C S S
  | tail {T : Pool σ ι} (l : Label ι κ) : Reaches prog C S T → T.Enabled C l →
      Reaches prog C S (T.next prog l)

/-- The pools that a run from `S` reaches all of whose states satisfy `O`. -/
inductive ReachesIn [DecidableEq ι] (prog : ι → κ → Prog σ Unit) (C : ι → κ → σ → Prop)
    (O : σ → Prop) (S : Pool σ ι) : Pool σ ι → Prop
  | refl : O S.st → ReachesIn prog C O S S
  | tail {T : Pool σ ι} (l : Label ι κ) : ReachesIn prog C O S T → T.Enabled C l →
      O (T.next prog l).st → ReachesIn prog C O S (T.next prog l)

/-- The pool with no command running. -/
def init (s : σ) : Pool σ ι := ⟨s, fun _ => .ret ()⟩

variable {prog : ι → κ → Prog σ Unit} {C : ι → κ → σ → Prop} {S T U : Pool σ ι}

/-- Two runs after each other. -/
theorem Reaches.trans [DecidableEq ι] (h : Reaches prog C S T) (h' : Reaches prog C T U) :
    Reaches prog C S U := by
  induction h' with
  | refl => exact h
  | tail l _ hl ih => exact .tail l ih hl

/-- More calls are allowed. -/
theorem Reaches.mono [DecidableEq ι] {C' : ι → κ → σ → Prop} (hC : ∀ p k s, C p k s → C' p k s)
    (h : Reaches prog C S T) : Reaches prog C' S T := by
  induction h with
  | refl => exact .refl
  | tail l _ hl ih =>
    refine .tail l ih ?_
    cases l with
    | invoke p k => exact ⟨hl.1, hC p k _ hl.2⟩
    | exec p => trivial

/-- A run through states with `O` is a run. -/
theorem ReachesIn.reaches [DecidableEq ι] {O : σ → Prop} (h : ReachesIn prog C O S T) :
    Reaches prog C S T := by
  induction h with
  | refl => exact .refl
  | tail l _ hl _ ih => exact .tail l ih hl

/-- All runs are ones of which nothing is observed. -/
theorem Reaches.reachesIn [DecidableEq ι] (h : Reaches prog C S T) :
    ReachesIn prog C (fun _ => True) S T := by
  induction h with
  | refl => exact .refl trivial
  | tail l _ hl ih => exact .tail l ih hl trivial

/-- Two choices of calls that agree in the states that are reached have the same runs. -/
theorem Reaches.mono_of [DecidableEq ι] {C' : ι → κ → σ → Prop} (h : Reaches prog C S T)
    (hC : ∀ U p k, Reaches prog C S U → (U.ctl p).Done → C p k U.st → C' p k U.st) :
    Reaches prog C' S T := by
  induction h with
  | refl => exact .refl
  | tail l hT hl ih =>
    refine .tail l ih ?_
    cases l with
    | invoke p k => exact ⟨hl.1, hC _ p k hT hl.1 hl.2⟩
    | exec p => trivial

/-- The pool after a schedule. -/
def follow [DecidableEq ι] (prog : ι → κ → Prog σ Unit) (S : Pool σ ι) : List (Label ι κ) → Pool σ ι
  | [] => S
  | l :: ls => follow prog (S.next prog l) ls

/-- The schedule of some calls, one after the other, with `n` steps for each. -/
def Label.calls (n : ℕ) (ks : List (ι × κ)) : List (Label ι κ) :=
  ks.flatMap fun pk => .invoke pk.1 pk.2 :: List.replicate n (.exec pk.1)

/-- Every label of the schedule is enabled. -/
def Follows [DecidableEq ι] (prog : ι → κ → Prog σ Unit) (C : ι → κ → σ → Prop) (S : Pool σ ι) :
    List (Label ι κ) → Prop
  | [] => True
  | l :: ls => S.Enabled C l ∧ Follows prog C (S.next prog l) ls

instance [∀ p k s, Decidable (C p k s)] : (l : Label ι κ) → Decidable (S.Enabled C l)
  | .invoke p k => inferInstanceAs (Decidable ((S.ctl p).Done ∧ C p k S.st))
  | .exec _ => .isTrue trivial

instance Follows.decidable [DecidableEq ι] [∀ p k s, Decidable (C p k s)] :
    (S : Pool σ ι) → (ls : List (Label ι κ)) → Decidable (Follows prog C S ls)
  | _, [] => .isTrue trivial
  | S, l :: ls =>
    have := Follows.decidable (S.next prog l) ls
    inferInstanceAs (Decidable (S.Enabled C l ∧ Follows prog C (S.next prog l) ls))

/-- A schedule whose labels are all enabled is a run. -/
theorem Follows.reaches [DecidableEq ι] {ls : List (Label ι κ)} (h : Follows prog C S ls) :
    Reaches prog C S (follow prog S ls) := by
  induction ls generalizing S with
  | nil => exact .refl
  | cons l ls ih => exact Reaches.trans (.tail l .refl h.1) (ih h.2)

/-- Every label of the schedule is enabled, and all states on the way satisfy `O`. -/
def FollowsIn [DecidableEq ι] (prog : ι → κ → Prog σ Unit) (C : ι → κ → σ → Prop) (O : σ → Prop)
    (S : Pool σ ι) : List (Label ι κ) → Prop
  | [] => O S.st
  | l :: ls => O S.st ∧ S.Enabled C l ∧ FollowsIn prog C O (S.next prog l) ls

instance FollowsIn.decidable [DecidableEq ι] {O : σ → Prop} [∀ p k s, Decidable (C p k s)]
    [DecidablePred O] : (S : Pool σ ι) → (ls : List (Label ι κ)) →
      Decidable (FollowsIn prog C O S ls)
  | S, [] => inferInstanceAs (Decidable (O S.st))
  | S, l :: ls =>
    have := FollowsIn.decidable (O := O) (S.next prog l) ls
    inferInstanceAs (Decidable (O S.st ∧ S.Enabled C l ∧ FollowsIn prog C O (S.next prog l) ls))

/-- The run begins in a state with `O`. -/
theorem FollowsIn.obs [DecidableEq ι] {O : σ → Prop} {ls : List (Label ι κ)}
    (h : FollowsIn prog C O S ls) : O S.st := by
  cases ls with
  | nil => exact h
  | cons l ls => exact h.1

/-- A schedule in two parts. -/
theorem follow_append [DecidableEq ι] (S : Pool σ ι) (ls ls' : List (Label ι κ)) :
    follow prog S (ls ++ ls') = follow prog (follow prog S ls) ls' := by
  induction ls generalizing S with
  | nil => rfl
  | cons l ls ih => exact ih _

/-- A schedule in two parts that can be followed. -/
theorem follows_append [DecidableEq ι] {ls ls' : List (Label ι κ)} :
    Follows prog C S (ls ++ ls') ↔ Follows prog C S ls ∧ Follows prog C (follow prog S ls) ls' := by
  induction ls generalizing S with
  | nil => exact (true_and _).to_iff.symm
  | cons l ls ih => exact (and_congr_right fun _ => ih).trans and_assoc.symm

/-- A schedule whose labels are all enabled, and `O` after every part of it. -/
theorem Follows.followsIn [DecidableEq ι] {O : σ → Prop} {ls : List (Label ι κ)}
    (h : Follows prog C S ls) (hO : ∀ ls', ls' <+: ls → O (follow prog S ls').st) :
    FollowsIn prog C O S ls := by
  induction ls generalizing S with
  | nil => exact hO [] (List.prefix_refl [])
  | cons l ls ih =>
    refine ⟨hO [] (List.nil_prefix), h.1, ih h.2 fun ls' hls => ?_⟩
    exact hO (l :: ls') ((List.prefix_cons_inj l).2 hls)

/-- Such a schedule is a run whose states satisfy `O`. -/
theorem FollowsIn.reaches [DecidableEq ι] {O : σ → Prop} {ls : List (Label ι κ)}
    (h : FollowsIn prog C O S ls) : ReachesIn prog C O S (follow prog S ls) := by
  suffices ∀ T, ReachesIn prog C O S T → FollowsIn prog C O T ls →
      ReachesIn prog C O S (follow prog T ls) from this S (.refl h.obs) h
  clear h
  induction ls with
  | nil => exact fun T hT _ => hT
  | cons l ls ih => exact fun T hT hl => ih _ (hT.tail l hl.2.1 hl.2.2.obs) hl.2.2

section
variable {G : RG σ ι} {B : (p : ι) → Assn G p} {Pre : (p : ι) → κ → Assn G p}

/-- Thread `p` is at a point of a proof outline that ends in `B p`. -/
def AtOutline (B : (p : ι) → Assn G p) (S : Pool σ ι) (p : ι) : Prop :=
  ∃ P : Assn G p, Triple G p P (S.ctl p) (fun _ => B p) (B p) ∧ P S.st

/-- A thread that has ended its command is at the end of its outline. -/
theorem AtOutline.of_done {p : ι} (hs : G.Ok S.st) (h : AtOutline B S p) (hd : (S.ctl p).Done) :
    B p S.st := by
  obtain ⟨P, h, hP⟩ := h
  generalize S.ctl p = c at h hd
  cases h with
  | ret h => exact h _ hs hP
  | jump h => exact h _ hs hP
  | act => exact hd.elim
  | loop => exact hd.elim

/-- One label preserves the invariant and the outlines, and is a step that the protocol allows. -/
theorem next_sound [DecidableEq ι]
    (hk : ∀ p k, Triple G p (Pre p k) (prog p k) (fun _ => B p) (B p))
    (hC : ∀ p k s, G.Ok s → B p s → C p k s → Pre p k s)
    (hs : G.Ok S.st) (hB : ∀ p, AtOutline B S p) {l : Label ι κ} (hl : S.Enabled C l) :
    (G.inv (S.next prog l).st ∧ ∀ p, AtOutline B (S.next prog l) p) ∧
      ∃ p, G.guar p S.st (S.next prog l).st := by
  cases l with
  | invoke p k =>
    refine ⟨⟨hs.inv, fun q => ?_⟩, p, G.refl p _ hs.inv⟩
    by_cases hq : q = p
    · subst hq
      refine ⟨Pre q k, ?_, hC q k _ hs (AtOutline.of_done (S := S) hs (hB q) hl.1) hl.2⟩
      simpa [next] using hk q k
    · obtain ⟨P, h, hP⟩ := hB q
      exact ⟨P, by simpa [next, hq] using h, hP⟩
  | exec p =>
    obtain ⟨P, h, hP⟩ := hB p
    obtain ⟨hs', hg, P', h', hP'⟩ := h.step hs hP
    refine ⟨⟨hs', fun q => ?_⟩, p, hg⟩
    by_cases hq : q = p
    · subst hq
      exact ⟨P', by simpa [next] using h', hP'⟩
    · obtain ⟨R, hR, hRs⟩ := hB q
      exact ⟨R, by simpa [next, hq] using hR, R.stable p (Ne.symm hq) _ _ hs.inv hs' hg hRs⟩

/-- Soundness: in every reachable pool the invariant holds and every thread is at a point of its
proof outline, if the observation holds of all pools on the way. -/
theorem sound [DecidableEq ι]
    (hk : ∀ p k, Triple G p (Pre p k) (prog p k) (fun _ => B p) (B p))
    (hC : ∀ p k s, G.Ok s → B p s → C p k s → Pre p k s)
    (hs : G.inv S.st) (hB : ∀ p, AtOutline B S p) (h : Reaches prog C S T)
    (ho : ∀ U, Reaches prog C S U → Reaches prog C U T → G.obs U.st) :
    G.inv T.st ∧ ∀ p, AtOutline B T p := by
  induction h with
  | refl => exact ⟨hs, hB⟩
  | tail l hT hl ih =>
    have h := ih fun U hU hUT => ho U hU (hUT.tail l hl)
    exact (next_sound hk hC ⟨h.1, ho _ hT (Reaches.refl.tail l hl)⟩ h.2 hl).1

/-- A preorder that contains the steps of all threads contains the runs. -/
theorem sound_rel [DecidableEq ι] {R : σ → σ → Prop} (hR : ∀ s, R s s)
    (hR' : ∀ s t u, R s t → R t u → R s u)
    (hG : ∀ p s s', G.inv s → G.inv s' → G.guar p s s' → R s s')
    (hk : ∀ p k, Triple G p (Pre p k) (prog p k) (fun _ => B p) (B p))
    (hC : ∀ p k s, G.Ok s → B p s → C p k s → Pre p k s)
    (hs : G.inv S.st) (hB : ∀ p, AtOutline B S p) (h : Reaches prog C S T)
    (ho : ∀ U, Reaches prog C S U → Reaches prog C U T → G.obs U.st) : R S.st T.st := by
  induction h with
  | refl => exact hR _
  | tail l hT hl ih =>
    have ho' := fun U hU hUT => ho U hU (Reaches.tail l hUT hl)
    have h := sound hk hC hs hB hT ho'
    have h' := next_sound hk hC ⟨h.1, ho _ hT (Reaches.refl.tail l hl)⟩ h.2 hl
    obtain ⟨p, hg⟩ := h'.2
    exact hR' _ _ _ (ih ho') (hG p _ _ h.1 h'.1.1 hg)

/-- The run ends in a state with `O`. -/
theorem ReachesIn.obs [DecidableEq ι] {O : σ → Prop} (h : ReachesIn prog C O S T) : O T.st := by
  cases h with
  | refl h => exact h
  | tail _ _ _ h => exact h

/-- Soundness for the runs all of whose states satisfy `O`, where `G` observes the states on the
way. -/
theorem ReachesIn.sound_of [DecidableEq ι] {O : σ → Prop}
    (hk : ∀ p k, Triple G p (Pre p k) (prog p k) (fun _ => B p) (B p))
    (hC : ∀ p k s, G.Ok s → B p s → C p k s → Pre p k s)
    (hs : G.inv S.st) (hB : ∀ p, AtOutline B S p) (h : ReachesIn prog C O S T)
    (ho : ∀ U, ReachesIn prog C O S U → ReachesIn prog C O U T → G.obs U.st) :
    G.inv T.st ∧ ∀ p, AtOutline B T p := by
  induction h with
  | refl => exact ⟨hs, hB⟩
  | tail l hT hl hO ih =>
    have h := ih fun U hU hUT => ho U hU (.tail l hUT hl hO)
    exact (next_sound hk hC ⟨h.1, ho _ hT (.tail l (.refl hT.obs) hl hO)⟩ h.2 hl).1

/-- Soundness for the runs that are observed to satisfy `O`. -/
theorem ReachesIn.sound [DecidableEq ι] {O : σ → Prop} (hO : ∀ s, O s → G.obs s)
    (hk : ∀ p k, Triple G p (Pre p k) (prog p k) (fun _ => B p) (B p))
    (hC : ∀ p k s, G.Ok s → B p s → C p k s → Pre p k s)
    (hs : G.inv S.st) (hB : ∀ p, AtOutline B S p) (h : ReachesIn prog C O S T) :
    G.inv T.st ∧ ∀ p, AtOutline B T p :=
  h.sound_of hk hC hs hB fun _ hU _ => hO _ hU.obs

/-- A preorder that contains the steps of all threads contains the runs that are observed to satisfy
`O`. -/
theorem ReachesIn.sound_rel [DecidableEq ι] {O : σ → Prop} (hO : ∀ s, O s → G.obs s)
    {R : σ → σ → Prop} (hR : ∀ s, R s s) (hR' : ∀ s t u, R s t → R t u → R s u)
    (hG : ∀ p s s', G.inv s → G.inv s' → G.guar p s s' → R s s')
    (hk : ∀ p k, Triple G p (Pre p k) (prog p k) (fun _ => B p) (B p))
    (hC : ∀ p k s, G.Ok s → B p s → C p k s → Pre p k s)
    (hs : G.inv S.st) (hB : ∀ p, AtOutline B S p) (h : ReachesIn prog C O S T) : R S.st T.st := by
  induction h with
  | refl => exact hR _
  | tail l hT hl _ ih =>
    obtain ⟨hinv, hB⟩ := hT.sound hO hk hC hs hB
    obtain ⟨⟨hinv', -⟩, p, hg⟩ := next_sound hk hC ⟨hinv, hO _ hT.obs⟩ hB hl
    exact hR' _ _ _ ih (hG p _ _ hinv hinv' hg)

/-- What every step that the protocol allows preserves holds in every such run. -/
theorem ReachesIn.preserves [DecidableEq ι] {O : σ → Prop} (hO : ∀ s, O s → G.obs s)
    (hk : ∀ p k, Triple G p (Pre p k) (prog p k) (fun _ => B p) (B p))
    (hC : ∀ p k s, G.Ok s → B p s → C p k s → Pre p k s)
    (hs : G.inv S.st) (hB : ∀ p, AtOutline B S p) {J : σ → Prop} (hJ : J S.st)
    (hstep : ∀ p s s', G.inv s → G.guar p s s' → O s' → J s → J s')
    (h : ReachesIn prog C O S T) : J T.st := by
  induction h with
  | refl => exact hJ
  | tail l hT hl hO' ih =>
    obtain ⟨hinv, hB⟩ := hT.sound hO hk hC hs hB
    obtain ⟨-, p, hg⟩ := next_sound hk hC ⟨hinv, hO _ hT.obs⟩ hB hl
    exact hstep p _ _ hinv hg hO' ih

/-- A thread that runs no command is at the end of every outline whose end holds. -/
theorem atOutline_init {s : σ} {p : ι} (h : B p s) : AtOutline B (init s) p :=
  ⟨B p, .ret fun _ _ h => h, h⟩

end

/-- What every action of every command preserves holds in every run. -/
theorem ReachesIn.preserves_actions [DecidableEq ι] {O : σ → Prop} {r : ι → σ → σ → Prop}
    (hr : ∀ p s, r p s s) (hk : ∀ p k, (prog p k).Actions (r p)) {J : σ → Prop}
    (hS : ∀ p, (S.ctl p).Actions (r p)) (hJ : J S.st)
    (hstep : ∀ p s s', r p s s' → O s' → J s → J s') (h : ReachesIn prog C O S T) :
    J T.st ∧ ∀ p, (T.ctl p).Actions (r p) := by
  induction h with
  | refl => exact ⟨hJ, hS⟩
  | @tail T l _ _ hO' ih =>
    obtain ⟨hJ', hT⟩ := ih
    have hctl {p : ι} {c : Prog σ Unit} (hc : c.Actions (r p)) (q : ι) :
        (Function.update T.ctl p c q).Actions (r q) := by
      by_cases hq : q = p
      · subst hq
        rwa [Function.update_self]
      · rw [Function.update_of_ne hq]
        exact hT q
    cases l with
    | invoke p k => exact ⟨hJ', hctl (hk p k)⟩
    | exec p =>
      obtain ⟨hp, hc⟩ := (hT p).step (hr p) T.st
      exact ⟨hstep p _ _ hp hO' hJ', hctl hc⟩

/-- A thread that runs alone gets to the end of its program. -/
theorem ReachesIn.finish [DecidableEq ι] {p : ι} {c : Prog σ Unit} {s : σ} {Q : Unit → σ → Prop}
    {J : σ → Prop} (he : c.Ends Q J s) (h : ReachesIn prog C (fun _ => True) S T)
    (hc : T.ctl p = c) (hs : T.st = s) : ∃ U, ReachesIn prog C (fun _ => True) S U ∧
      (U.ctl p).Done ∧ (∀ q, q ≠ p → U.ctl q = T.ctl q) ∧ (Q () U.st ∨ J U.st) := by
  induction he generalizing T with
  | ret hq => exact ⟨T, h, by rw [hc]; trivial, fun _ _ => rfl, .inl (hs ▸ hq)⟩
  | jump hj => exact ⟨T, h, by rw [hc]; trivial, fun _ _ => rfl, .inr (hs ▸ hj)⟩
  | step _ _ ih =>
    subst hc hs
    obtain ⟨U, hU, hdone, hother, hq⟩ := ih (h.tail (.exec p) trivial trivial)
      (Function.update_self ..) rfl
    exact ⟨U, hU, hdone, fun q hq => (hother q hq).trans (Function.update_of_ne hq ..), hq⟩

/-- Every thread has ended its command. -/
def AllDone (S : Pool σ ι) : Prop := ∀ p, (S.ctl p).Done

/-- A call that is made when no other is running. -/
theorem ReachesIn.call [DecidableEq ι] {p : ι} {k : κ} {Q : σ → Prop}
    (h : ReachesIn prog C (fun _ => True) S T) (hd : T.AllDone) (hC : C p k T.st)
    (he : (prog p k).Ends (fun _ => Q) (fun _ => False) T.st) :
    ∃ U, ReachesIn prog C (fun _ => True) S U ∧ U.AllDone ∧ Q U.st := by
  obtain ⟨U, hU, hdone, hother, hq⟩ := ReachesIn.finish (p := p) he
    (h.tail (.invoke p k) ⟨hd p, hC⟩ trivial) (Function.update_self ..) rfl
  refine ⟨U, hU, fun q => ?_, hq.resolve_right id⟩
  by_cases hqp : q = p
  · rwa [hqp]
  · have hctl : (T.next prog (.invoke p k)).ctl q = T.ctl q := Function.update_of_ne hqp ..
    rw [hother q hqp, hctl]
    exact hd q

/-- One call after the other. -/
theorem ReachesIn.calls [DecidableEq ι] {p : ℕ → ι} {k : κ} {P : ℕ → σ → Prop} {n : ℕ}
    (hstep : ∀ i < n, ∀ s, P i s → C (p i) k s ∧
      (prog (p i) k).Ends (fun _ => P (i + 1)) (fun _ => False) s)
    (h : ReachesIn prog C (fun _ => True) S T) (hd : T.AllDone) (hP : P 0 T.st) :
    ∃ U, ReachesIn prog C (fun _ => True) S U ∧ U.AllDone ∧ P n U.st := by
  induction n with
  | zero => exact ⟨T, h, hd, hP⟩
  | succ n ih =>
    obtain ⟨U, hU, hdone, hPU⟩ := ih fun i hi => hstep i (by omega)
    obtain ⟨hC, he⟩ := hstep n (Nat.lt_succ_self n) _ hPU
    exact hU.call hdone hC he

end Pool
