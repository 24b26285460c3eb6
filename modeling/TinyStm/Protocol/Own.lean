import TinyStm.Conc.Steps
import TinyStm.Model.Stm

/-!
# What a thread has to itself

The part of the state that no other thread changes: the thread's descriptor, the lock words that
point into its write set, and its commits. Under `ownProtocol p I O` the other threads may do anything to the
rest of the state, and thread `p` keeps `I` of its own part in every state; a call of a thread can be
reasoned about by it whatever the other threads run.
-/

namespace TinyStm

variable {Tid Addr Lock : Type} {w : ℕ} [DecidableEq Tid]

/-- What thread `p` has to itself: its descriptor, the index of the entry that each of its locks points
to, and its commits. -/
structure Own (Tid Addr Lock : Type) (w : ℕ) where
  tx : StmTx Addr Lock w
  locks : Lock → Option ℕ
  commits : History Tid Addr w

/-- The index of the entry of `p` that a lock word points to. -/
def LockWord.entryOf (p : Tid) : LockWord Tid → Option ℕ
  | .free _ => none
  | .owned q i => if q = p then some i else none

theorem LockWord.entryOf_eq_some {p : Tid} {i : ℕ} {l : LockWord Tid} :
    l.entryOf p = some i ↔ l = .owned p i := by
  cases l with
  | free l => simp [entryOf]
  | owned q j => simp [entryOf]

/-- What thread `p` has to itself. -/
def State.own (s : State Tid Addr Lock w) (p : Tid) : Own Tid Addr Lock w where
  tx := s.txs p
  locks ℓ := (s.locks ℓ).entryOf p
  commits := s.commits.filter fun c => c.tid = p

/-- The protocol of a thread (`true`) and all others (`false`), which change nothing of what thread `p`
has to itself. In every state `I` holds of that part, and all states of a run satisfy `O`. -/
def ownProtocol (p : Tid) (I : Own Tid Addr Lock w → Prop) (O : State Tid Addr Lock w → Prop) :
    RG (State Tid Addr Lock w) Bool where
  inv s := I (s.own p)
  guar b s s' := b = false → s'.own p = s.own p
  obs := O
  refl _ _ _ _ := rfl

/-- The protocol of a thread about whose own part nothing is assumed. -/
abbrev alone (p : Tid) : RG (State Tid Addr Lock w) Bool :=
  ownProtocol p (fun _ => True) fun _ => True

/-- The steps of the threads other than `p`. -/
def Others (p : Tid) (s s' : State Tid Addr Lock w) : Prop := s'.own p = s.own p

variable {p : Tid} {I : Own Tid Addr Lock w → Prop} {O : State Tid Addr Lock w → Prop}

/-- Other threads keep all assertions of `p`. -/
theorem Others.rely {s s' : State Tid Addr Lock w} (h : Others p s s') :
    (ownProtocol p I O).Rely true s s' := by
  have h : s'.own p = s.own p := h
  refine fun hs => ⟨?_, fun P hP => P.stable false (by simp) s s' hs ?_ (fun _ => h) hP⟩
  · change I (s'.own p)
    rwa [h]
  · change I (s'.own p)
    rwa [h]

/-- Other threads may change a lock that `p` does not own. -/
theorem others_lock [DecidableEq Lock] {s : State Tid Addr Lock w} {lock : Lock} {l : LockWord Tid}
    (h : (s.own p).locks lock = none) (hl : l.entryOf p = none) :
    Others p s { s with locks := Function.update s.locks lock l } := by
  simp only [Others, State.own, Own.mk.injEq, true_and, and_true]
  funext ℓ
  by_cases hℓ : ℓ = lock
  · subst hℓ
    rw [Function.update_self, hl]
    exact h.symm
  · rw [Function.update_of_ne hℓ]

/-- An assertion about what thread `p` has to itself. -/
def Has (φ : Own Tid Addr Lock w → Prop) : Assn (ownProtocol p I O) true where
  holds s := φ (s.own p)
  stable q hq _ _ _ _ hg h := by
    rw [hg (by simpa using hq)]
    exact h

end TinyStm

/-! ## Rules -/

open TinyStm

namespace Triple

variable {Tid Addr Lock : Type} {w : ℕ} [DecidableEq Tid] {p : Tid}
  {I : Own Tid Addr Lock w → Prop} {O : State Tid Addr Lock w → Prop} {α β : Type}
  {φ ψ : Own Tid Addr Lock w → Prop} {Q : α → Assn (ownProtocol p I O) true} {J : Assn (ownProtocol p I O) true}

/-- An action that thread `p` performs on what it has to itself. -/
theorem ownAct {g : State Tid Addr Lock w → β × State Tid Addr Lock w}
    {k : β → M Tid Addr Lock w α} (ψ : β → Own Tid Addr Lock w → Prop)
    (h : ∀ s, O s → I (s.own p) → φ (s.own p) →
      I ((g s).2.own p) ∧ ψ (g s).1 ((g s).2.own p))
    (hk : ∀ b, Triple (ownProtocol p I O) true (Has (ψ b)) (k b) Q J) :
    Triple (ownProtocol p I O) true (Has φ) (Prog.atomic g >>= k) Q J := by
  refine .act (fun b => Has (ψ b)) (fun s hs hP => ?_) hk
  obtain ⟨hI, hψ⟩ := h s hs.obs hs.inv hP
  exact ⟨hI, nofun, hψ⟩

/-- An action that changes nothing of what thread `p` has to itself. -/
theorem ownShared {g : State Tid Addr Lock w → β × State Tid Addr Lock w}
    {k : β → M Tid Addr Lock w α} (hg : ∀ s, (g s).2.own p = s.own p)
    (hk : ∀ b, Triple (ownProtocol p I O) true (Has φ) (k b) Q J) :
    Triple (ownProtocol p I O) true (Has φ) (Prog.atomic g >>= k) Q J :=
  .ownAct (fun _ => φ) (fun s _ hI hφ => by rw [hg]; exact ⟨hI, hφ⟩) hk

/-- The precondition may be strengthened. -/
theorem ownPre {c : M Tid Addr Lock w α} (h : Triple (ownProtocol p I O) true (Has φ) c Q J)
    (hφ : ∀ o, I o → ψ o → φ o) : Triple (ownProtocol p I O) true (Has ψ) c Q J :=
  h.pre fun _ hs hP => hφ _ hs.inv hP

/-- A fact may be assumed. -/
theorem ownFact {c : M Tid Addr Lock w α} {q : Prop} (hq : ∀ o, I o → φ o → q)
    (h : q → Triple (ownProtocol p I O) true (Has φ) c Q J) :
    Triple (ownProtocol p I O) true (Has φ) c Q J :=
  .of_fact (fun _ hs hP => hq _ hs.inv hP) h

theorem ownGetTx [DecidableEq Addr] [DecidableEq Lock] {k : StmTx Addr Lock w → M Tid Addr Lock w α}
    (hk : ∀ tx, Triple (ownProtocol p I O) true (Has fun o => o.tx = tx ∧ φ o) (k tx) Q J) :
    Triple (ownProtocol p I O) true (Has φ) (TinyStm.getTx p >>= k) Q J :=
  .ownAct (fun tx o => o.tx = tx ∧ φ o) (fun _ _ hI hφ => ⟨hI, rfl, hφ⟩) hk

theorem ownModifyTx [DecidableEq Addr] [DecidableEq Lock] {f : StmTx Addr Lock w → StmTx Addr Lock w}
    {k : Unit → M Tid Addr Lock w α}
    (h : ∀ o, I o → φ o → I { o with tx := f o.tx } ∧ ψ { o with tx := f o.tx })
    (hk : Triple (ownProtocol p I O) true (Has ψ) (k ()) Q J) :
    Triple (ownProtocol p I O) true (Has φ) (TinyStm.modifyTx p f >>= k) Q J := by
  refine .ownAct (fun _ => ψ) (fun s _ hI hφ => ?_) fun _ => hk
  have hown : (s.setTx p f).own p = { s.own p with tx := f (s.own p).tx } := by
    simp [State.own, State.setTx]
  change I ((s.setTx p f).own p) ∧ ψ ((s.setTx p f).own p)
  rw [hown]
  exact h _ hI hφ

theorem ownLoadLock [DecidableEq Addr] [DecidableEq Lock] {lock : Lock}
    {k : LockWord Tid → M Tid Addr Lock w α}
    (hk : ∀ l, Triple (ownProtocol p I O) true
      (Has fun o => o.locks lock = l.entryOf p ∧ φ o) (k l) Q J) :
    Triple (ownProtocol p I O) true (Has φ) (TinyStm.loadLock lock >>= k) Q J :=
  .ownAct (fun l o => o.locks lock = l.entryOf p ∧ φ o) (fun _ _ hI hφ => ⟨hI, rfl, hφ⟩) hk

theorem ownLoadLockOr [DecidableEq Addr] [DecidableEq Lock] {lock : Lock}
    {l? : Option (LockWord Tid)} {k : LockWord Tid → M Tid Addr Lock w α}
    (hk : ∀ l, Triple (ownProtocol p I O) true (Has φ) (k l) Q J) :
    Triple (ownProtocol p I O) true (Has φ) (TinyStm.loadLockOr lock l? >>= k) Q J := by
  cases l? with
  | none => exact .ownShared (fun _ => rfl) hk
  | some l => exact hk l

end Triple
