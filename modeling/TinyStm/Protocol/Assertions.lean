import TinyStm.Conc.RelyGuarantee
import TinyStm.Protocol.Steps

/-!
# Assertions of a thread

The protocol of the library as a rely-guarantee protocol, and the rules for its atomic accesses. An
assertion `At tx Φ` of thread `p` gives its descriptor exactly and says `Φ` of the view. What an
assertion says of the view must be stable under the guarantees of the other threads; the assertions
used below are all built from a few stable ones by the connectives.
-/

namespace TinyStm

variable {Tid Addr Lock : Type} {w : ℕ} [DecidableEq Addr]

/-- The protocol on views. -/
def views (S : Setting Tid Addr Lock w) : RG (View Tid Addr Lock w) Tid where
  inv v := v.Inv S
  guar p v v' := v.Guar S p v'
  obs := S.obs
  refl p v _ := View.Guar.refl S p v

/-- The protocol on states: a thread changes no descriptor but its own. -/
def protocol (S : Setting Tid Addr Lock w) : RG (State Tid Addr Lock w) Tid where
  inv s := s.view.Inv S
  guar p s s' := (∀ q, q ≠ p → s'.txs q = s.txs q) ∧ s.view.Guar S p s'.view
  obs s := S.obs s.view
  refl p s _ := ⟨fun _ _ => rfl, View.Guar.refl S p s.view⟩

/-- Assertions of thread `p` about views. -/
abbrev VAsn (S : Setting Tid Addr Lock w) (p : Tid) := Assn (views S) p

/-- Assertions of thread `p` about states. -/
abbrev Asn (S : Setting Tid Addr Lock w) (p : Tid) := Assn (protocol S) p

/-- What a view is known to satisfy where thread `p` has the descriptor `tx`. -/
structure Linked (S : Setting Tid Addr Lock w) (p : Tid) (tx : StmTx Addr Lock w)
    (v : View Tid Addr Lock w) : Prop where
  inv : v.Inv S
  obs : S.obs v
  phase : v.phase p = tx.phase
  irr : v.irr p = tx.irrevocable
  attr : v.attr p = tx.attr

variable {S : Setting Tid Addr Lock w} {p : Tid} {tx : StmTx Addr Lock w}

/-- The descriptor of `p` is `tx`, and the view satisfies `Φ`. -/
def At (tx : StmTx Addr Lock w) (Φ : VAsn S p) : Asn S p where
  holds s := s.txs p = tx ∧ Φ s.view
  stable q hq _ _ hs hs' hg h :=
    ⟨(hg.1 p hq.symm).trans h.1, Φ.stable q hq _ _ hs hs' hg.2 h.2⟩

theorem At.linked {Φ : VAsn S p} {s : State Tid Addr Lock w} (hs : (protocol S).Ok s)
    (h : At tx Φ s) : Linked S p tx s.view where
  inv := hs.inv
  obs := hs.obs
  phase := congrArg StmTx.phase h.1
  irr := congrArg StmTx.irrevocable h.1
  attr := congrArg StmTx.attr h.1

/-- Assertions about the view may be weakened. -/
theorem At.mono {Φ Ψ : VAsn S p} (h : ∀ v, Linked S p tx v → Φ v → Ψ v)
    {s : State Tid Addr Lock w} (hs : (protocol S).Ok s) (hP : At tx Φ s) : At tx Ψ s :=
  ⟨hP.1, h _ (At.linked hs hP) hP.2⟩

end TinyStm

/-! ## Rules for the atomic accesses -/

open TinyStm

namespace Triple

variable {Tid Addr Lock : Type} {w : ℕ} [DecidableEq Addr] {S : Setting Tid Addr Lock w} {p : Tid}
  {tx : StmTx Addr Lock w} {α β : Type} {Φ : VAsn S p} {Q : α → Asn S p} {J : Asn S p}

/-- The precondition of a point with a known descriptor may be strengthened. -/
theorem weaken {Ψ : VAsn S p} {c : M Tid Addr Lock w α}
    (h : Triple (protocol S) p (At tx Ψ) c Q J) (hΦ : ∀ v, Linked S p tx v → Φ v → Ψ v) :
    Triple (protocol S) p (At tx Φ) c Q J :=
  h.pre fun _ hs hP => At.mono hΦ hs hP

/-- A fact that follows from the assertion about the view may be assumed. -/
theorem fact {φ : Prop} {c : M Tid Addr Lock w α} (hφ : ∀ v, Linked S p tx v → Φ v → φ)
    (h : φ → Triple (protocol S) p (At tx Φ) c Q J) :
    Triple (protocol S) p (At tx Φ) c Q J :=
  .of_fact (fun _ hs hP => hφ _ (At.linked hs hP) hP.2) h

/-- An access that changes the view. -/
theorem access {g : State Tid Addr Lock w → β × State Tid Addr Lock w}
    {k : β → M Tid Addr Lock w α} (f : β → StmTx Addr Lock w) (Ψ : β → VAsn S p)
    (h : ∀ s, Linked S p tx s.view → s.txs p = tx → Φ s.view →
      ((g s).2.view.Inv S ∧ s.view.Guar S p (g s).2.view) ∧
      (∀ q, q ≠ p → (g s).2.txs q = s.txs q) ∧ (g s).2.txs p = f (g s).1 ∧
      Ψ (g s).1 (g s).2.view)
    (hk : ∀ b, Triple (protocol S) p (At (f b) (Ψ b)) (k b) Q J) :
    Triple (protocol S) p (At tx Φ) (Prog.atomic g >>= k) Q J := by
  refine .act (fun b => At (f b) (Ψ b)) (fun s hs hP => ?_) hk
  obtain ⟨⟨hinv, hg⟩, htxs, htx, hΨ⟩ := h s (At.linked hs hP) hP.1 hP.2
  exact ⟨hinv, ⟨htxs, hg⟩, htx, hΨ⟩

/-- An access that only reads the view. -/
theorem look {g : State Tid Addr Lock w → β} (g' : View Tid Addr Lock w → β)
    (hg : ∀ s, g s = g' s.view) {k : β → M Tid Addr Lock w α} (Ψ : β → VAsn S p)
    (h : ∀ v, Linked S p tx v → Φ v → Ψ (g' v) v)
    (hk : ∀ b, Triple (protocol S) p (At tx (Ψ b)) (k b) Q J) :
    Triple (protocol S) p (At tx Φ) (Prog.read g >>= k) Q J := by
  refine .act (fun b => At tx (Ψ b)) (fun s hs hP => ?_) hk
  refine ⟨hs.inv, (protocol S).refl p s hs.inv, hP.1, ?_⟩
  change Ψ (g s) s.view
  rw [hg]
  exact h _ (At.linked hs hP) hP.2

theorem loadLock [DecidableEq Tid] [DecidableEq Lock] {lock : Lock}
    {k : LockWord Tid → M Tid Addr Lock w α} (Ψ : LockWord Tid → VAsn S p)
    (h : ∀ v, Linked S p tx v → Φ v → Ψ (v.locks lock) v)
    (hk : ∀ l, Triple (protocol S) p (At tx (Ψ l)) (k l) Q J) :
    Triple (protocol S) p (At tx Φ) (TinyStm.loadLock lock >>= k) Q J :=
  .look (·.locks lock) (fun _ => rfl) Ψ h hk

theorem loadWord [DecidableEq Tid] [DecidableEq Lock] {addr : Addr}
    {k : BitVec w → M Tid Addr Lock w α} (Ψ : BitVec w → VAsn S p)
    (h : ∀ v, Linked S p tx v → Φ v → Ψ (v.mem addr) v)
    (hk : ∀ x, Triple (protocol S) p (At tx (Ψ x)) (k x) Q J) :
    Triple (protocol S) p (At tx Φ) (TinyStm.loadWord addr >>= k) Q J :=
  .look (·.mem addr) (fun _ => rfl) Ψ h hk

theorem getClock [DecidableEq Tid] [DecidableEq Lock]
    {k : ℕ → M Tid Addr Lock w α} (Ψ : ℕ → VAsn S p)
    (h : ∀ v, Linked S p tx v → Φ v → Ψ v.clock v)
    (hk : ∀ n, Triple (protocol S) p (At tx (Ψ n)) (k n) Q J) :
    Triple (protocol S) p (At tx Φ) (TinyStm.getClock >>= k) Q J :=
  .look (·.clock) (fun _ => rfl) Ψ h hk

theorem loadIrrevocable [DecidableEq Tid] [DecidableEq Lock]
    {k : ℕ → M Tid Addr Lock w α}
    (hk : ∀ n, Triple (protocol S) p (At tx Φ) (k n) Q J) :
    Triple (protocol S) p (At tx Φ) (TinyStm.loadIrrevocable >>= k) Q J :=
  .look (·.token) (fun _ => rfl) (fun _ => Φ) (fun _ _ h => h) hk

theorem getTx [DecidableEq Tid] [DecidableEq Lock]
    {k : StmTx Addr Lock w → M Tid Addr Lock w α}
    (hk : Triple (protocol S) p (At tx Φ) (k tx) Q J) :
    Triple (protocol S) p (At tx Φ) (TinyStm.getTx p >>= k) Q J := by
  refine .act (fun r => .pure (r = tx) ⊓ At tx Φ)
    (fun s hs hP => ⟨hs.inv, (protocol S).refl p s hs.inv, hP.1, hP⟩) fun r => ?_
  refine .of_fact (fun s _ h => h.1) fun hr => ?_
  subst hr
  exact hk.pre fun _ _ h => h.2

/-- Thread-local assignments. -/
theorem modifyTx [DecidableEq Tid] [DecidableEq Lock]
    {f : StmTx Addr Lock w → StmTx Addr Lock w} {k : Unit → M Tid Addr Lock w α}
    (hph : (f tx).phase = tx.phase) (hirr : (f tx).irrevocable = tx.irrevocable)
    (hattr : (f tx).attr = tx.attr)
    (hk : Triple (protocol S) p (At (f tx) Φ) (k ()) Q J) :
    Triple (protocol S) p (At tx Φ) (TinyStm.modifyTx p f >>= k) Q J := by
  refine .access (fun _ => f tx) (fun _ => Φ) (fun s hl htx hΦ => ?_) fun _ => hk
  subst htx
  have hv : (s.setTx p f).view = s.view := State.view_setTx_eq hph hirr hattr
  refine ⟨?_, fun q hq => State.setTx_txs_of_ne hq, State.setTx_txs_self, ?_⟩
  · change (s.setTx p f).view.Inv S ∧ s.view.Guar S p (s.setTx p f).view
    rw [hv]
    exact ⟨hl.inv, .refl ..⟩
  · change Φ (s.setTx p f).view
    rwa [hv]

end Triple
