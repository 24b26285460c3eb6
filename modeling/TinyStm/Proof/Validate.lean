import TinyStm.Proof.Boundary

/-!
# Validation and extension

The loop over the read set checks one lock after the other, each at its own instant, so what it
finds is a stable assertion for each entry. The extension of the snapshot rests on it. An entry that
is found valid had its version at the clock that was read before the loop began, and the assertion
about it lasts whatever the other threads do next; when the loop is over, all entries are valid at
that clock together.
-/

namespace TinyStm

namespace View

variable {Tid Addr Lock : Type} {w : ℕ} [DecidableEq Addr] {S : Setting Tid Addr Lock w}
  {v : View Tid Addr Lock w} {p : Tid} {tx tx' : StmTx Addr Lock w}

/-- The lock of a read set entry passes the validation: it is free with the version read, or `p` owns
it and, with commit-time locking, it was at that version when it was acquired. -/
def Fresh (S : Setting Tid Addr Lock w) (p : Tid) (tx : StmTx Addr Lock w) (r : REntry Lock)
    (v : View Tid Addr Lock w) : Prop :=
  (∃ l, v.locks r.lock = .free l ∧ lockGetTimestamp l = r.version) ∨
    v.Holds p r.lock ∧ (S.cfg.designOf tx.attr = .writeBackCtl → v.lastTs r.lock = r.version ∧
      ∀ t, v.phase p ≠ .installing t)

/-- The write set depends on the entries and the trace of the descriptor. -/
theorem Ws.of_eq (h : v.Ws S p tx) (hw : tx'.wSet = tx.wSet) (ht : tx'.trace = tx.trace)
    (ha : tx'.attr = tx.attr) : v.Ws S p tx' := by
  have hctl : CtlEntries S tx → CtlEntries S tx' := fun h =>
    ⟨hw ▸ h.lock, hw ▸ h.addr, hw ▸ ht ▸ h.mask, hw ▸ ht ▸ h.value, hw ▸ ht ▸ h.stored⟩
  unfold Ws at h ⊢
  rw [ha]
  split at h
  · exact ⟨hw ▸ h.chains, hw ▸ h.version, hw ▸ ht ▸ h.mask, hw ▸ ht ▸ h.value, hw ▸ ht ▸ h.stored,
      ht ▸ h.writes⟩
  · exact ⟨hctl h.entries, hw ▸ h.noDrop, hw ▸ h.nbAcquired, h.noLocks⟩
  · exact ⟨hw ▸ h.chains, hw ▸ h.version, hw ▸ h.value, hw ▸ h.first, hw ▸ ht ▸ h.stored,
      ht ▸ h.writes, ht ▸ h.mem⟩
  · exact h

/-- A load stores nothing. -/
theorem Ws.load (h : v.Ws S p tx) (a : Addr) (x : BitVec w) :
    v.Ws S p { tx with trace := .load a x :: tx.trace } := by
  unfold Ws at h ⊢
  dsimp only
  split at h
  · exact ⟨h.chains, h.version, h.mask, h.value, h.stored, h.writes⟩
  · exact ⟨⟨h.entries.lock, h.entries.addr, h.entries.mask, h.entries.value, h.entries.stored⟩,
      h.noDrop, h.nbAcquired, h.noLocks⟩
  · exact ⟨h.chains, h.version, h.value, h.first, h.stored, h.writes, h.mem⟩
  · exact h

end View

section
variable {Tid Addr Lock : Type} {w : ℕ} [DecidableEq Addr]

/-- The words that `tx` has loaded rest on `m`, and its write set is in order. -/
def live (S : Setting Tid Addr Lock w) (p : Tid) (tx : StmTx Addr Lock w) (m : Mem Addr w) :
    VAsn S p :=
  snap S p tx m ⊓ wset S p tx

/-- The word at `a` as of timestamp `n` is `x`, for good. -/
def fixedAt (S : Setting Tid Addr Lock w) (p : Tid) (n : ℕ) (a : Addr) (x : BitVec w) :
    VAsn S p where
  holds v := v.FixedAt S.toPremises p n a x
  stable _ hq _ _ _ _ hg h := h.stable hq hg

/-- The words of the stripe of `ℓ` that `tx` has read are as of `n` what they were. -/
def extended (S : Setting Tid Addr Lock w) (p : Tid) (tx : StmTx Addr Lock w) (m : Mem Addr w)
    (n : ℕ) (ℓ : Lock) : VAsn S p where
  holds v := View.Extended S.toPremises p tx m n ℓ v
  stable _ hq _ _ _ _ hg h := h.stable hq hg

end

variable {Tid Addr Lock : Type} {w : ℕ} [DecidableEq Tid] [DecidableEq Addr] [DecidableEq Lock]
  {S : Setting Tid Addr Lock w} {p : Tid} {tx : StmTx Addr Lock w} {m : Mem Addr w}
  {Φ : VAsn S p} {J : Asn S p} {test : StmTx Addr Lock w → ℕ → REntry Lock → Bool}

/-- The test on the thread's own locks says what `View.Fresh` asks for. -/
def OwnTest (p : Tid) (tx : StmTx Addr Lock w) (Φ : VAsn S p)
    (test : StmTx Addr Lock w → ℕ → REntry Lock → Bool) : Prop :=
  S.cfg.designOf tx.attr = .writeBackCtl → ∀ v, Linked S p tx v → Φ v → ∀ i r, v.locks r.lock = .owned p i →
    test tx i r = true → v.lastTs r.lock = r.version ∧ ∀ t, v.phase p ≠ .installing t

/-- If the validation succeeds, `K r` holds for each entry `r`, where `K r` follows from what is
found at the entry's lock. -/
theorem validateEntries_spec (K : REntry Lock → VAsn S p) (hT : OwnTest p tx Φ test)
    (rs : List (REntry Lock))
    (hK : ∀ r ∈ rs, ∀ v, Linked S p tx v → Φ v → v.Fresh S p tx r → K r v) :
    Triple (protocol S) p (At tx Φ) (validateEntries p test rs)
      (fun ok => At tx (Φ ⊓ .imp (ok = true) (.all fun r => .imp (r ∈ rs) (K r)))) J := by
  induction rs generalizing Φ with
  | nil => exact .of_ret fun s _ h => ⟨h.1, h.2, fun _ r hr => nomatch hr⟩
  | cons r rs ih =>
    have hfalse : ∀ s, (protocol S).Ok s → At tx Φ s → At tx (Φ ⊓ .imp (false = true)
        (.all fun r' => .imp (r' ∈ r :: rs) (K r'))) s := fun s _ h => ⟨h.1, h.2, nofun⟩
    -- the rest of the loop, once `r` has been found valid
    have hrest : Triple (protocol S) p (At tx (Φ ⊓ K r)) (validateEntries p test rs)
        (fun ok => At tx (Φ ⊓ .imp (ok = true) (.all fun r' => .imp (r' ∈ r :: rs) (K r')))) J := by
      refine (ih (Φ := Φ ⊓ K r) (fun hd v hl h => hT hd v hl h.1) fun r' hr' v hl h =>
        hK r' (.tail _ hr') v hl h.1).post (fun ok s _ h => ⟨h.1, h.2.1.1, fun hok r' hr' => ?_⟩)
        fun _ _ h => h
      rcases List.mem_cons.1 hr' with rfl | hr'
      · exact h.2.1.2
      · exact h.2.2 hok r' hr'
    refine .loadLock (fun l => Φ ⊓ .imp ((∃ q i, l = .owned q i ∧ tx.Owns p q i ∧ test tx i r = true) ∨
      ∃ n, l = .free n ∧ lockGetTimestamp n = r.version) (K r)) (fun v hl h => ⟨h, ?_⟩) fun l => ?_
    · rintro (⟨q, i, hv, ⟨rfl, -⟩, ht⟩ | ⟨n, hv, hlr⟩)
      · exact hK r (.head _) v hl h (.inr ⟨⟨i, hv⟩, fun hd => hT hd v hl h i r hv ht⟩)
      · exact hK r (.head _) v hl h (.inl ⟨n, hv, hlr⟩)
    · cases l with
      | owned q i =>
        refine .getTx (.ite (fun ht => ?_) fun _ => .of_ret fun s hs h => hfalse s hs ⟨h.1, h.2.1⟩)
        exact hrest.weaken fun v _ h => ⟨h.1, h.2 (.inl ⟨q, i, rfl, ht⟩)⟩
      | free l =>
        refine .ite (fun _ => .of_ret fun s hs h => hfalse s hs ⟨h.1, h.2.1⟩) fun hlr => ?_
        exact hrest.weaken fun v _ h => ⟨h.1, h.2 (.inr ⟨l, rfl, not_not.1 hlr⟩)⟩

/-- The extension of the snapshot: `n` is the new end, not before `lo`, and `K n` is what the
validation has found. -/
theorem extendWith_spec {validate : M Tid Addr Lock w Bool} (lo : ℕ) (K : ℕ → VAsn S p)
    (hlo : ∀ v, Linked S p tx v → Φ v → lo ≤ v.clock)
    (hv : ∀ n, lo ≤ n → Triple (protocol S) p (At tx (Φ ⊓ clockGe S p n)) validate
      (fun ok => At tx (Φ ⊓ clockGe S p n ⊓ .imp (ok = true) (K n))) J) :
    Triple (protocol S) p (At tx Φ) (extendWith p validate)
      (fun ok => if ok then .ex fun n => .pure (lo ≤ n) ⊓
          At { tx with end_ := n } (Φ ⊓ clockGe S p n ⊓ K n)
        else At tx Φ) J := by
  refine .getClock (fun n => .pure (lo ≤ n) ⊓ (Φ ⊓ clockGe S p n))
    (fun v hl h => ⟨hlo v hl h, h, le_refl _⟩) fun n => .fact (fun _ _ h => h.1) fun hn => ?_
  refine .weaken (.bind (hv n hn) fun ok => ?_) fun v _ h => h.2
  cases ok with
  | false => exact .of_ret fun s _ h => ⟨h.1, h.2.1.1⟩
  | true =>
    refine .modifyTx rfl rfl rfl (.of_ret fun s _ h => ⟨n, hn, h.1, h.2.1, h.2.2 rfl⟩)

/-- The extension keeps what the transaction has loaded. `K n r` is what its caller wants to know
from the validation of the entry `r`. A read-only transaction does not try. -/
theorem tryExtend_spec {Θ : VAsn S p} (hi : tx.irrevocable ≠ 3) (hT : OwnTest p tx (live S p tx m) test)
    (lo : ℕ) (K : ℕ → REntry Lock → VAsn S p)
    (hlo : ∀ v, Linked S p tx v → Θ v → lo ≤ v.clock)
    (hK : ∀ n, lo ≤ n → ∀ r ∈ tx.rSet, ∀ v, Linked S p tx v → Θ v → n ≤ v.clock →
      v.Fresh S p tx r → K n r v) :
    Triple (protocol S) p (At tx (live S p tx m ⊓ Θ))
      (tryExtend tx (extendWith p (getTx p >>= fun tx => validateEntries p test tx.rSet)))
      (fun ok => if ok then .ex fun n => .pure (lo ≤ n ∧ tx.end_ ≤ n ∧ tx.attr.readOnly = false) ⊓
          At { tx with end_ := n } (live S p { tx with end_ := n } m ⊓ Θ ⊓
            .all fun r => .imp (r ∈ tx.rSet) (K n r))
        else At tx (live S p tx m ⊓ Θ)) J := by
  refine .ite (fun _ => .of_ret fun _ _ h => h) fun hro => ?_
  have hro : tx.attr.readOnly = false := by simpa using hro
  refine (extendWith_spec (max lo tx.end_) (fun n => .all fun r => .imp (r ∈ tx.rSet)
    (.imp (r.version ≤ tx.end_) (extended S p tx m n r.lock) ⊓ K n r)) (fun v hl h => ?_)
    fun n hn => .getTx ?_).post (fun ok s _ h => ?_) fun _ _ h => h
  · exact max_le (hlo v hl h.2) h.1.1.end_le
  · refine validateEntries_spec (Φ := live S p tx m ⊓ Θ ⊓ clockGe S p n) _
      (fun hd v hl h => hT hd v hl h.1.1) _ fun r hr v hl h hf => ?_
    have hn := max_le_iff.1 hn
    exact ⟨fun hv => h.1.1.1.extended hl.inv (View.not_blind hro hi) hi hv hn.2 h.2 hf,
      hK n hn.1 r hr v hl h.1.2 h.2 hf⟩
  · cases ok with
    | false => exact h
    | true =>
      obtain ⟨n, hn, hs, ⟨⟨⟨hsnap, hws⟩, hΘ⟩, hnc⟩, hK⟩ := h
      have hn := max_le_iff.1 hn
      refine ⟨n, ⟨hn.1, hn.2, hro⟩, hs, ⟨⟨?_, hws.of_eq rfl rfl rfl⟩, hΘ⟩, fun r hr => (hK r hr).2⟩
      exact hsnap.extend hi hn.2 hnc hro fun r hr => (hK r hr).1

end TinyStm
