import TinyStm.Model.Types

/-!
# Chains of write set entries

With encounter-time locking the entries covered by one lock form a chain: the lock points to the
first of them, `next` of an entry is the index of the next one, and the last one, which has no
`next`, is the one at which the lock is dropped. `chainFind` walks a chain for the entry of a word,
and comes to the last entry if there is none. A chain is described by the set of its entries and
their order, so that adding an entry at its end and dropping the first entry keep it a chain.
-/

namespace TinyStm

variable {Addr Lock : Type} {w : ℕ} {es : List (WEntry Addr Lock w)} {e f : WEntry Addr Lock w}
  {ℓ : Lock} {i j n : ℕ}

/-- `next` is the index of the first entry after `i` that is covered by `ℓ`. -/
def NextIs (es : List (WEntry Addr Lock w)) (i : ℕ) (ℓ : Lock) : Option ℕ → Prop
  | none => ∀ k f, i < k → es[k]? = some f → f.lock ≠ ℓ
  | some j => i < j ∧ (∃ f, es[j]? = some f ∧ f.lock = ℓ) ∧
      ∀ k f, i < k → k < j → es[k]? = some f → f.lock ≠ ℓ

/-- Every entry is linked to the next one that its lock covers. -/
def Chained (es : List (WEntry Addr Lock w)) : Prop :=
  ∀ i e, es[i]? = some e → NextIs es i e.lock e.next

theorem chained_nil : Chained ([] : List (WEntry Addr Lock w)) := by
  intro i e h
  simp at h

/-- The chain of every entry has an end. -/
theorem Chained.exists_last (h : Chained es) (hi : es[i]? = some e) :
    ∃ f ∈ es, f.next = none ∧ f.lock = e.lock := by
  generalize hk : es.length - i = k
  induction k using Nat.strong_induction_on generalizing i e with
  | _ k ih =>
    have hn := h i e hi
    cases hnext : e.next with
    | none => exact ⟨e, List.mem_of_getElem? hi, hnext, rfl⟩
    | some j =>
      rw [hnext] at hn
      obtain ⟨hij, ⟨f, hf, hfl⟩, -⟩ := hn
      have hj : j < es.length := (List.getElem?_eq_some_iff.1 hf).1
      obtain ⟨g, hg, hgn, hgl⟩ := ih (es.length - j) (by omega) hf rfl
      exact ⟨g, hg, hgn, hgl.trans hfl⟩

/-- No entry comes after the end of its chain. -/
theorem Chained.pairwise (h : Chained es) :
    es.Pairwise fun e f => e.next = none → f.lock ≠ e.lock := by
  refine List.pairwise_iff_getElem.2 fun i j hi hj hij hn => ?_
  have hnext := h i _ (List.getElem?_eq_getElem hi)
  rw [hn] at hnext
  exact hnext j _ hij (List.getElem?_eq_getElem hj)

/-- A change that leaves the locks and the links leaves the chains. -/
theorem Chained.modify (h : Chained es) (i : ℕ)
    {g : WEntry Addr Lock w → WEntry Addr Lock w} (hl : ∀ e, (g e).lock = e.lock)
    (hn : ∀ e, (g e).next = e.next) : Chained (es.modify i g) := by
  have hget : ∀ (k : ℕ) (f : WEntry Addr Lock w), (es.modify i g)[k]? = some f →
      ∃ f' : WEntry Addr Lock w, es[k]? = some f' ∧ f.lock = f'.lock ∧ f.next = f'.next := by
    intro k f hk
    rw [List.getElem?_modify] at hk
    obtain ⟨f', hf', rfl⟩ := Option.map_eq_some_iff.1 hk
    refine ⟨f', hf', ?_, ?_⟩ <;> split <;> simp [hl, hn]
  have hget' : ∀ (k : ℕ) (f' : WEntry Addr Lock w), es[k]? = some f' →
      ∃ f : WEntry Addr Lock w, (es.modify i g)[k]? = some f ∧ f.lock = f'.lock := by
    intro k f' hk
    refine ⟨_, by rw [List.getElem?_modify, hk]; rfl, ?_⟩
    dsimp only
    split <;> simp [hl]
  intro k f hk
  obtain ⟨f', hf', hfl, hfn⟩ := hget k f hk
  have hnext := h k f' hf'
  rw [hfl, hfn]
  cases hn' : f'.next with
  | none =>
    rw [hn'] at hnext
    intro m e hm he
    obtain ⟨e', he', hel, -⟩ := hget m e he
    exact hel ▸ hnext m e' hm he'
  | some j =>
    rw [hn'] at hnext
    obtain ⟨hkj, ⟨e, he, hel⟩, hbet⟩ := hnext
    obtain ⟨e', he', hel'⟩ := hget' j e he
    refine ⟨hkj, ⟨e', he', hel'.trans hel⟩, fun m d hm hmj hd => ?_⟩
    obtain ⟨d', hd', hdl, -⟩ := hget m d hd
    exact hdl ▸ hbet m d' hm hmj hd'

/-- A new entry for a lock that covers none of the others. -/
theorem Chained.append (h : Chained es) (hn : e.next = none) (hl : ∀ f ∈ es, f.lock ≠ e.lock) :
    Chained (es ++ [e]) := by
  intro k f hk
  rw [List.getElem?_append] at hk
  split at hk
  case isTrue hlt =>
    have hnext := h k f hk
    cases hf : f.next with
    | none =>
      rw [hf] at hnext
      intro m d hm hd
      rw [List.getElem?_append] at hd
      split at hd
      · exact hnext m d hm hd
      · rw [List.getElem?_singleton] at hd
        split at hd
        · injection hd with hd
          exact fun he => hl f (List.mem_of_getElem? hk) (by rw [hd, he])
        · cases hd
    | some j =>
      rw [hf] at hnext
      obtain ⟨hkj, ⟨d, hd, hdl⟩, hbet⟩ := hnext
      have hj : j < es.length := (List.getElem?_eq_some_iff.1 hd).1
      refine ⟨hkj, ⟨d, by rwa [List.getElem?_append_left hj], hdl⟩, fun m c hm hmj hc => ?_⟩
      rw [List.getElem?_append_left (by omega)] at hc
      exact hbet m c hm hmj hc
  case isFalse hlt =>
    rw [List.getElem?_singleton] at hk
    split at hk
    case isTrue h0 =>
      injection hk with hk
      subst hk
      rw [hn]
      intro m d hm hd
      rw [List.getElem?_append_right (by omega), List.getElem?_singleton, if_neg (by omega)] at hd
      cases hd
    case isFalse => cases hk

/-- A new entry, linked from the end of its chain. -/
theorem Chained.link (h : Chained es) (hj : es[j]? = some f) (hfn : f.next = none)
    (hfl : f.lock = e.lock) (hn : e.next = none) :
    Chained (es.modify j (fun f => { f with next := some es.length }) ++ [e]) := by
  set g : WEntry Addr Lock w → WEntry Addr Lock w := fun f => { f with next := some es.length }
  have hjlt : j < es.length := (List.getElem?_eq_some_iff.1 hj).1
  have hlen : (es.modify j g).length = es.length := List.length_modify ..
  -- an entry of the new list: the new one, the one that was the end of the chain, or another
  have hget : ∀ (k : ℕ) (d : WEntry Addr Lock w), (es.modify j g ++ [e])[k]? = some d →
      k = es.length ∧ d = e ∨
      k < es.length ∧ ∃ d' : WEntry Addr Lock w, es[k]? = some d' ∧ d.lock = d'.lock ∧
        (k = j ∧ d.next = some es.length ∨ k ≠ j ∧ d.next = d'.next) := by
    intro k d hk
    rw [List.getElem?_append, hlen] at hk
    split at hk
    case isTrue hlt =>
      rw [List.getElem?_modify] at hk
      obtain ⟨d', hd', rfl⟩ := Option.map_eq_some_iff.1 hk
      refine .inr ⟨hlt, d', hd', ?_⟩
      by_cases hjk : j = k
      · simp [hjk, g]
      · simp [hjk, Ne.symm hjk]
    case isFalse hlt =>
      rw [List.getElem?_singleton] at hk
      split at hk
      · injection hk with hk
        exact .inl ⟨by omega, hk.symm⟩
      · cases hk
  have hget' : ∀ (k : ℕ) (d' : WEntry Addr Lock w), es[k]? = some d' →
      ∃ d : WEntry Addr Lock w, (es.modify j g ++ [e])[k]? = some d ∧ d.lock = d'.lock := by
    intro k d' hk
    have hlt : k < es.length := (List.getElem?_eq_some_iff.1 hk).1
    refine ⟨_, by rw [List.getElem?_append_left (by omega), List.getElem?_modify, hk]; rfl, ?_⟩
    by_cases hjk : j = k <;> simp [hjk, g]
  have hend := h j f hj
  rw [hfn] at hend
  intro k d hk
  rcases hget k d hk with ⟨rfl, rfl⟩ | ⟨hlt, d', hd', hdl, hd⟩
  · rw [hn]
    intro m c hm hc
    rcases hget m c hc with ⟨rfl, -⟩ | ⟨hlt, -⟩ <;> omega
  · have hnext := h k d' hd'
    rcases hd with ⟨rfl, hdn⟩ | ⟨hkj, hdn⟩
    · rw [hdn]
      refine ⟨hlt, ⟨e, by rw [List.getElem?_append_right (by omega), hlen]; simp, ?_⟩, ?_⟩
      · rw [hj] at hd'
        injection hd' with hd'
        rw [hdl, ← hd', hfl]
      · intro m c hm hme hc
        rcases hget m c hc with ⟨rfl, -⟩ | ⟨-, c', hc', hcl, -⟩
        · omega
        · rw [hj] at hd'
          injection hd' with hd'
          rw [hcl, hdl, ← hd']
          exact hend m c' hm hc'
    · rw [hdn, hdl]
      cases hn' : d'.next with
      | none =>
        rw [hn'] at hnext
        intro m c hm hc
        rcases hget m c hc with ⟨rfl, rfl⟩ | ⟨-, c', hc', hcl, -⟩
        · -- the chain of `e` ends at `j`, and that of `d` at another index
          intro he
          rw [← hfl] at he
          rcases lt_or_gt_of_ne hkj with hlt' | hlt'
          · exact hnext j f hlt' hj he
          · exact hend k d' hlt' hd' he.symm
        · exact hcl ▸ hnext m c' hm hc'
      | some m =>
        rw [hn'] at hnext
        obtain ⟨hkm, ⟨c, hc, hcl⟩, hbet⟩ := hnext
        obtain ⟨c', hc', hcl'⟩ := hget' m c hc
        have hm : m < es.length := (List.getElem?_eq_some_iff.1 hc).1
        refine ⟨hkm, ⟨c', hc', hcl'.trans hcl⟩, fun b c hb hbm hc => ?_⟩
        rcases hget b c hc with ⟨rfl, -⟩ | ⟨-, c', hc', hcl, -⟩
        · omega
        · exact hcl ▸ hbet b c' hb hbm hc'

/-- What the search through a chain finds: an entry that holds the address, or the end of the
chain if none does. -/
theorem Chained.chainFind [DecidableEq Addr] (h : Chained es) (addr : Addr) (n i : ℕ)
    (hi : es[i]? = some e) (hn : es.length ≤ n + i)
    (hbefore : ∀ k f, k < i → es[k]? = some f → f.lock = e.lock → f.addr ≠ addr) :
    match TinyStm.chainFind es addr n i with
    | .found j f => es[j]? = some f ∧ f.lock = e.lock ∧ f.addr = addr ∧ (f = e ∨ i < j)
    | .last j version => ∃ f, es[j]? = some f ∧ f.lock = e.lock ∧ f.next = none ∧
        f.version = version ∧ ∀ g ∈ es, g.lock = e.lock → g.addr ≠ addr := by
  have hilt : i < es.length := (List.getElem?_eq_some_iff.1 hi).1
  induction n generalizing i e with
  | zero => omega
  | succ n ih =>
    simp only [TinyStm.chainFind, hi]
    by_cases ha : e.addr = addr
    · rw [if_pos ha]
      exact ⟨hi, rfl, ha, .inl rfl⟩
    · rw [if_neg ha]
      have hnext := h i e hi
      cases hen : e.next with
      | none =>
        rw [hen] at hnext
        refine ⟨e, hi, rfl, hen, rfl, fun g hg hgl => ?_⟩
        obtain ⟨k, hk⟩ := List.mem_iff_getElem?.1 hg
        rcases lt_trichotomy k i with hlt | rfl | hlt
        · exact hbefore k g hlt hk hgl
        · rw [hi] at hk
          injection hk with hk
          exact hk ▸ ha
        · exact (hnext k g hlt hk hgl).elim
      | some j =>
        rw [hen] at hnext
        obtain ⟨hij, ⟨d, hd, hdl⟩, hbet⟩ := hnext
        have hj : j < es.length := (List.getElem?_eq_some_iff.1 hd).1
        have hb : ∀ k f, k < j → es[k]? = some f → f.lock = d.lock → f.addr ≠ addr := by
          intro k g hk hg hgl
          rw [hdl] at hgl
          rcases lt_trichotomy k i with hlt | rfl | hlt
          · exact hbefore k g hlt hg hgl
          · rw [hi] at hg
            injection hg with hg
            exact hg ▸ ha
          · exact (hbet k g hlt hk hg hgl).elim
        have hrec := ih j hd (by omega) hb hj
        dsimp only
        cases hres : TinyStm.chainFind es addr n j with
        | found k g =>
          rw [hres] at hrec
          obtain ⟨h1, h2, h3, h4⟩ := hrec
          refine ⟨h1, h2.trans hdl, h3, .inr ?_⟩
          rcases h4 with rfl | h4
          · by_contra hk
            rcases lt_or_eq_of_le (Nat.le_of_not_lt hk) with hlt | rfl
            · exact hbefore k g hlt h1 hdl h3
            · rw [hi] at h1
              injection h1 with h1
              exact ha (h1 ▸ h3)
          · omega
        | last k version =>
          rw [hres] at hrec
          simpa only [hdl] using hrec

end TinyStm
