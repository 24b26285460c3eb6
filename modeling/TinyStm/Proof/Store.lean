import TinyStm.Proof.Load

/-!
# Stores

What the stores of the designs share: new entries in the write set, with encounter-time locking at
the end of the chain of their lock, and the record of a store. An entry that is added to a chain
changes what the write set covers by one word, and nothing else; the lemmas say this for each of the
three forms of a write set.
-/

namespace TinyStm

section
variable {Addr Lock : Type} {w : ℕ} {es : List (WEntry Addr Lock w)} {ws : WSet Addr Lock w}
  {prev : Option ℕ} {e f : WEntry Addr Lock w} {g : WEntry Addr Lock w → WEntry Addr Lock w} {j : ℕ}

/-! ## Changes of the entries -/

/-- The entries after a change of entry `j`. -/
theorem getElem?_modify_eq {k : ℕ} (h : (es.modify j g)[k]? = some f) :
    ∃ f', es[k]? = some f' ∧ (k = j ∧ f = g f' ∨ k ≠ j ∧ f = f') := by
  rw [List.getElem?_modify] at h
  obtain ⟨f', hf', hff⟩ := Option.map_eq_some_iff.1 h
  refine ⟨f', hf', ?_⟩
  by_cases hjk : j = k
  · exact .inl ⟨hjk.symm, by rw [← hff, if_pos hjk]⟩
  · exact .inr ⟨Ne.symm hjk, by rw [← hff, if_neg hjk]⟩

theorem mem_modify (h : f ∈ es.modify j g) :
    ∃ k f', es[k]? = some f' ∧ (k = j ∧ f = g f' ∨ k ≠ j ∧ f = f') :=
  (List.mem_iff_getElem?.1 h).imp fun _ => getElem?_modify_eq

/-- An entry is still there, or its change is. -/
theorem mem_modify_of_mem (h : f ∈ es) : f ∈ es.modify j g ∨ g f ∈ es.modify j g := by
  obtain ⟨k, hk⟩ := List.mem_iff_getElem?.1 h
  have hget : (es.modify j g)[k]? = some (if j = k then g f else f) := by
    rw [List.getElem?_modify, hk]
    rfl
  have hmem := List.mem_of_getElem? hget
  split at hmem
  · exact .inr hmem
  · exact .inl hmem

/-- Two entries are for two addresses. -/
theorem addr_ne_of_pairwise {i : ℕ} (h : es.Pairwise fun e f => e.addr ≠ f.addr)
    (hi : es[i]? = some e) (hj : es[j]? = some f) (hij : i ≠ j) : e.addr ≠ f.addr := by
  obtain ⟨hi', rfl⟩ := List.getElem?_eq_some_iff.1 hi
  obtain ⟨hj', rfl⟩ := List.getElem?_eq_some_iff.1 hj
  rcases lt_or_gt_of_ne hij with hlt | hlt
  · exact List.pairwise_iff_getElem.1 h i j hi' hj' hlt
  · exact (List.pairwise_iff_getElem.1 h j i hj' hi' hlt).symm

/-- A change that leaves the addresses leaves them distinct. -/
theorem pairwise_modify (h : es.Pairwise fun e f => e.addr ≠ f.addr)
    (ha : ∀ e, (g e).addr = e.addr) : (es.modify j g).Pairwise fun e f => e.addr ≠ f.addr := by
  refine List.pairwise_iff_getElem.2 fun i k hi hk hik => ?_
  rw [List.length_modify] at hi hk
  have hpair := List.pairwise_iff_getElem.1 h i k hi hk hik
  rw [List.getElem_modify, List.getElem_modify]
  split <;> split <;> simpa only [ha] using hpair

/-- An entry of the write set after a push: the new one, or one that has got a link at most. -/
theorem mem_push (h : f ∈ (ws.push prev e).entries) :
    f = e ∨ ∃ d ∈ ws.entries, f = { d with next := f.next } := by
  rcases List.mem_append.1 h with h | h
  · right
    cases prev with
    | none => exact ⟨f, h, rfl⟩
    | some j =>
      obtain ⟨k, d, hd, ⟨-, rfl⟩ | ⟨-, rfl⟩⟩ := mem_modify h
      · exact ⟨d, List.mem_of_getElem? hd, rfl⟩
      · exact ⟨_, List.mem_of_getElem? hd, rfl⟩
  · exact .inl (List.mem_singleton.1 h)

/-- An entry is still there after a push, with a new link at most. -/
theorem exists_mem_push (prev : Option ℕ) (e : WEntry Addr Lock w) (h : f ∈ ws.entries) :
    ∃ d ∈ (ws.push prev e).entries, d = { f with next := d.next } := by
  cases prev with
  | none => exact ⟨f, List.mem_append_left _ h, rfl⟩
  | some j =>
    rcases mem_modify_of_mem (j := j) (g := fun d => { d with next := some ws.entries.length }) h
      with h | h
    · exact ⟨_, List.mem_append_left _ h, rfl⟩
    · exact ⟨_, List.mem_append_left _ h, rfl⟩

/-- The entries before the new one have got a link at most. -/
theorem getElem?_push (prev : Option ℕ) (e : WEntry Addr Lock w) (h : j < ws.entries.length) :
    ∃ d, ws.entries[j]? = some d ∧ ∃ n, (ws.push prev e).entries[j]? = some { d with next := n } := by
  have hd := List.getElem?_eq_getElem h
  refine ⟨_, hd, ?_⟩
  cases prev with
  | none =>
    refine ⟨ws.entries[j].next, ?_⟩
    change (ws.entries ++ [e])[j]? = _
    rw [List.getElem?_append_left h, hd]
  | some k =>
    refine ⟨if k = j then some ws.entries.length else ws.entries[j].next, ?_⟩
    change (ws.entries.modify k _ ++ [e])[j]? = _
    rw [List.getElem?_append_left (by simpa using h), List.getElem?_modify, hd]
    by_cases hkj : k = j <;> simp [hkj]

theorem getElem?_push_self (prev : Option ℕ) (e : WEntry Addr Lock w) :
    (ws.push prev e).entries[ws.entries.length]? = some e := by
  cases prev <;> simp [WSet.push]

theorem length_push (prev : Option ℕ) (e : WEntry Addr Lock w) :
    (ws.push prev e).entries.length = ws.entries.length + 1 := by
  cases prev <;> simp [WSet.push]

theorem self_mem_push : e ∈ (ws.push prev e).entries := by
  simp [WSet.push]

end

namespace View

variable {Tid Addr Lock : Type} {w : ℕ} {S : Setting Tid Addr Lock w}
  {v : View Tid Addr Lock w} {p : Tid} {ws : WSet Addr Lock w} {e f : WEntry Addr Lock w}
  {j l : ℕ} {ℓ : Lock}

/-- The view after the acquisition of a lock by `p` for its entry `i`. -/
def acquired [DecidableEq Lock] (v : View Tid Addr Lock w) (p : Tid) (ℓ : Lock) (l i : ℕ) :
    View Tid Addr Lock w :=
  { v with locks := Function.update v.locks ℓ (.owned p i), saved := Function.update v.saved ℓ l }

theorem acquired_holds [DecidableEq Lock] {k : Lock} {i : ℕ} :
    (v.acquired p ℓ l i).Holds p k ↔ k = ℓ ∨ v.Holds p k := by
  by_cases hk : k = ℓ
  · subst hk
    simp [Holds, acquired]
  · simp [Holds, acquired, hk]

theorem acquired_lastWord [DecidableEq Lock] {k : Lock} {i : ℕ} :
    (v.acquired p ℓ l i).lastWord k = if k = ℓ then l else v.lastWord k := by
  by_cases hk : k = ℓ
  · subst hk
    simp [lastWord, acquired]
  · simp [lastWord, acquired, hk]

theorem acquired_lastTs [DecidableEq Lock] {k : Lock} {i : ℕ} :
    (v.acquired p ℓ l i).lastTs k = if k = ℓ then lockGetTimestamp l else v.lastTs k := by
  rw [lastTs, acquired_lastWord]
  split <;> rfl

/-- The stripes that the thread owned before. -/
theorem acquired_held [DecidableEq Lock] {k : Lock} {i : ℕ} (hl : v.locks ℓ = .free l)
    (hk : v.Holds p k) : (v.acquired p ℓ l i).Holds p k ∧
      (v.acquired p ℓ l i).lastWord k = v.lastWord k := by
  have hne : k ≠ ℓ := fun h => not_holds_of_free hl (h ▸ hk)
  exact ⟨acquired_holds.2 (.inr hk), by rw [acquired_lastWord, if_neg hne]⟩

/-- There are no entries of a stripe that the thread does not own. -/
theorem Chains.ne_of_free {es : List (WEntry Addr Lock w)} (h : v.Chains S p es)
    (hl : v.locks ℓ = .free l) (hf : f ∈ es) : f.lock ≠ ℓ := fun he =>
  not_holds_of_free hl ((h.holds ℓ).2 ⟨f, hf, he⟩)

/-- A stripe that the thread does not own has no entries. -/
theorem Chains.ne_of_not_holds {es : List (WEntry Addr Lock w)} {a : Addr} (h : v.Chains S p es)
    (hl : ¬ v.Holds p (S.cfg.getLock a)) (hf : f ∈ es) :
    f.lock ≠ S.cfg.getLock a ∧ f.addr ≠ a := by
  have hne : f.lock ≠ S.cfg.getLock a := fun he => hl (he ▸ (h.holds _).2 ⟨f, hf, rfl⟩)
  exact ⟨hne, fun ha => hne (ha ▸ h.lock f hf)⟩

/-- A lock is acquired: the new entry is a chain of its own. -/
theorem Chains.acquire [DecidableEq Lock] (h : v.Chains S p ws.entries)
    (hl : v.locks e.lock = .free l) (hn : e.next = none) (ha : e.lock = S.cfg.getLock e.addr) :
    (v.acquired p e.lock l ws.entries.length).Chains S p (ws.push none e).entries where
  chained := h.chained.append hn fun f hf => h.ne_of_free hl hf
  lock f hf := by
    rcases List.mem_append.1 hf with hf | hf
    · exact h.lock f hf
    · exact List.mem_singleton.1 hf ▸ ha
  addr := by
    refine List.pairwise_append.2 ⟨h.addr, List.pairwise_singleton .., fun f hf g hg hfg => ?_⟩
    rw [List.mem_singleton.1 hg] at hfg
    exact h.ne_of_free hl hf ((h.lock f hf).trans (hfg ▸ ha.symm))
  holds ℓ := by
    rw [acquired_holds, h.holds]
    constructor
    · rintro (rfl | ⟨f, hf, hfl⟩)
      · exact ⟨e, self_mem_push, rfl⟩
      · exact ⟨f, List.mem_append_left _ hf, hfl⟩
    · rintro ⟨f, hf, rfl⟩
      rcases List.mem_append.1 hf with hf | hf
      · exact .inr ⟨f, hf, rfl⟩
      · exact .inl (List.mem_singleton.1 hf ▸ rfl)
  head ℓ i hi := by
    change (∃ f, (ws.entries ++ [e])[i]? = some f ∧ f.lock = ℓ) ∧
      ∀ j f, j < i → (ws.entries ++ [e])[j]? = some f → f.lock ≠ ℓ
    by_cases hℓ : ℓ = e.lock
    · subst hℓ
      have hi : i = ws.entries.length := by
        simp only [acquired, Function.update_self, LockWord.owned.injEq] at hi
        exact hi.2.symm
      subst hi
      refine ⟨⟨e, by simp, rfl⟩, fun j f hj hf => ?_⟩
      rw [List.getElem?_append_left hj] at hf
      exact h.ne_of_free hl (List.mem_of_getElem? hf)
    · simp only [acquired, Function.update_of_ne hℓ] at hi
      obtain ⟨⟨f, hf, hfl⟩, hbefore⟩ := h.head ℓ i hi
      have hlt := (List.getElem?_eq_some_iff.1 hf).1
      refine ⟨⟨f, by rwa [List.getElem?_append_left hlt], hfl⟩, fun j g hj hg => ?_⟩
      rw [List.getElem?_append_left (by omega)] at hg
      exact hbefore j g hj hg

/-- A new entry at the end of the chain of its lock. -/
theorem Chains.link (h : v.Chains S p ws.entries) (hj : ws.entries[j]? = some f)
    (hfn : f.next = none) (hfl : f.lock = e.lock) (hn : e.next = none)
    (ha : e.lock = S.cfg.getLock e.addr) (hne : ∀ g ∈ ws.entries, g.addr ≠ e.addr) :
    v.Chains S p (ws.push (some j) e).entries where
  chained := h.chained.link hj hfn hfl hn
  lock g hg := by
    rcases mem_push hg with rfl | ⟨g', hg', hgg⟩
    · exact ha
    · rw [hgg]
      exact h.lock g' hg'
  addr := by
    refine List.pairwise_append.2 ⟨pairwise_modify h.addr fun _ => rfl,
      List.pairwise_singleton .., fun g hg g' hg' => ?_⟩
    rw [List.mem_singleton.1 hg']
    obtain ⟨k, d, hd, ⟨-, rfl⟩ | ⟨-, rfl⟩⟩ := mem_modify hg
    · exact hne d (List.mem_of_getElem? hd)
    · exact hne _ (List.mem_of_getElem? hd)
  holds ℓ := by
    rw [h.holds]
    constructor
    · rintro ⟨g, hg, rfl⟩
      obtain ⟨g', hg', hgg⟩ := exists_mem_push (some j) e hg
      exact ⟨g', hg', by rw [hgg]⟩
    · rintro ⟨g, hg, rfl⟩
      rcases mem_push hg with rfl | ⟨g', hg', hgg⟩
      · exact ⟨f, List.mem_of_getElem? hj, hfl⟩
      · exact ⟨g', hg', by rw [hgg]⟩
  head ℓ i hi := by
    obtain ⟨⟨g, hg, hgl⟩, hbefore⟩ := h.head ℓ i hi
    have hlt := (List.getElem?_eq_some_iff.1 hg).1
    refine ⟨?_, fun k d hk hd => ?_⟩
    · obtain ⟨g', hg', n, hgn⟩ := getElem?_push (some j) e hlt
      rw [hg] at hg'
      injection hg' with hg'
      exact ⟨_, hgn, hg' ▸ hgl⟩
    · obtain ⟨d', hd', n, hdn⟩ := getElem?_push (some j) e (hk.trans hlt)
      rw [hd] at hdn
      injection hdn with hdn
      rw [hdn]
      exact hbefore k d' hk hd'

/-- The entry that the search finds is the one of the address, or there is none. -/
theorem Chains.chainFind [DecidableEq Addr] {a : Addr} {es : List (WEntry Addr Lock w)}
    (h : v.Chains S p es) {i : ℕ} (hi : v.locks (S.cfg.getLock a) = .owned p i) :
    match TinyStm.chainFind es a es.length i with
    | .found j e => es[j]? = some e ∧ e.addr = a
    | .last j version => ∃ e, es[j]? = some e ∧ e.lock = S.cfg.getLock a ∧ e.next = none ∧
        e.version = version ∧ ∀ f ∈ es, f.addr ≠ a := by
  obtain ⟨⟨e, he, hel⟩, hbefore⟩ := h.head _ i hi
  have hfind := h.chained.chainFind a es.length i he (Nat.le_add_right ..)
    fun k f hk hf hfl => (hbefore k f hk hf (hfl.trans hel)).elim
  cases hres : TinyStm.chainFind es a es.length i with
  | found j f =>
    rw [hres] at hfind
    exact ⟨hfind.1, hfind.2.2.1⟩
  | last j version =>
    rw [hres] at hfind
    obtain ⟨f, hf, hfl, hfn, hfv, hne⟩ := hfind
    refine ⟨f, hf, hfl.trans hel, hfn, hfv, fun g hg hga => hne g hg ?_ hga⟩
    rw [hel, h.lock g hg, hga]

/-- A change of an entry that leaves its address, its lock and its link. -/
theorem Chains.modify {es : List (WEntry Addr Lock w)}
    {g : WEntry Addr Lock w → WEntry Addr Lock w} (h : v.Chains S p es)
    (ha : ∀ e, (g e).addr = e.addr) (hl : ∀ e, (g e).lock = e.lock)
    (hn : ∀ e, (g e).next = e.next) : v.Chains S p (es.modify j g) where
  chained := h.chained.modify j hl hn
  lock f hf := by
    obtain ⟨k, d, hd, ⟨-, rfl⟩ | ⟨-, rfl⟩⟩ := mem_modify hf
    · rw [hl, ha]
      exact h.lock d (List.mem_of_getElem? hd)
    · exact h.lock _ (List.mem_of_getElem? hd)
  addr := pairwise_modify h.addr ha
  holds ℓ := by
    rw [h.holds]
    constructor
    · rintro ⟨f, hf, rfl⟩
      rcases mem_modify_of_mem (j := j) (g := g) hf with hf | hf
      · exact ⟨f, hf, rfl⟩
      · exact ⟨g f, hf, hl f⟩
    · rintro ⟨f, hf, rfl⟩
      obtain ⟨k, d, hd, ⟨-, rfl⟩ | ⟨-, rfl⟩⟩ := mem_modify hf
      · exact ⟨d, List.mem_of_getElem? hd, (hl d).symm⟩
      · exact ⟨_, List.mem_of_getElem? hd, rfl⟩
  head ℓ i hi := by
    obtain ⟨⟨f, hf, hfl⟩, hbefore⟩ := h.head ℓ i hi
    refine ⟨⟨if j = i then g f else f, by rw [List.getElem?_modify, hf]; rfl, ?_⟩,
      fun k d hk hd => ?_⟩
    · split
      · rw [hl, hfl]
      · exact hfl
    · rw [List.getElem?_modify] at hd
      obtain ⟨d', hd', rfl⟩ := Option.map_eq_some_iff.1 hd
      have := hbefore k d' hk hd'
      split
      · rwa [hl]
      · exact this

end View

/-! ## The record of a store -/

section
variable {Tid Addr Lock : Type} {w : ℕ} [DecidableEq Addr] (S : Setting Tid Addr Lock w) (p : Tid)

/-- The transaction has stored the bits `k` of `x` to `a`, and the store is not recorded yet. -/
def stored (a : Addr) (x k : BitVec w) : Asn S p :=
  .ex fun tx => .ex fun m => .pure (TxActive S.toPremises tx) ⊓
    At tx (snap S p tx m ⊓ wset S p { tx with trace := .store a x k :: tx.trace })

/-- The word that the owner of the stripe of `a` finds in memory. -/
def ownMem (a : Addr) (x : BitVec w) : VAsn S p :=
  heldAsn S p (fun v => v.Holds p (S.cfg.getLock a) ∧ v.mem a = x)
    fun _ _ h ⟨hh, hx⟩ => ⟨h.holds_iff.2 hh, (h.mem a hh).trans hx⟩

/-- What a store leaves: the transaction has aborted, or it has stored the bits. -/
def afterStore (a : Addr) (x k : BitVec w) : Asn S p := idleAsn S p ⊔ stored S p a x k

end

variable {Tid Addr Lock : Type} {w : ℕ} [DecidableEq Tid] [DecidableEq Addr] [DecidableEq Lock]
  {S : Setting Tid Addr Lock w} {p : Tid} {tx : StmTx Addr Lock w} {m : Mem Addr w}
  {Φ : VAsn S p} {J : Asn S p} {a : Addr} {x k : BitVec w}

omit [DecidableEq Tid] [DecidableEq Addr] [DecidableEq Lock] in
/-- A new write set of a transaction that may store. -/
theorem TxActive.store (h : TxActive S.toPremises tx)
    (hro : S.hint → tx.attr.readOnly = false) {ws : WSet Addr Lock w}
    (hm : ∀ e ∈ ws.entries, S.mask e.mask) : TxActive S.toPremises { tx with wSet := ws } where
  active := h.active
  attr := h.attr
  phase := h.phase
  irr := h.irr
  nesting := h.nesting
  version := h.version
  hint hS hr := by
    have := hro hS
    simp_all
  mask := hm

omit [DecidableEq Tid] [DecidableEq Addr] [DecidableEq Lock] in
theorem TxActive.push (h : TxActive S.toPremises tx)
    (hro : S.hint → tx.attr.readOnly = false)
    {e : WEntry Addr Lock w} (hm : S.mask e.mask) (prev : Option ℕ) :
    TxActive S.toPremises { tx with wSet := tx.wSet.push prev e } := by
  refine h.store hro fun f hf => ?_
  rcases mem_push hf with rfl | ⟨d, hd, hfd⟩
  · exact hm
  · rw [hfd]
    exact h.mask d hd

/-- A store is recorded in the trace of an active attempt. -/
theorem recordStore_spec : Triple (protocol S) p (afterStore S p a x k)
    (record p (.store a x k)) (fun _ => boundary S p) J := by
  refine .of_sup (.of_ex fun tx => ?_) (.of_ex fun tx => .of_ex fun m => ?_)
  · refine .of_fact (fun s _ h => h.1) fun hidle => ?_
    exact .pre ((recordIdle_spec (Φ := noLocks S p) hidle _).post
      (fun _ s _ h => .inl ⟨tx, hidle, h⟩) fun _ _ h => h) fun s _ h => h.2
  · refine .of_fact (fun s _ h => h.1) fun hact => ?_
    refine .pre ((recordActive_spec hact _).post (fun _ s _ h => boundary_of_recorded hact h)
      fun _ _ h => h) fun s _ h => ?_
    exact ⟨h.2.1, ⟨m, h.2.2.1.store a x k⟩, h.2.2.2⟩

omit [DecidableEq Tid] [DecidableEq Addr] in
/-- A stripe that the snapshot covers has been read. -/
theorem hasRead_of_covered {ℓ : Lock} (h : View.Covered tx ℓ) : (stmHasRead tx ℓ).isSome := by
  obtain ⟨r, hr, hrl, -⟩ := h
  exact List.find?_isSome.2 ⟨r, hr, by simpa using hrl⟩

omit [DecidableEq Tid] [DecidableEq Addr] in
/-- A stripe that has been read and passes the test of a store is not newer than the snapshot. -/
theorem le_end_of_covered {ℓ : Lock} {l : ℕ} (hact : TxLive S.toPremises tx)
    (hok : ¬ (tx.irrevocable = 0 ∧ lockGetTimestamp l > tx.end_ ∧ (stmHasRead tx ℓ).isSome))
    (hi : tx.irrevocable ≠ 3) (hc : View.Covered tx ℓ) : lockGetTimestamp l ≤ tx.end_ := by
  by_contra hlt
  have := hact.irr
  exact hok ⟨by omega, by omega, hasRead_of_covered hc⟩

omit [DecidableEq Tid] [DecidableEq Addr] [DecidableEq Lock] in
/-- A store under `k` to `a` needs no new entry, or there is room for one, or the attempt is retried
with a larger write set. -/
def HasRoom (getLock : Addr → Lock) (tx : StmTx Addr Lock w) (a : Addr) (k : BitVec w) : Prop :=
  tx.wSet.entries.length = tx.wSet.size → tx.attr.noRetry = true →
    ∃ e ∈ tx.wSet.entries, e.lock = getLock a ∧ (k = 0#w ∨ e.addr = a)

instance (getLock : Addr → Lock) (tx : StmTx Addr Lock w) (a : Addr) (k : BitVec w) :
    Decidable (HasRoom getLock tx a k) :=
  inferInstanceAs (Decidable (_ → _ → _))

/-- A write set that is full is not used any further: the transaction aborts and is retried. -/
theorem extendWs_spec (hact : TxLive S.toPremises tx)
    (hfull : tx.wSet.entries.length = tx.wSet.size → tx.attr.noRetry = false)
    (hΦ : ∀ v, Linked S p tx v → Φ v → live S p tx m v) :
    Triple (protocol S) p (At tx Φ) (extendWs S.cfg p) (fun _ => At tx Φ) (boundary S p) := by
  refine .getTx (.ite (fun hf => ?_) fun _ => .of_ret fun _ _ h => h)
  refine .weaken ((abort_spec hact _).post (fun _ s _ h => ?_) fun _ _ h => h) hΦ
  rcases h.1 with hr | hr
  · rw [hfull hf] at hr
    cases hr
  · exact absurd hr (by decide)

end TinyStm
