import TinyStm.Proof.Commit

/-!
# Write-back, commit-time locking

The loads, the stores and the commits of `src/stm_wbctl.h`. A transaction owns no lock until it
commits, and then it acquires the locks of its entries from the last one on. Until then its write
set is its own, and a load merges it with the word in memory. During the commit the entries are of
two kinds, those whose lock has been acquired and the others, and the loop over them is proved by an
invariant that says which locks the transaction owns at each index.
-/

namespace TinyStm

namespace View

variable {Tid Addr Lock : Type} {w : ℕ} [DecidableEq Addr] {S : Setting Tid Addr Lock w}
  {v : View Tid Addr Lock w} {p : Tid} {tx : StmTx Addr Lock w} {a : Addr}

theorem Ws.ctl (h : v.Ws S p tx) (hS : S.cfg.designOf tx.attr = .writeBackCtl) : v.CtlWs S p tx := by
  simpa only [Ws, hS] using h

theorem CtlWs.ws (h : v.CtlWs S p tx) (hS : S.cfg.designOf tx.attr = .writeBackCtl) : v.Ws S p tx := by
  simpa only [Ws, hS] using h

/-- What a transaction sees at an address is what it has written there, over the committed word. -/
theorem CtlEntries.apply (h : CtlEntries S tx) (m : Mem Addr w) (a : Addr) :
    tx.trace.apply m a = withWritten (writtenEntry tx a) (m a) := by
  cases hw : writtenEntry tx a with
  | none =>
    refine Trace.apply_of_not_mem_writes fun ha => ?_
    obtain ⟨e, he, hea⟩ := h.stored a ha
    exact List.find?_eq_none.1 hw e he (by simpa using hea)
  | some e =>
    have hea : e.addr = a := by simpa using List.find?_some hw
    subst hea
    exact (h.value e (List.mem_of_find?_eq_some hw) m).symm

end View

variable {Tid Addr Lock : Type} {w : ℕ} [DecidableEq Tid] [DecidableEq Addr] [DecidableEq Lock]
  {S : Setting Tid Addr Lock w} {p : Tid} {tx : StmTx Addr Lock w} {m : Mem Addr w}
  {J : Asn S p} {a : Addr}

/-! ## Loads -/

/-- What the loop of a load knows of the entry for its address: the entry of an irrevocable
transaction does not matter. -/
def written (S : Setting Tid Addr Lock w) (p : Tid) (a : Addr)
    (e? : Option (WEntry Addr Lock w)) (tx : StmTx Addr Lock w) : VAsn S p :=
  .pure (writtenEntry tx a = e? ∧ (¬ View.Blind S tx → tx.irrevocable ≠ 0 →
    ∀ e, e? = some e → e.mask = 0#w))

/-- `stm_wbctl_read`. An irrevocable transaction that has stored some bits of the word, but not all
of them, does not see them. -/
theorem stmWbctlRead_spec (hS : S.cfg.designOf tx.attr = .writeBackCtl) (hact : TxActive S.toPremises tx)
    (hirr : ¬ View.Blind S tx → tx.irrevocable ≠ 0 → ∀ e ∈ tx.wSet.entries, e.addr = a →
      e.mask = BitVec.allOnes w ∨ e.mask = 0#w) :
    Triple (protocol S) p (At tx (live S p tx m)) (stmWbctlRead S.cfg p a) (afterLoad S p a)
      (boundary S p) := by
  refine .getTx ?_
  dsimp only
  cases hfull : (writtenEntry tx a).filter fun e => e.mask = BitVec.allOnes w with
  | some e =>
    -- all bits of the word have been stored
    obtain ⟨he, hm⟩ := Option.filter_eq_some_iff.1 hfull
    have hm : e.mask = BitVec.allOnes w := by simpa using hm
    have hea : e.addr = a := by simpa using List.find?_some he
    refine .of_ret fun s hs h => ?_
    have hc : tx.trace.cover a = BitVec.allOnes w := by
      rw [← hea, ← (h.2.2.ctl hS).entries.mask e (List.mem_of_find?_eq_some he), hm]
    refine .inr ⟨tx, m, hact, h.1, h.2, .inr (.inl ⟨hc, fun m' => ?_⟩),
      .of_cover hs.obs hc⟩
    · rw [(h.2.2.ctl hS).entries.apply, he]
      simp [withWritten, hm]
  | none =>
    generalize hw : writtenEntry tx a = e? at hfull
    refine .iterate (reading S .writeBackCtl p a (written S p a e?)) (fun s _ h =>
      ⟨tx, m, ⟨hact, hS⟩, h.1, ⟨h.2, hw, fun hb hi e he => ?_⟩, trivial⟩) fun l? => ?_
    · have hmem := List.mem_of_find?_eq_some (hw.trans he)
      have hea : e.addr = a := by simpa using List.find?_some (hw.trans he)
      refine (hirr hb hi e hmem hea).resolve_left fun hm => ?_
      simp [he, hm] at hfull
    refine .of_ex fun tx => .of_ex fun m => .of_fact (fun _ _ h => h.1) fun ⟨hact, hS⟩ =>
      .pre (loadLockOr_spec fun l => ?_) fun _ _ h => h.2
    cases l with
    | owned q i => exact .of_ret fun s _ h => ⟨tx, m, ⟨hact, hS⟩, h.1, h.2.1, trivial⟩
    | free l =>
      refine readFree_spec (withWritten e?) hact hS (fun l2 => l2) rfl (fun l2 _ => l2)
        (fun _ => .inr rfl) (fun _ _ _ _ h => h) (fun _ v _ h i r hl => ?_)
        fun v hwr hws _ hor m => ?_
      · exact ((h.2.ctl hS).noLocks r.lock ⟨i, hl⟩).elim
      · obtain ⟨hwr, hzero⟩ := hwr
        rw [(hws.ctl hS).entries.apply, hwr]
        by_cases hi : tx.irrevocable = 0
        · rw [if_pos hi]
        · rw [if_neg hi]
          cases e? with
          | none => rfl
          | some e => simp [withWritten, hzero (hor.resolve_left hi) hi e rfl]

/-! ## Stores -/

namespace View

variable {Tid Addr Lock : Type} {w : ℕ} [DecidableEq Addr] {S : Setting Tid Addr Lock w}
  {v : View Tid Addr Lock w} {p : Tid} {tx : StmTx Addr Lock w} {x k : BitVec w}
  {e : WEntry Addr Lock w} {j : ℕ}

/-- A store to an address for which there is an entry. -/
theorem CtlEntries.merge (h : CtlEntries S tx) (hj : tx.wSet.entries[j]? = some e)
    (x k : BitVec w) : CtlEntries S { tx with
      wSet := tx.wSet.modify j fun e =>
        { e with value := BitVec.merge e.value x k, mask := e.mask ||| k }
      trace := .store e.addr x k :: tx.trace } where
  lock f hf := by
    obtain ⟨i, d, hd, ⟨-, rfl⟩ | ⟨-, rfl⟩⟩ := mem_modify hf
    · exact h.lock d (List.mem_of_getElem? hd)
    · exact h.lock _ (List.mem_of_getElem? hd)
  addr := pairwise_modify h.addr fun _ => rfl
  mask f hf := by
    obtain ⟨i, d, hd, ⟨rfl, rfl⟩ | ⟨hij, rfl⟩⟩ := mem_modify hf
    · rw [hj] at hd
      injection hd with hd
      subst hd
      rw [Trace.cover_store_self, ← h.mask e (List.mem_of_getElem? hj), BitVec.or_comm]
    · rw [Trace.cover_store_of_ne (addr_ne_of_pairwise h.addr hd hj hij)]
      exact h.mask _ (List.mem_of_getElem? hd)
  value f hf m' := by
    obtain ⟨i, d, hd, ⟨rfl, rfl⟩ | ⟨hij, rfl⟩⟩ := mem_modify hf
    · rw [hj] at hd
      injection hd with hd
      subst hd
      rw [Trace.apply_store_self, ← h.value e (List.mem_of_getElem? hj), BitVec.merge_merge,
        BitVec.or_comm]
    · rw [Trace.apply_store_of_ne (addr_ne_of_pairwise h.addr hd hj hij)]
      exact h.value _ (List.mem_of_getElem? hd) m'
  stored b hb := by
    have hex : ∃ f ∈ tx.wSet.entries, f.addr = b := by
      rcases List.mem_cons.1 hb with rfl | hb
      · exact ⟨e, List.mem_of_getElem? hj, rfl⟩
      · exact h.stored b hb
    obtain ⟨f, hf, rfl⟩ := hex
    rcases mem_modify_of_mem hf with hf | hf
    · exact ⟨f, hf, rfl⟩
    · exact ⟨_, hf, rfl⟩

/-- A store to an address for which there is no entry yet. -/
theorem CtlEntries.push (h : CtlEntries S tx) (hl : e.lock = S.cfg.getLock e.addr)
    (hne : ∀ f ∈ tx.wSet.entries, f.addr ≠ e.addr) (hx : e.mask ≠ 0#w → e.value = x) :
    CtlEntries S { wbctlPush e tx with trace := .store e.addr x e.mask :: tx.trace } where
  lock f hf := by
    rcases List.mem_append.1 hf with hf | hf
    · exact h.lock f hf
    · exact List.mem_singleton.1 hf ▸ hl
  addr := List.pairwise_append.2 ⟨h.addr, List.pairwise_singleton .., fun f hf g hg =>
    List.mem_singleton.1 hg ▸ hne f hf⟩
  mask f hf := by
    rcases List.mem_append.1 hf with hf | hf
    · exact (h.mask f hf).trans (Trace.cover_store_of_ne (hne f hf) ..).symm
    · have hc : tx.trace.cover e.addr = 0#w := by
        refine Trace.cover_of_not_mem_writes fun ha => ?_
        obtain ⟨g, hg, hga⟩ := h.stored _ ha
        exact hne g hg hga
      rw [List.mem_singleton.1 hf, Trace.cover_store_self, hc, BitVec.or_zero]
  value f hf m' := by
    rcases List.mem_append.1 hf with hf | hf
    · rw [Trace.apply_store_of_ne (hne f hf)]
      exact h.value f hf m'
    · have ha : e.addr ∉ tx.trace.writes := fun ha => by
        obtain ⟨g, hg, hga⟩ := h.stored _ ha
        exact hne g hg hga
      rw [List.mem_singleton.1 hf, Trace.apply_store_self, Trace.apply_of_not_mem_writes ha]
      by_cases hm : e.mask = 0#w
      · rw [hm, BitVec.merge_zero, BitVec.merge_zero]
      · rw [hx hm]
  stored b hb := by
    rcases List.mem_cons.1 hb with rfl | hb
    · exact ⟨e, List.mem_append_right _ (.head _), rfl⟩
    · obtain ⟨f, hf, hfb⟩ := h.stored b hb
      exact ⟨f, List.mem_append_left _ hf, hfb⟩

end View

section
variable {x k : BitVec w}

/-- `stm_wbctl_write`. -/
theorem stmWbctlWrite_spec (hS : S.cfg.designOf tx.attr = .writeBackCtl) (hact : TxActive S.toPremises tx)
    (hro : S.hint → tx.attr.readOnly = false) (hk : S.mask k) :
    Triple (protocol S) p (At tx (live S p tx m)) (stmWbctlWrite S.cfg p a x k)
      (fun _ => afterStore S p a x k) (boundary S p) := by
  refine .iterate (fun _ => At tx (live S p tx m)) (fun _ _ h => h) fun _ => ?_
  refine .loadLock (fun _ => live S p tx m) (fun _ _ h => h) fun l => ?_
  cases l with
  | owned q i => exact .of_ret fun _ _ h => h
  | free l =>
    refine .getTx ?_
    cases hw : stmHasWritten tx a with
    | some i =>
      obtain ⟨hi, ha, -⟩ := List.findIdx?_eq_some_iff_getElem.1 hw
      have ha : tx.wSet.entries[i].addr = a := by simpa using ha
      have hi' := List.getElem?_eq_getElem hi
      refine .modifyTx rfl rfl rfl (.of_ret fun s _ h => .inr ?_)
      refine ⟨_, m, hact.store hro fun f hf => ?_, h.1, h.2.1.congr rfl rfl rfl rfl rfl rfl, ?_⟩
      · obtain ⟨j, d, hd, ⟨-, rfl⟩ | ⟨-, rfl⟩⟩ := mem_modify hf
        · exact S.mask_or _ _ (hact.mask d (List.mem_of_getElem? hd)) hk
        · exact hact.mask _ (List.mem_of_getElem? hd)
      · have hws := h.2.2.ctl hS
        refine View.CtlWs.ws ⟨ha ▸ hws.entries.merge hi' x k, fun f hf => ?_, hws.nbAcquired,
          hws.noLocks⟩ hS
        obtain ⟨j, d, hd, ⟨-, rfl⟩ | ⟨-, rfl⟩⟩ := mem_modify hf
        · exact hws.noDrop d (List.mem_of_getElem? hd)
        · exact hws.noDrop _ (List.mem_of_getElem? hd)
    | none =>
      refine .ite (fun _ => ?_) fun _ => .modifyTx rfl rfl rfl (.of_ret fun s _ h => .inr ?_)
      · exact .bind (abort_spec hact.toTxLive _) fun _ =>
          .of_ret fun s _ h => .inl (idleAsn_of_idleWith h.2)
      have hne : ∀ f ∈ tx.wSet.entries, f.addr ≠ a := fun f hf =>
        by simpa using List.findIdx?_eq_none_iff.1 hw f hf
      refine ⟨_, m, hact.store hro fun f hf => ?_, h.1, h.2.1.congr rfl rfl rfl rfl rfl rfl, ?_⟩
      · rcases List.mem_append.1 hf with hf | hf
        · exact hact.mask f hf
        · exact List.mem_singleton.1 hf ▸ hk
      · have hws := h.2.2.ctl hS
        refine View.CtlWs.ws ⟨hws.entries.push rfl hne fun hm => if_neg hm, fun f hf => ?_,
          hws.nbAcquired, hws.noLocks⟩ hS
        rcases List.mem_append.1 hf with hf | hf
        · exact hws.noDrop f hf
        · exact List.mem_singleton.1 hf ▸ rfl

end

/-! ## The acquisition of the locks -/

/-- The descriptor after the acquisition of the lock of entry `i` at the version `n`. -/
def claimed (tx : StmTx Addr Lock w) (i n : ℕ) : StmTx Addr Lock w :=
  { tx with wSet := { tx.wSet.modify i fun e => { e with noDrop := false, version := n } with
      nbAcquired := tx.wSet.nbAcquired + 1 } }

namespace View

/-- During the acquisition the locks of the entries from `n` on are held, each by the entry whose
`no_drop` is not set. -/
structure CtlHeld {Tid Addr Lock : Type} {w : ℕ} [DecidableEq Addr] (S : Setting Tid Addr Lock w)
    (p : Tid) (tx : StmTx Addr Lock w) (n : ℕ) (v : View Tid Addr Lock w) : Prop where
  entries : CtlEntries S tx
  undo : v.WbUndo p (·.noDrop = false) tx.wSet.entries
  count : tx.wSet.nbAcquired = (tx.wSet.entries.filter fun e => !e.noDrop).length
  last : tx.wSet.entries.Pairwise fun e f => e.noDrop = false → f.lock ≠ e.lock
  index : ∀ ℓ i, v.locks ℓ = .owned p i →
    ∃ e, tx.wSet.entries[i]? = some e ∧ e.lock = ℓ ∧ e.noDrop = false
  held : ∀ (j : ℕ) (e : WEntry Addr Lock w), n ≤ j → tx.wSet.entries[j]? = some e →
    v.Holds p e.lock
  pending : ∀ (j : ℕ) (e : WEntry Addr Lock w), j < n → tx.wSet.entries[j]? = some e →
    e.noDrop = true

variable {Tid Addr Lock : Type} {w : ℕ} [DecidableEq Addr] {S : Setting Tid Addr Lock w}
  {v v' : View Tid Addr Lock w} {p : Tid} {tx tx' : StmTx Addr Lock w} {e : WEntry Addr Lock w}
  {n l : ℕ}

theorem CtlHeld.congr (h : SameHeld S p v v') (hc : CtlHeld S p tx n v) : CtlHeld S p tx n v' where
  entries := hc.entries
  undo := hc.undo.congr h
  count := hc.count
  last := hc.last
  index ℓ i hi := hc.index ℓ i ((h.locks ℓ i).1 hi)
  held j e hj he := h.holds_iff.2 (hc.held j e hj he)
  pending := hc.pending

/-- The state of the acquisition depends on the write set and the trace of the descriptor. -/
theorem CtlHeld.of_eq (h : CtlHeld S p tx n v) (hw : tx'.wSet = tx.wSet)
    (ht : tx'.trace = tx.trace) : CtlHeld S p tx' n v where
  entries := ⟨hw ▸ h.entries.lock, hw ▸ h.entries.addr, hw ▸ ht ▸ h.entries.mask,
    hw ▸ ht ▸ h.entries.value, hw ▸ ht ▸ h.entries.stored⟩
  undo := hw ▸ h.undo
  count := hw ▸ h.count
  last := hw ▸ h.last
  index := hw ▸ h.index
  held := hw ▸ h.held
  pending := hw ▸ h.pending

/-- Before the first acquisition. -/
theorem CtlWs.held (h : v.CtlWs S p tx) : CtlHeld S p tx tx.wSet.entries.length v where
  entries := h.entries
  undo := h.undo.1
  count := h.undo.2
  last := List.Pairwise.imp_of_mem (fun he _ _ hd => by
    rw [h.noDrop _ he] at hd
    cases hd) h.entries.addr
  index ℓ i hi := (h.noLocks ℓ ⟨i, hi⟩).elim
  held j e hj he := by
    have := (List.getElem?_eq_some_iff.1 he).1
    omega
  pending j e _ he := h.noDrop e (List.mem_of_getElem? he)

/-- The lock of the entry is owned already. -/
theorem CtlHeld.skip (h : CtlHeld S p tx (n + 1) v) (hn : tx.wSet.entries[n]? = some e)
    (hh : v.Holds p e.lock) : CtlHeld S p tx n v where
  entries := h.entries
  undo := h.undo
  count := h.count
  last := h.last
  index := h.index
  held j f hj hf := by
    rcases Nat.eq_or_lt_of_le hj with rfl | hlt
    · rw [hn] at hf
      injection hf with hf
      exact hf ▸ hh
    · exact h.held j f hlt hf
  pending j f hj := h.pending j f (by omega)

omit [DecidableEq Addr] in
/-- One more entry holds a lock. -/
theorem length_filter_modify {es : List (WEntry Addr Lock w)} {n : ℕ} {e : WEntry Addr Lock w}
    {g : WEntry Addr Lock w → WEntry Addr Lock w} (hn : es[n]? = some e) (he : e.noDrop = true)
    (hg : (g e).noDrop = false) : ((es.modify n g).filter fun e => !e.noDrop).length =
      (es.filter fun e => !e.noDrop).length + 1 := by
  induction es generalizing n with
  | nil => simp at hn
  | cons f es ih =>
    cases n with
    | zero =>
      simp only [List.getElem?_cons_zero, Option.some.injEq] at hn
      subst hn
      simp [he, hg]
    | succ n =>
      rw [List.modify_succ_cons, List.filter_cons, List.filter_cons]
      split <;> simp [ih (by simpa using hn)]

/-- A change that leaves the addresses, the locks, the masks and the values. -/
theorem CtlEntries.modify (h : CtlEntries S tx) {ws : WSet Addr Lock w} {j : ℕ}
    {g : WEntry Addr Lock w → WEntry Addr Lock w} (hw : ws.entries = tx.wSet.entries.modify j g)
    (hg : ∀ e, g e = { e with version := (g e).version, noDrop := (g e).noDrop }) :
    CtlEntries S { tx with wSet := ws } := by
  have ha : ∀ e, (g e).addr = e.addr := fun e => by rw [hg]
  have hmem : ∀ f ∈ ws.entries, ∃ d ∈ tx.wSet.entries, f.addr = d.addr ∧ f.lock = d.lock ∧
      f.mask = d.mask ∧ f.value = d.value := fun f hf => by
    obtain ⟨i, d, hd, ⟨-, rfl⟩ | ⟨-, rfl⟩⟩ := mem_modify (hw ▸ hf)
    · exact ⟨d, List.mem_of_getElem? hd, by rw [hg], by rw [hg], by rw [hg], by rw [hg]⟩
    · exact ⟨_, List.mem_of_getElem? hd, rfl, rfl, rfl, rfl⟩
  refine ⟨fun f hf => ?_, hw ▸ pairwise_modify h.addr ha, fun f hf => ?_, fun f hf m => ?_,
    fun a hb => ?_⟩
  · obtain ⟨d, hd, hfa, hfl, -⟩ := hmem f hf
    rw [hfa, hfl, h.lock d hd]
  · obtain ⟨d, hd, hfa, -, hfm, -⟩ := hmem f hf
    rw [hfa, hfm, h.mask d hd]
  · obtain ⟨d, hd, hfa, -, hfm, hfv⟩ := hmem f hf
    rw [hfa, hfm, hfv]
    exact h.value d hd m
  · obtain ⟨f, hf, rfl⟩ := h.stored a hb
    rcases mem_modify_of_mem (j := j) (g := g) hf with hf | hf
    · exact ⟨f, hw ▸ hf, rfl⟩
    · exact ⟨g f, hw ▸ hf, ha f⟩

/-- The locks that are held during the acquisition. -/
theorem CtlHeld.holds {j : ℕ} (h : CtlHeld S p tx n v) (hj : tx.wSet.entries[j]? = some e)
    (hd : n ≤ j ∨ e.noDrop = false) : v.Holds p e.lock := by
  rcases hd with hd | hd
  · exact h.held j e hd hj
  · exact (h.undo.drops.holds _).2 ⟨e, List.mem_of_getElem? hj, hd, rfl⟩

omit [DecidableEq Addr] in
theorem claimed_getElem? {k : ℕ} (hn : tx.wSet.entries[n]? = some e) :
    (claimed tx n k).wSet.entries[n]? = some { e with noDrop := false, version := k } := by
  simp [claimed, WSet.modify, hn]

omit [DecidableEq Addr] in
/-- The entries after the acquisition of the lock of entry `n`. -/
theorem claimed_eq {j k : ℕ} {f : WEntry Addr Lock w} (hn : tx.wSet.entries[n]? = some e)
    (hf : (claimed tx n k).wSet.entries[j]? = some f) :
    j = n ∧ f = { e with noDrop := false, version := k } ∨
      j ≠ n ∧ tx.wSet.entries[j]? = some f := by
  obtain ⟨d, hd, ⟨rfl, hfd⟩ | ⟨hjn, rfl⟩⟩ := getElem?_modify_eq hf
  · rw [hn] at hd
    injection hd with hd
    exact .inl ⟨rfl, hd ▸ hfd⟩
  · exact .inr ⟨hjn, hd⟩

omit [DecidableEq Addr] in
theorem claimed_getElem?_of_ne {j k : ℕ} (hj : j ≠ n) :
    (claimed tx n k).wSet.entries[j]? = tx.wSet.entries[j]? := by
  change (tx.wSet.entries.modify n _)[j]? = _
  rw [List.getElem?_modify]
  simp [hj.symm]

/-- An entry that drops a lock is the last one for it. -/
theorem CtlHeld.last_claimed {k : ℕ} (h : CtlHeld S p tx (n + 1) v)
    (hn : tx.wSet.entries[n]? = some e) (hl : v.locks e.lock = .free l) :
    (claimed tx n k).wSet.entries.Pairwise fun e f => e.noDrop = false → f.lock ≠ e.lock := by
  refine List.pairwise_iff_getElem.2 fun i j hi hj hij hd => ?_
  rcases claimed_eq hn (List.getElem?_eq_getElem hi) with ⟨rfl, hf⟩ | ⟨-, hf⟩
  · rcases claimed_eq hn (List.getElem?_eq_getElem hj) with ⟨rfl, -⟩ | ⟨-, hg⟩
    · omega
    · rw [hf]
      exact fun he => not_holds_of_free hl (he ▸ h.holds hg (.inl hij))
  · have hfh := h.holds hf (.inr hd)
    rcases claimed_eq hn (List.getElem?_eq_getElem hj) with ⟨rfl, hg⟩ | ⟨-, hg⟩
    · rw [hg]
      exact fun he => not_holds_of_free hl (he ▸ hfh)
    · obtain ⟨hi', hfi⟩ := List.getElem?_eq_some_iff.1 hf
      obtain ⟨hj', hgj⟩ := List.getElem?_eq_some_iff.1 hg
      have := List.pairwise_iff_getElem.1 h.last i j hi' hj' hij
      rw [hfi, hgj] at this
      exact this hd

/-- The entries that drop a lock after the acquisition of the lock of entry `n`. -/
theorem CtlHeld.undo_claimed [DecidableEq Lock] (h : CtlHeld S p tx (n + 1) v)
    (hn : tx.wSet.entries[n]? = some e) (hl : v.locks e.lock = .free l) :
    (v.acquired p e.lock l n).WbUndo p (·.noDrop = false)
      (claimed tx n (lockGetTimestamp l)).wSet.entries where
  drops := {
    holds := fun ℓ => by
      rw [acquired_holds, h.undo.drops.holds]
      constructor
      · rintro (rfl | ⟨f, hf, hd, rfl⟩)
        · exact ⟨_, List.mem_of_getElem? (claimed_getElem? hn), rfl, rfl⟩
        · rcases mem_modify_of_mem hf with hf | hf
          · exact ⟨f, hf, hd, rfl⟩
          · exact ⟨_, hf, rfl, rfl⟩
      · rintro ⟨f, hf, hd, rfl⟩
        obtain ⟨j, hj⟩ := List.mem_iff_getElem?.1 hf
        rcases claimed_eq hn hj with ⟨-, rfl⟩ | ⟨-, hj⟩
        · exact .inl rfl
        · exact .inr ⟨f, List.mem_of_getElem? hj, hd, rfl⟩
    distinct := (h.last_claimed hn hl).imp fun h hd _ he => h hd he.symm }
  version f hf hd := by
    rw [acquired_lastTs]
    obtain ⟨j, hj⟩ := List.mem_iff_getElem?.1 hf
    rcases claimed_eq hn hj with ⟨-, rfl⟩ | ⟨-, hj⟩
    · rw [if_pos rfl]
    · rw [if_neg fun he => not_holds_of_free hl (he ▸ h.holds hj (.inr hd))]
      exact h.undo.version f (List.mem_of_getElem? hj) hd

/-- The lock of an entry is acquired. -/
theorem CtlHeld.acquire [DecidableEq Lock] (h : CtlHeld S p tx (n + 1) v)
    (hn : tx.wSet.entries[n]? = some e) (hl : v.locks e.lock = .free l) :
    CtlHeld S p (claimed tx n (lockGetTimestamp l)) n (v.acquired p e.lock l n) where
  entries := h.entries.modify rfl fun _ => rfl
  undo := h.undo_claimed hn hl
  count :=
    (congrArg (· + 1) h.count).trans (length_filter_modify hn (h.pending n e (by omega) hn) rfl).symm
  last := h.last_claimed hn hl
  index ℓ i hi := by
    by_cases hℓ : ℓ = e.lock
    · subst hℓ
      simp only [acquired, Function.update_self, LockWord.owned.injEq] at hi
      obtain ⟨-, rfl⟩ := hi
      exact ⟨_, claimed_getElem? hn, rfl, rfl⟩
    · simp only [acquired, Function.update_of_ne hℓ] at hi
      obtain ⟨f, hf, hfl, hfd⟩ := h.index ℓ i hi
      have hin : i ≠ n := by
        rintro rfl
        rw [hn] at hf
        injection hf with hf
        exact hℓ (hf ▸ hfl.symm)
      exact ⟨f, (claimed_getElem?_of_ne hin).trans hf, hfl, hfd⟩
  held j f hj hf := by
    rcases claimed_eq hn hf with ⟨-, rfl⟩ | ⟨hjn, hf⟩
    · exact acquired_holds.2 (.inl rfl)
    · exact acquired_holds.2 (.inr (h.held j f (by omega) hf))
  pending j f hj hf := by
    rcases claimed_eq hn hf with ⟨rfl, -⟩ | ⟨-, hf⟩
    · omega
    · exact h.pending j f (by omega) hf

end View

/-- During the acquisition. -/
def ctlHeld (S : Setting Tid Addr Lock w) (p : Tid) (tx : StmTx Addr Lock w) (n : ℕ) : VAsn S p :=
  heldAsn S p (View.CtlHeld S p tx n) fun _ _ => View.CtlHeld.congr

/-- What the acquisition leaves of the descriptor. -/
structure SameTx (tx tx' : StmTx Addr Lock w) : Prop where
  attr : tx'.attr = tx.attr
  nesting : tx'.nesting = tx.nesting
  irrevocable : tx'.irrevocable = tx.irrevocable
  statAborts : tx'.statAborts = tx.statAborts
  locks : tx'.wSet.entries.map (·.lock) = tx.wSet.entries.map (·.lock)

omit [DecidableEq Tid] [DecidableEq Addr] [DecidableEq Lock] in
theorem SameTx.trans {tx' tx'' : StmTx Addr Lock w} (h : SameTx tx tx') (h' : SameTx tx' tx'') :
    SameTx tx tx'' :=
  ⟨h'.attr.trans h.attr, h'.nesting.trans h.nesting, h'.irrevocable.trans h.irrevocable,
    h'.statAborts.trans h.statAborts, h'.locks.trans h.locks⟩

omit [DecidableEq Tid] [DecidableEq Addr] [DecidableEq Lock] in
theorem SameTx.claimed (tx : StmTx Addr Lock w) (i n : ℕ) : SameTx tx (claimed tx i n) where
  attr := rfl
  nesting := rfl
  irrevocable := rfl
  statAborts := rfl
  locks := by
    change (tx.wSet.entries.modify i _).map _ = _
    refine List.ext_getElem? fun j => ?_
    rw [List.getElem?_map, List.getElem?_map, List.getElem?_modify]
    cases tx.wSet.entries[j]? with
    | none => rfl
    | some e => by_cases hij : i = j <;> simp [hij]

/-- The locks of the entries from `n` on are held, by a transaction that was `tx` at the start of the
acquisition. -/
def acquiring (S : Setting Tid Addr Lock w) (p : Tid) (tx : StmTx Addr Lock w) (m : Mem Addr w)
    (n : ℕ) : Asn S p :=
  .ex fun tx' => .pure (TxLive S.toPremises tx' ∧ SameTx tx tx') ⊓
    At tx' (snap S p tx' m ⊓ ctlHeld S p tx' n)

/-- What an acquisition leaves: the locks are held, or the transaction has aborted. -/
def afterAcquire (S : Setting Tid Addr Lock w) (p : Tid) (tx : StmTx Addr Lock w)
    (m : Mem Addr w) (n : ℕ) (ok : Bool) : Asn S p :=
  if ok then acquiring S p tx m n
  else .pure (tx.attr.noRetry = true ∧ tx.irrevocable = 0) ⊓
    idleWith S p 0 (S.cfg.UnaskedCommit tx.statAborts)

/-- The acquisition of one lock. -/
theorem wbctlAcquireEntry_spec {ℓ : Lock} {n : ℕ} (hS : S.cfg.designOf tx.attr = .writeBackCtl)
    (hn : (tx.wSet.entries.map (·.lock))[n]? = some ℓ) :
    Triple (protocol S) p (acquiring S p tx m (n + 1)) (wbctlAcquireEntry S.cfg p n ℓ)
      (afterAcquire S p tx m n) (boundary S p) := by
  refine .iterate (fun _ => acquiring S p tx m (n + 1)) (fun _ _ h => h) fun _ => ?_
  refine .of_ex fun tx' => .of_fact (fun _ _ h => h.1) fun ⟨hlive, hsame⟩ =>
    .pre ?_ fun _ _ h => h.2
  have hS : S.cfg.designOf tx'.attr = .writeBackCtl := hsame.attr ▸ hS
  obtain ⟨e, he, rfl⟩ : ∃ e, tx'.wSet.entries[n]? = some e ∧ e.lock = ℓ := by
    rwa [← hsame.locks, List.getElem?_map, Option.map_eq_some_iff] at hn
  refine .loadLock (fun l => snap S p tx' m ⊓ ctlHeld S p tx' (n + 1) ⊓ word S p e.lock l)
    (fun v _ h => ⟨h, word_self _ v⟩) fun l => ?_
  cases l with
  | owned q j =>
    refine .getTx (.ite (fun ho => ?_) fun _ => ?_)
    · obtain ⟨rfl, -⟩ := ho
      refine .of_ret fun s _ h => ⟨tx', ⟨hlive, hsame⟩, h.1, h.2.1.1, ?_⟩
      exact View.CtlHeld.skip h.2.1.2 he ⟨j, h.2.2 rfl⟩
    · refine .bind (setCLock_spec e.lock) fun _ => .of_ex fun c => ?_
      have hlive : TxLive S.toPremises { tx' with cLock := c } := { hlive with }
      have hsame : SameTx tx { tx' with cLock := c } := hsame.trans ⟨rfl, rfl, rfl, rfl, rfl⟩
      have hΦ : ∀ v, (snap S p tx' m ⊓ ctlHeld S p tx' (n + 1) ⊓ word S p e.lock (.owned q j)) v →
          (snap S p { tx' with cLock := c } m ⊓ ctlHeld S p { tx' with cLock := c } (n + 1)) v :=
        fun v h => ⟨h.1.1.congr rfl rfl rfl rfl rfl rfl, View.CtlHeld.of_eq h.1.2 rfl rfl⟩
      refine .weaken ?_ fun v _ h => hΦ v h
      generalize htx : ({ tx' with cLock := c } : StmTx Addr Lock w) = tx'' at hlive hsame ⊢
      have hirr : tx'.irrevocable = tx''.irrevocable := by rw [← htx]
      rw [hirr]
      refine .ite (fun _ => .of_ret fun s _ h => ⟨tx'', ⟨hlive, hsame⟩, h⟩) fun hi => ?_
      have hi : tx''.irrevocable = 0 := not_not.1 hi
      refine .weaken (.bind (stmRollback_spec hlive.attr (fun t ht => ?_)
        (hi.le.trans (Nat.zero_le 3)) _) fun _ => .of_ret fun s _ h => ?_) fun v _ h => ?_
      · rw [hlive.phase] at ht
        cases ht
      · have hidle := h.2
        rw [hi] at hidle
        refine ⟨⟨hsame.attr ▸ h.1.noRetry (by decide), hsame.irrevocable ▸ hi⟩, idleWith_mono hidle ?_⟩
        rw [hsame.statAborts]
        exact fun hu => hu _ (by simp)
      · have hheld : View.CtlHeld S p tx'' (n + 1) v := h.2
        have hu : v.WbUndo p (·.noDrop = false) tx''.wSet.entries ∧ tx''.wSet.nbAcquired =
            (tx''.wSet.entries.filter fun e => !e.noDrop).length := ⟨hheld.undo, hheld.count⟩
        change View.Undo S v p tx''
        have hS : S.cfg.designOf tx''.attr = .writeBackCtl := htx ▸ hS
        simpa only [View.Undo, hS] using hu
  | free l =>
    refine .casLock (Ψ := snap S p (claimed tx' n (lockGetTimestamp l)) m ⊓
      ctlHeld S p (claimed tx' n (lockGetTimestamp l)) n) hlive.phase hlive.attr
      (fun v hl h hlock => ⟨?_, View.CtlHeld.acquire h.1.2 he hlock⟩) ?_ ?_
    · have hsnap := View.Snap.acquire hl.inv hlock (hl.phase.trans hlive.phase)
        (hl.attr ▸ hlive.attr) (fun _ hd => (hd hS).elim) h.1.1 n
      exact hsnap.congr rfl rfl rfl rfl rfl rfl
    · refine .modifyTx rfl rfl rfl (.of_ret fun s _ h => ⟨claimed tx' n (lockGetTimestamp l),
        ⟨?_, hsame.trans (.claimed ..)⟩, h⟩)
      refine { hlive with hint := fun hh hr => ?_, mask := fun f hf => ?_ }
      · rw [hlive.hint hh hr] at he
        cases he
      · obtain ⟨j, d, hd, ⟨-, rfl⟩ | ⟨-, rfl⟩⟩ := mem_modify hf
        · exact hlive.mask d (List.mem_of_getElem? hd)
        · exact hlive.mask _ (List.mem_of_getElem? hd)
    · exact .of_ret fun s _ h => ⟨tx', ⟨hlive, hsame⟩, h.1, h.2.1⟩

/-- The acquisition of the locks of the entries `es`, from the last one on. -/
theorem wbctlAcquire_spec (hS : S.cfg.designOf tx.attr = .writeBackCtl) (es : List (WEntry Addr Lock w))
    (hes : ∀ (i : ℕ) (e : WEntry Addr Lock w), es[i]? = some e →
      (tx.wSet.entries.map (·.lock))[i]? = some e.lock) :
    Triple (protocol S) p (acquiring S p tx m es.length) (wbctlAcquire S.cfg p es.zipIdx.reverse)
      (afterAcquire S p tx m 0) (boundary S p) := by
  induction es using List.reverseRecOn with
  | nil => exact .of_ret fun s _ h => h
  | append_singleton es e ih =>
    have hlist : (es ++ [e]).zipIdx.reverse = (e, es.length) :: es.zipIdx.reverse := by
      simp [List.zipIdx_append]
    rw [hlist, List.length_append]
    refine .bind (wbctlAcquireEntry_spec hS (hes es.length e (by simp))) fun ok => ?_
    cases ok with
    | false => exact .of_ret fun s _ h => h
    | true =>
      refine ih fun i f hi => hes i f ?_
      rwa [List.getElem?_append_left (List.getElem?_eq_some_iff.1 hi).1]

/-! ## Commits -/

/-- The loop of `stm_wbctl_commit` that writes back. -/
theorem wbctlInstall_spec {t : ℕ} (hph : tx.phase = .installing t)
    (es : List (WEntry Addr Lock w)) :
    Triple (protocol S) p (At tx (install S p (·.noDrop = false)
      (fun e old => BitVec.merge old e.value e.mask) es es))
      (wbctlInstall es t) (fun _ => At tx (noLocks S p)) J := by
  induction es with
  | nil => exact .of_ret fun s _ h => noLocks_of_install h
  | cons e es ih =>
    refine .bind (R := fun _ => At tx (install S p (·.noDrop = false)
      (fun e old => BitVec.merge old e.value e.mask) (e :: es) es)) ?_ fun _ => .bind (R := fun _ =>
      At tx (install S p (·.noDrop = false) (fun e old => BitVec.merge old e.value e.mask) es es))
      ?_ fun _ => ih
    · refine .ite (fun hm => .last (storeWord_install hph (fun v _ h => ⟨h, ?_⟩)
        (.of_ret fun _ _ h => h))) fun _ => .ite (fun hm => ?_) fun hm => ?_
      · by_cases hm0 : e.mask = 0#w
        · -- there are no bits
          refine BitVec.eq_of_getLsbD_eq fun i hi => ?_
          have := congrArg (·.getLsbD i) (hm.symm.trans hm0)
          simp [hi] at this
        · have := h.value e (.head _) hm0
          rwa [hm, BitVec.merge_allOnes] at this
      · refine .loadWord (fun old => install S p (·.noDrop = false)
          (fun e old => BitVec.merge old e.value e.mask) (e :: es) (e :: es) ⊓
          ownMem S p e.addr old) (fun v _ h => ⟨h, ?_, rfl⟩) fun old =>
          .last (storeWord_install hph (fun v _ h => ⟨h.1, ?_⟩) (.of_ret fun _ _ h => h))
        · exact h.lock e (.head _) ▸ h.held e (.head _)
        · exact h.2.2 ▸ h.1.value e (.head _) hm
      · exact .of_ret fun s _ h => ⟨h.1, View.Install.skip h.2 (not_not.1 hm)⟩
    · refine .ite (fun hd => .last (storeLock_install hph hd (fun _ h => h)
        (.of_ret fun _ _ h => h))) fun hd => .of_ret fun s _ h => ?_
      exact ⟨h.1, View.Install.keep h.2 hd fun _ h => h⟩

namespace View

variable {Tid Addr Lock : Type} {w : ℕ} [DecidableEq Addr] {S : Setting Tid Addr Lock w}
  {v v' : View Tid Addr Lock w} {p : Tid} {tx : StmTx Addr Lock w}

/-- The locks of all stripes that the transaction has stored to are held. -/
theorem CtlHeld.holds_of_mem_writes {a : Addr} (h : CtlHeld S p tx 0 v)
    (ha : a ∈ tx.trace.writes) : v.Holds p (S.cfg.getLock a) := by
  obtain ⟨e, he, rfl⟩ := h.entries.stored a ha
  obtain ⟨j, hj⟩ := List.mem_iff_getElem?.1 he
  exact h.entries.lock e he ▸ h.held j e (Nat.zero_le j) hj

/-- The commit is decided, and the entries are to be written back. -/
theorem CtlHeld.install (h : CtlHeld S p tx 0 v) (hv : v.Inv S)
    (hS : S.cfg.designOf (v.attr p) ≠ .writeThrough) (hph : ∀ t, v.phase p ≠ .installing t)
    (hl : v'.locks = v.locks) (hm : v'.mem = v.mem)
    (hcur : ∀ a, v.Holds p (S.cfg.getLock a) → v'.cur S a = tx.trace.apply (v.cur S) a) :
    Install S p (·.noDrop = false) (fun e old => BitVec.merge old e.value e.mask)
      tx.wSet.entries tx.wSet.entries v' := by
  have hholds : ∀ ℓ, v'.Holds p ℓ ↔ v.Holds p ℓ := fun ℓ => by rw [Holds, Holds, hl]
  have hheld : ∀ e ∈ tx.wSet.entries, v.Holds p e.lock := fun e he => by
    obtain ⟨j, hj⟩ := List.mem_iff_getElem?.1 he
    exact h.held j e (Nat.zero_le j) hj
  have hmem : ∀ a, v.Holds p (S.cfg.getLock a) → v.mem a = v.cur S a := fun a ha =>
    hv.mem a ((quiet_of_owned ha).2 ⟨hS, hph⟩)
  refine
    { drops :=
        { holds := fun ℓ => (hholds ℓ).trans (h.undo.drops.holds ℓ)
          distinct := h.undo.drops.distinct }
      last := h.last
      sub := fun _ he => he
      lock := h.entries.lock
      held := fun e he => (hholds _).2 (hheld e he)
      addr := h.entries.addr
      value := fun e he _ => ?_
      dirty := fun a ha => ?_ }
  · have ha : v.Holds p (S.cfg.getLock e.addr) := h.entries.lock e he ▸ hheld e he
    rw [hm, hmem _ ha, hcur _ ha]
    exact h.entries.value e he _
  · have ha := (hholds _).1 ha
    rw [hm, hmem a ha, hcur a ha]
    by_cases hex : ∃ e ∈ tx.wSet.entries, e.addr = a ∧ e.mask ≠ 0#w
    · exact .inr hex
    · refine .inl (Trace.apply_of_cover_zero ?_).symm
      by_contra hc
      by_cases hw : a ∈ tx.trace.writes
      · obtain ⟨e, he, rfl⟩ := h.entries.stored a hw
        exact hex ⟨e, he, rfl, (h.entries.mask e he).symm ▸ hc⟩
      · exact hc (Trace.cover_of_not_mem_writes hw)

end View

/-- `stm_wbctl_commit`. -/
theorem stmWbctlCommit_spec (hS : S.cfg.designOf tx.attr = .writeBackCtl) (hlive : TxLive S.toPremises tx)
    (hne : tx.wSet.entries ≠ []) :
    Triple (protocol S) p (At tx (live S p tx m)) (stmWbctlCommit S.cfg p) (afterCommit S p tx)
      (boundary S p) := by
  have hes : ∀ (i : ℕ) (e : WEntry Addr Lock w), tx.wSet.entries[i]? = some e →
      (tx.wSet.entries.map (·.lock))[i]? = some e.lock := fun i e he => by
    rw [List.getElem?_map, he]
    rfl
  refine .getTx (.bind (.pre (wbctlAcquire_spec (m := m) hS tx.wSet.entries hes) fun s _ h =>
    ⟨tx, ⟨hlive, rfl, rfl, rfl, rfl, rfl⟩, h.1, h.2.1, (h.2.2.ctl hS).held⟩) fun ok => ?_)
  cases ok with
  | false => exact .of_ret fun s _ h => h
  | true =>
    refine .of_ex fun tx' => .of_fact (fun _ _ h => h.1) fun ⟨hlive, hsame⟩ => .pre ?_ fun _ _ h => h.2
    have hS : S.cfg.designOf tx'.attr = .writeBackCtl := hsame.attr ▸ hS
    refine .post
      (commitWith_spec (X := View.CtlHeld S p tx' 0) (c := fun _ _ => View.CtlHeld.congr)
        (m := m) hlive (fun hnil => hne ?_) (fun v hw => ?_)
        (fun v hw a ha => hw.holds_of_mem_writes ha) (fun _ v hw ph i r hl ht => ?_)
        (fun t => wbctlInstall_spec rfl _) fun v v' hv hattr hni hw hl hm hcur =>
          hw.install hv (by simp [hattr, hS]) hni hl hm hcur) (fun ok s _ h => ?_) fun _ _ h => h
    · simpa [hnil] using hsame.locks.symm
    · have hu : v.WbUndo p (·.noDrop = false) tx'.wSet.entries ∧ tx'.wSet.nbAcquired =
          (tx'.wSet.entries.filter fun e => !e.noDrop).length := ⟨hw.undo, hw.count⟩
      simpa only [View.Undo, hS] using hu
    · -- the entry that owns the lock had the version that was read
      obtain ⟨e, he, hel, hed⟩ := hw.index _ i hl
      have hver : e.version = r.version := by simpa [he] using ht
      rw [← hver, hw.undo.version e (List.mem_of_getElem? he) hed, hel]
    · cases ok with
      | false =>
        obtain ⟨⟨hretry, hi⟩, hidle⟩ := h
        rw [hsame.statAborts] at hidle
        exact ⟨⟨hsame.attr ▸ hretry, hsame.irrevocable ▸ hi⟩, hidle⟩
      | true =>
        obtain ⟨tx'', ⟨hn, hi⟩, h⟩ := h
        exact ⟨tx'', ⟨hn.trans hsame.nesting, hi.trans hsame.irrevocable⟩, h⟩

end TinyStm
