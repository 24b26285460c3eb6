import TinyStm.Proof.Commit

/-!
# Write-back, encounter-time locking

The loads, the stores and the commits of `src/stm_wbetl.h`. A lock that is acquired stays with the
transaction until it commits or is rolled back, so a load of an owned stripe looks into the chain of
the lock, and a store puts its entry at the end of the chain. Each function has a triple whose
precondition is an active attempt with its snapshot and write set, and whose two postconditions are
the attempt with one access more and the attempt after a rollback.
-/

namespace TinyStm

namespace View

variable {Tid Addr Lock : Type} {w : ℕ} [DecidableEq Addr] {S : Setting Tid Addr Lock w}
  {v : View Tid Addr Lock w} {p : Tid} {tx : StmTx Addr Lock w} {a : Addr}

theorem Ws.etl (h : v.Ws S p tx) (hS : S.cfg.designOf tx.attr = .writeBackEtl) : v.EtlWs S p tx := by
  simpa only [Ws, hS] using h

theorem EtlWs.ws (h : v.EtlWs S p tx) (hS : S.cfg.designOf tx.attr = .writeBackEtl) : v.Ws S p tx := by
  simpa only [Ws, hS] using h

/-- The stripes of a transaction that is not committing yet are in memory. -/
theorem mem_of_holds (hv : v.Inv S) (hS : S.cfg.designOf (v.attr p) ≠ .writeThrough)
    (hp : v.Holds p (S.cfg.getLock a)) (hph : ∀ t, v.phase p ≠ .installing t) :
    v.mem a = v.cur S a :=
  hv.mem a ((quiet_of_owned hp).2 ⟨hS, hph⟩)

end View

variable {Tid Addr Lock : Type} {w : ℕ} [DecidableEq Tid] [DecidableEq Addr] [DecidableEq Lock]
  {S : Setting Tid Addr Lock w} {p : Tid} {tx : StmTx Addr Lock w} {m : Mem Addr w}
  {J : Asn S p} {a : Addr}

/-- The word of an address for which there is an entry. -/
theorem entryValue_spec {Φ : VAsn S p} {e : WEntry Addr Lock w} (hS : S.cfg.designOf tx.attr = .writeBackEtl)
    (hph : tx.phase = .running) (he : e ∈ tx.wSet.entries) (ha : e.addr = a)
    (hΦ : ∀ v, Linked S p tx v → Φ v → v.Ws S p tx) :
    Triple (protocol S) p (At tx Φ) (entryValue a e)
      (fun x => At tx (Φ ⊓ ownWord S p tx a x)) J := by
  have hheld : ∀ v, Linked S p tx v → Φ v → v.EtlWs S p tx ∧ v.Holds p (S.cfg.getLock a) := by
    intro v hl h
    have hw := (hΦ v hl h).etl hS
    refine ⟨hw, ?_⟩
    rw [← ha, ← hw.chains.lock e he]
    exact hw.chains.held he
  refine .ite (fun hm => .last (.loadWord (fun x => Φ ⊓ ownWord S p tx a x) (fun v hl h => ?_)
    fun x => .of_ret fun _ _ h => h)) fun hm => .of_ret fun s hs h => ?_
  · obtain ⟨hw, hh⟩ := hheld v hl h
    have hc : tx.trace.cover a = 0#w := by rw [← ha, ← hw.mask e he, hm]
    refine ⟨h, hh, ?_⟩
    rw [Trace.apply_of_cover_zero hc]
    exact View.mem_of_holds hl.inv (by simp [hl.attr, hS]) hh fun t ht => by simp [hl.phase, hph] at ht
  · obtain ⟨hw, hh⟩ := hheld _ (At.linked hs h) h.2
    exact ⟨h.1, h.2, hh, ha ▸ hw.value e he hm⟩

/-- The word of an address for which there is no entry. -/
theorem loadWord_spec {Φ : VAsn S p} (hS : S.cfg.designOf tx.attr = .writeBackEtl) (hph : tx.phase = .running)
    (hne : ∀ e ∈ tx.wSet.entries, e.addr ≠ a)
    (hΦ : ∀ v, Linked S p tx v → Φ v → v.Ws S p tx ∧ v.Holds p (S.cfg.getLock a)) :
    Triple (protocol S) p (At tx Φ) (loadWord a)
      (fun x => At tx (Φ ⊓ ownWord S p tx a x)) J := by
  refine .last (.loadWord (fun x => Φ ⊓ ownWord S p tx a x) (fun v hl h => ?_)
    fun x => .of_ret fun _ _ h => h)
  obtain ⟨hw, hh⟩ := hΦ v hl h
  refine ⟨h, hh, ?_⟩
  have hc : tx.trace.cover a = 0#w := by
    by_contra hc
    obtain ⟨e, he, hea⟩ := (hw.etl hS).stored a hc
    exact hne e he hea
  rw [Trace.apply_of_cover_zero hc]
  exact View.mem_of_holds hl.inv (by simp [hl.attr, hS]) hh fun t ht => by simp [hl.phase, hph] at ht

/-! ## Loads -/

/-- `stm_wbetl_read_invisible`. -/
theorem stmWbetlReadInvisible_spec :
    Triple (protocol S) p (reading S .writeBackEtl p a (strictLoad S p a) none)
      (stmWbetlReadInvisible S.cfg p a) (afterLoad S p a) (boundary S p) := by
  refine .iterate (reading S .writeBackEtl p a (strictLoad S p a)) (fun _ _ h => h) fun l? => ?_
  refine .of_ex fun tx => .of_ex fun m => .of_fact (fun _ _ h => h.1) fun ⟨hact, hS⟩ =>
    .pre (loadLockOr_spec fun l => ?_) fun _ _ h => h.2
  cases l with
  | free l =>
    refine readFree_spec id hact hS (fun _ => .free l) rfl (fun _ l' => l')
      (fun _ => .inl rfl) (fun tx n v hn h hs => ?_)
      (fun hd => by simp [hS] at hd) fun v _ hw hfree _ m => ?_
    · exact (h hs).imp id (Or.imp id fun hle hh => (hle hh).trans hn)
    · have ha : a ∉ tx.trace.writes := fun ha => hfree (hw.holds_of_mem_writes (by simp [hS]) ha)
      rw [Trace.apply_of_not_mem_writes ha]
      simp
  | owned q i =>
    refine .getTx (.ite (fun ho => ?_) fun _ => .ite (fun _ => ?_) fun _ => ?_)
    · obtain ⟨rfl, -⟩ := ho
      have hΦ : ∀ v, Linked S q tx v → (live S q tx m ⊓ strictLoad S q a tx ⊓
          word S q (S.cfg.getLock a) (.owned q i)) v →
          v.Ws S q tx ∧ v.Holds q (S.cfg.getLock a) := fun v _ h => ⟨h.1.1.2, i, h.2 rfl⟩
      have hret : ∀ x s, At tx (live S q tx m ⊓ strictLoad S q a tx ⊓
          word S q (S.cfg.getLock a) (.owned q i) ⊓ ownWord S q tx a x) s → afterLoad S q a x s :=
        fun x s h => .inr ⟨tx, m, hact, h.1, h.2.1.1.1,
          .of_own ⟨by simp [hS], h.2.2.1⟩ h.2.1.1.2 h.2.2.2, .inl h.2.2.1⟩
      refine .fact (fun v _ h => (h.1.1.2.etl hS).chains.chainFind (h.2 rfl)) fun hfind => ?_
      generalize chainFind tx.wSet.entries a tx.wSet.entries.length i = pos at hfind ⊢
      cases pos with
      | found j e =>
        refine .bind (entryValue_spec hS hact.phase (List.mem_of_getElem? hfind.1) hfind.2
          fun v hl h => (hΦ v hl h).1) fun x => .of_ret fun s _ h => hret x s h
      | last j version =>
        obtain ⟨-, -, -, -, -, hne⟩ := hfind
        exact .bind (loadWord_spec hS hact.phase hne hΦ) fun x => .of_ret fun s _ h => hret x s h
    · exact .of_ret fun s _ h => ⟨tx, m, ⟨hact, hS⟩, h.1, h.2.1, trivial⟩
    · refine .weaken (conflict_spec hact.toTxLive _ _ (.of_ret fun s _ h => .inl h)) fun v _ h => h.1.1

/-! ## Stores -/

namespace View

variable {Tid Addr Lock : Type} {w : ℕ} [DecidableEq Addr] {S : Setting Tid Addr Lock w}
  {v v' : View Tid Addr Lock w} {p : Tid} {tx : StmTx Addr Lock w} {a : Addr} {x y k : BitVec w}
  {e : WEntry Addr Lock w} {j : ℕ}

/-- A store under an empty mask to a stripe that the transaction owns. -/
theorem EtlWs.touch (hw : v.EtlWs S p tx) (hh : v.Holds p (S.cfg.getLock a)) (x : BitVec w) :
    v.EtlWs S p { tx with trace := .store a x 0#w :: tx.trace } where
  chains := hw.chains
  version := hw.version
  mask e he := (hw.mask e he).trans (Trace.cover_store_zero ..).symm
  value e he hm := by
    rw [Trace.apply_store_zero]
    exact hw.value e he hm
  stored b hb := by
    rw [Trace.cover_store_zero] at hb
    exact hw.stored b hb
  writes b hb := by
    rcases List.mem_cons.1 hb with rfl | hb
    · exact hh
    · exact hw.writes b hb

/-- A store to an address for which there is an entry. -/
theorem EtlWs.merge (hw : v.EtlWs S p tx) (hj : tx.wSet.entries[j]? = some e)
    (hy : y = BitVec.merge (tx.trace.apply (v.cur S) e.addr) x k) :
    v.EtlWs S p { tx with
      wSet := tx.wSet.modify j fun e => { e with value := y, mask := e.mask ||| k }
      trace := .store e.addr x k :: tx.trace } where
  chains := hw.chains.modify (fun _ => rfl) (fun _ => rfl) fun _ => rfl
  version f hf := by
    obtain ⟨i, d, hd, ⟨-, rfl⟩ | ⟨-, rfl⟩⟩ := mem_modify hf
    · exact hw.version d (List.mem_of_getElem? hd)
    · exact hw.version _ (List.mem_of_getElem? hd)
  mask f hf := by
    obtain ⟨i, d, hd, ⟨rfl, rfl⟩ | ⟨hij, rfl⟩⟩ := mem_modify hf
    · rw [hj] at hd
      injection hd with hd
      subst hd
      rw [Trace.cover_store_self, ← hw.mask e (List.mem_of_getElem? hj), BitVec.or_comm]
    · rw [Trace.cover_store_of_ne (addr_ne_of_pairwise hw.chains.addr hd hj hij)]
      exact hw.mask _ (List.mem_of_getElem? hd)
  value f hf hm := by
    obtain ⟨i, d, hd, ⟨rfl, rfl⟩ | ⟨hij, rfl⟩⟩ := mem_modify hf
    · rw [hj] at hd
      injection hd with hd
      subst hd
      rw [Trace.apply_store_self]
      exact hy
    · rw [Trace.apply_store_of_ne (addr_ne_of_pairwise hw.chains.addr hd hj hij)]
      exact hw.value _ (List.mem_of_getElem? hd) hm
  stored b hb := by
    have hex : ∃ f ∈ tx.wSet.entries, f.addr = b := by
      by_cases hba : b = e.addr
      · exact ⟨e, List.mem_of_getElem? hj, hba.symm⟩
      · rw [Trace.cover_store_of_ne hba] at hb
        exact hw.stored b hb
    obtain ⟨f, hf, rfl⟩ := hex
    rcases mem_modify_of_mem hf with hf | hf
    · exact ⟨f, hf, rfl⟩
    · exact ⟨_, hf, rfl⟩
  writes b hb := by
    rcases List.mem_cons.1 hb with rfl | hb
    · have he := List.mem_of_getElem? hj
      exact hw.chains.lock e he ▸ hw.chains.held he
    · exact hw.writes b hb

/-- A store to an address for which there is no entry yet. -/
theorem EtlWs.push (hw : v.EtlWs S p tx) {prev : Option ℕ} (hcur : v'.cur S = v.cur S)
    (hheld : ∀ ℓ, v.Holds p ℓ → v'.Holds p ℓ ∧ v'.lastTs ℓ = v.lastTs ℓ)
    (hch : v'.Chains S p (tx.wSet.push prev e).entries) (hver : e.version = v'.lastTs e.lock)
    (hne : ∀ f ∈ tx.wSet.entries, f.addr ≠ e.addr)
    (hy : e.mask ≠ 0#w → e.value = BitVec.merge (tx.trace.apply (v.cur S) e.addr) x e.mask) :
    v'.EtlWs S p { tx with
      wSet := tx.wSet.push prev e
      trace := .store e.addr x e.mask :: tx.trace } where
  chains := hch
  version f hf := by
    rcases mem_push hf with rfl | ⟨d, hd, hfd⟩
    · exact hver
    · rw [hfd]
      exact (hw.version d hd).trans (hheld _ (hw.chains.held hd)).2.symm
  mask f hf := by
    rcases mem_push hf with rfl | ⟨d, hd, hfd⟩
    · have hc : tx.trace.cover f.addr = 0#w := by
        by_contra hc
        obtain ⟨d, hd, hda⟩ := hw.stored _ hc
        exact hne d hd hda
      rw [Trace.cover_store_self, hc, BitVec.or_zero]
    · rw [hfd]
      exact (hw.mask d hd).trans (Trace.cover_store_of_ne (hne d hd) ..).symm
  value f hf hm := by
    rw [hcur]
    rcases mem_push hf with rfl | ⟨d, hd, hfd⟩
    · rw [Trace.apply_store_self]
      exact hy hm
    · rw [hfd] at hm ⊢
      rw [Trace.apply_store_of_ne (hne d hd)]
      exact hw.value d hd hm
  stored b hb := by
    by_cases hba : b = e.addr
    · exact ⟨e, self_mem_push, hba.symm⟩
    · rw [Trace.cover_store_of_ne hba] at hb
      obtain ⟨f, hf, rfl⟩ := hw.stored b hb
      obtain ⟨d, hd, hdf⟩ := exists_mem_push prev e hf
      exact ⟨d, hd, by rw [hdf]⟩
  writes b hb := by
    rcases List.mem_cons.1 hb with rfl | hb
    · exact hch.lock e self_mem_push ▸ hch.held self_mem_push
    · exact (hheld _ (hw.writes b hb)).1

end View

/-- The lock is owned, and the entry of the store is yet to be pushed. -/
def etlPushing (S : Setting Tid Addr Lock w) (p : Tid) (tx : StmTx Addr Lock w)
    (prev : Option ℕ) (version : ℕ) (a : Addr) (x k : BitVec w) : VAsn S p :=
  heldAsn S p (fun v => v.Holds p (S.cfg.getLock a) ∧ ∀ y,
      (k ≠ 0#w → y = BitVec.merge (tx.trace.apply (v.cur S) a) x k) →
      v.EtlWs S.toPremises p { tx with
        wSet := tx.wSet.push prev ⟨a, y, k, version, S.cfg.getLock a, none, false⟩
        trace := .store a x k :: tx.trace })
    fun v v' h ⟨hh, hp⟩ => ⟨h.holds_iff.2 hh, fun y hy => (hp y fun hk => by
      rw [hy hk, Trace.apply_congr (h.cur a hh)]).congr h⟩

section
variable {x k : BitVec w}

/-- The code from `do_write` on. -/
theorem wbetlDoWrite_spec (hS : S.cfg.designOf tx.attr = .writeBackEtl) (hact : TxActive S.toPremises tx)
    (hro : S.hint → tx.attr.readOnly = false) (hk : S.mask k) (hc : tx.trace.cover a = 0#w)
    (prev : Option ℕ) (version : ℕ) :
    Triple (protocol S) p (At tx (snap S p tx m ⊓ etlPushing S p tx prev version a x k))
      (wbetlDoWrite p (S.cfg.getLock a) a x k version prev)
      (fun _ => afterStore S p a x k) J := by
  have hpush : ∀ y, Triple (protocol S) p (At tx (snap S p tx m ⊓
      (etlPushing S p tx prev version a x k ⊓ heldAsn S p (fun v =>
        v.Holds p (S.cfg.getLock a) ∧
          (k ≠ 0#w → y = BitVec.merge (tx.trace.apply (v.cur S) a) x k))
        fun v v' h ⟨hh, hy⟩ => ⟨h.holds_iff.2 hh, fun hk => by
          rw [hy hk, Trace.apply_congr (h.cur a hh)]⟩)))
      (modifyTx p fun tx => { tx with
        wSet := tx.wSet.push prev ⟨a, y, k, version, S.cfg.getLock a, none, false⟩ })
      (fun _ => afterStore S p a x k) J := by
    refine fun y => .last (.modifyTx rfl rfl rfl (.of_ret fun s _ h => .inr ?_))
    obtain ⟨htx, hsnap, hp, -, hy⟩ := h
    exact ⟨_, m, hact.push hro hk prev, htx, hsnap.congr rfl rfl rfl rfl rfl rfl,
      (hp.2 y hy).ws hS⟩
  refine .ite (fun h0 => ?_) fun h0 => .ite (fun h1 => ?_) fun h1 => ?_
  · exact .weaken (hpush 0#w) fun v _ h => ⟨h.1, h.2, h.2.1, fun hk => (hk h0).elim⟩
  · refine .weaken (hpush x) fun v _ h => ⟨h.1, h.2, h.2.1, fun _ => ?_⟩
    rw [h1, BitVec.merge_allOnes]
  · refine .loadWord (fun old => snap S p tx m ⊓ (etlPushing S p tx prev version a x k ⊓
      ownWord S p tx a old)) (fun v hl h => ⟨h.1, h.2, h.2.1, ?_⟩) fun old => ?_
    · rw [Trace.apply_of_cover_zero hc]
      exact View.mem_of_holds hl.inv (by simp [hl.attr, hS]) h.2.1 fun t ht => by
        simp [hl.phase, hact.phase] at ht
    · refine .weaken (hpush _) fun v _ h => ⟨h.1, h.2.1, h.2.2.1, fun _ => ?_⟩
      rw [h.2.2.2]

/-- A store to an address for which there is an entry. -/
theorem wbetlMerge_spec {j : ℕ} {e : WEntry Addr Lock w} (hS : S.cfg.designOf tx.attr = .writeBackEtl)
    (hact : TxActive S.toPremises tx) (hro : S.hint → tx.attr.readOnly = false) (hk : S.mask k)
    (hj : tx.wSet.entries[j]? = some e) (ha : e.addr = a) :
    Triple (protocol S) p (At tx (live S p tx m)) (wbetlMerge p a x k j e)
      (fun _ => afterStore S p a x k) J := by
  subst ha
  have hset : ∀ y, Triple (protocol S) p (At tx (live S p tx m ⊓ heldAsn S p (fun v =>
      v.Holds p (S.cfg.getLock e.addr) ∧
        y = BitVec.merge (tx.trace.apply (v.cur S) e.addr) x k)
        fun v v' h ⟨hh, hy⟩ => ⟨h.holds_iff.2 hh, by
          rw [hy, Trace.apply_congr (h.cur _ hh)]⟩))
      (modifyTx p fun tx => { tx with
        wSet := tx.wSet.modify j fun e => { e with value := y, mask := e.mask ||| k } })
      (fun _ => afterStore S p e.addr x k) J := by
    refine fun y => .last (.modifyTx rfl rfl rfl (.of_ret fun s _ h => .inr ?_))
    obtain ⟨htx, ⟨hsnap, hws⟩, -, hy⟩ := h
    refine ⟨_, m, hact.store hro fun f hf => ?_, htx,
      hsnap.congr rfl rfl rfl rfl rfl rfl, ((hws.etl hS).merge hj hy).ws hS⟩
    obtain ⟨i, d, hd, ⟨-, rfl⟩ | ⟨-, rfl⟩⟩ := mem_modify hf
    · exact S.mask_or _ _ (hact.mask d (List.mem_of_getElem? hd)) hk
    · exact hact.mask _ (List.mem_of_getElem? hd)
  have he := List.mem_of_getElem? hj
  refine .ite (fun h1 => ?_) fun h1 => ?_
  · refine .weaken (hset x) fun v _ h => ⟨h, ?_, by rw [h1, BitVec.merge_allOnes]⟩
    have hch := (h.2.etl hS).chains
    exact hch.lock e he ▸ hch.held he
  · refine .bind (entryValue_spec hS hact.phase he rfl fun v _ h => h.2) fun old => ?_
    exact .weaken (hset _) fun v _ h => ⟨h.1, h.2.1, by rw [h.2.2]⟩

/-- `stm_wbetl_write`. A new entry needs room in the write set, or an attempt that is retried. -/
theorem stmWbetlWrite_spec (hS : S.cfg.designOf tx.attr = .writeBackEtl) (hact : TxActive S.toPremises tx)
    (hro : S.hint → tx.attr.readOnly = false) (hk : S.mask k)
    (hroom : HasRoom S.cfg.getLock tx a k) :
    Triple (protocol S) p (At tx (live S p tx m)) (stmWbetlWrite S.cfg p a x k)
      (fun _ => afterStore S p a x k) (boundary S p) := by
  refine .iterate (fun _ => At tx (live S p tx m)) (fun _ _ h => h) fun _ => ?_
  refine .loadLock (fun l => live S p tx m ⊓ word S p (S.cfg.getLock a) l ⊓
    .imp (∃ n, l = .free n) (free S p (S.cfg.getLock a)))
    (fun v _ h => ⟨⟨h, word_self _ v⟩, fun ⟨_, hl⟩ => View.not_holds_of_free hl⟩) fun l => .getTx ?_
  cases l with
  | owned q i =>
    refine .ite (fun ho => ?_) fun _ => .ite (fun _ => .of_ret fun s _ h => ⟨h.1, h.2.1.1⟩) fun _ => ?_
    · obtain ⟨rfl, -⟩ := ho
      refine .ite (fun h0 => .of_ret fun s _ h => .inr ?_) fun h0 => ?_
      · obtain ⟨htx, ⟨⟨hsnap, hws⟩, hi⟩, -⟩ := h
        exact ⟨tx, m, hact, htx, hsnap, h0 ▸ ((hws.etl hS).touch ⟨i, hi rfl⟩ x).ws hS⟩
      refine .fact (fun v _ h => (h.1.1.2.etl hS).chains.chainFind (h.1.2 rfl)) fun hfind => ?_
      generalize chainFind tx.wSet.entries a tx.wSet.entries.length i = pos at hfind ⊢
      cases pos with
      | found j e =>
        refine .bind (.weaken (wbetlMerge_spec hS hact hro hk hfind.1 hfind.2) fun v _ h =>
          h.1.1) fun _ => .of_ret fun _ _ h => h
      | last j version =>
        obtain ⟨e, hj, hel, hen, rfl, hne⟩ := hfind
        have hfull : tx.wSet.entries.length = tx.wSet.size → tx.attr.noRetry = false := by
          intro hlen
          by_contra hno
          obtain ⟨f, hf, -, h | h⟩ := hroom hlen (by simpa using hno)
          · exact h0 h
          · exact hne f hf h
        refine .bind (extendWs_spec hact.toTxLive hfull fun v _ h => h.1.1) fun _ => ?_
        refine .fact (φ := tx.trace.cover a = 0#w) (fun v _ h => ?_) fun hc => ?_
        · by_contra hc
          obtain ⟨f, hf, hfa⟩ := (h.1.1.2.etl hS).stored a hc
          exact hne f hf hfa
        refine .bind (.weaken (wbetlDoWrite_spec hS hact hro hk hc (some j) e.version)
          fun v _ h => ⟨h.1.1.1, ⟨i, h.1.2 rfl⟩, fun y hy => ?_⟩) fun _ => .of_ret fun _ _ h => h
        have hw := h.1.1.2.etl hS
        refine hw.push rfl (fun ℓ hh => ⟨hh, rfl⟩) (hw.chains.link hj hen hel rfl rfl hne) ?_ hne hy
        exact (hw.version e (List.mem_of_getElem? hj)).trans (by rw [hel])
    · exact .weaken (conflict_spec hact.toTxLive _ _ (.of_ret fun s _ h => .inl h)) fun v _ h => h.1.1
  | free l =>
    refine .ite (fun _ => ?_) fun hok => ?_
    · exact .bind (.weaken (abort_spec hact.toTxLive _) fun v _ h => h.1.1) fun _ =>
        .of_ret fun s _ h => .inl (idleAsn_of_idleWith h.2)
    -- there is no entry of the stripe, and a stripe that has been read is not newer than the snapshot
    refine .fact (φ := (∀ e ∈ tx.wSet.entries, e.lock ≠ S.cfg.getLock a ∧ e.addr ≠ a) ∧
      tx.trace.cover a = 0#w) (fun v _ h => ?_) fun ⟨hfree, hc⟩ => ?_
    · have hw := h.1.1.2.etl hS
      have hne := fun e he => hw.chains.ne_of_not_holds (f := e) (h.2 ⟨l, rfl⟩) he
      refine ⟨hne, ?_⟩
      by_contra hc
      obtain ⟨e, he, rfl⟩ := hw.stored a hc
      exact (hne e he).2 rfl
    have hfull : tx.wSet.entries.length = tx.wSet.size → tx.attr.noRetry = false := by
      intro hlen
      by_contra hno
      obtain ⟨f, hf, hfl, -⟩ := hroom hlen (by simpa using hno)
      exact (hfree f hf).1 hfl
    refine .bind (extendWs_spec hact.toTxLive hfull fun v _ h => h.1.1) fun _ => .getTx ?_
    refine .casLock (Ψ := snap S p tx m ⊓ etlPushing S p tx none (lockGetTimestamp l) a x k)
      hact.phase hact.attr (fun v hl h hlock => ?_) ?_ ?_
    · have hw := h.1.1.2.etl hS
      refine ⟨h.1.1.1.acquire hl.inv hlock (hl.phase.trans hact.phase) (hl.attr ▸ hact.attr)
        (fun hb hd hi => ?_) _, ⟨_, Function.update_self ..⟩, fun y hy => ?_⟩
      · exact ⟨View.readOnly_of_not_blind hb hd hro, le_end_of_covered hact.toTxLive hok hi⟩
      have hch := hw.chains.acquire (e := ⟨a, y, k, lockGetTimestamp l, S.cfg.getLock a, none, false⟩)
        hlock rfl rfl
      refine hw.push rfl (fun ℓ hh => ?_) hch ?_ (fun e he => (hfree e he).2) hy
      · obtain ⟨hh', hlast⟩ := View.acquired_held (i := tx.wSet.entries.length) hlock hh
        exact ⟨hh', congrArg lockGetTimestamp hlast⟩
      · exact (View.acquired_lastTs.trans (if_pos rfl)).symm
    · exact .bind (wbetlDoWrite_spec hS hact hro hk hc none _) fun _ => .of_ret fun _ _ h => h
    · exact .of_ret fun s _ h => ⟨h.1, h.2.1.1⟩

end

/-! ## Commits -/

omit [DecidableEq Tid] in
/-- The loop of `stm_wbetl_commit`. -/
theorem wbetlInstall_spec {t : ℕ} (hph : tx.phase = .installing t)
    (es : List (WEntry Addr Lock w)) :
    Triple (protocol S) p (At tx (install S p (·.next = none) (fun e _ => e.value) es es))
      (wbetlInstall es t) (fun _ => At tx (noLocks S p)) J := by
  induction es with
  | nil => exact .of_ret fun s _ h => noLocks_of_install h
  | cons e es ih =>
    refine .bind (R := fun _ => At tx (install S p (·.next = none) (fun e _ => e.value) (e :: es) es))
      (.ite (fun hm => .last ?_) fun hm => .of_ret fun s _ h => ?_) fun _ => ?_
    · refine storeWord_install hph (fun v _ h => ⟨h, ?_⟩) (.of_ret fun _ _ h => h)
      exact View.Install.value h e (.head _) hm
    · exact ⟨h.1, View.Install.skip h.2 (not_not.1 hm)⟩
    · refine .bind (R := fun _ => At tx (install S p (·.next = none) (fun e _ => e.value) es es))
        (.ite (fun hn => .last ?_) fun hn => .of_ret fun s _ h => ?_) fun _ => ih
      · exact storeLock_install hph hn (fun f hf => hf) (.of_ret fun _ _ h => h)
      · exact ⟨h.1, View.Install.keep h.2 hn fun f hf => hf⟩

/-- `stm_wbetl_commit`. -/
theorem stmWbetlCommit_spec (hS : S.cfg.designOf tx.attr = .writeBackEtl) (hact : TxLive S.toPremises tx)
    (hne : tx.wSet.entries ≠ []) :
    Triple (protocol S) p (At tx (live S p tx m)) (stmWbetlCommit S.cfg p) (afterCommit S p tx)
      (boundary S p) := by
  refine commitWith_spec hact hne (fun v hw => hw.undo)
    (fun v hw a ha => hw.holds_of_mem_writes (by simp [hS]) ha) (fun hd => by simp [hS] at hd)
    (fun t => wbetlInstall_spec rfl _) fun v v' hv hattr hni hw hl hm hcur => ?_
  have hholds : ∀ ℓ, v'.Holds p ℓ ↔ v.Holds p ℓ := fun ℓ => by rw [View.Holds, View.Holds, hl]
  have hetl := hw.etl hS
  have hheld : ∀ e ∈ tx.wSet.entries, v.Holds p (S.cfg.getLock e.addr) := fun e he =>
    hetl.chains.lock e he ▸ hetl.chains.held he
  refine
    { drops :=
        { holds := fun ℓ => (hholds ℓ).trans (hetl.chains.drops.holds ℓ)
          distinct := hetl.chains.drops.distinct }
      last := hetl.chains.chained.pairwise
      sub := fun e he => he
      lock := hetl.chains.lock
      held := fun e he => (hholds _).2 (hetl.chains.held he)
      addr := hetl.chains.addr
      value := fun e he hem => ?_
      dirty := fun a ha => ?_ }
  · exact (hetl.value e he hem).trans (hcur e.addr (hheld e he)).symm
  · have ha := (hholds _).1 ha
    by_cases hc : tx.trace.cover a = 0#w
    · left
      rw [hm, hcur a ha, Trace.apply_of_cover_zero hc]
      exact View.mem_of_holds hv (by simp [hattr, hS]) ha hni
    · obtain ⟨e, he, hea⟩ := hetl.stored a hc
      exact .inr ⟨e, he, hea, by rwa [hetl.mask e he, hea]⟩

end TinyStm
