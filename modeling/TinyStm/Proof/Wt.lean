import TinyStm.Proof.Commit

/-!
# Write-through

The loads, the stores and the commits of `src/stm_wt.h`. The words in memory are changed at the
store, under the lock, and an entry keeps what the word was: the invariant of the write set is that
undoing its entries gives the committed words. Otherwise the argument is that of write-back with
encounter-time locking, with the rule that a rollback may not bring back a lock word that was there
before.
-/

namespace TinyStm

namespace View

variable {Tid Addr Lock : Type} {w : ℕ} [DecidableEq Addr] {S : Setting Tid Addr Lock w}
  {v v' : View Tid Addr Lock w} {p : Tid} {tx : StmTx Addr Lock w} {a : Addr} {x k : BitVec w}
  {e f : WEntry Addr Lock w} {i j : ℕ}

theorem Ws.wt (h : v.Ws S p tx) (hS : S.cfg.designOf tx.attr = .writeThrough) : v.WtWs S p tx := by
  simpa only [Ws, hS] using h

theorem WtWs.ws (h : v.WtWs S p tx) (hS : S.cfg.designOf tx.attr = .writeThrough) : v.Ws S p tx := by
  simpa only [Ws, hS] using h

/-- A store under an empty mask to a stripe that the transaction owns. -/
theorem WtWs.touch (hw : v.WtWs S p tx) (hh : v.Holds p (S.cfg.getLock a)) (x : BitVec w) :
    v.WtWs S p { tx with trace := .store a x 0#w :: tx.trace } where
  chains := hw.chains
  version := hw.version
  value := hw.value
  first := hw.first
  stored b hb := by
    rw [Trace.cover_store_zero] at hb
    exact hw.stored b hb
  writes b hb := by
    rcases List.mem_cons.1 hb with rfl | hb
    · exact hh
    · exact hw.writes b hb
  mem b hb := by
    rw [Trace.apply_store_zero]
    exact hw.mem b hb

/-- A store in place: the old value has been saved. -/
theorem WtWs.store (hw : v.WtWs S p tx) (he : e ∈ tx.wSet.entries) (hm : e.mask ≠ 0#w)
    (x k : BitVec w) :
    View.WtWs S { v with
        mem := Function.update v.mem e.addr (BitVec.merge (v.mem e.addr) x k) } p
      { tx with trace := .store e.addr x k :: tx.trace } where
  chains := ⟨hw.chains.chained, hw.chains.lock, hw.chains.addr, hw.chains.holds, hw.chains.head⟩
  version := hw.version
  value := hw.value
  first := hw.first
  stored b hb := by
    by_cases hba : b = e.addr
    · exact ⟨e, he, hba.symm, hm⟩
    · rw [Trace.cover_store_of_ne hba] at hb
      exact hw.stored b hb
  writes b hb := by
    rcases List.mem_cons.1 hb with rfl | hb
    · exact hw.chains.lock e he ▸ hw.chains.held he
    · exact hw.writes b hb
  mem b hb := by
    change Function.update v.mem e.addr _ b = _
    by_cases hba : b = e.addr
    · subst hba
      rw [Function.update_self, Trace.apply_store_self, hw.mem _ hb]
      rfl
    · rw [Function.update_of_ne hba, Trace.apply_store_of_ne hba]
      exact hw.mem b hb

/-- The old value of the word at the head of a chain is saved. -/
theorem WtWs.save (hw : v.WtWs S p tx) (hi : tx.wSet.entries[i]? = some e) (he : e.mask = 0#w)
    (hk : k ≠ 0#w) (hx : v.mem e.addr = x) :
    v.WtWs S p { tx with
      wSet := tx.wSet.modify i fun e => { e with value := x, mask := k } } where
  chains := hw.chains.modify (fun _ => rfl) (fun _ => rfl) fun _ => rfl
  version f hf := by
    obtain ⟨j, d, hd, ⟨-, rfl⟩ | ⟨-, rfl⟩⟩ := mem_modify hf
    · exact hw.version d (List.mem_of_getElem? hd)
    · exact hw.version _ (List.mem_of_getElem? hd)
  value f hf hm := by
    obtain ⟨j, d, hd, ⟨rfl, rfl⟩ | ⟨hij, rfl⟩⟩ := mem_modify hf
    · rw [hi] at hd
      injection hd with hd
      subst hd
      have hemem := List.mem_of_getElem? hi
      -- the word has not been stored to, or there would be another entry for it
      have hc : tx.trace.cover e.addr = 0#w := by
        by_contra hc
        obtain ⟨f, hf, hfa, hfm⟩ := hw.stored _ hc
        obtain ⟨k, hk⟩ := List.mem_iff_getElem?.1 hf
        by_cases hki : k = j
        · subst hki
          rw [hi] at hk
          injection hk with hk
          exact hfm (hk ▸ he)
        · exact addr_ne_of_pairwise hw.chains.addr hk hi hki hfa
      exact hx.symm.trans ((hw.mem _ (hw.chains.lock e hemem ▸ hw.chains.held hemem)).trans
        (Trace.apply_of_cover_zero hc))
    · exact hw.value _ (List.mem_of_getElem? hd) hm
  first j f hj hf l g hl hg := by
    obtain ⟨g', hg', hgg⟩ := getElem?_modify_eq hg
    have hlock : g.lock = g'.lock := by rcases hgg with ⟨-, rfl⟩ | ⟨-, rfl⟩ <;> rfl
    obtain ⟨d, hd, ⟨-, rfl⟩ | ⟨-, rfl⟩⟩ := getElem?_modify_eq hj
    · exact (hk hf).elim
    · exact hlock ▸ hw.first j _ hd hf l g' hl hg'
  stored b hb := by
    obtain ⟨f, hf, hfb, hfm⟩ := hw.stored b hb
    rcases mem_modify_of_mem hf with hf | hf
    · exact ⟨f, hf, hfb, hfm⟩
    · exact ⟨_, hf, hfb, hk⟩
  writes := hw.writes
  mem := hw.mem

/-- A new entry: the old value of its word, or nothing if it is the first of its stripe. -/
theorem WtWs.push (hw : v.WtWs S p tx) {prev : Option ℕ} (hcur : v'.cur S = v.cur S)
    (hheld : ∀ ℓ, v.Holds p ℓ → v'.Holds p ℓ ∧ v'.lastWord ℓ = v.lastWord ℓ)
    (hch : v'.Chains S p (tx.wSet.push prev e).entries) (hver : e.version = v'.lastWord e.lock)
    (hy : e.mask ≠ 0#w → e.value = v.cur S e.addr)
    (hfirst : e.mask = 0#w → ∀ f ∈ tx.wSet.entries, f.lock ≠ e.lock)
    (hmem : ∀ b, v'.Holds p (S.cfg.getLock b) → v'.mem b = tx.trace.apply (v'.cur S) b) :
    v'.WtWs S p { tx with wSet := tx.wSet.push prev e } where
  chains := hch
  version f hf := by
    rcases mem_push hf with rfl | ⟨d, hd, hfd⟩
    · exact hver
    · rw [hfd]
      exact (hw.version d hd).trans (hheld _ (hw.chains.held hd)).2.symm
  value f hf hm := by
    rw [hcur]
    rcases mem_push hf with rfl | ⟨d, hd, hfd⟩
    · exact hy hm
    · rw [hfd] at hm ⊢
      exact hw.value d hd hm
  first i f hi hf j g hj hg := by
    have hlt := (List.getElem?_eq_some_iff.1 hi).1
    rw [length_push] at hlt
    obtain ⟨g', hg', n, hgn⟩ := getElem?_push prev e (show j < tx.wSet.entries.length by omega)
    rw [hg] at hgn
    injection hgn with hgn
    subst hgn
    by_cases hin : i = tx.wSet.entries.length
    · subst hin
      rw [getElem?_push_self] at hi
      injection hi with hi
      subst hi
      exact hfirst hf g' (List.mem_of_getElem? hg')
    · obtain ⟨f', hf', n', hfn⟩ := getElem?_push prev e (show i < tx.wSet.entries.length by omega)
      rw [hi] at hfn
      injection hfn with hfn
      subst hfn
      exact hw.first i f' hf' hf j g' hj hg'
  stored b hb := by
    obtain ⟨f, hf, rfl, hfm⟩ := hw.stored b hb
    obtain ⟨d, hd, hdf⟩ := exists_mem_push prev e hf
    exact ⟨d, hd, by rw [hdf], by rw [hdf]; exact hfm⟩
  writes b hb := (hheld _ (hw.writes b hb)).1
  mem := hmem

end View

variable {Tid Addr Lock : Type} {w : ℕ} [DecidableEq Tid] [DecidableEq Addr] [DecidableEq Lock]
  {S : Setting Tid Addr Lock w} {p : Tid} {tx : StmTx Addr Lock w} {m : Mem Addr w}
  {J : Asn S p} {a : Addr} {l : ℕ} {x k : BitVec w}

/-! ## Loads -/

/-- The extension of a load whose version `l` is in the read set already. -/
theorem wtExtend_spec {rs : List (REntry Lock)} (hS : S.cfg.designOf tx.attr = .writeThrough)
    (hact : TxActive S.toPremises tx) (hi : tx.irrevocable = 0) (hlt : tx.end_ < lockGetTimestamp l)
    (hmem : ∀ r ∈ rs, r ∈ tx.rSet ∨ r = ⟨lockGetTimestamp l, S.cfg.getLock a⟩)
    (hlock : tx.attr.readOnly = false → ∃ r ∈ rs, r.lock = S.cfg.getLock a)
    (hobs : View.Observed S a x) (hx : ∀ m : Mem Addr w, m a = x → tx.trace.apply m a = x) :
    Triple (protocol S) p (At { tx with rSet := rs } (live S p { tx with rSet := rs } m ⊓
        sighted S p tx a l x))
      (tryExtend tx (stmWtExtend p) >>= fun ok =>
        if ok then pure (.inr x) else stmRollback S.cfg p .loadInvalid >>= fun _ =>
          pure (.inr 0#w))
      (Sum.elim (reading S .writeThrough p a (strictLoad S p a)) (afterLoad S p a)) (boundary S p) := by
  have hmax : max (lockGetTimestamp l) tx.end_ = lockGetTimestamp l := max_eq_left hlt.le
  refine .bind (tryExtend_spec ?_ ?_ (lockGetTimestamp l)
    (fun n r => .imp (r.lock = S.cfg.getLock a) (fixedAt S p n a x)) ?_ ?_) fun ok => ?_
  · exact ne_of_eq_of_ne hi (by decide)
  · exact fun hd => by simp [hS] at hd
  · exact fun v _ h => hmax ▸ h.1.1.1.le
  · intro n hn r hr v hl h hnc hf hrl
    obtain ⟨⟨⟨hfix, -⟩, hfree⟩, hseen⟩ := h
    rcases hf with ⟨l', hl', hts⟩ | ⟨hh, -⟩
    · rw [hrl] at hl'
      have hle : lockGetTimestamp l ≤ lockGetTimestamp l' := by
        have := View.Seen.ts hseen
        rwa [View.lastTs_of_free hl'] at this
      -- an older version in the read set does not pass
      have hrv : r.version = lockGetTimestamp l := by
        rcases hmem r hr with hr | rfl
        · have := hact.version r hr
          omega
        · rfl
      exact View.FixedAt.forward hl.inv (hmax ▸ hfix) hl' (by omega) hn hnc
    · exact (hfree (hrl ▸ hh)).elim
  · cases ok with
    | false =>
      refine .weaken (Ψ := undo S p { tx with rSet := rs }) (.bind (stmRollback_spec ?_ ?_ ?_ _)
        fun _ => .of_ret fun s _ h => .inl (idleAsn_of_idleWith h.2)) fun v _ h => h.1.2.undo
      · exact hact.attr
      · exact fun t ht => by simp [hact.phase] at ht
      · exact hi.le.trans (Nat.zero_le 3)
    | true =>
      refine .of_ex fun n => .of_fact (fun s _ h => h.1) fun ⟨hn, hen, hro⟩ =>
        .of_ret fun s _ h => .inr ?_
      obtain ⟨-, htx, ⟨hlive, hsight⟩, hK⟩ := h
      obtain ⟨r, hr, hrl⟩ := hlock hro
      have hver : ∀ r ∈ rs, r.version ≤ n := fun r hr =>
        (hmem r hr).elim (fun hr => (hact.version r hr).trans hen) fun hr => hr ▸ hn
      have hAt : At { tx with rSet := rs, end_ := n } (live S p { tx with rSet := rs, end_ := n } m ⊓
          (fixedAt S p n a x ⊓ free S p (S.cfg.getLock a))) s :=
        ⟨htx, hlive, hK r hr hrl, hsight.1.2⟩
      refine loaded_of_fixedAt hAt ?_ hi (.inr ⟨r, hr, hrl, hver r hr⟩) hobs hx
      exact { hact with version := hver }

/-- `stm_wt_read`. -/
theorem stmWtRead_spec :
    Triple (protocol S) p (reading S .writeThrough p a (strictLoad S p a) none) (stmWtRead S.cfg p a)
      (afterLoad S p a) (boundary S p) := by
  refine .iterate (reading S .writeThrough p a (strictLoad S p a)) (fun _ _ h => h) fun l? => ?_
  refine .of_ex fun tx => .of_ex fun m => .of_fact (fun _ _ h => h.1) fun ⟨hact, hS⟩ =>
    .pre (loadLockOr_spec fun l => ?_) fun _ _ h => h.2
  cases l with
  | owned q i =>
    refine .getTx (.ite (fun ho => ?_) fun _ => .ite (fun _ => ?_) fun _ => ?_)
    · obtain ⟨rfl, -⟩ := ho
      refine .loadWord (fun x => live S q tx m ⊓ strictLoad S q a tx ⊓ ownWord S q tx a x)
        (fun v hl h => ?_) fun x => .of_ret fun s _ h => .inr ⟨tx, m, hact, h.1, h.2.1.1,
          .of_own ⟨by simp [hS], h.2.2.1⟩ h.2.1.2 h.2.2.2, .inl h.2.2.1⟩
      have hh : v.Holds q (S.cfg.getLock a) := ⟨i, h.2 rfl⟩
      exact ⟨h.1, hh, (h.1.1.2.wt hS).mem a hh⟩
    · exact .of_ret fun s _ h => ⟨tx, m, ⟨hact, hS⟩, h.1, h.2.1, trivial⟩
    · exact .weaken (conflict_spec hact.toTxLive _ _ (.of_ret fun s _ h => .inl h)) fun v _ h => h.1.1
  | free l =>
    refine doubleRead_spec (fun v h => h.1.1.end_le) (fun l2 => ?_) fun x => .getTx ?_
    · exact .of_ret fun s _ h => ⟨tx, m, ⟨hact, hS⟩, h⟩
    -- the transaction has not stored to a stripe that it does not own
    refine .fact (φ := View.Observed S a x ∧ ∀ m : Mem Addr w, m a = x → tx.trace.apply m a = x)
      (fun v _ h => ⟨h.2.1.1.2.2, fun m' hm => ?_⟩) fun ⟨hobs, hx⟩ => ?_
    · have ha : a ∉ tx.trace.writes := fun ha =>
        h.2.1.2 (h.1.1.2.holds_of_mem_writes (by simp [hS]) ha)
      rw [Trace.apply_of_not_mem_writes ha, hm]
    refine .ite (fun hi => .of_ret fun s _ h => .inr (loaded_of_safe ⟨h.1, h.2.1.1, h.2.2⟩ hact hi
      fun _ => hx)) fun hi => ?_
    have hi := not_not.1 hi
    by_cases hlt : lockGetTimestamp l > tx.end_
    · rw [if_pos hlt]
      obtain ⟨rs, hrs, hmem, hlock⟩ :=
        exists_addToRs S.cfg (lockGetTimestamp l) (S.cfg.getLock a) tx
      refine .modifyTx (by rw [hrs]) (by rw [hrs]) (by rw [hrs])
        (.pre (wtExtend_spec (m := m) hS hact hi hlt hmem hlock hobs hx) fun s _ h => ?_)
      obtain ⟨htx, ⟨⟨hsnap, hws⟩, -⟩, hsight⟩ := h
      have hsnap := hsnap.addToRs S.cfg (lockGetTimestamp l) (S.cfg.getLock a)
      rw [hrs] at htx hsnap
      exact ⟨htx, ⟨hsnap, hws.of_eq rfl rfl rfl⟩, hsight⟩
    · have hle := Nat.le_of_not_lt hlt
      rw [if_neg hlt]
      refine .weaken (.bind (addToRs_spec hact hi hle hobs hx) fun _ => .of_ret fun s _ h => .inr h)
        fun v _ h => ⟨h.1.1, ?_, h.2.1.2⟩
      exact max_eq_right hle ▸ h.2.1.1.1

/-! ## Stores -/

omit [DecidableEq Tid] [DecidableEq Lock] in
/-- What a transaction has loaded does not depend on the words in memory. -/
theorem snap_store {v : View Tid Addr Lock w} (hv : v.Inv S) (h : snap S p tx m v)
    (mem' : Mem Addr w) : snap S p tx m { v with mem := mem' } :=
  View.Snap.of_phase hv h rfl rfl rfl le_rfl rfl fun _ _ => rfl

/-- The lock is owned, and the entry of the store is yet to be pushed. -/
def wtPushing (S : Setting Tid Addr Lock w) (p : Tid) (tx : StmTx Addr Lock w)
    (prev : Option ℕ) (version : ℕ) (a : Addr) (k : BitVec w) : VAsn S p :=
  heldAsn S p (fun v => v.Holds p (S.cfg.getLock a) ∧ ∀ y, (k ≠ 0#w → y = v.cur S a) →
      v.WtWs S.toPremises p { tx with
        wSet := tx.wSet.push prev ⟨a, y, k, version, S.cfg.getLock a, none, false⟩ })
    fun v v' h ⟨hh, hp⟩ => ⟨h.holds_iff.2 hh, fun y hy => (hp y fun hk => by
      rw [hy hk, h.cur a hh]).congr h⟩

/-- The code from `do_write` on. -/
theorem wtDoWrite_spec (hS : S.cfg.designOf tx.attr = .writeThrough) (hact : TxActive S.toPremises tx)
    (hro : S.hint → tx.attr.readOnly = false) (hk : S.mask k) (hc : tx.trace.cover a = 0#w)
    (prev : Option ℕ) (version : ℕ) :
    Triple (protocol S) p (At tx (snap S p tx m ⊓ wtPushing S p tx prev version a k))
      (wtDoWrite p (S.cfg.getLock a) a x k version prev) (fun _ => afterStore S p a x k) J := by
  refine .ite (fun h0 => .last (.modifyTx rfl rfl rfl (.of_ret fun s _ h => .inr ?_))) fun h0 => ?_
  · obtain ⟨htx, hsnap, hh, hp⟩ := h
    have hw := hp 0#w fun hk => (hk h0).elim
    refine ⟨_, m, hact.push hro hk prev, htx, hsnap.congr rfl rfl rfl rfl rfl rfl, ?_⟩
    have := (hw.touch hh x).ws hS
    rwa [h0] at this ⊢
  · refine .loadWord (fun old => snap S p tx m ⊓ (wtPushing S p tx prev version a k ⊓
      ownMem S p a old)) (fun v _ h => ⟨h.1, h.2, h.2.1, rfl⟩) fun old => ?_
    -- the word in memory is the committed one, and it is saved with the entry
    refine .storeWord (Ψ := snap S p tx m ⊓ heldAsn S p (View.WtWs S · p { tx with
        wSet := tx.wSet.push prev ⟨a, old, k, version, S.cfg.getLock a, none, false⟩
        trace := .store a x k :: tx.trace }) fun _ _ => View.WtWs.congr)
      (fun v hl h => ⟨h.2.1.1, ?_, snap_store hl.inv h.1 _, ?_⟩)
      (.last (.modifyTx rfl rfl rfl (.of_ret fun s _ h => .inr ?_)))
    · exact fun hq => ((View.quiet_of_owned h.2.1.1).1 hq).1 (hl.attr ▸ hS)
    · obtain ⟨-, ⟨hh, hp⟩, -, hmem⟩ := h
      have hcur : old = v.cur S a := by
        have hw := hp (v.cur S a) fun _ => rfl
        rw [← hmem, hw.mem a hh]
        exact Trace.apply_of_cover_zero hc
      have := (hp old fun _ => hcur).store self_mem_push h0 x k
      dsimp only at this
      rwa [hmem] at this
    · exact ⟨_, m, hact.push hro hk prev, h.1, h.2.1.congr rfl rfl rfl rfl rfl rfl,
        View.WtWs.ws h.2.2 hS⟩

/-- A store in place to a word whose old value has been saved. -/
theorem wtStore_spec {e : WEntry Addr Lock w} (hS : S.cfg.designOf tx.attr = .writeThrough)
    (hact : TxActive S.toPremises tx) (he : e ∈ tx.wSet.entries) (ha : e.addr = a) (hm : e.mask ≠ 0#w) :
    Triple (protocol S) p (At tx (live S p tx m)) (wtStore a x k)
      (fun _ => afterStore S p a x k) J := by
  subst ha
  have hput : ∀ y, Triple (protocol S) p (At tx (live S p tx m ⊓ heldAsn S p (fun v =>
      v.Holds p (S.cfg.getLock e.addr) ∧ BitVec.merge (v.mem e.addr) x k = y)
        fun _ _ h ⟨hh, hy⟩ => ⟨h.holds_iff.2 hh, by rw [h.mem _ hh]; exact hy⟩))
      (storeWord e.addr y) (fun _ => afterStore S p e.addr x k) J := by
    refine fun y => .last (.storeWord (Ψ := snap S p tx m ⊓ wset S p { tx with
      trace := .store e.addr x k :: tx.trace }) (fun v hl h => ⟨h.2.1, fun hq => ?_,
        snap_store hl.inv h.1.1 _, ?_⟩) (.of_ret fun s _ h => .inr ⟨tx, m, hact, h⟩))
    · exact ((View.quiet_of_owned h.2.1).1 hq).1 (hl.attr ▸ hS)
    · rw [← h.2.2]
      exact ((h.1.2.wt hS).store he hm x k).ws hS
  have hheld : ∀ v : View Tid Addr Lock w, v.Ws S p tx → v.Holds p (S.cfg.getLock e.addr) := fun v hw =>
    (hw.wt hS).chains.lock e he ▸ (hw.wt hS).chains.held he
  refine .ite (fun h1 => ?_) fun h1 => ?_
  · refine .weaken (hput x) fun v _ h => ⟨h, hheld v h.2, ?_⟩
    rw [h1, BitVec.merge_allOnes]
  · refine .loadWord (fun old => live S p tx m ⊓ ownMem S p e.addr old)
      (fun v _ h => ⟨h, hheld v h.2, rfl⟩) fun old => ?_
    exact .weaken (hput _) fun v _ h => ⟨h.1, h.2.1, by rw [h.2.2]⟩

/-- A store to an address for which there is an entry; `e` is the head of the chain. -/
theorem wtOverwrite_spec {i : ℕ} {e f : WEntry Addr Lock w} (hS : S.cfg.designOf tx.attr = .writeThrough)
    (hact : TxActive S.toPremises tx) (hro : S.hint → tx.attr.readOnly = false) (hk : S.mask k) (hk0 : k ≠ 0#w)
    (hi : tx.wSet.entries[i]? = some e) (hf : f ∈ tx.wSet.entries) (ha : f.addr = a)
    (hhead : e.mask = 0#w → e.addr = a) (hfm : e.mask ≠ 0#w → f.mask ≠ 0#w) :
    Triple (protocol S) p (At tx (live S p tx m)) (wtOverwrite p a x k i)
      (fun _ => afterStore S p a x k) J := by
  refine .getTx ?_
  rw [hi]
  refine .ite (fun hm => ?_) fun hm => ?_
  · have hm : e.mask = 0#w := by simpa using hm
    have hea := hhead hm
    subst hea
    have he := List.mem_of_getElem? hi
    refine .loadWord (fun old => live S p tx m ⊓ ownMem S p e.addr old) (fun v _ h => ⟨h, ?_, rfl⟩)
      fun old => .modifyTx rfl rfl rfl ?_
    · exact (h.2.wt hS).chains.lock e he ▸ (h.2.wt hS).chains.held he
    · have hmem : { e with value := old, mask := k } ∈
          (tx.wSet.modify i fun e => { e with value := old, mask := k }).entries := by
        refine List.mem_of_getElem? (i := i) ?_
        change (tx.wSet.entries.modify i _)[i]? = _
        rw [List.getElem?_modify, hi]
        simp
      refine .weaken (wtStore_spec (m := m) hS (hact.store hro fun f hf => ?_) hmem rfl
        hk0) fun v _ h => ⟨h.1.1.congr rfl rfl rfl rfl rfl rfl, ?_⟩
      · obtain ⟨j, d, hd, ⟨-, rfl⟩ | ⟨-, rfl⟩⟩ := mem_modify hf
        · exact hk
        · exact hact.mask _ (List.mem_of_getElem? hd)
      · exact ((h.1.2.wt hS).save hi hm hk0 h.2.2).ws hS
  · exact wtStore_spec hS hact hf ha (hfm (by simpa using hm))

/-- If the first entry of the stripe of `a` has saved no old value, it is not in the way of a store to
`a`: it is the entry of `a`, or `a` has none. -/
def HeadSaved (getLock : Addr → Lock) (tx : StmTx Addr Lock w) (a : Addr) : Prop :=
  ∀ e, tx.wSet.entries.find? (fun e => e.lock = getLock a) = some e → e.mask = 0#w →
    e.addr = a ∨ ∀ f ∈ tx.wSet.entries, f.addr ≠ a

omit [DecidableEq Tid] in
/-- What a store finds at an entry `f` for its address, where `e` is the head of the chain. -/
theorem View.WtWs.head {v : View Tid Addr Lock w} (hw : v.WtWs S p tx) {i j : ℕ}
    {f : WEntry Addr Lock w} (hi : v.locks (S.cfg.getLock a) = .owned p i)
    (hj : tx.wSet.entries[j]? = some f) (ha : f.addr = a)
    (hhead : HeadSaved S.cfg.getLock tx a) :
    ∃ e, tx.wSet.entries[i]? = some e ∧ (e.mask = 0#w → e.addr = a) ∧
      (e.mask ≠ 0#w → f.mask ≠ 0#w) := by
  obtain ⟨⟨e, he, hel⟩, hbefore⟩ := hw.chains.head _ i hi
  have hfmem := List.mem_of_getElem? hj
  have hfl : f.lock = S.cfg.getLock a := ha ▸ hw.chains.lock f hfmem
  refine ⟨e, he, fun hm => (hhead e ?_ hm).resolve_right fun h => h f hfmem ha, fun hm hfm => ?_⟩
  · obtain ⟨hlt, hge⟩ := List.getElem?_eq_some_iff.1 he
    refine List.find?_eq_some_iff_getElem.2 ⟨by simpa using hel, i, hlt, hge, fun k hk => ?_⟩
    simpa using hbefore k _ hk (List.getElem?_eq_getElem (hk.trans hlt))
  · rcases lt_trichotomy i j with hlt | rfl | hlt
    · exact hw.first j f hj hfm i e hlt he (hel.trans hfl.symm)
    · rw [he] at hj
      injection hj with hj
      exact hm (hj ▸ hfm)
    · exact hbefore j f hlt hj hfl

/-- `stm_wt_write`. A new entry needs room in the write set, or an attempt that is retried. -/
theorem stmWtWrite_spec (hS : S.cfg.designOf tx.attr = .writeThrough) (hact : TxActive S.toPremises tx)
    (hro : S.hint → tx.attr.readOnly = false) (hk : S.mask k)
    (hroom : HasRoom S.cfg.getLock tx a k)
    (hhead : k ≠ 0#w → HeadSaved S.cfg.getLock tx a) :
    Triple (protocol S) p (At tx (live S p tx m)) (stmWtWrite S.cfg p a x k)
      (fun _ => afterStore S p a x k) (boundary S p) := by
  refine .iterate (fun _ => At tx (live S p tx m)) (fun _ _ h => h) fun _ => ?_
  refine .loadLock (fun l => live S p tx m ⊓ word S p (S.cfg.getLock a) l ⊓
    .imp (∃ n, l = .free n) (free S p (S.cfg.getLock a)))
    (fun v _ h => ⟨⟨h, word_self _ v⟩, fun ⟨_, hl⟩ => View.not_holds_of_free hl⟩) fun l => .getTx ?_
  cases l with
  | owned q i =>
    refine .ite (fun ho => ?_) fun _ =>
      .ite (fun _ => .of_ret fun s _ h => ⟨h.1, h.2.1.1⟩) fun _ => ?_
    · obtain ⟨rfl, -⟩ := ho
      refine .ite (fun h0 => .of_ret fun s _ h => .inr ?_) fun h0 => ?_
      · obtain ⟨htx, ⟨⟨hsnap, hws⟩, hi⟩, -⟩ := h
        exact ⟨tx, m, hact, htx, hsnap, h0 ▸ ((hws.wt hS).touch ⟨i, hi rfl⟩ x).ws hS⟩
      refine .fact (fun v _ h => (h.1.1.2.wt hS).chains.chainFind (h.1.2 rfl)) fun hfind => ?_
      generalize chainFind tx.wSet.entries a tx.wSet.entries.length i = pos at hfind ⊢
      cases pos with
      | found j f =>
        obtain ⟨hj, ha⟩ := hfind
        refine .fact (fun v _ h => View.WtWs.head (h.1.1.2.wt hS) (h.1.2 rfl) hj ha (hhead h0))
          fun ⟨e, hi, hea, hfm⟩ => ?_
        exact .bind (.weaken (wtOverwrite_spec hS hact hro hk h0 hi (List.mem_of_getElem? hj) ha hea
          hfm) fun v _ h => h.1.1) fun _ => .of_ret fun _ _ h => h
      | last j version =>
        obtain ⟨e, hj, hel, hen, rfl, hne⟩ := hfind
        have hfull : tx.wSet.entries.length = tx.wSet.size → tx.attr.noRetry = false := by
          intro hlen
          by_contra hno
          obtain ⟨f, hf, -, h | h⟩ := hroom hlen (by simpa using hno)
          · exact h0 h
          · exact hne f hf h
        refine .bind (extendWs_spec hact.toTxLive hfull fun v _ h => h.1.1) fun _ => ?_
        refine .fact (φ := tx.trace.cover a = 0#w) (fun v _ h => ?_) fun hc => ?_
        · by_contra hc
          obtain ⟨f, hf, hfa, -⟩ := (h.1.1.2.wt hS).stored a hc
          exact hne f hf hfa
        refine .bind (.weaken (wtDoWrite_spec hS hact hro hk hc (some j) e.version)
          fun v _ h => ⟨h.1.1.1, ⟨i, h.1.2 rfl⟩, fun y hy => ?_⟩) fun _ => .of_ret fun _ _ h => h
        have hw := h.1.1.2.wt hS
        refine hw.push rfl (fun ℓ hh => ⟨hh, rfl⟩) (hw.chains.link hj hen hel rfl rfl hne) ?_ hy
          (fun hk => (h0 hk).elim) hw.mem
        exact (hw.version e (List.mem_of_getElem? hj)).trans (by rw [hel])
    · exact .weaken (conflict_spec hact.toTxLive _ _ (.of_ret fun s _ h => .inl h)) fun v _ h => h.1.1
  | free l =>
    refine .ite (fun _ => ?_) fun hok => ?_
    · exact .bind (.weaken (abort_spec hact.toTxLive _) fun v _ h => h.1.1) fun _ =>
        .of_ret fun s _ h => .inl (idleAsn_of_idleWith h.2)
    refine .fact (φ := (∀ e ∈ tx.wSet.entries, e.lock ≠ S.cfg.getLock a ∧ e.addr ≠ a) ∧
      tx.trace.cover a = 0#w) (fun v _ h => ?_) fun ⟨hfree, hc⟩ => ?_
    · have hw := h.1.1.2.wt hS
      have hne := fun e he => hw.chains.ne_of_not_holds (f := e) (h.2 ⟨l, rfl⟩) he
      refine ⟨hne, ?_⟩
      by_contra hc
      obtain ⟨e, he, rfl, -⟩ := hw.stored a hc
      exact (hne e he).2 rfl
    have hfull : tx.wSet.entries.length = tx.wSet.size → tx.attr.noRetry = false := by
      intro hlen
      by_contra hno
      obtain ⟨f, hf, hfl, -⟩ := hroom hlen (by simpa using hno)
      exact (hfree f hf).1 hfl
    refine .bind (extendWs_spec hact.toTxLive hfull fun v _ h => h.1.1) fun _ => .getTx ?_
    refine .casLock (Ψ := snap S p tx m ⊓ wtPushing S p tx none l a k) hact.phase hact.attr
      (fun v hl h hlock => ?_) ?_ ?_
    · have hw := h.1.1.2.wt hS
      refine ⟨h.1.1.1.acquire hl.inv hlock (hl.phase.trans hact.phase) (hl.attr ▸ hact.attr)
        (fun hb hd hi => ?_) _, ⟨_, Function.update_self ..⟩, fun y hy => ?_⟩
      · exact ⟨View.readOnly_of_not_blind hb hd hro, le_end_of_covered hact.toTxLive hok hi⟩
      have hch := hw.chains.acquire (e := ⟨a, y, k, l, S.cfg.getLock a, none, false⟩) hlock rfl rfl
      refine hw.push rfl (fun ℓ hh => View.acquired_held hlock hh) hch
        (View.acquired_lastWord.trans (if_pos rfl)).symm hy (fun _ e he => (hfree e he).1)
        fun b hb => ?_
      -- the words of the new stripe are in memory, and none of them has been stored to
      rcases View.acquired_holds.1 hb with hb | hb
      · have hnb : b ∉ tx.trace.writes := fun h' =>
          View.not_holds_of_free (hb ▸ hlock) (hw.writes b h')
        rw [Trace.apply_of_not_mem_writes hnb]
        exact hl.inv.mem_of_free (hb ▸ hlock)
      · exact hw.mem b hb
    · exact .bind (wtDoWrite_spec hS hact hro hk hc none _) fun _ => .of_ret fun _ _ h => h
    · exact .of_ret fun s _ h => ⟨h.1, h.2.1.1⟩

/-! ## Commits -/

omit [DecidableEq Tid] in
/-- The loop of `stm_wt_commit`. -/
theorem wtInstall_spec {t : ℕ} (hph : tx.phase = .installing t)
    (es : List (WEntry Addr Lock w)) :
    Triple (protocol S) p (At tx (install S p (·.next = none) (fun _ x => x) es []))
      (wtInstall es t) (fun _ => At tx (noLocks S p)) J := by
  induction es with
  | nil => exact .of_ret fun s _ h => noLocks_of_install h
  | cons e es ih =>
    refine .bind (R := fun _ => At tx (install S p (·.next = none) (fun _ x => x) es []))
      (.ite (fun hn => .last ?_) fun hn => .of_ret fun s _ h => ?_) fun _ => ih
    · exact storeLock_install hph hn nofun (.of_ret fun _ _ h => h)
    · exact ⟨h.1, View.Install.keep h.2 hn nofun⟩

/-- `stm_wt_commit`. -/
theorem stmWtCommit_spec (hS : S.cfg.designOf tx.attr = .writeThrough) (hact : TxLive S.toPremises tx)
    (hne : tx.wSet.entries ≠ []) :
    Triple (protocol S) p (At tx (live S p tx m)) (stmWtCommit S.cfg p) (afterCommit S p tx)
      (boundary S p) := by
  refine commitWith_spec hact hne (fun v hw => hw.undo)
    (fun v hw a ha => hw.holds_of_mem_writes (by simp [hS]) ha) (fun hd => by simp [hS] at hd)
    (fun t => wtInstall_spec rfl _) fun v v' hv _ hni hw hl hm hcur => ?_
  have hholds : ∀ ℓ, v'.Holds p ℓ ↔ v.Holds p ℓ := fun ℓ => by rw [View.Holds, View.Holds, hl]
  have hwt := hw.wt hS
  have hnil {e : WEntry Addr Lock w} {φ : Prop} (he : e ∈ []) : φ := (List.not_mem_nil he).elim
  refine
    { drops :=
        { holds := fun ℓ => (hholds ℓ).trans (hwt.chains.drops.holds ℓ)
          distinct := hwt.chains.drops.distinct }
      last := hwt.chains.chained.pairwise
      sub := fun _ => hnil
      lock := fun _ => hnil
      held := fun _ => hnil
      addr := .nil
      value := fun _ => hnil
      dirty := fun a ha => .inl ?_ }
  have ha := (hholds _).1 ha
  rw [hm, hwt.mem a ha, hcur a ha]

end TinyStm
