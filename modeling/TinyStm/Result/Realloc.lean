import TinyStm.Result.Callbacks
import TinyStm.Result.Regions

/-!
# Reallocation in a transaction

`tanger_stm_realloc` copies the whole old block, also when the new block is smaller. The copy reads
`malloc_usable_size` bytes of the old block and stores as many to the new one. The exact condition
is that the new block has room for them, and each of the two callbacks an entry.
-/

namespace TinyStm

variable {σ F : Type} {cfg : CbConfig} {o : ByteOrder} {W : WordMemory σ cfg.word}
  {s : TangerState σ F cfg.word} {as cs : List (CbEntry F cfg.word)} {usable : Word cfg.word → Word cfg.word}
  {ptr size addr : Word cfg.word} {noWriteOnFree : Bool}

/-- What a commit does with a block that has been freed. -/
def freeEntry (cfg : CbConfig) (ptr : Word cfg.word) : CbEntry F cfg.word :=
  ⟨if cfg.epochGc then .epochFree else .free, ptr⟩

/-- The requests to the allocator and to the transaction do not matter. -/
theorem ModCbInfo.Holds.requests {icb : ModCbInfo F cfg.word} (h : icb.Holds as cs)
    (ms : List (Word cfg.word × Word cfg.word)) (ss : List (Word cfg.word)) :
    ModCbInfo.Holds { icb with mallocs := ms, stores := ss } as cs := ⟨h.abort, h.commit⟩

/-- A request that succeeds changes nothing but the callbacks. -/
theorem callbacks_ends {f : ModCbInfo F cfg.word → Except CbFault (ModCbInfo F cfg.word)}
    {icb : ModCbInfo F cfg.word} (h : f s.icb = .ok icb) :
    (callbacks cfg f).Ends (fun _ t => t = { s with icb := icb })
      (fun _ : TangerState σ F cfg.word => False) s := by
  refine .access ?_
  simp only [h]
  exact .ret rfl

/-- A request that fails ends the process. -/
theorem callbacks_fails {f : ModCbInfo F cfg.word → Except CbFault (ModCbInfo F cfg.word)}
    (h : ∃ e, f s.icb = .error e) {Q : Unit → TangerState σ F cfg.word → Prop} :
    (callbacks cfg f).Ends Q (fun _ => True) s := by
  obtain ⟨e, h⟩ := h
  refine .access ?_
  simp only [h]
  exact .jump trivial

/-- The allocation registers the new block for an abort. -/
theorem itmMalloc_ends (h : s.icb.Holds as cs) (has : as.length < 32768) :
    (itmMalloc cfg size addr).Ends (fun p t => p = addr ∧ t = { s with icb := t.icb } ∧
      t.icb.Holds (as ++ [⟨.free, addr⟩]) cs) (fun _ : TangerState σ F cfg.word => False) s := by
  obtain ⟨icb, hicb, hholds⟩ : ∃ icb, intStmMalloc cfg size addr s.icb = .ok icb ∧
      icb.Holds (as ++ [⟨.free, addr⟩]) cs := by
    unfold intStmMalloc
    exact (h.requests _ _).addOnAbort has _
  refine .bind (callbacks_ends hicb) fun _ t ht => .ret ⟨rfl, ?_⟩
  subst ht
  exact ⟨rfl, hholds⟩

/-- There is no room for it. -/
theorem itmMalloc_fails (h : s.icb.Holds as cs) (has : 32768 ≤ as.length)
    {Q : Word cfg.word → TangerState σ F cfg.word → Prop} :
    (itmMalloc cfg size addr).Ends Q (fun _ => True) s := by
  refine .bind (callbacks_fails ?_ (Q := fun _ _ => False)) fun _ _ hf => hf.elim
  unfold intStmMalloc
  exact (h.requests _ _).addOnAbort_error has _

/-- A call whose stores do not abort the transaction registers its block. -/
theorem stmFree_quiet {icb : ModCbInfo F cfg.word} {ptr n : Word cfg.word} :
    (stmFree cfg .quiet ptr n icb >>= fun r => pure r.icb) =
      modCbAddOnCommit cfg (freeEntry cfg ptr)
        { icb with stores := icb.stores ++ freeStores ptr 0 n } := by
  rw [stmFree, intStmFree2, storeZeros_of_quiet (by simp) fun _ _ => rfl]
  change (modCbAddOnCommit cfg _ _ >>= fun icb => pure _) >>= _ = _
  simp [freeEntry]

/-- The release registers the old block for a commit. -/
theorem itmFree_ends (h : s.icb.Holds as cs) (hcs : cs.length < 32768) :
    (itmFree cfg usable noWriteOnFree ptr).Ends (fun _ t => t = { s with icb := t.icb } ∧
      t.icb.Holds as (cs ++ [freeEntry cfg ptr])) (fun _ : TangerState σ F cfg.word => False) s := by
  unfold itmFree
  generalize (if noWriteOnFree then 0 else usable ptr) = n
  obtain ⟨icb, hicb, hholds⟩ := (h.stores (s.icb.stores ++ freeStores ptr 0 n)).addOnCommit hcs
    (freeEntry cfg ptr)
  refine (callbacks_ends (stmFree_quiet.trans hicb)).mono (fun _ t ht => ?_) fun _ h => h
  subst ht
  exact ⟨rfl, hholds⟩

/-- There is no room for it. -/
theorem itmFree_fails (h : s.icb.Holds as cs) (hcs : 32768 ≤ cs.length)
    {Q : Unit → TangerState σ F cfg.word → Prop} :
    (itmFree cfg usable noWriteOnFree ptr).Ends Q (fun _ => True) s := by
  obtain ⟨f, hf⟩ := (h.stores (s.icb.stores ++ freeStores ptr 0 _)).addOnCommit_error hcs
    (freeEntry cfg ptr)
  exact callbacks_fails ⟨f, stmFree_quiet.trans hf⟩

/-- What `tanger_stm_realloc` promises: it returns the new block, whose first bytes are those that the
transaction sees of the old one, writes nothing outside of it, and leaves the old block to the commit
and the new one to an abort. -/
def Reallocates (o : ByteOrder) (W : WordMemory σ cfg.word) (usable : Word cfg.word → Word cfg.word)
    (noWriteOnFree : Bool) (as cs : List (CbEntry F cfg.word)) (ptr size addr : Word cfg.word)
    (s : TangerState σ F cfg.word) : Prop :=
  (tangerStmRealloc cfg o W usable noWriteOnFree ptr size addr).Ends
    (fun p t => p = addr ∧
      t.raw.slice addr.toNat (min (usable ptr).toNat size.toNat) =
        (s.seen o W).slice ptr.toNat (min (usable ptr).toNat size.toNat) ∧
      t.seen o W = s.seen o W ∧
      (∀ x, ¬ (addr.toNat ≤ x ∧ x < addr.toNat + (usable addr).toNat) → t.raw x = s.raw x) ∧
      t.icb.Holds (as ++ [⟨.free, addr⟩]) (cs ++ [freeEntry cfg ptr])) (fun _ => False) s

/-- The copy, if it fits. -/
theorem copy_ends {n : ℕ} :
    (inTx (stmLoadBytes o W ptr.toNat n)).Ends (fun buf t =>
      buf = (s.seen o W).slice ptr.toNat n ∧ t.seen o W = s.seen o W ∧ t.raw = s.raw ∧ t.icb = s.icb)
      (fun _ => False) s := by
  refine (inTx_ends (stmLoadBytes_ends n)).mono (fun buf t ⟨⟨hmem, hbuf⟩, ht⟩ => ?_) fun _ h => h
  refine ⟨hbuf, by simp only [TangerState.seen, WordMemory.flat, hmem], ?_, ?_⟩ <;> rw [ht]

/-- The copy up to the write to the new block. -/
theorem allocCopy_ends (h : s.icb.Holds as cs) (has : as.length < 32768) {α : Type}
    {f : Word cfg.word → List (BitVec 8) → Prog (TangerState σ F cfg.word) α}
    {Q : α → TangerState σ F cfg.word → Prop} {J : TangerState σ F cfg.word → Prop}
    (hf : ∀ t : TangerState σ F cfg.word, t.seen o W = s.seen o W → t.raw = s.raw →
      t.icb.Holds (as ++ [⟨.free, addr⟩]) cs →
      (f addr ((s.seen o W).slice ptr.toNat (usable ptr).toNat)).Ends Q J t) :
    (itmMalloc cfg size addr >>= fun p =>
      inTx (stmLoadBytes o W ptr.toNat (usable ptr).toNat) >>= f p).Ends Q J s := by
  refine .bind ((itmMalloc_ends h has).mono (fun _ _ h => h) fun _ => False.elim)
    fun p t ⟨hp, ht, hicb⟩ => .bind (copy_ends.mono (fun _ _ h => h) fun _ => False.elim)
      fun buf u ⟨hbuf, hseen, hraw, hicb'⟩ => ?_
  have hseen' : t.seen o W = s.seen o W := by rw [ht]; rfl
  have hraw' : t.raw = s.raw := by rw [ht]
  rw [hp, hbuf, hseen']
  exact hf u (hseen.trans hseen') (hraw.trans hraw') (hicb' ▸ hicb)

/-- A reallocation that does not do what it promises. -/
theorem Reallocates.absurd (hptr : ptr ≠ 0) (hsize : size ≠ 0)
    (hr : Reallocates o W usable noWriteOnFree as cs ptr size addr s)
    (hf : (reallocCopy cfg o W usable noWriteOnFree ptr size addr).Ends (fun _ _ => False)
      (fun _ => True) s) : False := by
  unfold Reallocates tangerStmRealloc at hr
  rw [if_neg hptr, if_neg hsize] at hr
  exact hr.meet hf fun _ _ _ hf => hf

/-- The old block has been copied to a block that is large enough. -/
theorem Reallocates.fits (hptr : ptr ≠ 0) (hsize : size ≠ 0) (h : s.icb.Holds as cs)
    (has : as.length < 32768) (hr : Reallocates o W usable noWriteOnFree as cs ptr size addr s) :
    (usable ptr).toNat ≤ (usable addr).toNat := by
  refine not_lt.1 fun hlt => hr.absurd hptr hsize (allocCopy_ends h has fun t _ _ _ => ?_)
  rw [writeBlock, if_neg (by simpa using hlt)]
  exact .jump trivial

/-- A reallocation does what it promises if and only if the old block is not larger than the new one, and
there is room for a callback of each kind. -/
theorem reallocates_iff (hptr : ptr ≠ 0) (hsize : size ≠ 0) (h : s.icb.Holds as cs) :
    Reallocates o W usable noWriteOnFree as cs ptr size addr s ↔
      (usable ptr).toNat ≤ (usable addr).toNat ∧ as.length < 32768 ∧ cs.length < 32768 := by
  constructor
  · intro hr
    have has : as.length < 32768 := not_le.1 fun has =>
      hr.absurd hptr hsize (.bind (itmMalloc_fails h has) fun _ _ => False.elim)
    refine ⟨hr.fits hptr hsize h has, has, not_le.1 fun hcs =>
      hr.absurd hptr hsize (allocCopy_ends h has fun t _ _ hicb => ?_)⟩
    refine .bind (Q := fun _ u => u.icb = t.icb) ?_ fun _ u hu =>
      .bind (itmFree_fails (hu ▸ hicb) hcs) fun _ _ => False.elim
    unfold writeBlock
    split
    · exact .atomic rfl
    · exact .jump trivial
  · rintro ⟨hle, has, hcs⟩
    unfold Reallocates tangerStmRealloc
    rw [if_neg hptr, if_neg hsize]
    refine allocCopy_ends h has fun t hseen hraw hicb => ?_
    rw [writeBlock, if_pos (by simpa using hle)]
    refine .access (.bind (itmFree_ends (s := { t with raw := _ }) hicb hcs) fun _ u ⟨hu, hholds⟩ =>
      .ret ⟨rfl, ?_, ?_, fun x hx => ?_, hholds⟩)
    · rw [hu]
      exact ByteMem.slice_overlay_slice (min_le_left _ _)
    · rw [hu]
      exact hseen
    · have hout : ¬ (addr.toNat ≤ x ∧ x - addr.toNat < (usable ptr).toNat) := by omega
      rw [hu, ← hraw]
      exact dif_neg (by simpa using hout)

/-- A thread with eight-byte words and no callbacks. -/
def TangerState.fresh : TangerState (Mem ℕ 64) Unit CbConfig.small.word :=
  ⟨fun _ => 0, fun _ => 0, modCbOnThreadInit fun _ => ⟨.free, 0⟩⟩

theorem TangerState.fresh_holds : TangerState.fresh.icb.Holds [] [] := ⟨.new _, .new _⟩

/-- A block that grows from 24 to 40 bytes. -/
theorem reallocates_grow : Reallocates .little (.plain CbConfig.small.word)
    (fun p => if p = 64 then 24 else 40) false [] [] 64 40 128 TangerState.fresh :=
  (reallocates_iff (by decide) (by decide) TangerState.fresh_holds).2 (by decide)

/-- A block of 1000 bytes does not shrink to one of 24. -/
theorem not_reallocates_shrink : ¬ Reallocates .little (.plain CbConfig.small.word)
    (fun p => if p = 64 then 1000 else 24) false [] [] 64 8 128 TangerState.fresh := by
  intro h
  have hle := h.fits (by decide) (by decide) TangerState.fresh_holds (by decide)
  revert hle
  decide

end TinyStm
