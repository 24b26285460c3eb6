import TinyStm.Model.Tanger
import TinyStm.Result.Wrappers

/-!
# Regions

`tanger_stm_loadregion` copies what the transaction sees of a region. `tanger_stm_storeregion`
passes its regions the wrong way round: it stores the bytes that are in memory at the destination to
the source. Both loops are run on the byte semantics of the typed accesses. For the store, the
result is compared with what was asked for, and the two agree exactly when the destination already
holds the bytes of the source.
-/

namespace TinyStm

section
variable {σ F α : Type} {z : WordSize}

/-- A transactional access changes nothing but the transaction. -/
theorem inTx_ends {c : Prog σ α} {Q : α → σ → Prop} {s : TangerState σ F z}
    (h : c.Ends Q (fun _ => False) s.tx) :
    (inTx c).Ends (fun a t => Q a t.tx ∧ t = { s with tx := t.tx }) (fun _ => False) s :=
  .zoom TangerState.tx (fun t s => { s with tx := t }) (fun _ _ => rfl) (fun _ _ _ => rfl)
    (fun _ => rfl) h rfl

variable (o : ByteOrder) (W : WordMemory σ z)

/-- The bytes as the transaction sees them. -/
def TangerState.seen (s : TangerState σ F z) : ByteMem := W.flat o s.tx

variable {o W} {s : TangerState σ F z} {src bytes dest back : ℕ}

/-- `tanger_stm_loadregion` copies the source to the destination. -/
theorem tangerStmLoadregion_ends : (tangerStmLoadregion o W src bytes dest).Ends
    (fun _ t => t.seen o W = s.seen o W ∧ t.raw = s.raw.overlay dest ((s.seen o W).slice src bytes))
    (fun _ => False) s := by
  refine .bind (inTx_ends (stmLoadBytes_ends bytes)) fun buf t ⟨⟨hmem, hbuf⟩, ht⟩ => .atomic ?_
  subst hbuf
  rw [ht]
  exact ⟨by simp only [TangerState.seen, WordMemory.flat, hmem], rfl⟩

/-- `tanger_stm_storeregion` stores what is in memory at the destination to the source. -/
theorem tangerStmStoreregion_ends : (tangerStmStoreregion o W src bytes dest).Ends
    (fun _ t => t.seen o W = (s.seen o W).overlay src (s.raw.slice dest bytes))
    (fun _ => False) s :=
  .access ((inTx_ends (stmStoreBytes_ends _)).mono (fun _ _ h => h.1) fun _ h => h)

/-- The operations on regions match their specification: a store makes the bytes of the shared region
`dest` those of the private region `src` and changes nothing else, a load makes those of the private
region `back` the ones that the transaction sees of `dest`, and after both `back` holds what `src` did. -/
structure RegionsMatch (o : ByteOrder) (W : WordMemory σ z) (s : TangerState σ F z)
    (src bytes dest back : ℕ) : Prop where
  store : (tangerStmStoreregion o W src bytes dest).Ends
    (fun _ t => t.seen o W = (s.seen o W).overlay dest (s.raw.slice src bytes)) (fun _ => False) s
  load : (tangerStmLoadregion o W dest bytes back).Ends
    (fun _ t => t.seen o W = s.seen o W ∧ t.raw.slice back bytes = (s.seen o W).slice dest bytes)
    (fun _ => False) s
  roundTrip : (tangerStmStoreregion o W src bytes dest >>= fun _ =>
      tangerStmLoadregion o W dest bytes back).Ends
    (fun _ t => t.raw.slice back bytes = s.raw.slice src bytes) (fun _ => False) s

end

/-- On disjoint regions, of which the source is private, the operations match their specification
exactly when the destination already holds the bytes of the source, in memory and as the transaction
sees it. -/
theorem regions_match_iff {σ F : Type} {z : WordSize} (o : ByteOrder) (W : WordMemory σ z)
    (s : TangerState σ F z) (src bytes dest back : ℕ)
    (hdisj : src + bytes ≤ dest ∨ dest + bytes ≤ src)
    (hpriv : (s.seen o W).slice src bytes = s.raw.slice src bytes) :
    RegionsMatch o W s src bytes dest back ↔ s.raw.slice dest bytes = s.raw.slice src bytes ∧
      (s.seen o W).slice dest bytes = s.raw.slice src bytes := by
  have hkept : ((s.seen o W).overlay src (s.raw.slice dest bytes)).slice dest bytes =
      (s.seen o W).slice dest bytes := ByteMem.slice_overlay_of_disjoint (by simpa using hdisj)
  constructor
  · intro h
    have hstore : (s.seen o W).overlay dest (s.raw.slice src bytes) =
        (s.seen o W).overlay src (s.raw.slice dest bytes) :=
      h.store.meet tangerStmStoreregion_ends fun _ _ h1 h2 => h1.symm.trans h2
    have hcode : (tangerStmStoreregion o W src bytes dest >>= fun _ =>
        tangerStmLoadregion o W dest bytes back).Ends
        (fun _ u => u.raw.slice back bytes = (s.seen o W).slice dest bytes) (fun _ => False) s := by
      refine .bind tangerStmStoreregion_ends fun _ t ht =>
        tangerStmLoadregion_ends.mono (fun _ u hu => ?_) fun _ h => h
      rw [hu.2, ByteMem.slice_overlay_slice (le_refl _), ht, hkept]
    refine ⟨?_, h.roundTrip.meet hcode fun _ _ h1 h2 => h2.symm.trans h1⟩
    have hsrc : ((s.seen o W).overlay dest (s.raw.slice src bytes)).slice src bytes =
        ((s.seen o W).overlay src (s.raw.slice dest bytes)).slice src bytes := by rw [hstore]
    rw [ByteMem.slice_overlay_slice (le_refl _), ByteMem.slice_overlay_of_disjoint (by simpa using hdisj.symm),
      hpriv] at hsrc
    exact hsrc.symm
  · rintro ⟨hraw, hseen⟩
    refine ⟨tangerStmStoreregion_ends.mono (fun _ t ht => ?_) fun _ h => h,
      tangerStmLoadregion_ends.mono (fun _ t ht => ⟨ht.1, ?_⟩) fun _ h => h,
      .bind tangerStmStoreregion_ends fun _ t ht => tangerStmLoadregion_ends.mono
        (fun _ u hu => ?_) fun _ h => h⟩
    · rw [ht, hraw, ByteMem.overlay_self hpriv, ByteMem.overlay_self hseen]
    · rw [ht.2, ByteMem.slice_overlay_slice (le_refl _)]
    · rw [hu.2, ByteMem.slice_overlay_slice (le_refl _), ht, hkept, hseen]

/-- A thread with four-byte words, the memory `m`, and no callbacks. -/
def TangerState.plain (m : Mem ℕ 32) : TangerState (Mem ℕ 32) Unit .four :=
  ⟨m, ByteOrder.flat .little (n := 4) m, modCbOnThreadInit fun _ => ⟨.free, 0⟩⟩

/-- A memory of zeros. -/
theorem regions_match_zero : RegionsMatch .little (.plain .four) (.plain fun _ => 0) 0 1 8 16 :=
  (regions_match_iff .little (.plain .four) (.plain fun _ => 0) 0 1 8 16 (by decide) rfl).2 ⟨rfl, rfl⟩

/-- The byte 1 is not stored to a region that holds the byte 0. -/
theorem not_regions_match : ¬ ∀ s : TangerState (Mem ℕ 32) Unit .four,
    (s.seen .little (.plain .four)).slice 0 1 = s.raw.slice 0 1 →
      RegionsMatch .little (.plain .four) s 0 1 8 16 := by
  intro h
  have hstore := (h (.plain fun a => if a = 0 then 1 else 0) rfl).store.meet
    tangerStmStoreregion_ends fun _ _ h1 h2 => h1.symm.trans h2
  have hbyte := congrFun hstore 0
  revert hbyte
  decide

end TinyStm
