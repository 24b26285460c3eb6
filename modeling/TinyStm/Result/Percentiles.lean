import TinyStm.Result.Counters

/-!
# Percentiles

In any sequence of samples and queries, the reservoir is a part of the samples, and a query returns
it in ascending order with the percentiles in order, as long as the index of a percentile does not
overflow. The reservoir is sorted in place by a query, so samples and queries interact: a sample
that is added later may replace any cell. The invariant says that the cells hold, in some order,
samples that have been added.
-/

namespace TinyStm.AtomicBlocks

variable {Seed : Type} (rand : Rand Seed) {R : ℕ} {vs : Multiset ℚ} {kept : List ℚ} {c : SmartCounter}

/-- A sample that is added to a counter, with the seed that the thread has then, or a query. -/
inductive ScOp (Seed : Type)
  | add (n : ℚ) (seed : Seed)
  | query

/-- What the counter is then. -/
def ScOp.run (R : ℕ) (c : SmartCounter) : ScOp Seed → Option SmartCounter
  | .add n seed => (scAddSample rand R n seed c).map (·.2)
  | .query => (scGetStats R c).map (·.2)

def scRun (R : ℕ) (ops : List (ScOp Seed)) : Option SmartCounter :=
  ops.foldlM (ScOp.run rand R) (scInit R)

/-- The samples after an operation, if they were `vs`. -/
def ScOp.samples (vs : Multiset ℚ) : ScOp Seed → Multiset ℚ
  | .add n _ => n ::ₘ vs
  | .query => vs

/-- The samples seen. -/
def samplesSeen (ops : List (ScOp Seed)) : Multiset ℚ := ops.foldl ScOp.samples 0

/-- One operation. -/
theorem Summarises.run (hpos : 1 ≤ R) (hlt : R < 2 ^ 32) (h : Summarises R vs kept c) (op : ScOp Seed) :
    ∃ d kept', op.run rand R c = some d ∧ Summarises R (op.samples vs) kept' d := by
  cases op with
  | add n seed =>
    rcases h.scAddSample_cases rand seed n with ⟨hzero, -⟩ | ⟨_, d, kept', heq, hd⟩
    · omega
    · exact ⟨d, kept', by rw [ScOp.run, heq]; rfl, hd⟩
  | query =>
    obtain ⟨d, kept', heq, hd, -⟩ := h.scGetStats_eq hlt
    exact ⟨d, kept', by rw [ScOp.run, heq]; rfl, hd⟩

/-- A sequence of operations. -/
theorem summarises_scRun (hpos : 1 ≤ R) (hlt : R < 2 ^ 32) (ops : List (ScOp Seed)) :
    ∃ c kept, scRun rand R ops = some c ∧ Summarises R (samplesSeen ops) kept c := by
  rw [scRun, samplesSeen]
  generalize hc : scInit R = c
  generalize hvs : (0 : Multiset ℚ) = vs
  have h : ∃ kept, Summarises R vs kept c := ⟨[], hc ▸ hvs ▸ summarises_scInit⟩
  clear hc hvs
  induction ops generalizing c vs with
  | nil => exact ⟨c, h.choose, rfl, h.choose_spec⟩
  | cons op ops ih =>
    obtain ⟨kept, h⟩ := h
    obtain ⟨d, kept', heq, hd⟩ := h.run rand hpos hlt op
    rw [List.foldlM_cons, heq, List.foldl_cons]
    exact ih d (op.samples vs) ⟨kept', hd⟩

/-- The answer has a part of the samples `vs` in ascending order, and percentiles in order. -/
structure Ranked (R : ℕ) (vs : Multiset ℚ) (st : StmAbStats) : Prop where
  reservoir : ∃ kept, Holds R vs st.reservoir kept ∧ st.reservoirSize = kept.length ∧
    kept.Pairwise (· ≤ ·)
  min_le : st.min ≤ st.percentile50
  le_90 : st.percentile50 ≤ st.percentile90
  le_95 : st.percentile90 ≤ st.percentile95
  le_max : st.percentile95 ≤ st.max

theorem pairwise_of_length_le_one {l : List ℚ} (h : l.length ≤ 1) : l.Pairwise (· ≤ ·) := by
  match l, h with
  | [], _ => exact .nil
  | [v], _ => exact List.pairwise_singleton _ v

/-- A query for which the index of the highest percentile does not overflow. -/
theorem Summarises.ranked (hlt : R < 2 ^ 32) (h : Summarises R vs kept c) (hne : vs ≠ 0)
    (hfits : 95 * min vs.card R < 2 ^ 31) {st : StmAbStats} {d : SmartCounter}
    (hst : scGetStats R c = some (st, d)) : Ranked R vs st := by
  obtain ⟨d, kept', heq, hd, hr, hsorted⟩ := h.scGetStats_eq hlt
  rw [heq] at hst
  cases hst
  have hlen := h.holds.length_eq
  have hint : toInt kept.length = kept.length := toInt_eq (by omega) (by omega)
  rw [hint] at hsorted ⊢
  have hindex : ∀ percentile : ℤ, 0 ≤ percentile → percentile ≤ 95 →
      scIndex kept.length percentile = (kept.length * percentile + 50) / 100 := by
    intro percentile hlo hhi
    have hmul : (kept.length : ℤ) * percentile ≤ kept.length * 95 :=
      mul_le_mul_of_nonneg_left hhi (by omega)
    exact scIndex_eq (mul_nonneg (by omega) hlo) (by omega)
  rw [hindex 50 (by omega) (by omega)] at hsorted ⊢
  rw [hindex 90 (by omega) (by omega), hindex 95 (by omega) (by omega)]
  refine ⟨⟨kept', hd.holds, hr.perm.length_eq.symm, ?_⟩, (h.rank_bounds hne _).1,
    h.rank_mono hne (by omega), h.rank_mono hne (by omega), (h.rank_bounds hne _).2⟩
  by_cases hone : kept.length ≤ 1
  · have hone' : kept'.length ≤ 1 := hr.perm.length_eq ▸ hone
    exact pairwise_of_length_le_one hone'
  · exact hd.sorted (hsorted (by omega) (by omega))

/-- After any samples and queries the reservoir is a part of the samples, and a query stays inside of it.
If the index of the highest percentile does not overflow, the answer is in order. -/
theorem percentiles_ordered (hpos : 1 ≤ R) (hlt : R < 2 ^ 32) (ops : List (ScOp Seed))
    (hne : samplesSeen ops ≠ 0) :
    ∃ c, scRun rand R ops = some c ∧ (∃ kept, Holds R (samplesSeen ops) c.reservoir kept) ∧
      ∃ st d, scGetStats R c = some (st, d) ∧
        (95 * min (samplesSeen ops).card R < 2 ^ 31 → Ranked R (samplesSeen ops) st) := by
  obtain ⟨c, kept, hrun, h⟩ := summarises_scRun rand hpos hlt ops
  obtain ⟨d, kept', hst, -⟩ := h.scGetStats_eq hlt
  exact ⟨c, hrun, ⟨kept, h.holds⟩, _, d, hst, fun hfits => h.ranked hlt hne hfits hst⟩

/-- Samples that fill a reservoir of two cells, a query, and samples that replace a cell or are dropped. -/
def mixedOps : List (ScOp Unit) := [.add 3 (), .add 1 (), .query, .add 2 (), .query, .add 5 ()]

theorem percentiles_ordered_mixed : ∃ c, scRun (.const (1 / 2) 1) 2 mixedOps = some c ∧
    (∃ kept, Holds 2 {5, 2, 1, 3} c.reservoir kept) ∧
      ∃ st d, scGetStats 2 c = some (st, d) ∧ Ranked 2 {5, 2, 1, 3} st := by
  obtain ⟨c, hrun, hholds, st, d, hst, hranked⟩ := percentiles_ordered (.const (1 / 2) 1) (R := 2)
    (by decide) (by decide) mixedOps (by decide)
  exact ⟨c, hrun, hholds, st, d, hst, hranked (by decide)⟩

/-! ## Too many samples -/

/-- A sample 0 and `k` samples 1. -/
def zeroThenOnes (k : ℕ) : List (ScOp Unit) := .add 0 () :: List.replicate k (.add 1 ())

theorem foldl_samples_replicate (k : ℕ) (vs : Multiset ℚ) (n : ℚ) (seed : Seed) :
    (List.replicate k (.add n seed)).foldl ScOp.samples vs = Multiset.replicate k n + vs := by
  induction k generalizing vs with
  | zero => exact (Multiset.zero_add vs).symm
  | succ k ih =>
    rw [List.replicate_succ, List.foldl_cons, ih, ScOp.samples, Multiset.replicate_succ,
      Multiset.add_cons, Multiset.cons_add]

theorem samplesSeen_zeroThenOnes (k : ℕ) :
    samplesSeen (zeroThenOnes k) = Multiset.replicate k 1 + {0} := by
  rw [samplesSeen, zeroThenOnes, List.foldl_cons, foldl_samples_replicate]
  rfl

theorem getD_zeroThenOnes {k i : ℕ} (hpos : 0 < i) (hle : i ≤ k) :
    ((0 : ℚ) :: List.replicate k 1).getD i 0 = 1 := by
  obtain ⟨j, rfl⟩ := Nat.exists_eq_succ_of_ne_zero hpos.ne'
  rw [List.getD_cons_succ, List.getD_eq_getElem?_getD, List.getElem?_replicate,
    if_pos (Nat.lt_of_succ_le hle)]
  rfl

/-- The minimum and the sorted reservoir, if there is room for these samples. -/
theorem Summarises.zeroThenOnes {k : ℕ} (hroom : k < R)
    (h : Summarises R (Multiset.replicate k 1 + {0}) kept c) :
    c.min = 0 ∧ ascending kept = 0 :: List.replicate k 1 := by
  have hmem : ∀ v ∈ Multiset.replicate k (1 : ℚ) + {0}, v = 1 ∨ v = 0 := by
    intro v hv
    rcases Multiset.mem_add.1 hv with hv | hv
    · exact .inl (Multiset.eq_of_mem_replicate hv)
    · exact .inr (Multiset.mem_singleton.1 hv)
  have hzero : (0 : ℚ) ∈ Multiset.replicate k (1 : ℚ) + {0} :=
    Multiset.mem_add.2 (.inr (Multiset.mem_singleton_self 0))
  have hleast := h.isLeast fun hnone => Multiset.notMem_zero (0 : ℚ) (hnone ▸ hzero)
  refine ⟨(hmem _ hleast.1).resolve_left fun hone => ?_, ?_⟩
  · have hle : c.min ≤ 0 := hleast.2 hzero
    rw [hone] at hle
    exact absurd hle (by decide)
  · have hcard : (Multiset.replicate k (1 : ℚ) + {0}).card = k + 1 := by
      rw [Multiset.card_add, Multiset.card_replicate, Multiset.card_singleton]
    have hlength := h.holds.length_eq
    rw [hcard] at hlength
    -- there is room for all samples, so all of them are kept
    have hall : (kept : Multiset ℚ) = Multiset.replicate k (1 : ℚ) + {0} :=
      Multiset.eq_of_le_of_card_le h.holds.le (by rw [hcard, Multiset.coe_card]; omega)
    have hperm : kept.Perm (0 :: List.replicate k 1) := by
      rw [← Multiset.coe_eq_coe, hall, ← Multiset.cons_coe, Multiset.coe_replicate, ← Multiset.singleton_add,
        add_comm]
    have hsorted : (0 :: List.replicate k (1 : ℚ)).Pairwise (· ≤ ·) :=
      List.pairwise_cons.2 ⟨fun v hv => (List.eq_of_mem_replicate hv) ▸ zero_le_one,
        List.pairwise_replicate.2 (.inr le_rfl)⟩
    rw [ascending_eq_of_perm hperm]
    exact hsorted.insertionSort_eq

/-- With 22605092 samples the index of the 95th percentile overflows, and becomes negative. -/
theorem percentiles_overflow : ∃ c st d, scRun (.const 1 0) 22605092 (zeroThenOnes 22605091) = some c ∧
    scGetStats 22605092 c = some (st, d) ∧ st.percentile90 = 1 ∧ st.percentile95 = 0 ∧
      ¬ Ranked 22605092 (samplesSeen (zeroThenOnes 22605091)) st := by
  obtain ⟨c, kept, hrun, h⟩ := summarises_scRun (.const 1 0) (R := 22605092) (by decide) (by decide)
    (zeroThenOnes 22605091)
  obtain ⟨d, -, hst, -⟩ := h.scGetStats_eq (by decide)
  rw [samplesSeen_zeroThenOnes] at h ⊢
  obtain ⟨hmin, hascending⟩ := h.zeroThenOnes (by decide)
  have hlength : kept.length = 22605092 := by
    rw [← length_ascending, hascending, List.length_cons, List.length_replicate]
  have hint : toInt kept.length = 22605092 := by
    rw [hlength]
    exact toInt_eq (by decide) (by decide)
  have h90 : rank c kept (toInt kept.length) (scIndex (toInt kept.length) 90) = 1 := by
    have hindex : scIndex 22605092 90 = 20344583 := by decide +kernel
    rw [hint, hindex, rank, if_neg (by decide), if_neg (by decide), hascending]
    exact getD_zeroThenOnes (by decide) (by decide)
  have h95 : rank c kept (toInt kept.length) (scIndex (toInt kept.length) 95) = 0 := by
    have hindex : scIndex 22605092 95 = -21474835 := by decide +kernel
    rw [hint, hindex, rank, if_pos (by decide), hmin]
  refine ⟨c, _, d, hrun, hst, h90, h95, fun hranked => ?_⟩
  exact absurd (h90.symm.trans_le (hranked.le_95.trans_eq h95)) (by decide)

end TinyStm.AtomicBlocks
