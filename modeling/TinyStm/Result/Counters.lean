import TinyStm.Modules.AtomicBlocks
import TinyStm.Numeric.Moments

/-!
# Counters

A counter of an atomic block has the statistics of its samples, and its reservoir is a part of them.
The recurrences for mean and variance are those of `TinyStm.Numeric.Moments`. The reservoir keeps
the first samples and then replaces cells at random; what the generator returns does not matter
here.
-/

namespace TinyStm.AtomicBlocks

/-! ## The index of a percentile -/

/-- A value in the range of `int` is converted to itself. -/
theorem toInt_eq {i : ℤ} (hlo : -2 ^ 31 ≤ i) (hhi : i < 2 ^ 31) : toInt i = i :=
  Int.bmod_eq_of_le (by omega) (by omega)

/-- `sc_round` of a percentage. -/
theorem scRound_div {i : ℤ} (hi : 0 ≤ i) : scRound ((i : ℚ) / 100) = (i + 50) / 100 := by
  have hsum : (i : ℚ) / 100 + 1 / 2 = ((i + 50 : ℤ) : ℚ) / (100 : ℕ) := by
    push_cast
    ring
  have hnonneg : (0 : ℚ) ≤ (i : ℚ) / 100 + 1 / 2 := by positivity
  rw [scRound, if_pos hnonneg, hsum, Rat.floor_intCast_div_natCast]
  rfl

/-- The index, if the product does not overflow. -/
theorem scIndex_eq {length percentile : ℤ} (hnonneg : 0 ≤ length * percentile)
    (hlt : length * percentile < 2 ^ 31) : scIndex length percentile = (length * percentile + 50) / 100 := by
  rw [scIndex, toInt_eq (by omega) hlt, scRound_div hnonneg]

/-! ## The reservoir -/

variable {R : ℕ} {vs : Multiset ℚ} {cells : List (Option ℚ)} {kept : List ℚ} {n : ℚ}

/-- The cells of a reservoir hold the values `kept`, which are as many of `vs` as there is room for. -/
structure Holds (R : ℕ) (vs : Multiset ℚ) (cells : List (Option ℚ)) (kept : List ℚ) : Prop where
  cells_eq : cells = kept.map some ++ List.replicate (R - kept.length) none
  length_eq : kept.length = min vs.card R
  le : (kept : Multiset ℚ) ≤ vs

namespace Holds

/-- The reservoir keeps no more than its size. -/
theorem length_le (h : Holds R vs cells kept) : kept.length ≤ R := by
  rw [h.length_eq]
  exact Nat.min_le_right _ _

/-- The reservoir has its size. -/
theorem length_cells (h : Holds R vs cells kept) : cells.length = R := by
  have hle := h.length_le
  rw [h.cells_eq, List.length_append, List.length_map, List.length_replicate]
  omega

/-- The first cells hold what is kept. -/
theorem take_length (h : Holds R vs cells kept) : cells.take kept.length = kept.map some := by
  rw [h.cells_eq, ← List.length_map (f := some), List.take_left]

/-- A cell that is read. -/
theorem join_getElem? (h : Holds R vs cells kept) {i : ℕ} (hi : i < kept.length) :
    cells[i]?.join = some (kept.getD i 0) := by
  rw [h.cells_eq, List.getElem?_append_left (by rwa [List.length_map]), List.getElem?_map,
    List.getD_eq_getElem?_getD, List.getElem?_eq_getElem hi]
  rfl

/-- The reservoir is empty at first. -/
theorem empty : Holds R 0 (List.replicate R none) [] :=
  ⟨rfl, (Nat.zero_min R).symm, le_rfl⟩

/-- The next free cell is written. -/
theorem push (h : Holds R vs cells kept) (hlt : vs.card < R) (n : ℚ) :
    Holds R (n ::ₘ vs) (cells.set vs.card (some n)) (kept ++ [n]) := by
  have hlen : kept.length = vs.card := h.length_eq.trans (Nat.min_eq_left hlt.le)
  refine ⟨?_, ?_, ?_⟩
  · have hrest : R - kept.length = R - (kept ++ [n]).length + 1 := by
      rw [List.length_append, List.length_singleton]
      omega
    rw [h.cells_eq, ← hlen, List.set_append_right _ _ (by rw [List.length_map]), List.length_map,
      Nat.sub_self, hrest, List.replicate_succ, List.set_cons_zero, List.map_append, List.map_singleton,
      List.append_assoc]
    rfl
  · rw [List.length_append, hlen, Multiset.card_cons, List.length_singleton]
    omega
  · rw [← Multiset.coe_add, Multiset.coe_singleton, ← Multiset.singleton_add, add_comm]
    exact add_le_add_right h.le _

/-- A cell of a full reservoir is written again. -/
theorem replace (h : Holds R vs cells kept) (hfull : R ≤ vs.card) {i : ℕ} (hi : i < R) (n : ℚ) :
    Holds R (n ::ₘ vs) (cells.set i (some n)) (kept.set i n) := by
  have hlen : kept.length = R := h.length_eq.trans (Nat.min_eq_right hfull)
  refine ⟨?_, ?_, ?_⟩
  · rw [h.cells_eq, List.set_append_left _ _ (by rw [List.length_map]; omega), List.length_set, List.map_set]
  · rw [List.length_set, hlen, Multiset.card_cons]
    omega
  · have hperm : (kept.set i n).Perm (n :: kept.eraseIdx i) := List.set_perm_cons_eraseIdx (hlen ▸ hi) n
    rw [Multiset.coe_eq_coe.2 hperm, ← Multiset.cons_coe]
    exact Multiset.cons_le_cons n ((Multiset.coe_le.2 (List.eraseIdx_sublist kept i).subperm).trans h.le)

/-- No cell is written. -/
theorem keep (h : Holds R vs cells kept) (hfull : R ≤ vs.card) (n : ℚ) :
    Holds R (n ::ₘ vs) cells kept := by
  refine ⟨h.cells_eq, ?_, h.le.trans (Multiset.le_cons_self vs n)⟩
  rw [h.length_eq, Multiset.card_cons]
  omega

/-- The values are permuted. -/
theorem perm {kept' : List ℚ} (h : Holds R vs cells kept) (hperm : kept'.Perm kept) :
    Holds R vs (kept'.map some ++ cells.drop kept.length) kept' := by
  have hdrop : cells.drop kept.length = List.replicate (R - kept.length) none := by
    rw [h.cells_eq, ← List.length_map (f := some), List.drop_left, List.length_map]
  exact ⟨by rw [hdrop, hperm.length_eq], hperm.length_eq.trans h.length_eq,
    (Multiset.coe_eq_coe.2 hperm).trans_le h.le⟩

end Holds

/-! ## Samples are added -/

/-- The counter has the statistics of the samples `vs`, and its reservoir holds the values `kept`. -/
structure Summarises (R : ℕ) (vs : Multiset ℚ) (kept : List ℚ) (c : SmartCounter) : Prop where
  samples_eq : c.samples = vs.card
  mean_eq : c.mean = Moments.mean vs
  variance_eq : c.variance = Moments.squares vs
  isLeast : vs ≠ 0 → IsLeast {v | v ∈ vs} c.min
  isGreatest : vs ≠ 0 → IsGreatest {v | v ∈ vs} c.max
  holds : Holds R vs c.reservoir kept
  sorted : c.sorted = true → kept.Pairwise (· ≤ ·)

variable {c : SmartCounter}

/-- A new counter has no samples. -/
theorem summarises_scInit : Summarises R 0 [] (scInit R) where
  samples_eq := rfl
  mean_eq := Moments.mean_zero.symm
  variance_eq := rfl
  isLeast h := (h rfl).elim
  isGreatest h := (h rfl).elim
  holds := .empty
  sorted _ := .nil

section
variable (n c)

/-- An update leaves the number of samples alone. -/
theorem scUpdate_samples : (scUpdate n c).samples = c.samples := by
  rw [scUpdate]
  split_ifs <;> rfl

/-- An update moves the mean. -/
theorem scUpdate_mean : (scUpdate n c).mean = c.mean + (n - c.mean) / (c.samples + 1) := by
  rw [scUpdate]
  split_ifs <;> rfl

/-- An update adds to the sum of squares. -/
theorem scUpdate_variance :
    (scUpdate n c).variance = c.variance + (n - c.mean) * (n - (scUpdate n c).mean) := by
  rw [scUpdate_mean, scUpdate]
  split_ifs <;> rfl

/-- An update leaves the reservoir alone. -/
theorem scUpdate_reservoir : (scUpdate n c).reservoir = c.reservoir := by
  rw [scUpdate]
  split_ifs <;> rfl

/-- An update moves the minimum. -/
theorem scUpdate_min : (scUpdate n c).min = if c.samples = 0 then n else min n c.min := by
  rw [scUpdate]
  split_ifs with hzero hmin hmax
  · rfl
  · exact (min_eq_left hmin.le).symm
  · exact (min_eq_right (not_lt.1 hmin)).symm
  · exact (min_eq_right (not_lt.1 hmin)).symm

/-- A sample below the minimum is not above the maximum. -/
theorem scUpdate_max (h : c.samples ≠ 0 → c.min ≤ c.max) :
    (scUpdate n c).max = if c.samples = 0 then n else max n c.max := by
  rw [scUpdate]
  split_ifs with hzero hmin hmax
  · rfl
  · exact (max_eq_right (hmin.le.trans (h hzero))).symm
  · exact (max_eq_left hmax.le).symm
  · exact (max_eq_right (not_lt.1 hmax)).symm

end

/-- The minimum with one sample more. -/
theorem isLeast_cons {m : ℚ} (h : IsLeast {v | v ∈ vs} m) : IsLeast {v | v ∈ n ::ₘ vs} (min n m) := by
  have hset : {v | v ∈ n ::ₘ vs} = {v | v ∈ vs} ∪ {n} :=
    Set.ext fun v => (Multiset.mem_cons.trans or_comm)
  rw [hset, min_comm]
  exact h.union isLeast_singleton

/-- The maximum with one sample more. -/
theorem isGreatest_cons {m : ℚ} (h : IsGreatest {v | v ∈ vs} m) :
    IsGreatest {v | v ∈ n ::ₘ vs} (max n m) := by
  have hset : {v | v ∈ n ::ₘ vs} = {v | v ∈ vs} ∪ {n} :=
    Set.ext fun v => (Multiset.mem_cons.trans or_comm)
  rw [hset, max_comm]
  exact h.union isGreatest_singleton

namespace Summarises

/-- There are no samples exactly if none has been added. -/
theorem samples_eq_zero (h : Summarises R vs kept c) : c.samples = 0 ↔ vs = 0 := by
  rw [h.samples_eq, Multiset.card_eq_zero]

/-- The minimum is not greater than the maximum. -/
theorem min_le_max (h : Summarises R vs kept c) (hne : vs ≠ 0) : c.min ≤ c.max :=
  (h.isGreatest hne).2 (h.isLeast hne).1

/-- The statistics after another sample, with the reservoir of any counter that holds it too. -/
theorem cons (h : Summarises R vs kept c) {d : SmartCounter} {kept' : List ℚ} (n : ℚ)
    (hd : d = { scUpdate n c with
      samples := c.samples + 1, reservoir := d.reservoir, sorted := false })
    (hr : Holds R (n ::ₘ vs) d.reservoir kept') : Summarises R (n ::ₘ vs) kept' d := by
  have hmean : (scUpdate n c).mean = Moments.mean (n ::ₘ vs) := by
    rw [scUpdate_mean, Moments.mean_cons, h.mean_eq, h.samples_eq]
  have hbounds : c.samples ≠ 0 → c.min ≤ c.max := fun hne => h.min_le_max (mt h.samples_eq_zero.2 hne)
  rw [hd]
  refine ⟨?_, hmean, ?_, fun _ => ?_, fun _ => ?_, hr, nofun⟩
  · rw [Multiset.card_cons, h.samples_eq]
  · dsimp only
    rw [Moments.squares_cons, scUpdate_variance, hmean, h.variance_eq, h.mean_eq]
  · dsimp only
    rw [scUpdate_min]
    split_ifs with hzero
    · rw [h.samples_eq_zero.1 hzero]
      exact ⟨Multiset.mem_cons_self n 0, fun v hv => (Multiset.mem_singleton.1 hv).ge⟩
    · exact isLeast_cons (h.isLeast (mt h.samples_eq_zero.2 hzero))
  · dsimp only
    rw [scUpdate_max n c hbounds]
    split_ifs with hzero
    · rw [h.samples_eq_zero.1 hzero]
      exact ⟨Multiset.mem_cons_self n 0, fun v hv => (Multiset.mem_singleton.1 hv).le⟩
    · exact isGreatest_cons (h.isGreatest (mt h.samples_eq_zero.2 hzero))

end Summarises

/-- A cell of the reservoir is set. -/
theorem setReservoir_eq {i : ℕ} (hi : i < c.reservoir.length) :
    setReservoir i n c = some { c with reservoir := c.reservoir.set i (some n) } :=
  if_pos hi

section
variable {Seed : Type} (rand : Rand Seed) (seed : Seed)

/-- The second half of `sc_add_sample` divides by zero, or leaves a reservoir that holds the new samples. -/
theorem scReservoir_cases (h : Holds R vs c.reservoir kept) (hs : c.samples = vs.card) (n : ℚ) :
    R = 0 ∧ scReservoir rand R n seed c = none ∨
      ∃ seed' cells kept', scReservoir rand R n seed c =
        some (seed', { c with reservoir := cells, sorted := false }) ∧ Holds R (n ::ₘ vs) cells kept' := by
  rw [scReservoir]
  by_cases hroom : c.samples < R
  · refine .inr ⟨seed, _, _, ?_, h.push (hs ▸ hroom) n⟩
    rw [if_pos hroom, setReservoir_eq (by rwa [h.length_cells]), hs]
    rfl
  · have hfull : R ≤ vs.card := hs ▸ not_lt.1 hroom
    rw [if_neg hroom]
    dsimp only
    by_cases hkeep : (rand.erand48 seed).1 ≤ R / (c.samples + 1 : ℚ)
    · rw [if_pos hkeep]
      by_cases hzero : R = 0
      · exact .inl ⟨hzero, if_pos hzero⟩
      · have hlt := Nat.mod_lt (rand.nrand48 (rand.erand48 seed).2).1 (Nat.pos_of_ne_zero hzero)
        refine .inr ⟨(rand.nrand48 (rand.erand48 seed).2).2, _, _, ?_, h.replace hfull hlt n⟩
        rw [if_neg hzero, setReservoir_eq (by rwa [h.length_cells])]
        rfl
    · exact .inr ⟨(rand.erand48 seed).2, c.reservoir, kept, if_neg hkeep, h.keep hfull n⟩

/-- `sc_add_sample` divides by zero, or leaves a counter with the statistics of the new samples. -/
theorem Summarises.scAddSample_cases (h : Summarises R vs kept c) (n : ℚ) :
    R = 0 ∧ scAddSample rand R n seed c = none ∨
      ∃ seed' d kept', scAddSample rand R n seed c = some (seed', d) ∧
        Summarises R (n ::ₘ vs) kept' d := by
  have hcells : Holds R vs (scUpdate n c).reservoir kept := by
    rw [scUpdate_reservoir]
    exact h.holds
  rcases scReservoir_cases rand seed hcells ((scUpdate_samples n c).trans h.samples_eq) n with
    ⟨hzero, hnone⟩ | ⟨seed', cells, kept', hsome, hholds⟩
  · refine .inl ⟨hzero, ?_⟩
    rw [scAddSample, hnone]
    rfl
  · refine .inr ⟨seed', { scUpdate n c with
      samples := c.samples + 1, reservoir := cells, sorted := false }, kept', ?_, h.cons n rfl hholds⟩
    rw [scAddSample, hsome, ← scUpdate_samples n c]
    rfl

end

/-! ## Percentiles -/

/-- The values in ascending order. -/
def ascending (kept : List ℚ) : List ℚ := kept.insertionSort (· ≤ ·)

/-- The samples are in order. -/
theorem pairwise_ascending (kept : List ℚ) : (ascending kept).Pairwise (· ≤ ·) :=
  List.pairwise_insertionSort _ _

/-- Sorting neither adds nor drops samples. -/
theorem ascending_perm (kept : List ℚ) : (ascending kept).Perm kept := List.perm_insertionSort _ _

/-- Sorting keeps the number of samples. -/
theorem length_ascending (kept : List ℚ) : (ascending kept).length = kept.length :=
  (ascending_perm kept).length_eq

/-- Sorted samples do not depend on their order before. -/
theorem ascending_eq_of_perm {kept' : List ℚ} (h : kept'.Perm kept) : ascending kept' = ascending kept :=
  ((ascending_perm kept').trans (h.trans (ascending_perm kept).symm)).eq_of_pairwise'
    (pairwise_ascending kept') (pairwise_ascending kept)

/-- The value that `sc_percentile` returns for index `i`. -/
def rank (c : SmartCounter) (kept : List ℚ) (length i : ℤ) : ℚ :=
  if i ≤ 0 then c.min else if i ≥ length then c.max else (ascending kept).getD i.toNat 0

/-- `d` differs from `c` in the order of its reservoir. -/
structure Reordered (c : SmartCounter) (kept : List ℚ) (d : SmartCounter) (kept' : List ℚ) : Prop where
  perm : kept'.Perm kept
  rest : d = { c with reservoir := d.reservoir, sorted := d.sorted }
  sorted : c.sorted = true → d.sorted = true

/-- A counter that has not been changed. -/
theorem Reordered.refl (c : SmartCounter) (kept : List ℚ) : Reordered c kept c kept :=
  ⟨.refl _, rfl, id⟩

/-- Two changes of the order. -/
theorem Reordered.trans {d e : SmartCounter} {kept' kept'' : List ℚ} (h : Reordered c kept d kept')
    (h' : Reordered d kept' e kept'') : Reordered c kept e kept'' :=
  ⟨h'.perm.trans h.perm, h'.rest.trans (by rw [h.rest]), h'.sorted ∘ h.sorted⟩

/-- A rank does not depend on the order of the cells. -/
theorem Reordered.rank_eq {d : SmartCounter} {kept' : List ℚ} (h : Reordered c kept d kept') (length i : ℤ) :
    rank d kept' length i = rank c kept length i := by
  rw [rank, ascending_eq_of_perm h.perm, h.rest]
  rfl

/-- A value of type `unsigned int` is kept, or becomes negative. -/
theorem toInt_natCast {m : ℕ} (hm : m < 2 ^ 32) : toInt m = m ∨ toInt m < 0 := by
  by_cases hlt : m < 2 ^ 31
  · exact .inl (toInt_eq (by omega) (by omega))
  · right
    rw [toInt, Int.bmod]
    omega

namespace Summarises

/-- The number of samples that are kept. -/
theorem length_eq (h : Summarises R vs kept c) :
    (if c.samples < R then (c.samples : ℤ) else R) = kept.length := by
  rw [h.holds.length_eq, h.samples_eq]
  split_ifs <;> omega

/-- The first cells are sorted. -/
theorem sortReservoir_eq (h : Summarises R vs kept c) :
    sortReservoir kept.length c =
      some { c with reservoir := (ascending kept).map some ++ c.reservoir.drop kept.length } := by
  have hcells : (c.reservoir.take kept.length).mapM id = some kept := by
    rw [h.holds.take_length, List.mapM_map]
    exact List.mapM_pure.trans (congrArg some (List.map_id kept))
  rw [sortReservoir, if_neg (by rw [h.holds.length_cells]; exact h.holds.length_le.not_gt), hcells]
  rfl

/-- `sc_percentile` stays inside of the array; it sorts the reservoir if it looks into it. -/
theorem scPercentile_eq (hR : R < 2 ^ 32) (h : Summarises R vs kept c) (percentile : ℤ) :
    ∃ d kept', scPercentile R percentile c =
        some (rank c kept (toInt kept.length) (scIndex (toInt kept.length) percentile), d) ∧
      Summarises R vs kept' d ∧ Reordered c kept d kept' ∧
      (0 < scIndex (toInt kept.length) percentile →
        scIndex (toInt kept.length) percentile < toInt kept.length → d.sorted = true) := by
  rw [scPercentile, h.length_eq]
  dsimp only
  rw [rank]
  generalize scIndex (toInt kept.length) percentile = i
  by_cases hlo : i ≤ 0
  · rw [if_pos hlo, if_pos hlo]
    exact ⟨c, kept, rfl, h, .refl c kept, fun hpos => (hlo.not_gt hpos).elim⟩
  rw [if_neg hlo, if_neg hlo]
  by_cases hhi : i ≥ toInt kept.length
  · rw [if_pos hhi, if_pos hhi]
    exact ⟨c, kept, rfl, h, .refl c kept, fun _ hlt => (hlt.not_ge hhi).elim⟩
  rw [if_neg hhi, if_neg hhi]
  have hlength : toInt kept.length = kept.length :=
    (toInt_natCast (h.holds.length_le.trans_lt hR)).resolve_right (by omega)
  have hi : i.toNat < kept.length := by omega
  cases hsorted : c.sorted with
  | true =>
    have hkept : ascending kept = kept := (h.sorted hsorted).insertionSort_eq
    refine ⟨c, kept, ?_, h, .refl c kept, fun _ _ => hsorted⟩
    rw [hkept, if_pos rfl, Option.bind_eq_bind, Option.bind_some, h.holds.join_getElem? hi]
    rfl
  | false =>
    have hholds := h.holds.perm (ascending_perm kept)
    refine ⟨{ c with
        reservoir := (ascending kept).map some ++ c.reservoir.drop kept.length, sorted := true },
      ascending kept, ?_, { h with holds := hholds, sorted := fun _ => pairwise_ascending kept },
      ⟨ascending_perm kept, rfl, fun _ => rfl⟩, fun _ _ => rfl⟩
    rw [if_neg Bool.false_ne_true, hlength, Int.toNat_natCast, h.sortReservoir_eq, Option.bind_eq_bind,
      Option.map_some, Option.bind_some, hholds.join_getElem? (by rwa [length_ascending])]
    rfl

/-- `stm_get_ab_stats` stays inside of the array. -/
theorem scGetStats_eq (hR : R < 2 ^ 32) (h : Summarises R vs kept c) :
    ∃ d kept', scGetStats R c = some
        ({ samples := c.samples, mean := c.mean, variance := scVariance c, min := c.min, max := c.max
           percentile50 := rank c kept (toInt kept.length) (scIndex (toInt kept.length) 50)
           percentile90 := rank c kept (toInt kept.length) (scIndex (toInt kept.length) 90)
           percentile95 := rank c kept (toInt kept.length) (scIndex (toInt kept.length) 95)
           reservoir := d.reservoir, reservoirSize := kept.length }, d) ∧
      Summarises R vs kept' d ∧ Reordered c kept d kept' ∧
      (0 < scIndex (toInt kept.length) 50 →
        scIndex (toInt kept.length) 50 < toInt kept.length → d.sorted = true) := by
  obtain ⟨c₁, k₁, heq₁, h₁, hr₁, hsort⟩ := h.scPercentile_eq hR 50
  obtain ⟨c₂, k₂, heq₂, h₂, hr₂, -⟩ := h₁.scPercentile_eq hR 90
  obtain ⟨c₃, k₃, heq₃, h₃, hr₃, -⟩ := h₂.scPercentile_eq hR 95
  have hr₀₂ := hr₁.trans hr₂
  have hr := hr₀₂.trans hr₃
  have hsize : (if c₃.samples < R then c₃.samples else R) = kept.length := by
    rw [h.holds.length_eq, h₃.samples_eq]
    split_ifs <;> omega
  rw [hr₁.rank_eq, hr₁.perm.length_eq] at heq₂
  rw [hr₀₂.rank_eq, hr₀₂.perm.length_eq] at heq₃
  refine ⟨c₃, k₃, ?_, h₃, hr, fun hpos hlt => (hr₂.trans hr₃).sorted (hsort hpos hlt)⟩
  rw [scGetStats, heq₁, Option.bind_eq_bind, Option.bind_some]
  dsimp only
  rw [heq₂, Option.bind_some]
  dsimp only
  rw [heq₃, Option.bind_some]
  refine congrArg (fun st => some (st, c₃)) ?_
  rw [hsize, hr.rest]
  rfl

/-- The values of the reservoir lie between the minimum and the maximum. -/
theorem mem_ascending (h : Summarises R vs kept c) {v : ℚ} (hv : v ∈ ascending kept) :
    c.min ≤ v ∧ v ≤ c.max := by
  have hmem : v ∈ vs := Multiset.mem_of_le h.holds.le ((ascending_perm kept).mem_iff.1 hv)
  have hne : vs ≠ 0 := fun hzero => Multiset.notMem_zero v (hzero ▸ hmem)
  exact ⟨(h.isLeast hne).2 hmem, (h.isGreatest hne).2 hmem⟩

/-- A rank is between the minimum and the maximum. -/
theorem rank_bounds (h : Summarises R vs kept c) (hne : vs ≠ 0) (i : ℤ) :
    c.min ≤ rank c kept kept.length i ∧ rank c kept kept.length i ≤ c.max := by
  have hle := h.min_le_max hne
  rw [rank]
  split_ifs with hlo hhi
  · exact ⟨le_rfl, hle⟩
  · exact ⟨hle, le_rfl⟩
  · have hi : i.toNat < (ascending kept).length := by
      rw [length_ascending]
      omega
    rw [List.getD_eq_getElem?_getD, List.getElem?_eq_getElem hi]
    exact h.mem_ascending (List.getElem_mem hi)

/-- A higher rank is not smaller. -/
theorem rank_mono (h : Summarises R vs kept c) (hne : vs ≠ 0) {i j : ℤ} (hij : i ≤ j) :
    rank c kept kept.length i ≤ rank c kept kept.length j := by
  by_cases hlo : i ≤ 0
  · rw [rank, if_pos hlo]
    exact (h.rank_bounds hne j).1
  by_cases hhi : j ≥ kept.length
  · have hmax : rank c kept kept.length j = c.max := by rw [rank, if_neg (by omega), if_pos hhi]
    rw [hmax]
    exact (h.rank_bounds hne i).2
  · have hi : i.toNat < (ascending kept).length := by
      rw [length_ascending]
      omega
    have hj : j.toNat < (ascending kept).length := by
      rw [length_ascending]
      omega
    rw [rank, rank, if_neg hlo, if_neg (by omega), if_neg (by omega), if_neg hhi,
      List.getD_eq_getElem?_getD, List.getElem?_eq_getElem hi, List.getD_eq_getElem?_getD,
      List.getElem?_eq_getElem hj]
    rcases hij.eq_or_lt with rfl | hlt
    · exact le_rfl
    · exact List.pairwise_iff_getElem.1 (pairwise_ascending kept) _ _ hi hj (by omega)

end Summarises

/-- Always the same outcomes. -/
def Rand.const (r : ℚ) (k : ℕ) : Rand Unit := ⟨fun _ => (r, ()), fun _ => (k, ())⟩

end TinyStm.AtomicBlocks
