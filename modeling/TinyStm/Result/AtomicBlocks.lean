import TinyStm.Result.Counters

/-!
# The statistics of the atomic blocks

The counter of an atomic block has the statistics of the samples recorded for it that are no longer
in the buffer of a thread, whatever the order in which the buffers were merged. The buffers are
merged when they are full, when a thread exits and when a query asks; the answer is a function of
the multiset of the samples, since mean, variance and extrema do not depend on the order of the
samples.
-/

namespace TinyStm.AtomicBlocks

/-! ## Buckets -/

/-- The counter that a search for `id` finds in a bucket. -/
def findStats (id : ℤ) (abs : List AbStats) : Option SmartCounter :=
  (abs.find? (·.id = id)).map (·.stats)

section
variable {α : Type} {id : ℤ} {f : SmartCounter → Option (α × SmartCounter)} {abs : List AbStats}
  {c d : SmartCounter} {a : α}

/-- The statistics of the first block. -/
theorem findStats_cons_self (ab : AbStats) (rest : List AbStats) :
    findStats ab.id (ab :: rest) = some ab.stats := by
  rw [findStats, List.find?_cons_of_pos (by simp)]
  rfl

/-- The statistics of another block. -/
theorem findStats_cons_of_ne (ab : AbStats) (h : ab.id ≠ id) (rest : List AbStats) :
    findStats id (ab :: rest) = findStats id rest := by
  rw [findStats, List.find?_cons_of_neg (by simpa using h)]
  rfl

/-- There are no statistics of a block that is not in the list. -/
theorem findStats_eq_none : findStats id abs = none ↔ abs.any (·.id = id) = false := by
  rw [findStats, Option.map_eq_none_iff, List.find?_eq_none, List.any_eq_false]

/-- Nothing is done for a block that is not in the list. -/
theorem onEntry_of_none (h : findStats id abs = none) : onEntry id f abs = some (none, abs) := by
  induction abs with
  | nil => rfl
  | cons ab rest ih =>
    by_cases hid : ab.id = id
    · subst hid
      rw [findStats_cons_self] at h
      cases h
    · rw [findStats_cons_of_ne ab hid] at h
      rw [onEntry, if_neg hid, ih h]
      rfl

/-- What is done for a block fails. -/
theorem onEntry_of_fails (h : findStats id abs = some c) (hf : f c = none) : onEntry id f abs = none := by
  induction abs with
  | nil => cases h
  | cons ab rest ih =>
    by_cases hid : ab.id = id
    · subst hid
      rw [findStats_cons_self] at h
      cases h
      rw [onEntry, if_pos rfl, hf]
      rfl
    · rw [findStats_cons_of_ne ab hid] at h
      rw [onEntry, if_neg hid, ih h]
      rfl

/-- The other entries are left alone. -/
theorem onEntry_of_some (h : findStats id abs = some c) (hf : f c = some (a, d)) :
    ∃ abs', onEntry id f abs = some (some a, abs') ∧ findStats id abs' = some d ∧
      ∀ y, y ≠ id → findStats y abs' = findStats y abs := by
  induction abs with
  | nil => cases h
  | cons ab rest ih =>
    by_cases hid : ab.id = id
    · subst hid
      rw [findStats_cons_self] at h
      cases h
      refine ⟨⟨ab.id, d⟩ :: rest, ?_, findStats_cons_self ⟨ab.id, d⟩ rest, fun y hy => ?_⟩
      · rw [onEntry, if_pos rfl, hf]
        rfl
      · exact (findStats_cons_of_ne ⟨ab.id, d⟩ hy.symm rest).trans (findStats_cons_of_ne ab hy.symm rest).symm
    · rw [findStats_cons_of_ne ab hid] at h
      obtain ⟨abs', heq, hfind, hother⟩ := ih h
      refine ⟨ab :: abs', ?_, by rw [findStats_cons_of_ne ab hid, hfind], fun y hy => ?_⟩
      · rw [onEntry, if_neg hid, heq]
        rfl
      · by_cases hyab : ab.id = y
        · subst hyab
          rw [findStats_cons_self, findStats_cons_self]
        · rw [findStats_cons_of_ne ab hyab, findStats_cons_of_ne ab hyab, hother y hy]

end

/-! ## Merging samples -/

/-- The samples recorded with `id`. -/
def valuesOf (id : ℤ) (samples : Multiset (ℤ × ℕ)) : Multiset ℚ :=
  (samples.filter (·.1 = id)).map fun sample => (sample.2 : ℚ)

/-- A sample of the block. -/
theorem valuesOf_cons_self (id : ℤ) (length : ℕ) (samples : Multiset (ℤ × ℕ)) :
    valuesOf id ((id, length) ::ₘ samples) = (length : ℚ) ::ₘ valuesOf id samples := by
  rw [valuesOf, Multiset.filter_cons_of_pos (p := fun s : ℤ × ℕ => s.1 = id) _ rfl, Multiset.map_cons]
  rfl

/-- A sample of another block. -/
theorem valuesOf_cons_of_ne {id y : ℤ} (h : id ≠ y) (length : ℕ) (samples : Multiset (ℤ × ℕ)) :
    valuesOf y ((id, length) ::ₘ samples) = valuesOf y samples := by
  rw [valuesOf, Multiset.filter_cons_of_neg (p := fun s : ℤ × ℕ => s.1 = y) _ h]
  rfl

/-- The entry of each atomic block has the statistics of the samples merged for it; there is none if there are
no samples. -/
def Sound (R : ℕ) (abList : Fin nbAtomicBlocks → List AbStats) (merged : Multiset (ℤ × ℕ)) : Prop :=
  ∀ id, findStats id (abList (bucketOf id)) = none ∧ valuesOf id merged = 0 ∨
    ∃ c kept, findStats id (abList (bucketOf id)) = some c ∧ valuesOf id merged ≠ 0 ∧
      Summarises R (valuesOf id merged) kept c

variable {Seed : Type} {cfg : AbConfig Seed} {abList : Fin nbAtomicBlocks → List AbStats}
  {merged : Multiset (ℤ × ℕ)}

/-- The counter of `id` is replaced, and with it the samples merged for `id`. -/
theorem Sound.update {R : ℕ} (h : Sound R abList merged) {id : ℤ} {abs : List AbStats}
    {merged' : Multiset (ℤ × ℕ)} {c : SmartCounter} {kept : List ℚ}
    (hself : findStats id abs = some c) (hother : ∀ y, y ≠ id →
      findStats y abs = findStats y (abList (bucketOf id)))
    (hne : valuesOf id merged' ≠ 0) (hc : Summarises R (valuesOf id merged') kept c)
    (hvalues : ∀ y, y ≠ id → valuesOf y merged' = valuesOf y merged) :
    Sound R (Function.update abList (bucketOf id) abs) merged' := by
  intro y
  by_cases hy : y = id
  · subst hy
    rw [Function.update_self]
    exact .inr ⟨c, kept, hself, hne, hc⟩
  · have hfind : findStats y (Function.update abList (bucketOf id) abs (bucketOf y)) =
        findStats y (abList (bucketOf y)) := by
      by_cases hb : bucketOf y = bucketOf id
      · rw [hb, Function.update_self, hother y hy]
      · rw [Function.update_of_ne hb]
    rw [hfind, hvalues y hy]
    exact h y

/-- The counter of the entry for a sample. -/
theorem Sound.withEntry {R : ℕ} (h : Sound R abList merged) (id : ℤ) :
    ∃ c kept, findStats id (withEntry R id (abList (bucketOf id))) = some c ∧
      Summarises R (valuesOf id merged) kept c ∧
      ∀ y, y ≠ id → findStats y (withEntry R id (abList (bucketOf id))) =
        findStats y (abList (bucketOf id)) := by
  rw [AtomicBlocks.withEntry]
  rcases h id with ⟨hnone, hzero⟩ | ⟨c, kept, hsome, -, hc⟩
  · rw [findStats_eq_none.1 hnone, hzero, if_neg Bool.false_ne_true]
    exact ⟨scInit R, [], findStats_cons_self ⟨id, scInit R⟩ _, summarises_scInit,
      fun y hy => findStats_cons_of_ne ⟨id, scInit R⟩ hy.symm _⟩
  · have hany : (abList (bucketOf id)).any (·.id = id) = true := by
      rw [← Bool.not_eq_false, ← findStats_eq_none, hsome]
      nofun
    rw [hany, if_pos rfl]
    exact ⟨c, kept, hsome, hc, fun _ _ => rfl⟩

/-- One sample. -/
theorem Sound.addSample (h : Sound cfg.reservoirSize abList merged) (seed : Seed) (sample : ℤ × ℕ) :
    cfg.reservoirSize = 0 ∧ addSample cfg (abList, seed) sample = none ∨
      ∃ abList' seed', addSample cfg (abList, seed) sample = some (abList', seed') ∧
        Sound cfg.reservoirSize abList' (sample ::ₘ merged) := by
  obtain ⟨id, length⟩ := sample
  obtain ⟨c, kept, hself, hc, hother⟩ := h.withEntry id
  have heq : AtomicBlocks.addSample cfg (abList, seed) (id, length) =
      (onEntry id (scAddSample cfg.rand cfg.reservoirSize length seed)
        (AtomicBlocks.withEntry cfg.reservoirSize id (abList (bucketOf id)))).bind fun r =>
          r.1.map fun seed => (Function.update abList (bucketOf id) r.2, seed) := by
    rw [AtomicBlocks.addSample]
    dsimp only
    generalize onEntry id _ _ = r
    rcases r with _ | ⟨_ | seed, abs⟩ <;> rfl
  rw [heq]
  rcases hc.scAddSample_cases cfg.rand seed length with ⟨hzero, hnone⟩ | ⟨seed', d, kept', hsome, hd⟩
  · exact .inl ⟨hzero, by rw [onEntry_of_fails hself hnone]; rfl⟩
  · obtain ⟨abs', hentry, hself', hother'⟩ := onEntry_of_some hself hsome
    rw [hentry]
    have hvalues := valuesOf_cons_self id length merged
    refine .inr ⟨_, seed', rfl, h.update hself' (fun y hy => (hother' y hy).trans (hother y hy)) ?_
      (hvalues ▸ hd) fun y hy => valuesOf_cons_of_ne hy.symm length merged⟩
    rw [hvalues]
    exact Multiset.cons_ne_zero

/-- All samples of a buffer. -/
theorem Sound.addSamples (h : Sound cfg.reservoirSize abList merged) (seed : Seed)
    (samples : List (ℤ × ℕ)) :
    cfg.reservoirSize = 0 ∧ samples.foldlM (AtomicBlocks.addSample cfg) (abList, seed) = none ∨
      ∃ abList' seed',
        samples.foldlM (AtomicBlocks.addSample cfg) (abList, seed) = some (abList', seed') ∧
        Sound cfg.reservoirSize abList' (samples + merged) := by
  induction samples generalizing abList merged seed with
  | nil => exact .inr ⟨abList, seed, rfl, by rwa [Multiset.coe_nil, zero_add]⟩
  | cons sample samples ih =>
    rw [List.foldlM_cons]
    rcases h.addSample seed sample with ⟨hzero, hnone⟩ | ⟨abList₁, seed₁, hsome, h₁⟩
    · exact .inl ⟨hzero, by rw [hnone]; rfl⟩
    · have hsum : ((sample :: samples : List (ℤ × ℕ)) : Multiset (ℤ × ℕ)) + merged =
          samples + sample ::ₘ merged := by
        rw [← Multiset.cons_coe, Multiset.cons_add, Multiset.add_cons]
      rw [hsome, hsum]
      exact ih h₁ seed₁

/-! ## Queries -/

/-- The count, the mean, the unbiased variance, the minimum and the maximum of `vs`. -/
structure Describes (vs : Multiset ℚ) (st : StmAbStats) : Prop where
  samples_eq : st.samples = vs.card
  mean_eq : st.mean = vs.sum / vs.card
  variance_eq : st.variance = if vs.card ≤ 1 then 0
    else (vs.map fun v => ((v - vs.sum / vs.card) ^ 2 : ℚ)).sum / (vs.card - 1)
  isLeast : IsLeast {v | v ∈ vs} st.min
  isGreatest : IsGreatest {v | v ∈ vs} st.max

/-- There is an answer if there are samples. -/
def Answers (vs : Multiset ℚ) : Option StmAbStats → Prop
  | none => vs = 0
  | some st => vs ≠ 0 ∧ Describes vs st

/-- The variance that is answered. -/
theorem Summarises.scVariance_eq {R : ℕ} {vs : Multiset ℚ} {kept : List ℚ} {c : SmartCounter}
    (h : Summarises R vs kept c) :
    scVariance c = if vs.card ≤ 1 then 0 else Moments.squares vs / (vs.card - 1) := by
  rw [scVariance, h.samples_eq, h.variance_eq]
  split_ifs with hone
  · rfl
  · rw [Nat.cast_pred (by omega)]

variable {Tid : Type}

/-- The query reorders a reservoir at most. -/
theorem Sound.stmGetAbStats {s : AbState Tid Seed} (h : Sound cfg.reservoirSize s.abList merged) (id : ℤ) :
    ∃ res abList', stmGetAbStats cfg id s = some (res, { s with abList := abList' }) ∧
      Answers (valuesOf id merged) res ∧ Sound cfg.reservoirSize abList' merged := by
  rw [AtomicBlocks.stmGetAbStats]
  dsimp only
  rcases h id with ⟨hnone, hzero⟩ | ⟨c, kept, hsome, hne, hc⟩
  · rw [onEntry_of_none hnone]
    refine ⟨none, _, rfl, hzero, ?_⟩
    rwa [Function.update_eq_self]
  · obtain ⟨d, kept', hst, hd, -⟩ := hc.scGetStats_eq cfg.reservoirSize_lt
    obtain ⟨abs', hentry, hself, hother⟩ := onEntry_of_some hsome hst
    rw [hentry]
    exact ⟨_, _, rfl, ⟨hne, hc.samples_eq, hc.mean_eq, hc.scVariance_eq, hc.isLeast hne, hc.isGreatest hne⟩,
      h.update hself hother hne hd fun _ _ => rfl⟩

/-! ## Runs -/

/-- The samples merged into the entries and those in the buffers are all that have been recorded. -/
structure AbInv (cfg : AbConfig Seed) (merged : Multiset (ℤ × ℕ)) (s : AbState Tid Seed) : Prop where
  sound : Sound cfg.reservoirSize s.abList merged
  tally : Tally (fun m n : Multiset (ℤ × ℕ) => m + n) 0 s.recorded merged
    (fun p => (s.samples p).buffer) s.live

/-- The buffer of a live thread is not full. -/
def HasRoom (s : AbState Tid Seed) (p : Tid) : Prop :=
  p ∈ s.live → (s.samples p).buffer.length < bufferSize

variable {s : AbState Tid Seed}

/-- The invariant holds at first. -/
theorem abInv_init (samples : Tid → SamplesBuffer Seed) : AbInv cfg 0 (.init samples) where
  sound _ := .inl ⟨rfl, rfl⟩
  tally := ⟨zero_add _, rfl⟩

variable [DecidableEq Tid] {p : Tid}

/-- The samples of another thread are the same when those of `p` change. -/
theorem buffer_of_ne (b : SamplesBuffer Seed) (q : Tid) (hq : q ≠ p) :
    ((Function.update s.samples p b q).buffer : Multiset (ℤ × ℕ)) = (s.samples q).buffer := by
  rw [Function.update_of_ne hq]

/-- A change that keeps the buffers. -/
theorem AbInv.setSamples (h : AbInv cfg merged s) {b : SamplesBuffer Seed}
    (hb : b.buffer = (s.samples p).buffer) :
    AbInv cfg merged { s with samples := Function.update s.samples p b } := by
  refine ⟨h.sound, h.tally.congr fun q _ => ?_⟩
  by_cases hq : q = p
  · subst hq
    dsimp only
    rw [Function.update_self, hb]
  · exact buffer_of_ne b q hq

/-- `sc_add_samples` merges the buffer of the thread. -/
theorem AbInv.scAddSamples (h : AbInv cfg merged s) (hp : p ∈ s.live) :
    cfg.reservoirSize = 0 ∧ scAddSamples cfg p s = none ∨
      ∃ s' merged', scAddSamples cfg p s = some s' ∧ AbInv cfg merged' s' ∧ s'.live = s.live ∧
        (s'.samples p).buffer = [] ∧ ∀ q, q ≠ p → s'.samples q = s.samples q := by
  rw [AtomicBlocks.scAddSamples]
  dsimp only
  rcases h.sound.addSamples (s.samples p).seed (s.samples p).buffer with
    ⟨hzero, hnone⟩ | ⟨abList', seed', hsome, hsound⟩
  · exact .inl ⟨hzero, by rw [hnone]; rfl⟩
  · rw [hsome]
    refine .inr ⟨_, _, rfl, ⟨hsound, h.tally.merge hp (buffer_of_ne _) ?_⟩, rfl, ?_, fun q hq => ?_⟩
    · dsimp only
      rw [Function.update_self]
      rfl
    · dsimp only
      rw [Function.update_self]
    · exact Function.update_of_ne hq _ _

/-- A step of thread `p` from `s` divides by zero, or leads to a state in which the buffer of `p` has room. -/
def Keeps (cfg : AbConfig Seed) (p : Tid) (s : AbState Tid Seed) (r : Option (AbState Tid Seed)) : Prop :=
  cfg.reservoirSize = 0 ∧ r = none ∨
    ∃ s' merged, r = some s' ∧ AbInv cfg merged s' ∧ HasRoom s' p ∧ s'.live = s.live ∧
      ∀ q, q ≠ p → s'.samples q = s.samples q

/-- A sample is recorded. -/
theorem AbInv.record (h : AbInv cfg merged s) (hp : p ∈ s.live) (sample : ℤ × ℕ) :
    AbInv cfg merged { s with
      samples := Function.update s.samples p
        { s.samples p with buffer := (s.samples p).buffer ++ [sample] }
      recorded := sample ::ₘ s.recorded } := by
  have hbuffer : (((s.samples p).buffer ++ [sample] : List (ℤ × ℕ)) : Multiset (ℤ × ℕ)) =
      {sample} + ↑(s.samples p).buffer := by
    rw [← Multiset.coe_add, add_comm]
    rfl
  have hcount := h.tally.count hp (buffer_of_ne { s.samples p with
    buffer := (s.samples p).buffer ++ [sample] }) (by rw [Function.update_self]; exact hbuffer)
  rw [Multiset.singleton_add] at hcount
  exact ⟨h.sound, hcount⟩

/-- A sample goes to the buffer. -/
theorem AbInv.keepSample (h : AbInv cfg merged s) (hp : p ∈ s.live) (hroom : HasRoom s p) (id : ℤ)
    (length : ℕ) : Keeps cfg p s (keepSample cfg p id length s) := by
  have hrecord := h.record hp (id, length)
  rw [AtomicBlocks.keepSample]
  dsimp only
  rw [if_pos (hroom hp)]
  split_ifs with hfull
  · rcases hrecord.scAddSamples hp with hfails | ⟨s', merged', hsome, h', hlive, hempty, hother⟩
    · exact .inl hfails
    · refine .inr ⟨s', merged', hsome, h', fun _ => ?_, hlive, fun q hq => ?_⟩
      · rw [hempty]
        decide
      · exact (hother q hq).trans (Function.update_of_ne hq _ _)
  · refine .inr ⟨_, merged, rfl, hrecord, fun _ => ?_, rfl, fun q hq => Function.update_of_ne hq _ _⟩
    have hlt := hroom hp
    dsimp only
    rw [Function.update_self, List.length_append, List.length_singleton]
    omega

/-- `mod_ab_on_commit`. -/
theorem AbInv.modAbOnCommit (h : AbInv cfg merged s) (hp : p ∈ s.live) (hroom : HasRoom s p) (time : ℕ)
    (valid : Bool) (id : ℤ) : Keeps cfg p s (modAbOnCommit cfg p time valid id s) := by
  rw [AtomicBlocks.modAbOnCommit]
  split
  · dsimp only
    generalize (time + (2 ^ 64 - (s.samples p).start)) % 2 ^ 64 = length
    generalize hs₁ : { s with
      samples := Function.update s.samples p
        { s.samples p with total := ((s.samples p).total + 1) % 2 ^ 32 } } = s₁
    have h₁ : AbInv cfg merged s₁ := hs₁ ▸ h.setSamples rfl
    have hlive : s₁.live = s.live := by rw [← hs₁]
    have hother : ∀ q, q ≠ p → s₁.samples q = s.samples q := fun q hq => by
      rw [← hs₁]
      exact Function.update_of_ne hq _ _
    have hroom₁ : HasRoom s₁ p := by
      rw [HasRoom, ← hs₁]
      dsimp only
      rw [Function.update_self]
      exact hroom
    split
    · rcases h₁.keepSample (hlive ▸ hp) hroom₁ id length with hfails | ⟨s', merged', hsome, h', hr, hl, ho⟩
      · exact .inl hfails
      · exact .inr ⟨s', merged', hsome, h', hr, hl.trans hlive,
          fun q hq => (ho q hq).trans (hother q hq)⟩
    · exact .inr ⟨s₁, merged, rfl, h₁, hroom₁, hlive, hother⟩
  · exact .inr ⟨s, merged, rfl, h, hroom, rfl, fun _ _ => rfl⟩

omit [DecidableEq Tid] in
/-- The buffers of the other threads have room as before. -/
theorem HasRoom.of_same {s s' : AbState Tid Seed} {q : Tid} (h : HasRoom s q) (hlive : q ∈ s'.live → q ∈ s.live)
    (hsame : (s'.samples q).buffer = (s.samples q).buffer) : HasRoom s' q := by
  intro hq
  rw [hsame]
  exact h (hlive hq)

/-- Every call divides by zero, or keeps the invariant. -/
theorem AbInv.run (h : AbInv cfg merged s) (hroom : ∀ q, HasRoom s q) {k : AbCall Seed}
    (hk : k.Admitted p s) :
    cfg.reservoirSize = 0 ∧ k.run cfg p s = none ∨
      ∃ s' merged', k.run cfg p s = some s' ∧ AbInv cfg merged' s' ∧ ∀ q, HasRoom s' q := by
  have hstart : ∀ time, AbInv cfg merged (setStart p time s) ∧ ∀ q, HasRoom (setStart p time s) q := by
    refine fun time => ⟨h.setSamples rfl, fun q => (hroom q).of_same id ?_⟩
    by_cases hq : q = p
    · subst hq
      rw [setStart]
      dsimp only
      rw [Function.update_self]
    · rw [setStart]
      dsimp only
      rw [Function.update_of_ne hq]
  cases k with
  | threadInit seed start =>
    have hempty : ((modAbOnThreadInit p seed start s).samples p).buffer = [] := by
      rw [modAbOnThreadInit]
      dsimp only
      rw [Function.update_self]
    refine .inr ⟨_, merged, rfl, ⟨h.sound, h.tally.enter hk (buffer_of_ne _) ?_⟩, fun q => ?_⟩
    · rw [hempty]
      rfl
    · by_cases hq : q = p
      · subst hq
        intro _
        rw [hempty]
        decide
      · refine (hroom q).of_same (fun hmem => (Finset.mem_insert.1 hmem).resolve_left hq) ?_
        rw [modAbOnThreadInit]
        dsimp only
        rw [Function.update_of_ne hq]
  | start time => exact .inr ⟨_, merged, rfl, hstart time⟩
  | abort time => exact .inr ⟨_, merged, rfl, hstart time⟩
  | commit time valid id =>
    rcases h.modAbOnCommit hk (hroom p) time valid id with hfails | ⟨s', merged', hsome, h', hr, hl, ho⟩
    · exact .inl hfails
    · refine .inr ⟨s', merged', hsome, h', fun q => ?_⟩
      by_cases hq : q = p
      · exact hq ▸ hr
      · exact (hroom q).of_same (fun hmem => hl ▸ hmem) (congrArg _ (ho q hq))
  | threadExit =>
    rcases h.scAddSamples hk with ⟨hzero, hnone⟩ | ⟨s', merged', hsome, h', hl, hempty, ho⟩
    · exact .inl ⟨hzero, by rw [AbCall.run, modAbOnThreadExit, hnone]; rfl⟩
    · have hbuffer : ((s'.samples p).buffer : Multiset (ℤ × ℕ)) = 0 := by
        rw [hempty]
        rfl
      refine .inr ⟨{ s' with live := s'.live.erase p }, merged', ?_,
        ⟨h'.sound, h'.tally.leave (hl ▸ hk) hbuffer⟩, fun q hmem => ?_⟩
      · rw [AbCall.run, modAbOnThreadExit, hsome]
        rfl
      · have hq := Finset.ne_of_mem_erase hmem
        have hlive := Finset.mem_of_mem_erase hmem
        dsimp only
        rw [ho q hq]
        exact hroom q (hl ▸ hlive)
  | getAbStats id =>
    obtain ⟨res, abList', hsome, -, hsound⟩ := h.sound.stmGetAbStats id
    refine .inr ⟨{ s with abList := abList' }, merged, ?_, ⟨hsound, h.tally⟩, hroom⟩
    rw [AbCall.run, hsome]
    rfl

/-- The invariant holds in every run. -/
theorem AbRun.inv (h : AbRun cfg s) : ∃ merged, AbInv cfg merged s ∧ ∀ q, HasRoom s q := by
  induction h with
  | init samples => exact ⟨0, abInv_init samples, fun q hq => (Finset.notMem_empty q hq).elim⟩
  | call _ hk hrun ih =>
    obtain ⟨merged, hinv, hroom⟩ := ih
    rcases hinv.run hroom hk with ⟨-, hnone⟩ | ⟨s', merged', hsome, h', hroom'⟩
    · rw [hnone] at hrun
      cases hrun
    · rw [hsome] at hrun
      cases hrun
      exact ⟨merged', h', hroom'⟩

/-- The samples recorded are those in the buffers of the threads, and those that have been merged into the
entries. `stm_get_ab_stats` returns the statistics of the samples merged for the atomic block. -/
theorem ab_stats_of_samples (h : AbRun cfg s) :
    ∃ merged, s.recorded = merged + ∑ p ∈ s.live, ((s.samples p).buffer : Multiset (ℤ × ℕ)) ∧
      ∀ id, ∃ res s', stmGetAbStats cfg id s = some (res, s') ∧ Answers (valuesOf id merged) res := by
  obtain ⟨merged, hinv, -⟩ := h.inv
  refine ⟨merged, hinv.tally.eq_add_sum, fun id => ?_⟩
  obtain ⟨res, abList', hsome, hanswers, -⟩ := hinv.sound.stmGetAbStats id
  exact ⟨res, _, hsome, hanswers⟩

/-- The calls of threads one after the other, as long as they are admitted. -/
def abCalls (cfg : AbConfig Seed) (s : AbState Tid Seed) (calls : List (Tid × AbCall Seed)) :
    Option (AbState Tid Seed) :=
  calls.foldlM (fun s call => if call.2.Admitted call.1 s then call.2.run cfg call.1 s else none) s

/-- Calls continue a run. -/
theorem abRun_of_calls (h : AbRun cfg s) {calls : List (Tid × AbCall Seed)} {s' : AbState Tid Seed}
    (hs' : abCalls cfg s calls = some s') : AbRun cfg s' := by
  induction calls generalizing s with
  | nil =>
    cases hs'
    exact h
  | cons call calls ih =>
    rw [abCalls, List.foldlM_cons] at hs'
    obtain ⟨t, ht, hs'⟩ := Option.bind_eq_some_iff.1 hs'
    split_ifs at ht with hk
    exact ih (h.call hk ht) hs'

/-- All samples are kept, and the reservoirs have two cells. -/
def AbConfig.small : AbConfig Unit := ⟨.const 1 0, 2, by decide, 1⟩

/-- Two threads run atomic blocks 3 and 67, which are in one bucket, and exit. -/
def twoBlocks : List (Fin 2 × AbCall Unit) :=
  [(0, .threadInit () 0), (1, .threadInit () 0), (0, .start 10), (1, .start 20), (1, .commit 25 true 3),
    (0, .commit 19 true 3), (0, .start 30), (0, .commit 31 true 67), (1, .threadExit), (0, .threadExit)]

set_option maxRecDepth 10000 in
/-- The answer for two samples. -/
theorem ab_stats_of_samples_two : ∃ s res s',
    abCalls .small (.init fun _ => ⟨[], 0, 0, ()⟩) twoBlocks = some s ∧
      stmGetAbStats .small 3 s = some (res, s') ∧ Answers {5, 9} res := by
  have hlive : (abCalls .small (.init fun _ => ⟨[], 0, 0, ()⟩) twoBlocks).map (·.live) = some ∅ := by
    decide
  have hrecorded : (abCalls .small (.init fun _ => ⟨[], 0, 0, ()⟩) twoBlocks).map (·.recorded) =
      some {(3, 5), (3, 9), (67, 1)} := by
    decide
  obtain ⟨s, hs, hs_live⟩ := Option.map_eq_some_iff.1 hlive
  rw [hs, Option.map_some, Option.some_inj] at hrecorded
  obtain ⟨merged, hmerged, hanswers⟩ := ab_stats_of_samples (abRun_of_calls (.init _) hs)
  rw [hs_live, Finset.sum_empty, add_zero] at hmerged
  obtain ⟨res, s', hget, hres⟩ := hanswers 3
  have hvalues : valuesOf 3 merged = {5, 9} := by
    rw [← hmerged, hrecorded]
    decide
  exact ⟨s, res, s', hs, hget, hvalues ▸ hres⟩

end TinyStm.AtomicBlocks
