import TinyStm.Modules.Stats

/-!
# The global statistics

After all threads have exited, the global record has counted every commit, every abort and every
transaction, if each transaction that aborts is retried until it commits. What a thread has not
merged yet is in a tally of each field. The threads merge their counts field by field when they
exit, in any interleaving, so the invariant has one tally for each field. The retries of a
transaction are counted when it commits, so aborts after the last commit are not counted in the sum
of retries.
-/

namespace TinyStm.Stats

variable {Tid : Type} [DecidableEq Tid]

/-- What the global record and those of the threads have counted. -/
structure StatsInv (s : StatsState Tid) : Prop where
  commits : Tally (fun m n : ℕ => m + n) 0 s.commitEvents s.global.commits (fun p => (s.owes p).commits) s.live
  aborts : Tally (fun m n : ℕ => m + n) 0 s.abortEvents s.global.retriesAcc
    (fun p => (s.owes p).retriesAcc + (s.owes p).retries) s.live
  maximum : Tally max 0 (s.ended.foldr max 0) s.global.retriesMax (fun p => (s.owes p).retriesMax) s.live
  minimum : Tally min ulongMax (s.ended.foldr min ulongMax) s.global.retriesMin
    (fun p => (s.owes p).retriesMin) s.live

/-- What belongs to a thread. -/
structure StatsOwn where
  data : StatsData
  owes : StatsData
  current : ℕ
  live : Prop

/-- What belongs to a thread. -/
def StatsState.own (s : StatsState Tid) (p : Tid) : StatsOwn :=
  ⟨s.data p, s.owes p, s.current p, p ∈ s.live⟩

/-- No thread touches what belongs to another. -/
def statsProtocol : RG (StatsState Tid) Tid where
  inv := StatsInv
  guar p s s' := ∀ q, q ≠ p → s'.own q = s.own q
  obs _ := True
  refl _ _ _ _ _ := rfl

variable {p : Tid} {s : StatsState Tid} {J : Assn (statsProtocol : RG (StatsState Tid) Tid) p}

/-- An assertion about what belongs to the thread. -/
def Has (φ : StatsOwn → Prop) : Assn (statsProtocol : RG (StatsState Tid) Tid) p where
  holds s := φ (s.own p)
  stable q hq s s' _ _ hg h := by rwa [hg p (Ne.symm hq)]

/-- A thread between two callbacks, or before it is initialised. -/
def Settled (o : StatsOwn) : Prop := o.live → o.owes = o.data ∧ o.data.retries = o.current

/-- A thread that exits: its transactions have ended and it still has to merge `d`. -/
def Exiting (d : StatsData) (o : StatsOwn) : Prop := o.live ∧ o.current = 0 ∧ o.owes = d

/-- The other threads are where they were. -/
theorem own_settle {g : StatsData} (f : StatsData → StatsData) {q : Tid} (hq : q ≠ p) :
    ({ s with global := g }.settle p f).own q = s.own q := by
  simp [StatsState.own, StatsState.settle, hq]

/-! ## The callbacks of a running thread -/

/-- The record of another thread is the same when that of `p` changes. -/
theorem owes_of_ne {α : Type} (g : StatsData → α) (d : StatsData) (q : Tid) (hq : q ≠ p) :
    g (Function.update s.owes p d q) = g (s.owes q) := by
  rw [Function.update_of_ne hq]

/-- A field that keeps its value for `p` is the same for all threads. -/
theorem owes_same {α : Type} (g : StatsData → α) (d : StatsData) (hg : g d = g (s.owes p)) (q : Tid)
    (_ : q ∈ s.live) : g (Function.update s.owes p d q) = g (s.owes q) := by
  by_cases hq : q = p
  · subst hq
    rwa [Function.update_self]
  · exact owes_of_ne g d q hq

/-- `mod_stats_on_thread_init`. -/
theorem modStatsOnThreadInit_spec : Triple statsProtocol p (Has fun o => ¬ o.live)
    (modStatsOnThreadInit p) (fun _ => Has Settled) J := by
  refine .modify fun s hs hp => ⟨?_, fun q hq => ?_, fun _ => ?_⟩
  · have hI : StatsInv s := hs.inv
    exact
      { commits := hI.commits.enter hp (owes_of_ne _ _) (by simp [StatsState.setData, StatsData.init])
        aborts := hI.aborts.enter hp (owes_of_ne (fun d => d.retriesAcc + d.retries) _)
          (by simp [StatsState.setData, StatsData.init])
        maximum := hI.maximum.enter hp (owes_of_ne _ _) (by simp [StatsState.setData, StatsData.init])
        minimum := hI.minimum.enter hp (owes_of_ne _ _) (by simp [StatsState.setData, StatsData.init]) }
  · simp [StatsState.own, StatsState.setData, hq]
  · simp [StatsState.own, StatsState.setData, StatsData.init]

/-- The thread is running. -/
def Running (o : StatsOwn) : Prop := o.live ∧ o.owes = o.data ∧ o.data.retries = o.current

/-- `mod_stats_on_commit`. -/
theorem modStatsOnCommit_spec : Triple statsProtocol p (Has Running) (modStatsOnCommit p)
    (fun _ => Has Settled) J := by
  refine .modify fun s hs ⟨hp, ho, hr⟩ => ⟨?_, fun q hq => ?_, fun _ => ?_⟩
  · have hI : StatsInv s := hs.inv
    have ho : s.owes p = s.data p := ho
    have hr : (s.data p).retries = s.current p := hr
    have hmax : (if (s.owes p).retriesMax < (s.owes p).retries then (s.owes p).retries
        else (s.owes p).retriesMax) = max (s.current p) (s.owes p).retriesMax := by
      rw [ho, ← hr]
      split <;> omega
    have hmin : (if (s.owes p).retriesMin > (s.owes p).retries then (s.owes p).retries
        else (s.owes p).retriesMin) = min (s.current p) (s.owes p).retriesMin := by
      rw [ho, ← hr]
      split <;> omega
    have hcommits := hI.commits.count (x := 1) hp (owes_of_ne _ (s.owes p).commit)
      (by simp [StatsData.commit, Nat.add_comm])
    exact
      { commits := by rwa [Nat.add_comm] at hcommits
        aborts := hI.aborts.congr (owes_same (p := p) (fun d => d.retriesAcc + d.retries) _ rfl)
        maximum := hI.maximum.count hp (owes_of_ne _ _) (by
          simpa [StatsState.finish, StatsState.setData, StatsData.commit] using hmax)
        minimum := hI.minimum.count hp (owes_of_ne _ _) (by
          simpa [StatsState.finish, StatsState.setData, StatsData.commit] using hmin) }
  · simp [StatsState.own, StatsState.setData, StatsState.finish, hq]
  · have ho : s.owes p = s.data p := ho
    simp [StatsState.own, StatsState.setData, StatsState.finish, StatsData.commit, ho]

/-- `mod_stats_on_abort`. -/
theorem modStatsOnAbort_spec : Triple statsProtocol p (Has Running) (modStatsOnAbort p true)
    (fun _ => Has Settled) J := by
  refine .modify fun s hs ⟨hp, ho, hr⟩ => ⟨?_, fun q hq => ?_, fun _ => ?_⟩
  · have hI : StatsInv s := hs.inv
    have haborts := hI.aborts.count (x := 1) hp
      (owes_of_ne (fun d => d.retriesAcc + d.retries) (s.owes p).abort)
      (by simp [StatsData.abort]; omega)
    exact
      { commits := hI.commits.congr (owes_same (p := p) StatsData.commits _ rfl)
        aborts := by rwa [Nat.add_comm] at haborts
        maximum := hI.maximum.congr (owes_same (p := p) StatsData.retriesMax _ rfl)
        minimum := hI.minimum.congr (owes_same (p := p) StatsData.retriesMin _ rfl) }
  · simp [StatsState.own, StatsState.setData, hq]
  · have ho : s.owes p = s.data p := ho
    have hr : (s.data p).retries = s.current p := hr
    simp [StatsState.own, StatsState.setData, StatsData.abort, ho, hr]

/-! ## The exit of a thread -/

/-- The commits are added. -/
theorem addCommits_spec {stats d : StatsData} (hd : d.commits = stats.commits) :
    Triple statsProtocol p (Has (Exiting d)) (addCommits p stats)
      (fun _ => Has (Exiting { d with commits := 0 })) J := by
  refine .modify fun s hs ⟨hp, hc, ho⟩ => ⟨?_, fun q hq => own_settle _ hq, ?_⟩
  · have hI : StatsInv s := hs.inv
    have ho : s.owes p = d := ho
    have hcommits := hI.commits.merge hp (owes_of_ne _ { d with commits := 0 }) (by simp)
    rw [ho, hd, Nat.add_comm] at hcommits
    subst ho
    exact
      { commits := hcommits
        aborts := hI.aborts.congr (owes_same (p := p) (fun d => d.retriesAcc + d.retries) _ rfl)
        maximum := hI.maximum.congr (owes_same (p := p) StatsData.retriesMax _ rfl)
        minimum := hI.minimum.congr (owes_same (p := p) StatsData.retriesMin _ rfl) }
  · have ho : s.owes p = d := ho
    refine ⟨hp, hc, ?_⟩
    simp [StatsState.own, StatsState.settle, ho]

/-- The transactions with retries are added. -/
theorem addRetriesCnt_spec {stats d : StatsData} :
    Triple statsProtocol p (Has (Exiting d)) (addRetriesCnt p stats)
      (fun _ => Has (Exiting { d with retriesCnt := 0 })) J := by
  refine .modify fun s hs ⟨hp, hc, ho⟩ => ⟨?_, fun q hq => own_settle _ hq, ?_⟩
  · have hI : StatsInv s := hs.inv
    exact
      { commits := hI.commits.congr (owes_same (p := p) StatsData.commits _ rfl)
        aborts := hI.aborts.congr (owes_same (p := p) (fun d => d.retriesAcc + d.retries) _ rfl)
        maximum := hI.maximum.congr (owes_same (p := p) StatsData.retriesMax _ rfl)
        minimum := hI.minimum.congr (owes_same (p := p) StatsData.retriesMin _ rfl) }
  · have ho : s.owes p = d := ho
    refine ⟨hp, hc, ?_⟩
    simp [StatsState.own, StatsState.settle, ho]

/-- The retries are added. -/
theorem addRetriesAcc_spec {stats d : StatsData} (hd : d.retriesAcc = stats.retriesAcc)
    (hr : d.retries = 0) :
    Triple statsProtocol p (Has (Exiting d)) (addRetriesAcc p stats)
      (fun _ => Has (Exiting { d with retriesAcc := 0 })) J := by
  refine .modify fun s hs ⟨hp, hc, ho⟩ => ⟨?_, fun q hq => own_settle _ hq, ?_⟩
  · have hI : StatsInv s := hs.inv
    have ho : s.owes p = d := ho
    have haborts := hI.aborts.merge hp
      (owes_of_ne (fun d => d.retriesAcc + d.retries) { d with retriesAcc := 0 }) (by simp [hr])
    have hacc : (s.owes p).retriesAcc + (s.owes p).retries = stats.retriesAcc := by
      rw [ho, hd, hr, Nat.add_zero]
    rw [hacc, Nat.add_comm stats.retriesAcc] at haborts
    subst ho
    exact
      { commits := hI.commits.congr (owes_same (p := p) StatsData.commits _ rfl)
        aborts := haborts
        maximum := hI.maximum.congr (owes_same (p := p) StatsData.retriesMax _ rfl)
        minimum := hI.minimum.congr (owes_same (p := p) StatsData.retriesMin _ rfl) }
  · have ho : s.owes p = d := ho
    refine ⟨hp, hc, ?_⟩
    simp [StatsState.own, StatsState.settle, ho]

/-- The maximum of a thread is merged: the global one is then the greater of both. -/
theorem StatsInv.mergeMax (h : StatsInv s) (hp : p ∈ s.live) {v : ℕ}
    (hv : v = max (s.owes p).retriesMax s.global.retriesMax) :
    StatsInv ({ s with global := { s.global with retriesMax := v } }.settle p
      fun o => { o with retriesMax := 0 }) where
  commits := h.commits.congr (owes_same (p := p) StatsData.commits _ rfl)
  aborts := h.aborts.congr (owes_same (p := p) (fun d => d.retriesAcc + d.retries) _ rfl)
  maximum := hv ▸ h.maximum.merge hp (owes_of_ne _ _) (by simp [StatsState.settle])
  minimum := h.minimum.congr (owes_same (p := p) StatsData.retriesMin _ rfl)

/-- The minimum of a thread is merged. -/
theorem StatsInv.mergeMin (h : StatsInv s) (hp : p ∈ s.live) {v : ℕ}
    (hv : v = min (s.owes p).retriesMin s.global.retriesMin) :
    StatsInv ({ s with global := { s.global with retriesMin := v } }.settle p
      fun o => { o with retriesMin := ulongMax }) where
  commits := h.commits.congr (owes_same (p := p) StatsData.commits _ rfl)
  aborts := h.aborts.congr (owes_same (p := p) (fun d => d.retriesAcc + d.retries) _ rfl)
  maximum := h.maximum.congr (owes_same (p := p) StatsData.retriesMax _ rfl)
  minimum := hv ▸ h.minimum.merge hp (owes_of_ne _ _) (by simp [StatsState.settle])

/-- The greatest number of retries is replaced, or not. -/
theorem casRetriesMax_spec {stats d : StatsData} {max : ℕ} (hd : d.retriesMax = stats.retriesMax)
    (hmax : stats.retriesMax > max) :
    Triple statsProtocol p (Has (Exiting d)) (casRetriesMax p max stats.retriesMax)
      (fun ok => Has (if ok then Exiting { d with retriesMax := 0 } else Exiting d)) J := by
  refine .atomic fun s hs ⟨hp, hc, ho⟩ => ?_
  have hI : StatsInv s := hs.inv
  have ho : s.owes p = d := ho
  by_cases heq : s.global.retriesMax = max
  · have hle : s.global.retriesMax ≤ (s.owes p).retriesMax := by rw [ho, hd]; omega
    rw [if_pos heq]
    refine ⟨hI.mergeMax hp ?_, fun q hq => ?_, hp, hc, ?_⟩
    · rw [max_eq_left hle, ho, hd]
    · simp [StatsState.own, StatsState.settle, hq]
    · simp [StatsState.own, StatsState.settle, ho]
  · rw [if_neg heq]
    exact ⟨hI, fun _ _ => rfl, hp, hc, ho⟩

/-- The loop for the greatest number of retries. -/
theorem retryMax_spec {stats d : StatsData} (hd : d.retriesMax = stats.retriesMax) :
    Triple statsProtocol p (Has (Exiting d)) (retryMax p stats)
      (fun _ => Has (Exiting { d with retriesMax := 0 })) J := by
  refine .iterate (fun _ => Has (Exiting d)) (fun _ _ h => h) fun _ => ?_
  -- the maximum that is read decides whether the record has been merged
  refine .bind (.atomic (Q := fun max => Has (if stats.retriesMax > max then Exiting d
    else Exiting { d with retriesMax := 0 })) fun s hs ⟨hp, hc, ho⟩ => ?_) fun max => ?_
  · have hI : StatsInv s := hs.inv
    have ho : s.owes p = d := ho
    dsimp only
    split
    · exact ⟨hI, fun _ _ => rfl, hp, hc, ho⟩
    · have hle : (s.owes p).retriesMax ≤ s.global.retriesMax := by rw [ho, hd]; omega
      refine ⟨hI.mergeMax hp (max_eq_right hle).symm, fun q hq => own_settle _ hq, hp, hc, ?_⟩
      simp [StatsState.own, StatsState.settle, ho]
  · refine .ite (fun hmax => ?_) fun hmax => ?_
    · refine .bind (.pre (casRetriesMax_spec hd hmax) fun s _ h => ?_) fun ok => ?_
      · simpa [Has, hmax] using h
      · cases ok with
        | true => exact .of_ret fun _ _ h => h
        | false => exact .of_ret fun _ _ h => h
    · exact .of_ret fun s _ h => by simpa [Has, hmax] using h

/-- The least number of retries is replaced, or not. -/
theorem casRetriesMin_spec {stats d : StatsData} {min : ℕ} (hd : d.retriesMin = stats.retriesMin)
    (hmin : stats.retriesMin < min) :
    Triple statsProtocol p (Has (Exiting d)) (casRetriesMin p min stats.retriesMin)
      (fun ok => Has (if ok then Exiting { d with retriesMin := ulongMax } else Exiting d)) J := by
  refine .atomic fun s hs ⟨hp, hc, ho⟩ => ?_
  have hI : StatsInv s := hs.inv
  have ho : s.owes p = d := ho
  by_cases heq : s.global.retriesMin = min
  · have hle : (s.owes p).retriesMin ≤ s.global.retriesMin := by rw [ho, hd]; omega
    rw [if_pos heq]
    refine ⟨hI.mergeMin hp ?_, fun q hq => ?_, hp, hc, ?_⟩
    · rw [min_eq_left hle, ho, hd]
    · simp [StatsState.own, StatsState.settle, hq]
    · simp [StatsState.own, StatsState.settle, ho]
  · rw [if_neg heq]
    exact ⟨hI, fun _ _ => rfl, hp, hc, ho⟩

/-- The loop for the least number of retries. -/
theorem retryMin_spec {stats d : StatsData} (hd : d.retriesMin = stats.retriesMin) :
    Triple statsProtocol p (Has (Exiting d)) (retryMin p stats)
      (fun _ => Has (Exiting { d with retriesMin := ulongMax })) J := by
  refine .iterate (fun _ => Has (Exiting d)) (fun _ _ h => h) fun _ => ?_
  -- the minimum that is read decides whether the record has been merged
  refine .bind (.atomic (Q := fun min => Has (if stats.retriesMin < min then Exiting d
    else Exiting { d with retriesMin := ulongMax })) fun s hs ⟨hp, hc, ho⟩ => ?_) fun min => ?_
  · have hI : StatsInv s := hs.inv
    have ho : s.owes p = d := ho
    dsimp only
    split
    · exact ⟨hI, fun _ _ => rfl, hp, hc, ho⟩
    · have hle : s.global.retriesMin ≤ (s.owes p).retriesMin := by rw [ho, hd]; omega
      refine ⟨hI.mergeMin hp (min_eq_right hle).symm, fun q hq => own_settle _ hq, hp, hc, ?_⟩
      simp [StatsState.own, StatsState.settle, ho]
  · refine .ite (fun hmin => ?_) fun hmin => ?_
    · refine .bind (.pre (casRetriesMin_spec hd hmin) fun s _ h => ?_) fun ok => ?_
      · simpa [Has, hmin] using h
      · cases ok with
        | true => exact .of_ret fun _ _ h => h
        | false => exact .of_ret fun _ _ h => h
    · exact .of_ret fun s _ h => by simpa [Has, hmin] using h

/-- The record of a thread whose transactions have all ended. -/
theorem modStatsOnThreadExit_spec : Triple statsProtocol p
    (Has fun o => Running o ∧ o.current = 0) (modStatsOnThreadExit p) (fun _ => Has Settled) J := by
  refine .bind (.read (Q := fun stats => Has fun o => Exiting stats o ∧ stats.retries = 0)
    fun s _ ⟨⟨hp, ho, hr⟩, hc⟩ => ⟨⟨hp, hc, ho⟩, hr.trans hc⟩) fun stats => ?_
  refine .of_fact (φ := stats.retries = 0) (fun _ _ h => h.2) fun hr => ?_
  refine .bind (.pre (addCommits_spec rfl) fun _ _ h => h.1) fun _ => .bind addRetriesCnt_spec fun _ =>
    .bind (addRetriesAcc_spec rfl hr) fun _ => .bind (retryMax_spec rfl) fun _ =>
    .bind (retryMin_spec rfl) fun _ => .modify fun s hs ⟨hp, hc, ho⟩ => ?_
  have hI : StatsInv s := hs.inv
  have ho : s.owes p = { stats with
    commits := 0, retriesCnt := 0, retriesAcc := 0, retriesMax := 0, retriesMin := ulongMax } := ho
  have hc : s.current p = 0 := hc
  rw [if_pos hc]
  refine ⟨?_, fun q hq => ?_, fun hl => (Finset.notMem_erase p _ hl).elim⟩
  · exact
      { commits := hI.commits.leave hp (by simp [ho])
        aborts := hI.aborts.leave hp (by simp [ho, hr])
        maximum := hI.maximum.leave hp (by simp [ho])
        minimum := hI.minimum.leave hp (by simp [ho]) }
  · simp [StatsState.own, hq]

/-! ## Runs -/

/-- The global record has counted every commit and every abort, and has the maximum and the minimum of
how often a transaction aborted. -/
structure StatsState.Exact (s : StatsState Tid) : Prop where
  commits : s.global.commits = s.commitEvents
  aborts : s.global.retriesAcc = s.abortEvents
  max : s.global.retriesMax = s.ended.foldr max 0
  min : s.global.retriesMin = s.ended.foldr min ulongMax

/-- A transaction that aborts is retried until it commits. -/
def StatsCall.Retried (p : Tid) (k : StatsCall) (s : StatsState Tid) : Prop :=
  k.Admitted p s ∧
    match k with
    | .abort retry => retry = true
    | .threadExit => s.current p = 0
    | _ => True

/-- What a callback assumes. -/
def StatsCall.pre (p : Tid) : StatsCall → Assn (statsProtocol : RG (StatsState Tid) Tid) p
  | .threadInit => Has fun o => ¬ o.live
  | .commit => Has Running
  | .abort retry => Has fun o => Running o ∧ retry = true
  | .threadExit => Has fun o => Running o ∧ o.current = 0

/-- Every call. -/
theorem StatsCall.prog_spec (p : Tid) (k : StatsCall) : Triple statsProtocol p (k.pre p) (k.prog p)
    (fun _ => Has Settled) (Has Settled) := by
  cases k with
  | threadInit => exact modStatsOnThreadInit_spec
  | commit => exact modStatsOnCommit_spec
  | abort retry =>
    refine .of_fact (φ := retry = true) (fun _ _ h => h.2) fun hr => ?_
    subst hr
    exact .pre modStatsOnAbort_spec fun _ _ h => h.1
  | threadExit => exact modStatsOnThreadExit_spec

omit [DecidableEq Tid] in
/-- A callback may be run between two others. -/
theorem StatsCall.Retried.pre {p : Tid} {k : StatsCall} {s : StatsState Tid} (h : k.Retried p s)
    (hs : Settled (s.own p)) : k.pre p s := by
  cases k with
  | threadInit => exact h.1
  | commit => exact ⟨h.1, hs h.1⟩
  | abort retry => exact ⟨⟨h.1, hs h.1⟩, h.2⟩
  | threadExit => exact ⟨⟨h.1, hs h.1⟩, h.2⟩

omit [DecidableEq Tid] in
/-- The invariant holds at first. -/
theorem statsInv_init : StatsInv (StatsState.init Tid) where
  commits := ⟨rfl, rfl⟩
  aborts := ⟨rfl, rfl⟩
  maximum := ⟨rfl, rfl⟩
  minimum := ⟨rfl, rfl⟩

/-- After all threads have exited, the global record is exact, if each transaction that aborts is
retried until it commits. -/
theorem exact_of_retried {T : Pool (StatsState Tid) Tid}
    (h : Pool.Reaches StatsCall.prog StatsCall.Retried (Pool.init (StatsState.init Tid)) T)
    (hl : T.st.live = ∅) : T.st.Exact := by
  have hI : StatsInv T.st := (Pool.sound (S := Pool.init (StatsState.init Tid))
    (B := fun _ => Has Settled) StatsCall.prog_spec (fun _ _ _ _ hs hk => hk.pre hs) statsInv_init
    (fun p => Pool.atOutline_init fun hp : p ∈ (∅ : Finset Tid) => (Finset.notMem_empty p hp).elim) h
    fun _ _ _ => trivial).1
  have hcommits := hI.commits
  have haborts := hI.aborts
  have hmax := hI.maximum
  have hmin := hI.minimum
  rw [hl] at hcommits haborts hmax hmin
  exact ⟨hcommits.eq_of_empty.symm, haborts.eq_of_empty.symm, hmax.eq_of_empty.symm,
    hmin.eq_of_empty.symm⟩

instance (p : Tid) : (k : StatsCall) → (s : StatsState Tid) → Decidable (k.Admitted p s)
  | .threadInit, s => inferInstanceAs (Decidable (p ∉ s.live))
  | .commit, s | .abort _, s | .threadExit, s => inferInstanceAs (Decidable (p ∈ s.live))

instance (p : Tid) : (k : StatsCall) → (s : StatsState Tid) → Decidable (k.Retried p s)
  | .threadInit, s => inferInstanceAs (Decidable (p ∉ s.live ∧ True))
  | .commit, s => inferInstanceAs (Decidable (p ∈ s.live ∧ True))
  | .abort retry, s => inferInstanceAs (Decidable (p ∈ s.live ∧ retry = true))
  | .threadExit, s => inferInstanceAs (Decidable (p ∈ s.live ∧ s.current p = 0))

/-- The callbacks of a thread, one after the other. -/
def lifeOf (ks : List StatsCall) : Pool (StatsState (Fin 1)) (Fin 1) :=
  Pool.follow StatsCall.prog (Pool.init (StatsState.init (Fin 1)))
    (Pool.Label.calls 12 (ks.map fun k => (0, k)))

/-- A thread whose transaction aborts once and commits. -/
theorem exact_retriedOnce : (lifeOf [.threadInit, .abort true, .commit, .threadExit]).st.Exact :=
  exact_of_retried (Pool.Follows.reaches (by decide)) (by decide)

/-- The abort of a transaction that is not retried is lost. -/
theorem not_exact_givenUp : ¬ ∀ T : Pool (StatsState (Fin 1)) (Fin 1),
    Pool.Reaches StatsCall.prog StatsCall.Admitted (Pool.init (StatsState.init (Fin 1))) T →
      T.st.live = ∅ → T.st.Exact := by
  intro h
  have hlost := (h (lifeOf [.threadInit, .abort false, .threadExit])
    (Pool.Follows.reaches (by decide)) (by decide)).aborts
  revert hlost
  decide

end TinyStm.Stats
