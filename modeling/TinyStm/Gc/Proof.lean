import TinyStm.Gc.Protocol

/-!
# The functions of the collector

One specification for each function of `src/gc.c`. A function that changes a slot holds it, and the
others are left alone; a scan of all slots collects what each says, slot by slot, and its invariant
is the conjunction of what has been found so far.
-/

namespace TinyStm

variable {Tid Addr : Type} [DecidableEq Tid] {cfg : GcConfig} {p : Tid} {i m : ℕ} {k : GcHolder Tid}

/-- An assertion about what thread `p` has to itself. -/
def gcHas (φ : GcOwn Tid Addr → Prop) : Assn (gcProtocol cfg : RG (GcState Tid Addr) Tid) p where
  holds s := φ (s.own p)
  stable q hq _ _ _ _ hg h := by
    rw [hg.own p (Ne.symm hq)]
    exact h

/-- The clock has reached `now`. -/
def reached (now : ℕ) : Assn (gcProtocol cfg : RG (GcState Tid Addr) Tid) p where
  holds s := now ≤ s.clock
  stable _ _ _ _ _ _ hg h := h.trans hg.clock

/-- The slots before `i` are above `m`, which the clock has reached. -/
def scanned (m i : ℕ) : Assn (gcProtocol cfg : RG (GcState Tid Addr) Tid) p where
  holds s := m ≤ s.clock ∧ ∀ j < i, s.Above m j
  stable _ _ _ _ _ _ hg h := ⟨h.1.trans hg.clock, fun j hj => hg.above m j h.1 (h.2 j hj)⟩

/-- All slots are above `m`, which the clock has reached. -/
def bounding (m : ℕ) : Assn (gcProtocol cfg : RG (GcState Tid Addr) Tid) p where
  holds s := m ≤ s.clock ∧ ∀ j, s.Above m j
  stable _ _ _ _ _ _ hg h := ⟨h.1.trans hg.clock, fun j => hg.above m j h.1 (h.2 j)⟩

/-- The slots before `i` have all been used. -/
def passed (i : ℕ) : Assn (gcProtocol cfg : RG (GcState Tid Addr) Tid) p where
  holds s := ∀ j < i, (s.slots j).used ≠ .null
  stable _ _ _ _ _ _ hg h j hj := hg.taken j (h j hj)

omit [DecidableEq Tid] in
theorem GcState.Above.mono {s : GcState Tid Addr} {m' : ℕ} (h : s.Above m i) (hm : m' ≤ m) :
    s.Above m' i :=
  fun hbusy => ⟨hm.trans (h hbusy).1, fun p hp v hv => hm.trans ((h hbusy).2 p hp v hv)⟩

theorem own_slots {s : GcState Tid Addr} {t : GcThread Addr} :
    (s.own p).slots i = some (k, t) ↔ k.Is p ∧ s.holder i = k ∧ s.slots i = t := by
  unfold GcState.own
  dsimp only
  split
  · simp only [Option.some.injEq, Prod.mk.injEq]
    refine ⟨fun h => ⟨h.1 ▸ ‹_›, h⟩, fun h => h.2⟩
  · refine ⟨nofun, fun h => ?_⟩
    exact absurd (h.2.1 ▸ h.1) ‹_›

section
variable {α β : Type} {P J : Assn (gcProtocol cfg : RG (GcState Tid Addr) Tid) p}
  {Q : α → Assn (gcProtocol cfg : RG (GcState Tid Addr) Tid) p}

/-- A thread reads the state. -/
theorem gcRead_spec {g : GcState Tid Addr → β} {c : β → GcProg Tid Addr α}
    (R : β → Assn (gcProtocol cfg : RG (GcState Tid Addr) Tid) p)
    (h : ∀ s, GcInv cfg s → P s → R (g s) s) (hc : ∀ b, Triple (gcProtocol cfg) p (R b) (c b) Q J) :
    Triple (gcProtocol cfg) p P (.read g >>= c) Q J :=
  .act R (fun s hs hP => ⟨hs.inv, (gcProtocol cfg).refl p s hs.inv, h s hs.inv hP⟩) hc

/-- A thread changes the state. -/
theorem gcAct_spec {g : GcState Tid Addr → β × GcState Tid Addr} {c : β → GcProg Tid Addr α}
    (R : β → Assn (gcProtocol cfg : RG (GcState Tid Addr) Tid) p)
    (h : ∀ s, GcInv cfg s → P s → (GcInv cfg (g s).2 ∧ GcGuar p s (g s).2) ∧ R (g s).1 (g s).2)
    (hc : ∀ b, Triple (gcProtocol cfg) p (R b) (c b) Q J) :
    Triple (gcProtocol cfg) p P (.atomic g >>= c) Q J :=
  .act R (fun s hs hP => ⟨(h s hs.inv hP).1.1, (h s hs.inv hP).1.2, (h s hs.inv hP).2⟩) hc

end

/-! ## The bound -/

/-- `gc_compute_min`: the result bounds the epochs in all slots, although they change during the
scan. -/
theorem gcComputeMin_spec {F J : Assn (gcProtocol cfg : RG (GcState Tid Addr) Tid) p} (now : ℕ) :
    Triple (gcProtocol cfg) p (F ⊓ reached now) (gcComputeMin cfg now) (fun m => F ⊓ bounding m)
      J := by
  refine .iterate (fun b => F ⊓ scanned b.2 b.1)
    (fun s _ h => ⟨h.1, h.2, fun j hj => (Nat.not_lt_zero j hj).elim⟩) fun (i, m) => ?_
  refine .ite (fun hi => ?_) fun hi => .of_ret fun s hs h => ⟨h.1, h.2.1, fun j => ?_⟩
  · -- what the status tells of slot `i` and of those behind it
    refine gcRead_spec (fun used => F ⊓ match used with
      | .null => bounding m
      | .busy => scanned m i
      | _ => scanned m (i + 1)) (fun s hs h => ⟨h.1, ?_⟩) fun used => ?_
    · have hfree (hne : (s.slots i).used ≠ .busy) : (scanned m (i + 1) :
          Assn (gcProtocol cfg : RG (GcState Tid Addr) Tid) p) s := by
        refine ⟨h.2.1, fun j hj => ?_⟩
        rcases Nat.lt_succ_iff_lt_or_eq.1 hj with hj | rfl
        · exact h.2.2 j hj
        · exact fun hbusy => (hne hbusy).elim
      cases hu : (s.slots i).used with
      | busy => exact h.2
      | freeEmpty => exact hfree (by rw [hu]; nofun)
      | freeFull => exact hfree (by rw [hu]; nofun)
      | null =>
        refine ⟨h.2.1, fun j => ?_⟩
        by_cases hj : j < i
        · exact h.2.2 j hj
        · have hnull := hs.next i j (Nat.le_of_not_lt hj) hu
          exact fun hbusy => by cases hnull.symm.trans hbusy
    cases used with
    | null => exact .of_ret fun s _ h => h
    | freeEmpty => exact .of_ret fun s _ h => h
    | freeFull => exact .of_ret fun s _ h => h
    | busy =>
      -- the slot may have been released, but an epoch in it is the one of a thread
      refine gcRead_spec (fun ts => F ⊓ if ts = cfg.epochMax then scanned m i
        else scanned (if ts < m then ts else m) (i + 1)) (fun s hs h => ⟨h.1, ?_⟩) fun ts => ?_
      · split
        · exact h.2
        · rename_i hts
          have hle : (if (s.slots i).ts < m then (s.slots i).ts else m) ≤ m := by split <;> omega
          have hle' : (if (s.slots i).ts < m then (s.slots i).ts else m) ≤ (s.slots i).ts := by
            split <;> omega
          refine ⟨hle.trans h.2.1, fun j hj => ?_⟩
          rcases Nat.lt_succ_iff_lt_or_eq.1 hj with hj | rfl
          · exact (h.2.2 j hj).mono hle
          · intro hbusy
            refine ⟨hle', fun q hq v hv => hle'.trans ?_⟩
            exact ((hs.ts j q hq).resolve_left hts).2 v hv
      · refine .ite (fun hts => ?_) fun hts => ?_
        · rw [if_pos hts]
          exact .of_ret fun s _ h => h
        · rw [if_neg hts]
          exact .of_ret fun s _ h => h
  · by_cases hj : j < i
    · exact h.2.2 j hj
    · have hnull := hs.inv.bound j (by omega)
      exact fun hbusy => by cases hnull.symm.trans hbusy

/-! ## The regions -/

/-- Slot `i` is held as `k`. -/
def holding (k : GcHolder Tid) (i : ℕ) : Assn (gcProtocol cfg : RG (GcState Tid Addr) Tid) p :=
  gcHas fun o => ∃ t, o.slots i = some (k, t)

/-- Slot `i` is held as `k` and has the regions `rs`. -/
def holdingRegions (k : GcHolder Tid) (i : ℕ) (rs : List (GcRegion Addr)) :
    Assn (gcProtocol cfg : RG (GcState Tid Addr) Tid) p :=
  gcHas fun o => ∃ t, o.slots i = some (k, t) ∧ t.regions = rs

/-- `gc_clean_blocks`. -/
theorem gcCleanBlocks_spec {φ : GcOwn Tid Addr → Prop}
    {J : Assn (gcProtocol cfg : RG (GcState Tid Addr) Tid) p} (bs : List (Addr × ℕ))
    (hbs : ∀ b ∈ bs, b.2 < m) :
    Triple (gcProtocol cfg) p (gcHas φ ⊓ bounding m) (gcCleanBlocks bs)
      (fun _ => gcHas φ ⊓ bounding m) J := by
  induction bs with
  | nil => exact .of_ret fun _ _ h => h
  | cons b bs ih =>
    have hb := hbs b List.mem_cons_self
    refine gcAct_spec (fun _ => gcHas φ ⊓ bounding m) (fun s hs h => ⟨?_, h⟩) fun _ =>
      ih fun c hc => hbs c (List.mem_cons_of_mem _ hc)
    exact hs.xfree (hb.trans_le h.2.1) fun j => (h.2.2 j).mono hb

/-- The holder of a slot reads its regions. -/
theorem gcLoadRegions_spec {α : Type} {F : Assn (gcProtocol cfg : RG (GcState Tid Addr) Tid) p}
    {c : List (GcRegion Addr) → GcProg Tid Addr α} {Q : α → Assn (gcProtocol cfg) p}
    {J : Assn (gcProtocol cfg) p}
    (hc : ∀ rs, (∀ r ∈ rs, ∀ b ∈ r.blocks, b.2 ≤ r.ts) →
      Triple (gcProtocol cfg) p (holdingRegions k i rs ⊓ F) (c rs) Q J) :
    Triple (gcProtocol cfg) p (holding k i ⊓ F) (gcLoadRegions i >>= c) Q J := by
  refine gcRead_spec (fun rs => (holdingRegions k i rs ⊓ F) ⊓
    .pure (∀ r ∈ rs, ∀ b ∈ r.blocks, b.2 ≤ r.ts)) (fun s hs ⟨⟨t, ht⟩, hF⟩ =>
      ⟨⟨⟨t, ht, ?_⟩, hF⟩, hs.sorted i⟩) fun rs =>
      .of_fact (fun s _ h => h.2) fun hsorted => (hc rs hsorted).pre fun s _ h => h.1
  exact congrArg GcThread.regions (own_slots.1 ht).2.2.symm

/-- The holder of a slot changes its regions. -/
theorem gcModifyRegions_spec {α : Type} {F : Assn (gcProtocol cfg : RG (GcState Tid Addr) Tid) p}
    {f : GcThread Addr → GcThread Addr} {φ ψ : List (GcRegion Addr) → Prop}
    {c : Unit → GcProg Tid Addr α} {Q : α → Assn (gcProtocol cfg) p}
    {J : Assn (gcProtocol cfg) p}
    (hf : ∀ t, (f t).used = t.used ∧ (f t).ts = t.ts)
    (hψ : ∀ t, φ t.regions → ψ (f t).regions) (hsorted : ∀ t, φ t.regions → t.Sorted → (f t).Sorted)
    (hF : ∀ s : GcState Tid Addr, GcGuar p s (s.setSlot i f) → F s → F (s.setSlot i f))
    (hc : Triple (gcProtocol cfg) p (gcHas (fun o => ∃ t, o.slots i = some (k, t) ∧ ψ t.regions) ⊓ F)
      (c ()) Q J) :
    Triple (gcProtocol cfg) p (gcHas (fun o => ∃ t, o.slots i = some (k, t) ∧ φ t.regions) ⊓ F)
      (gcModifySlot i f >>= c) Q J := by
  refine gcAct_spec (fun _ => gcHas (fun o => ∃ t, o.slots i = some (k, t) ∧ ψ t.regions) ⊓ F)
    (fun s hs ⟨⟨t, ht, hφ⟩, hF'⟩ => ?_) fun _ => hc
  obtain ⟨hk, hholder, hslot⟩ := own_slots.1 ht
  subst hslot
  have hstep := hs.setRegions (hholder ▸ hk) hf (hsorted _ hφ (hs.sorted i))
  refine ⟨hstep, ⟨f (s.slots i), own_slots.2 ⟨hk, hholder, ?_⟩, hψ _ hφ⟩, hF _ hstep.2 hF'⟩
  exact setSlot_slots_self ..

/-- `gc_cleanup_thread`. -/
theorem gcCleanupThread_spec {J : Assn (gcProtocol cfg : RG (GcState Tid Addr) Tid) p} (m : ℕ) :
    Triple (gcProtocol cfg) p (holding k i ⊓ bounding m) (gcCleanupThread i m)
      (fun _ => holding k i ⊓ bounding m) J := by
  refine .iterate (fun _ => holding k i ⊓ bounding m) (fun _ _ h => h) fun _ => ?_
  refine gcLoadRegions_spec fun rs hsorted => ?_
  have hweak : ∀ {s : GcState Tid Addr} {rs},
      (holdingRegions k i rs : Assn (gcProtocol cfg : RG (GcState Tid Addr) Tid) p) s →
      (holding k i : Assn (gcProtocol cfg : RG (GcState Tid Addr) Tid) p) s :=
    fun ⟨t, ht, _⟩ => ⟨t, ht⟩
  cases rs with
  | nil => exact .of_ret fun _ _ h => ⟨hweak h.1, h.2⟩
  | cons head next =>
    refine .ite (fun hmin => ?_) fun _ => .of_ret fun _ _ h => ⟨hweak h.1, h.2⟩
    refine .bind (gcCleanBlocks_spec head.blocks fun b hb =>
      (hsorted head List.mem_cons_self b hb).trans_lt hmin) fun _ => ?_
    refine gcModifyRegions_spec (φ := fun rs => rs = head :: next) (ψ := fun rs => rs = next)
      (fun _ => ⟨rfl, rfl⟩) (fun t ht => congrArg List.tail ht)
      (fun t _ hs r hr => hs r (List.mem_of_mem_tail hr)) (fun _ hg h => ?_) ?_
    · exact ⟨h.1.trans hg.clock, fun j => hg.above m j h.1 (h.2 j)⟩
    · exact .of_ret fun _ _ ⟨h, hm⟩ => ⟨hweak h, hm⟩

/-- `gc_cleanup`. -/
theorem gcCleanup_spec {J : Assn (gcProtocol cfg : RG (GcState Tid Addr) Tid) p} :
    Triple (gcProtocol cfg) p (gcHas fun o => ∃ t, o.slots o.idx = some (k, t)) (gcCleanup cfg p)
      (fun _ => .pure True) J := by
  refine gcRead_spec (fun i => holding k i) (fun _ _ h => h) fun i => ?_
  refine .pre (gcLoadRegions_spec (F := .pure True) fun rs _ => ?_) fun _ _ h => ⟨h, trivial⟩
  refine .ite (fun _ => .of_ret fun _ _ _ => trivial) fun _ => ?_
  refine gcRead_spec (fun now => holding k i ⊓ reached now) (fun _ _ ⟨⟨t, ht, _⟩, _⟩ =>
    ⟨⟨t, ht⟩, le_rfl⟩) fun now => ?_
  refine .bind (gcComputeMin_spec now) fun m => ?_
  exact (gcCleanupThread_spec m).post (fun _ _ _ _ => trivial) fun _ _ h => h

/-- A region that ends a list of regions. -/
def Tail (epoch : ℕ) (rs : List (GcRegion Addr)) : Prop :=
  ∃ init r, rs = init ++ [r] ∧ epoch ≤ r.ts

theorem gcAddRegion_tail (epoch : ℕ) (t : GcThread Addr) : Tail epoch (gcAddRegion epoch t).regions := by
  unfold gcAddRegion
  split
  · exact ⟨t.regions, ⟨[], epoch⟩, rfl, le_rfl⟩
  · rename_i h
    rw [GcThread.tailTs, Option.all_map] at h
    cases hlast : t.regions.getLast? with
    | none => simp [hlast] at h
    | some r =>
      obtain ⟨init, hinit⟩ := List.getLast?_eq_some_iff.1 hlast
      exact ⟨init, r, hinit, by simpa [hlast] using h⟩

theorem gcAddRegion_sorted (epoch : ℕ) {t : GcThread Addr} (h : t.Sorted) :
    (gcAddRegion epoch t).Sorted := by
  unfold gcAddRegion
  split
  · intro r hr
    rcases List.mem_append.1 hr with hr | hr
    · exact h r hr
    · rw [List.mem_singleton.1 hr]
      nofun
  · exact h

theorem gcAddBlock_sorted {b : Addr × ℕ} {t : GcThread Addr} (htail : Tail b.2 t.regions)
    (h : t.Sorted) : (gcAddBlock b t).Sorted := by
  obtain ⟨init, last, hrs, hb⟩ := htail
  have hadd : (gcAddBlock b t).regions = init ++ [{ last with blocks := b :: last.blocks }] := by
    have hlength : (init ++ [last]).length - 1 = init.length + 0 := by simp
    simp only [gcAddBlock, hrs, hlength, List.modify, List.modifyTailIdx_add]
    rfl
  intro r hr c hc
  rw [hadd] at hr
  rcases List.mem_append.1 hr with hr | hr
  · exact h r (hrs ▸ List.mem_append_left _ hr) c hc
  · rw [List.mem_singleton.1 hr] at hc ⊢
    rcases List.mem_cons.1 hc with rfl | hc
    · exact hb
    · exact h last (hrs ▸ List.mem_append_right _ (List.mem_singleton.2 rfl)) c hc

/-- `gc_free`. -/
theorem gcFree_spec {addr : Addr} {epoch : ℕ}
    {J : Assn (gcProtocol cfg : RG (GcState Tid Addr) Tid) p} :
    Triple (gcProtocol cfg) p (gcHas fun o => ∃ t, o.slots o.idx = some (k, t))
      (gcFree cfg p addr epoch) (fun _ => .pure True) J := by
  refine gcRead_spec (fun i => gcHas (fun o => ∃ t, o.slots i = some (k, t) ∧ True) ⊓
    gcHas fun o => o.idx = i) (fun _ _ ⟨t, ht⟩ => ⟨⟨t, ht, trivial⟩, rfl⟩) fun i => ?_
  refine gcModifyRegions_spec (F := gcHas fun o : GcOwn Tid Addr => o.idx = i)
    (φ := fun _ => True) (ψ := Tail epoch) (fun t => ?_) (fun t _ => gcAddRegion_tail epoch t)
    (fun t _ => gcAddRegion_sorted epoch) (fun _ _ h => h) ?_
  · unfold gcAddRegion
    split <;> exact ⟨rfl, rfl⟩
  refine gcModifyRegions_spec (F := gcHas fun o : GcOwn Tid Addr => o.idx = i) (ψ := fun _ => True) (fun _ => ⟨rfl, rfl⟩) (fun _ _ => trivial)
    (fun t ht hs => gcAddBlock_sorted ht hs) (fun _ _ h => h) ?_
  cases cfg.cleanupFrequency with
  | none => exact .of_ret fun _ _ _ => trivial
  | some frequency =>
    refine gcAct_spec (fun _ => gcHas fun o => ∃ t, o.slots o.idx = some (k, t))
      (fun s hs ⟨⟨t, ht, _⟩, hidx⟩ => ?_) fun frees =>
      .ite (fun _ => gcCleanup_spec) fun _ => .of_ret fun _ _ _ => trivial
    obtain ⟨hk, hholder, hslot⟩ := own_slots.1 ht
    have hstep := hs.setRegions (f := fun t => { t with frees := countFree t.frees }) (hholder ▸ hk)
      (fun _ => ⟨rfl, rfl⟩) (hs.sorted i)
    refine ⟨hstep, _, own_slots.2 ⟨hk, ?_, rfl⟩⟩
    exact (congrArg s.holder hidx).trans hholder

/-! ## The slots -/

/-- A step that changes the index of a thread or the number of threads. -/
theorem GcInv.rename {s : GcState Tid Addr} (h : GcInv cfg s) {n : ℕ} {idx : Tid → ℕ}
    (hidx : ∀ q, q ≠ p → idx q = s.idx q) :
    GcInv cfg { s with nbActive := n, idx := idx } ∧
      GcGuar p s { s with nbActive := n, idx := idx } := by
  have hs : SameEpochs s { s with nbActive := n, idx := idx } :=
    ⟨rfl, rfl, rfl, fun _ => rfl, fun _ => rfl⟩
  exact ⟨h.sameEpochs hs h.sorted h.freed, hs.guar hidx fun _ _ _ _ => rfl⟩

/-- `gc_init_thread`. -/
theorem gcInitThread_spec : Triple (gcProtocol cfg : RG (GcState Tid Addr) Tid) p (.pure True)
    (gcInitThread cfg p) (fun _ => .pure True) (.pure True) := by
  refine gcAct_spec (fun _ => .pure True) (fun s hs _ => ⟨hs.rename fun _ _ => rfl, trivial⟩)
    fun nb => .ite (fun _ => .jump fun _ _ _ => trivial) fun hnb => ?_
  refine .bind (R := fun _ => .pure True) (.iterate (fun i => passed i ⊓ .pure (i < cfg.maxGcThreads))
    (fun s _ _ => ⟨fun j hj => (Nat.not_lt_zero j hj).elim, show 0 < cfg.maxGcThreads by omega⟩)
    fun i => ?_) fun i => ?_
  · have hnext : ∀ {s : GcState Tid Addr}, i < cfg.maxGcThreads →
        (passed (i + 1) : Assn (gcProtocol cfg : RG (GcState Tid Addr) Tid) p) s →
        (passed (if i + 1 ≥ cfg.maxGcThreads then 0 else i + 1) ⊓
          .pure ((if i + 1 ≥ cfg.maxGcThreads then 0 else i + 1) < cfg.maxGcThreads) :
            Assn (gcProtocol cfg : RG (GcState Tid Addr) Tid) p) s := by
      intro s hi h
      split
      · exact ⟨fun j hj => (Nat.not_lt_zero j hj).elim, show 0 < cfg.maxGcThreads by omega⟩
      · exact ⟨h, show i + 1 < cfg.maxGcThreads by omega⟩
    -- no slot that is passed has never been used
    refine gcRead_spec (fun used => (passed i ⊓ .pure (i < cfg.maxGcThreads)) ⊓
      .imp (used ≠ .null) (passed (i + 1))) (fun s hs h => ⟨h, fun hne j hj => ?_⟩) fun used => ?_
    · rcases Nat.lt_succ_iff_lt_or_eq.1 hj with hj | rfl
      · exact h.1 j hj
      · exact hne
    refine .ite (fun hused => ?_) fun hused => .of_ret fun s _ h => hnext h.1.2 (h.2 ?_)
    · refine gcAct_spec (fun ok => if ok then gcHas fun o => (∃ t, o.slots i = some (.thread p, t)) ∧
        o.reads = [] else passed (i + 1) ⊓ .pure (i < cfg.maxGcThreads)) (fun s hs h => ?_)
        fun ok => .ite (fun hok => ?_) fun hok => ?_
      · by_cases hu : (s.slots i).used = used
        · simp only [if_pos hu]
          refine ⟨hs.claim (.inl rfl) (hu ▸ hused) h.1.2 h.1.1, ⟨_, own_slots.2
            ⟨.inl rfl, Function.update_self .., rfl⟩⟩, ?_⟩
          exact Function.update_self ..
        · simp only [if_neg hu]
          refine ⟨⟨hs, (gcProtocol cfg).refl p s hs⟩, fun j hj => ?_, h.1.2⟩
          rcases Nat.lt_succ_iff_lt_or_eq.1 hj with hj | rfl
          · exact h.1.1 j hj
          · by_cases hnull : used = .null
            · exact hnull ▸ hu
            · exact h.2 hnull j (Nat.lt_succ_self j)
      · subst hok
        refine gcAct_spec (fun epoch => gcHas fun o => (∃ t, o.slots i = some (.thread p, t)) ∧
          o.reads = [epoch]) (fun s hs ⟨ht, hr⟩ => ⟨hs.readClock, ht, ?_⟩) fun epoch => ?_
        · change Function.update s.reads p (s.clock :: s.reads p) p = [s.clock]
          have hr : s.reads p = [] := hr
          rw [Function.update_self, hr]
        · refine gcAct_spec (fun _ => .pure True) (fun s hs h => ⟨?_, trivial⟩)
            fun _ => .of_ret fun _ _ _ => trivial
          obtain ⟨⟨t, ht⟩, hr⟩ := h
          have hr : s.reads p = [epoch] := hr
          have hstep := hs.publish (c := epoch) (l := s.reads p) (own_slots.1 ht).2.1
            (.inr ⟨by simp [hr], fun v hv => by simp_all⟩) fun _ h => h
          rwa [GcState.published, Function.update_eq_self] at hstep
      · rw [if_neg hok]
        exact .of_ret fun s _ h => hnext h.2 h.1
    · rw [not_not.1 hused]
      intro h
      cases h
  · exact .last (gcAct_spec (fun _ => .pure True) (fun s hs _ =>
      ⟨hs.rename fun q hq => Function.update_of_ne hq .., trivial⟩) fun _ =>
      .of_ret fun _ _ _ => trivial)

/-- `gc_exit_thread`. -/
theorem gcExitThread_spec {J : Assn (gcProtocol cfg : RG (GcState Tid Addr) Tid) p} :
    Triple (gcProtocol cfg) p (gcHas fun o => ∃ t, o.slots o.idx = some (.thread p, t))
      (gcExitThread cfg p) (fun _ => .pure True) J := by
  refine gcRead_spec (fun i => holding (.thread p) i) (fun _ _ h => h) fun i => ?_
  refine gcAct_spec (fun _ => gcHas fun o => ∃ t, o.slots i = some (.thread p, t) ∧
    t.ts = cfg.epochMax) (fun s hs ⟨t, ht⟩ => ?_) fun _ => ?_
  · obtain ⟨hk, hholder, hslot⟩ := own_slots.1 ht
    have hstep := hs.publish (l := s.reads p) hholder (.inl rfl) fun _ h => h
    rw [GcState.published, Function.update_eq_self] at hstep
    refine ⟨hstep, _, own_slots.2 ⟨hk, hholder, rfl⟩, ?_⟩
    simp
  · refine gcAct_spec (fun _ => .pure True) (fun s hs h => ⟨?_, trivial⟩) fun _ => ?_
    · obtain ⟨t, ht, hts⟩ := h
      obtain ⟨hk, hholder, hslot⟩ := own_slots.1 ht
      exact hs.release (hholder ▸ hk) (hslot ▸ hts)
    · refine .last (gcAct_spec (fun _ => .pure True) (fun s hs _ => ⟨?_, trivial⟩) fun _ =>
        .of_ret fun _ _ _ => trivial)
      exact hs.rename fun _ _ => rfl

/-- `gc_set_epoch`. -/
theorem gcSetEpoch_spec {epoch : ℕ} {J : Assn (gcProtocol cfg : RG (GcState Tid Addr) Tid) p} :
    Triple (gcProtocol cfg) p
      (gcHas fun o => (∃ t, o.slots o.idx = some (.thread p, t)) ∧ epoch ∈ o.reads)
      (gcSetEpoch cfg p epoch) (fun _ => .pure True) J := by
  refine gcRead_spec (fun i => gcHas fun o => (∃ t, o.slots i = some (.thread p, t)) ∧
    epoch ∈ o.reads) (fun _ _ h => h) fun i => .ite (fun _ => .of_ret fun _ _ _ => trivial)
    fun _ => ?_
  refine .last (gcAct_spec (fun _ => .pure True) (fun s hs ⟨⟨t, ht⟩, hread⟩ => ⟨?_, trivial⟩)
    fun _ => .of_ret fun _ _ _ => trivial)
  refine hs.publish (own_slots.1 ht).2.1 (.inr ⟨hread, fun v hv => ?_⟩) fun v hv => ?_
  · rw [List.mem_singleton.1 hv]
  · rwa [List.mem_singleton.1 hv]

/-- `gc_cleanup_all`. -/
theorem gcCleanupAll_spec {J : Assn (gcProtocol cfg : RG (GcState Tid Addr) Tid) p} :
    Triple (gcProtocol cfg) p (.pure True) (gcCleanupAll cfg p) (fun _ => .pure True) J := by
  refine .iterate (fun b => .imp (b.2 ≠ cfg.epochMax) (bounding b.2))
    (fun _ _ _ h => (h rfl).elim) fun (i, m) => ?_
  refine .ite (fun hi => ?_) fun _ => .of_ret fun _ _ _ => trivial
  refine gcRead_spec (fun _ => .imp (m ≠ cfg.epochMax) (bounding m)) (fun _ _ h => h) fun used =>
    .ite (fun _ => .of_ret fun _ _ _ => trivial) fun _ => ?_
  refine gcRead_spec (fun _ => .imp (m ≠ cfg.epochMax) (bounding m)) (fun _ _ h => h) fun used =>
    .ite (fun _ => ?_) fun _ => .of_ret fun _ _ h => h
  refine gcAct_spec (fun ok => .imp (m ≠ cfg.epochMax) (bounding m) ⊓
    .imp (ok = true) (holding (.cleaner p) i)) (fun s hs h => ?_) fun ok =>
    .ite (fun hok => ?_) fun _ => .of_ret fun _ _ h => h.1
  · by_cases hu : (s.slots i).used = .freeFull
    · simp only [if_pos hu]
      have hstep := hs.claim (k := .cleaner p) (.inr rfl) (by rw [hu]; nofun) hi fun j hj hnull => by
        cases (hs.next j i hj.le hnull).symm.trans hu
      refine ⟨hstep, fun hm => ?_, fun _ => ⟨_, own_slots.2 ⟨.inr rfl, Function.update_self .., rfl⟩⟩⟩
      exact ⟨(h hm).1, fun j => hstep.2.above m j (h hm).1 ((h hm).2 j)⟩
    · simp only [if_neg hu]
      exact ⟨⟨hs, (gcProtocol cfg).refl p s hs⟩, h, nofun⟩
  · refine .bind (R := fun m => holding (.cleaner p) i ⊓ bounding m) ?_ fun m => ?_
    · refine .ite (fun _ => ?_) fun hm => .of_ret fun _ _ h => ⟨h.2 hok, h.1 hm⟩
      refine gcRead_spec (fun now => holding (.cleaner p) i ⊓ reached now) (fun _ _ h =>
        ⟨h.2 hok, le_rfl⟩) fun now => gcComputeMin_spec now
    · refine .bind (gcCleanupThread_spec m) fun _ => gcAct_spec (fun _ => bounding m)
        (fun s hs ⟨⟨t, ht⟩, hm⟩ => ?_) fun _ => .of_ret fun _ _ h _ => h
      obtain ⟨hk, hholder, hslot⟩ := own_slots.1 ht
      have hstep := hs.release (hholder ▸ hk) (hs.cleaned i p hholder)
      exact ⟨hstep, hm.1, fun j => hstep.2.above m j hm.1 (hm.2 j)⟩

end TinyStm
