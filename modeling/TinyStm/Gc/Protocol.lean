import Mathlib.Order.Nat
import TinyStm.Gc.Model

/-!
# The protocol of the collector

What every thread keeps of the slots. The lower bound `m` of the epochs is computed slot by slot while
threads come and go: `Above m i` says that slot `i` does not, and will not, publish an epoch below `m`,
and no step makes it false once the clock has reached `m`.
-/

namespace TinyStm

variable {Tid Addr : Type} {cfg : GcConfig} {p q : Tid} {s s' : GcState Tid Addr} {i m : ℕ}

/-- What thread `p` has to itself: the slots that it holds among other things. -/
structure GcOwn (Tid Addr : Type) where
  idx : ℕ
  reads : List ℕ
  slots : ℕ → Option (GcHolder Tid × GcThread Addr)

/-- The slot is held by `p`. -/
def GcHolder.Is (h : GcHolder Tid) (p : Tid) : Prop := h = .thread p ∨ h = .cleaner p

instance [DecidableEq Tid] (h : GcHolder Tid) (p : Tid) : Decidable (h.Is p) :=
  inferInstanceAs (Decidable (_ ∨ _))

/-- What thread `p` has to itself. -/
def GcState.own [DecidableEq Tid] (s : GcState Tid Addr) (p : Tid) : GcOwn Tid Addr where
  idx := s.idx p
  reads := s.reads p
  slots i := if (s.holder i).Is p then some (s.holder i, s.slots i) else none

/-- If the slot is in use, the epoch published in it and those that its thread may publish next are
not below `m`. -/
def GcState.Above (s : GcState Tid Addr) (m i : ℕ) : Prop :=
  (s.slots i).used = .busy → m ≤ (s.slots i).ts ∧
    ∀ p, s.holder i = .thread p → ∀ v ∈ s.reads p, m ≤ v

/-- The epochs of the blocks of a region are not above its timestamp. -/
def GcThread.Sorted (t : GcThread Addr) : Prop :=
  ∀ r ∈ t.regions, ∀ b ∈ r.blocks, b.2 ≤ r.ts

/-- The invariant. -/
structure GcInv (cfg : GcConfig) (s : GcState Tid Addr) : Prop where
  clock : s.clock ≤ cfg.epochMax
  held : ∀ i, s.holder i ≠ .nobody ↔ (s.slots i).used = .busy
  idle : ∀ i, (s.slots i).used ≠ .busy → (s.slots i).ts = cfg.epochMax
  cleaned : ∀ i p, s.holder i = .cleaner p → (s.slots i).ts = cfg.epochMax
  reads : ∀ p, ∀ v ∈ s.reads p, v ≤ s.clock
  ts : ∀ i p, s.holder i = .thread p → (s.slots i).ts = cfg.epochMax ∨
    (s.slots i).ts ≤ s.clock ∧ ∀ v ∈ s.reads p, (s.slots i).ts ≤ v
  next : ∀ i j, i ≤ j → (s.slots i).used = .null → (s.slots j).used = .null
  bound : ∀ i, cfg.maxGcThreads ≤ i → (s.slots i).used = .null
  sorted : ∀ i, (s.slots i).Sorted
  freed : ∀ b ∈ s.freed, b.2 < s.clock ∧ ∀ i, s.Above (b.2 + 1) i

/-- What thread `p` may do. -/
structure GcGuar [DecidableEq Tid] (p : Tid) (s s' : GcState Tid Addr) : Prop where
  clock : s.clock ≤ s'.clock
  above : ∀ m i, m ≤ s.clock → s.Above m i → s'.Above m i
  taken : ∀ i, (s.slots i).used ≠ .null → (s'.slots i).used ≠ .null
  own : ∀ q, q ≠ p → s'.own q = s.own q

/-- The protocol. -/
def gcProtocol [DecidableEq Tid] (cfg : GcConfig) : RG (GcState Tid Addr) Tid where
  inv := GcInv cfg
  guar := GcGuar
  obs _ := True
  refl _ _ _ := ⟨le_rfl, fun _ _ _ h => h, fun _ h => h, fun _ _ => rfl⟩

@[simp] theorem setSlot_slots_self (s : GcState Tid Addr) (i : ℕ)
    (f : GcThread Addr → GcThread Addr) : (s.setSlot i f).slots i = f (s.slots i) :=
  Function.update_self ..

theorem setSlot_slots_of_ne {j : ℕ} (h : j ≠ i) (f : GcThread Addr → GcThread Addr) :
    (s.setSlot i f).slots j = s.slots j :=
  Function.update_of_ne h ..

/-! ## The contents of the slots -/

/-- The step leaves alone the clock, the holders and the epochs. -/
structure SameEpochs (s s' : GcState Tid Addr) : Prop where
  clock : s'.clock = s.clock
  holder : s'.holder = s.holder
  reads : s'.reads = s.reads
  used : ∀ i, (s'.slots i).used = (s.slots i).used
  ts : ∀ i, (s'.slots i).ts = (s.slots i).ts

theorem SameEpochs.above (h : SameEpochs s s') : s'.Above m i ↔ s.Above m i := by
  unfold GcState.Above
  rw [h.used, h.ts, h.holder, h.reads]

/-- A step that changes the regions and gives blocks back. -/
theorem GcInv.sameEpochs (h : GcInv cfg s) (hs : SameEpochs s s')
    (hsorted : ∀ i, (s'.slots i).Sorted)
    (hfreed : ∀ b ∈ s'.freed, b.2 < s.clock ∧ ∀ i, s.Above (b.2 + 1) i) : GcInv cfg s' where
  clock := hs.clock ▸ h.clock
  held i := by
    rw [hs.holder, hs.used]
    exact h.held i
  idle i := by
    rw [hs.used, hs.ts]
    exact h.idle i
  cleaned i p := by
    rw [hs.holder, hs.ts]
    exact h.cleaned i p
  reads := by
    rw [hs.reads, hs.clock]
    exact h.reads
  ts i p := by
    rw [hs.holder, hs.ts, hs.reads, hs.clock]
    exact h.ts i p
  next i j := by
    rw [hs.used, hs.used]
    exact h.next i j
  bound i := by
    rw [hs.used]
    exact h.bound i
  sorted := hsorted
  freed b hb := by
    rw [hs.clock]
    exact ⟨(hfreed b hb).1, fun i => hs.above.2 ((hfreed b hb).2 i)⟩

variable [DecidableEq Tid]

/-- What the other threads have is left alone if their slots are. -/
theorem own_eq {q : Tid} (hidx : s'.idx q = s.idx q) (hreads : s'.reads q = s.reads q)
    (hheld : ∀ i, (s'.holder i).Is q ↔ (s.holder i).Is q)
    (hslots : ∀ i, (s.holder i).Is q → s'.holder i = s.holder i ∧ s'.slots i = s.slots i) :
    s'.own q = s.own q := by
  simp only [GcState.own, GcOwn.mk.injEq, hidx, hreads, true_and]
  funext i
  by_cases hi : (s.holder i).Is q
  · rw [if_pos hi, if_pos ((hheld i).2 hi), (hslots i hi).1, (hslots i hi).2]
  · rw [if_neg hi, if_neg (mt (hheld i).1 hi)]

theorem SameEpochs.guar (hs : SameEpochs s s') (hidx : ∀ q, q ≠ p → s'.idx q = s.idx q)
    (hslots : ∀ q, q ≠ p → ∀ i, (s.holder i).Is q → s'.slots i = s.slots i) : GcGuar p s s' where
  clock := hs.clock.ge
  above _ _ _ := hs.above.2
  taken i := by
    rw [hs.used]
    exact id
  own q hq := own_eq (hidx q hq) (congrFun hs.reads q) (fun i => by rw [hs.holder])
    fun i hi => ⟨congrFun hs.holder i, hslots q hq i hi⟩

omit [DecidableEq Tid] in
theorem GcHolder.Is.ne_nobody {h : GcHolder Tid} (hp : h.Is p) : h ≠ .nobody := by
  rcases hp with rfl | rfl <;> nofun

omit [DecidableEq Tid] in
/-- A slot has one holder. -/
theorem GcHolder.Is.unique {h : GcHolder Tid} (hp : h.Is p) (hq : h.Is q) : q = p := by
  rcases hp with rfl | rfl <;> rcases hq with h | h <;> cases h <;> rfl

/-- The holder of a slot changes its regions. -/
theorem GcInv.setRegions (h : GcInv cfg s) (hi : (s.holder i).Is p)
    {f : GcThread Addr → GcThread Addr}
    (hf : ∀ t, (f t).used = t.used ∧ (f t).ts = t.ts) (hsorted : (f (s.slots i)).Sorted) :
    GcInv cfg (s.setSlot i f) ∧ GcGuar p s (s.setSlot i f) := by
  have hs : SameEpochs s (s.setSlot i f) := by
    refine ⟨rfl, rfl, rfl, fun j => ?_, fun j => ?_⟩
    · by_cases hj : j = i
      · rw [hj, setSlot_slots_self, (hf _).1]
      · rw [setSlot_slots_of_ne hj]
    · by_cases hj : j = i
      · rw [hj, setSlot_slots_self, (hf _).2]
      · rw [setSlot_slots_of_ne hj]
  refine ⟨h.sameEpochs hs (fun j => ?_) h.freed, hs.guar (fun _ _ => rfl) fun q hq j hj =>
    setSlot_slots_of_ne ?_ f⟩
  · by_cases hj : j = i
    · rw [hj, setSlot_slots_self]
      exact hsorted
    · rw [setSlot_slots_of_ne hj]
      exact h.sorted j
  · rintro rfl
    exact hq (hi.unique hj)

/-- A block is given back when all slots are above its epoch. -/
theorem GcInv.xfree (h : GcInv cfg s) {b : Addr × ℕ} (hb : b.2 < s.clock)
    (habove : ∀ i, s.Above (b.2 + 1) i) :
    GcInv cfg { s with freed := b :: s.freed } ∧
      GcGuar p s { s with freed := b :: s.freed } := by
  have hs : SameEpochs s { s with freed := b :: s.freed } :=
    ⟨rfl, rfl, rfl, fun _ => rfl, fun _ => rfl⟩
  refine ⟨h.sameEpochs hs h.sorted fun c hc => ?_, hs.guar (fun _ _ => rfl) fun _ _ _ _ => rfl⟩
  rcases List.mem_cons.1 hc with rfl | hc
  · exact ⟨hb, habove⟩
  · exact h.freed c hc

/-! ## The epochs -/

/-- The clock advances. -/
theorem GcInv.tick (h : GcInv cfg s) {now : ℕ} (hnow : s.clock ≤ now) (hmax : now ≤ cfg.epochMax) :
    GcInv cfg { s with clock := now } ∧ GcGuar p s { s with clock := now } := by
  refine ⟨
      { clock := hmax
        held := h.held
        idle := h.idle
        cleaned := h.cleaned
        reads := fun p v hv => (h.reads p v hv).trans hnow
        ts := fun i p hi => ?_
        next := h.next
        bound := h.bound
        sorted := h.sorted
        freed := fun b hb => ?_ },
      { clock := hnow
        above := fun _ _ _ h => h
        taken := fun _ h => h
        own := fun _ _ => rfl }⟩
  · exact (h.ts i p hi).imp id fun h => ⟨h.1.trans hnow, h.2⟩
  · exact ⟨(h.freed b hb).1.trans_le hnow, (h.freed b hb).2⟩

/-- A thread reads the clock. -/
theorem GcInv.readClock (h : GcInv cfg s) :
    GcInv cfg { s with reads := Function.update s.reads p (s.clock :: s.reads p) } ∧
      GcGuar p s { s with reads := Function.update s.reads p (s.clock :: s.reads p) } := by
  have hreads : ∀ q, ∀ v ∈ Function.update s.reads p (s.clock :: s.reads p) q,
      v = s.clock ∨ v ∈ s.reads q := by
    intro q v hv
    by_cases hq : q = p
    · subst hq
      rw [Function.update_self] at hv
      exact List.mem_cons.1 hv
    · rw [Function.update_of_ne hq] at hv
      exact .inr hv
  have habove : ∀ m i, m ≤ s.clock → s.Above m i →
      GcState.Above { s with reads := Function.update s.reads p (s.clock :: s.reads p) } m i := by
    refine fun m i hm ha hbusy => ⟨(ha hbusy).1, fun q hq v hv => ?_⟩
    rcases hreads q v hv with rfl | hv
    · exact hm
    · exact (ha hbusy).2 q hq v hv
  refine ⟨
      { clock := h.clock
        held := h.held
        idle := h.idle
        cleaned := h.cleaned
        reads := fun q v hv => ?_
        ts := fun i q hi => ?_
        next := h.next
        bound := h.bound
        sorted := h.sorted
        freed := fun b hb => ⟨(h.freed b hb).1, fun i => habove _ _ (h.freed b hb).1 ((h.freed b
          hb).2 i)⟩ },
      { clock := le_rfl
        above := habove
        taken := fun _ h => h
        own := fun q hq => ?_ }⟩
  · rcases hreads q v hv with rfl | hv
    · exact le_rfl
    · exact h.reads q v hv
  · refine (h.ts i q hi).imp id fun h => ⟨h.1, fun v hv => ?_⟩
    rcases hreads q v hv with rfl | hv
    · exact h.1
    · exact h.2 v hv
  · exact own_eq rfl (Function.update_of_ne hq ..) (fun _ => Iff.rfl) fun _ _ => ⟨rfl, rfl⟩

/-- The state after a thread has claimed slot `i`. -/
def GcState.claimed (s : GcState Tid Addr) (holder : GcHolder Tid) (i : ℕ) : GcState Tid Addr :=
  { s.setSlot i (fun t => { t with used := .busy }) with
    holder := Function.update s.holder i holder
    reads := match holder with
      | .thread p => Function.update s.reads p []
      | _ => s.reads }

/-- A thread claims a slot that is not in use. -/
theorem GcInv.claim (h : GcInv cfg s) {k : GcHolder Tid} (hk : k.Is p)
    (hfree : (s.slots i).used ≠ .busy) (hi : i < cfg.maxGcThreads)
    (hprev : ∀ j < i, (s.slots j).used ≠ .null) :
    GcInv cfg (s.claimed k i) ∧ GcGuar p s (s.claimed k i) := by
  have hself : (s.claimed k i).slots i = { s.slots i with used := .busy } :=
    Function.update_self ..
  have hslot : ∀ {j}, j ≠ i → (s.claimed k i).slots j = s.slots j := fun hj =>
    Function.update_of_ne hj ..
  have hhself : (s.claimed k i).holder i = k := Function.update_self ..
  have hholder : ∀ {j}, j ≠ i → (s.claimed k i).holder j = s.holder j := fun hj =>
    Function.update_of_ne hj ..
  have hts : (s.slots i).ts = cfg.epochMax := h.idle i hfree
  have hreads : ∀ q, ∀ v ∈ (s.claimed k i).reads q, v ∈ s.reads q ∧ k ≠ .thread q := by
    intro q v hv
    rcases hk with rfl | rfl
    · by_cases hq : q = p
      · subst hq
        simp [GcState.claimed] at hv
      · simp only [GcState.claimed, Function.update_of_ne hq] at hv
        exact ⟨hv, fun h => hq (GcHolder.thread.inj h).symm⟩
    · exact ⟨hv, nofun⟩
  have hnobody : s.holder i = .nobody := not_not.1 (mt (h.held i).1 hfree)
  have habove : ∀ m j, m ≤ s.clock → s.Above m j → (s.claimed k i).Above m j := by
    intro m j hm ha hbusy
    by_cases hj : j = i
    · subst hj
      rw [hself]
      refine ⟨hts ▸ hm.trans h.clock, fun q hq v hv => ?_⟩
      exact ((hreads q v hv).2 (hhself.symm.trans hq)).elim
    · rw [hslot hj] at hbusy ⊢
      exact ⟨(ha hbusy).1, fun q hq v hv => (ha hbusy).2 q (hholder hj ▸ hq) v (hreads q v hv).1⟩
  refine ⟨
      { clock := h.clock
        held := fun j => ?_
        idle := fun j hj => ?_
        cleaned := fun j q hq => ?_
        reads := fun q v hv => h.reads q v (hreads q v hv).1
        ts := fun j q hq => ?_
        next := fun j l hjl hj => ?_
        bound := fun j hj => ?_
        sorted := fun j => ?_
        freed := fun b hb => ⟨(h.freed b hb).1, fun j => habove _ _ (h.freed b hb).1 ((h.freed b
          hb).2 j)⟩ },
      { clock := le_rfl
        above := habove
        taken := fun j hj => ?_
        own := fun q hq => ?_ }⟩
  · by_cases hj : j = i
    · subst hj
      rw [hhself, hself]
      exact ⟨fun _ => rfl, fun _ => hk.ne_nobody⟩
    · rw [hholder hj, hslot hj]
      exact h.held j
  · by_cases hji : j = i
    · subst hji
      rw [hself] at hj
      exact (hj rfl).elim
    · rw [hslot hji] at hj ⊢
      exact h.idle j hj
  · by_cases hj : j = i
    · rw [hj, hself]
      exact hts
    · rw [hslot hj]
      exact h.cleaned j q (hholder hj ▸ hq)
  · by_cases hj : j = i
    · rw [hj, hself]
      exact .inl hts
    · rw [hslot hj]
      exact (h.ts j q (hholder hj ▸ hq)).imp id fun h =>
        ⟨h.1, fun v hv => h.2 v (hreads q v hv).1⟩
  · have hji : j ≠ i := by
      rintro rfl
      rw [hself] at hj
      cases hj
    rw [hslot hji] at hj
    by_cases hl : l = i
    · exact (hprev j (lt_of_le_of_ne (hl ▸ hjl) hji) hj).elim
    · rw [hslot hl]
      exact h.next j l hjl hj
  · rw [hslot (by omega)]
    exact h.bound j hj
  · by_cases hj : j = i
    · rw [hj, hself]
      exact h.sorted i
    · rw [hslot hj]
      exact h.sorted j
  · by_cases hji : j = i
    · rw [hji, hself]
      nofun
    · rwa [hslot hji]
  · have hfree' : ∀ j, (s.holder j).Is q → j ≠ i := by
      rintro j hj rfl
      exact hj.ne_nobody hnobody
    refine own_eq rfl ?_ (fun j => ?_) fun j hj => ⟨hholder (hfree' j hj), hslot (hfree' j hj)⟩
    · rcases hk with rfl | rfl
      · exact Function.update_of_ne hq ..
      · rfl
    · by_cases hj : j = i
      · rw [hj, hhself]
        exact ⟨fun hkq => (hq (hk.unique hkq)).elim, fun hi => (hfree' i hi rfl).elim⟩
      · rw [hholder hj]

/-- The state after thread `p` has set the epoch of slot `i`; it may publish `rs` next. -/
def GcState.published (s : GcState Tid Addr) (p : Tid) (i c : ℕ) (rs : List ℕ) :
    GcState Tid Addr :=
  { s.setSlot i (fun t => { t with ts := c }) with reads := Function.update s.reads p rs }

/-- A thread sets the epoch of its slot, to one that it may publish or to `EPOCH_MAX`. -/
theorem GcInv.publish (h : GcInv cfg s) (hi : s.holder i = .thread p) {c : ℕ} {l : List ℕ}
    (hc : c = cfg.epochMax ∨ c ∈ s.reads p ∧ ∀ v ∈ l, c ≤ v) (hrs : ∀ v ∈ l, v ∈ s.reads p) :
    GcInv cfg (s.published p i c l) ∧ GcGuar p s (s.published p i c l) := by
  have hself : (s.published p i c l).slots i = { s.slots i with ts := c } :=
    Function.update_self ..
  have hslot : ∀ {j}, j ≠ i → (s.published p i c l).slots j = s.slots j := fun hj =>
    Function.update_of_ne hj ..
  have hused : ∀ j, ((s.published p i c l).slots j).used = (s.slots j).used := by
    intro j
    by_cases hj : j = i
    · rw [hj, hself]
    · rw [hslot hj]
  have hreads : ∀ q, ∀ v ∈ (s.published p i c l).reads q, v ∈ s.reads q := by
    intro q v hv
    by_cases hq : q = p
    · subst hq
      simp only [GcState.published, Function.update_self] at hv
      exact hrs v hv
    · simpa only [GcState.published, Function.update_of_ne hq] using hv
  have habove : ∀ m j, m ≤ s.clock → s.Above m j → (s.published p i c l).Above m j := by
    intro m j hm ha hbusy
    rw [hused] at hbusy
    refine ⟨?_, fun q hq v hv => (ha hbusy).2 q hq v (hreads q v hv)⟩
    by_cases hj : j = i
    · subst hj
      rw [hself]
      rcases hc with rfl | ⟨hc, -⟩
      · exact hm.trans h.clock
      · exact (ha hbusy).2 p hi c hc
    · rw [hslot hj]
      exact (ha hbusy).1
  have hbusy : (s.slots i).used = .busy := (h.held i).1 (by rw [hi]; nofun)
  refine ⟨
      { clock := h.clock
        held := fun j => ?_
        idle := fun j hj => ?_
        cleaned := fun j q hq => ?_
        reads := fun q v hv => h.reads q v (hreads q v hv)
        ts := fun j q hq => ?_
        next := fun j l hjl => ?_
        bound := fun j => ?_
        sorted := fun j => ?_
        freed := fun b hb => ⟨(h.freed b hb).1, fun j => habove _ _ (h.freed b hb).1 ((h.freed b
          hb).2 j)⟩ },
      { clock := le_rfl
        above := habove
        taken := fun j => ?_
        own := fun q hq => ?_ }⟩
  · rw [hused]
    exact h.held j
  · rw [hused] at hj
    rw [hslot (by rintro rfl; exact hj hbusy)]
    exact h.idle j hj
  · rw [hslot (by rintro rfl; cases hi.symm.trans hq)]
    exact h.cleaned j q hq
  · by_cases hj : j = i
    · subst hj
      rw [hself]
      obtain rfl : p = q := GcHolder.thread.inj (hi.symm.trans hq)
      refine hc.imp id fun hc => ⟨h.reads p c hc.1, fun v hv => hc.2 v ?_⟩
      simpa only [GcState.published, Function.update_self] using hv
    · rw [hslot hj]
      exact (h.ts j q hq).imp id fun h => ⟨h.1, fun v hv => h.2 v (hreads q v hv)⟩
  · rw [hused, hused]
    exact h.next j l hjl
  · rw [hused]
    exact h.bound j
  · by_cases hj : j = i
    · rw [hj, hself]
      exact h.sorted i
    · rw [hslot hj]
      exact h.sorted j
  · rw [hused]
    exact id
  · refine own_eq rfl (Function.update_of_ne hq ..) (fun _ => Iff.rfl) fun j hj =>
      ⟨rfl, hslot ?_⟩
    rintro rfl
    rw [hi] at hj
    rcases hj with hj | hj
    · exact hq (GcHolder.thread.inj hj).symm
    · cases hj

/-- The state after the holder of slot `i` has released it. -/
def GcState.released (s : GcState Tid Addr) (i : ℕ) : GcState Tid Addr :=
  { s.setSlot i (fun t => { t with used := t.released }) with
    holder := Function.update s.holder i .nobody }

/-- A slot is released when no epoch is published in it. -/
theorem GcInv.release (h : GcInv cfg s) (hi : (s.holder i).Is p)
    (hts : (s.slots i).ts = cfg.epochMax) :
    GcInv cfg (s.released i) ∧ GcGuar p s (s.released i) := by
  have hself : (s.released i).slots i = { s.slots i with used := (s.slots i).released } :=
    Function.update_self ..
  have hslot : ∀ {j}, j ≠ i → (s.released i).slots j = s.slots j := fun hj =>
    Function.update_of_ne hj ..
  have hhself : (s.released i).holder i = .nobody := Function.update_self ..
  have hholder : ∀ {j}, j ≠ i → (s.released i).holder j = s.holder j := fun hj =>
    Function.update_of_ne hj ..
  have hne := released_ne (s.slots i)
  have habove : ∀ m j, s.Above m j → (s.released i).Above m j := by
    intro m j ha hbusy
    by_cases hj : j = i
    · subst hj
      rw [hself] at hbusy
      exact (hne.1 hbusy).elim
    · rw [hslot hj] at hbusy ⊢
      exact ⟨(ha hbusy).1, fun q hq => (ha hbusy).2 q (hholder hj ▸ hq)⟩
  refine ⟨
      { clock := h.clock
        held := fun j => ?_
        idle := fun j hj => ?_
        cleaned := fun j q hq => ?_
        reads := h.reads
        ts := fun j q hq => ?_
        next := fun j l hjl hj => ?_
        bound := fun j hj => ?_
        sorted := fun j => ?_
        freed := fun b hb => ⟨(h.freed b hb).1, fun j => habove _ _ ((h.freed b hb).2 j)⟩ },
      { clock := le_rfl
        above := fun m j _ => habove m j
        taken := fun j hj => ?_
        own := fun q hq => ?_ }⟩
  · by_cases hj : j = i
    · subst hj
      rw [hhself, hself]
      exact ⟨fun h => (h rfl).elim, fun h => (hne.1 h).elim⟩
    · rw [hholder hj, hslot hj]
      exact h.held j
  · by_cases hji : j = i
    · rw [hji, hself]
      exact hts
    · rw [hslot hji] at hj ⊢
      exact h.idle j hj
  · by_cases hj : j = i
    · rw [hj, hself]
      exact hts
    · rw [hslot hj]
      exact h.cleaned j q (hholder hj ▸ hq)
  · by_cases hj : j = i
    · rw [hj, hself]
      exact .inl hts
    · rw [hslot hj]
      exact h.ts j q (hholder hj ▸ hq)
  · have hji : j ≠ i := by
      rintro rfl
      rw [hself] at hj
      exact hne.2 hj
    rw [hslot hji] at hj
    have hl := h.next j l hjl hj
    rw [hslot]
    · exact hl
    · rintro rfl
      have hbusy := (h.held l).1 hi.ne_nobody
      cases hl.symm.trans hbusy
  · have hnull := h.bound j hj
    rw [hslot]
    · exact hnull
    · rintro rfl
      have hbusy := (h.held j).1 hi.ne_nobody
      cases hnull.symm.trans hbusy
  · by_cases hj : j = i
    · rw [hj, hself]
      exact h.sorted i
    · rw [hslot hj]
      exact h.sorted j
  · by_cases hji : j = i
    · rw [hji, hself]
      exact hne.2
    · rwa [hslot hji]
  · have hother : ∀ j, (s.holder j).Is q → j ≠ i := by
      rintro j hj rfl
      exact hq (hi.unique hj)
    refine own_eq rfl rfl (fun j => ?_) fun j hj => ⟨hholder (hother j hj), hslot (hother j hj)⟩
    by_cases hj : j = i
    · rw [hj, hhself]
      exact ⟨fun hn => (hn.ne_nobody rfl).elim, fun hi => (hother i hi rfl).elim⟩
    · rw [hholder hj]

end TinyStm
