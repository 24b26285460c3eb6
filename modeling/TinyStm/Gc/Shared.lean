import Mathlib.Order.Nat
import TinyStm.Gc.Model

/-!
# The collector under resets

What the functions of the collector leave alone when another thread may reset the epochs at any time:
the slots of the other threads and the timestamps of the regions. The threads of this protocol are
`some q`, for thread `q`, and `none`, for a thread that resets the collector.
-/

namespace TinyStm

variable {Tid Addr : Type} {cfg : GcConfig} {p : Tid} {e : Option ℕ} {i : ℕ}

/-- The invariant: a slot in use has a holder, and the slots that have never been used are the last
ones and have no regions. -/
structure GcShape (cfg : GcConfig) (g : GcState Tid Addr) : Prop where
  held : ∀ i, g.holder i ≠ .nobody ↔ (g.slots i).used = .busy
  next : ∀ i j, i ≤ j → (g.slots i).used = .null → (g.slots j).used = .null
  bound : ∀ i, cfg.maxGcThreads ≤ i → (g.slots i).used = .null
  blank : ∀ i, (g.slots i).used = .null → (g.slots i).regions = []

/-- A step of thread `j`, or of a reset. -/
structure GcStep (j : Option Tid) (g g' : GcState Tid Addr) : Prop where
  taken : ∀ i, (g.slots i).used ≠ .null → (g'.slots i).used ≠ .null
  idx : ∀ q, some q ≠ j → g'.idx q = g.idx q
  holder : ∀ q, some q ≠ j → ∀ i, g'.holder i = .thread q ↔ g.holder i = .thread q
  regions : ∀ q, some q ≠ j → ∀ i, g.holder i = .thread q →
    (g'.slots i).regions = (g.slots i).regions ∨ j = none ∧ (g'.slots i).regions = []

/-- The timestamps of the regions are old ones, or the epoch `e` that thread `p` frees memory at. -/
structure GcStamps (p : Tid) (e : Option ℕ) (g g' : GcState Tid Addr) : Prop where
  clock : g'.clock = g.clock
  own : e ≠ none → g'.idx p = g.idx p ∧ ∀ i, g'.holder i = .thread p → g.holder i = .thread p
  stamps : ∀ i, ∀ r ∈ (g'.slots i).regions, e = some r.ts ∨ ∃ r' ∈ (g.slots i).regions, r'.ts = r.ts

theorem GcStep.refl (j : Option Tid) (g : GcState Tid Addr) : GcStep j g g :=
  ⟨fun _ h => h, fun _ _ => rfl, fun _ _ _ => Iff.rfl, fun _ _ _ _ => .inl rfl⟩

/-- Blocks are given back. -/
theorem GcStep.freed (g : GcState Tid Addr) (freed : List (Addr × ℕ)) :
    GcStep none g { g with freed := freed } :=
  ⟨fun _ h => h, fun _ _ => rfl, fun _ _ _ => .rfl, fun _ _ _ _ => .inl rfl⟩

/-- A slot is cleared by a reset. -/
theorem GcStep.clear (g : GcState Tid Addr) (i : ℕ) {t : GcThread Addr}
    (hused : t.used = (g.slots i).used) (hregions : t.regions = []) :
    GcStep none g { g with slots := Function.update g.slots i t } := by
  have hslot {j : ℕ} (hj : j ≠ i) : Function.update g.slots i t j = g.slots j :=
    Function.update_of_ne hj ..
  refine ⟨fun j hj => ?_, fun _ _ => rfl, fun _ _ _ => .rfl, fun q hq j hj => ?_⟩
  · by_cases hji : j = i
    · subst hji
      simpa only [Function.update_self, hused] using hj
    · simpa only [hslot hji] using hj
  · by_cases hji : j = i
    · subst hji
      exact .inr ⟨rfl, by simpa only [Function.update_self] using hregions⟩
    · exact .inl (by simp only [hslot hji])

theorem GcStep.slotted {j : Option Tid} {g g' : GcState Tid Addr} {q : Tid} (h : GcStep j g g')
    (hq : some q ≠ j) : g'.holder (g'.idx q) = .thread q ↔ g.holder (g.idx q) = .thread q := by
  rw [h.idx q hq]
  exact h.holder q hq _

theorem GcStamps.refl (p : Tid) (e : Option ℕ) (g : GcState Tid Addr) : GcStamps p e g g :=
  ⟨rfl, fun _ => ⟨rfl, fun _ h => h⟩, fun _ r hr => .inr ⟨r, hr, rfl⟩⟩

/-- The regions of a slot are not after `n`, if they were not and neither is the epoch. -/
theorem GcStamps.le {g g' : GcState Tid Addr} {n : ℕ} (h : GcStamps p e g g')
    (hold : ∀ r ∈ (g.slots i).regions, r.ts ≤ n) (he : ∀ t, e = some t → t ≤ n) :
    ∀ r ∈ (g'.slots i).regions, r.ts ≤ n := by
  intro r hr
  rcases h.stamps i r hr with hr | ⟨r', hr', hts⟩
  · exact he r.ts hr
  · exact hts ▸ hold r' hr'

theorem GcShape.setClock {g : GcState Tid Addr} (h : GcShape cfg g) (now : ℕ) :
    GcShape cfg { g with clock := now } :=
  ⟨h.held, h.next, h.bound, h.blank⟩

theorem GcShape.setFreed {g : GcState Tid Addr} (h : GcShape cfg g) (freed : List (Addr × ℕ)) :
    GcShape cfg { g with freed := freed } :=
  ⟨h.held, h.next, h.bound, h.blank⟩

/-- A slot is cleared. -/
theorem GcShape.clear {g : GcState Tid Addr} (h : GcShape cfg g) (i : ℕ) {t : GcThread Addr}
    (hused : t.used = (g.slots i).used) (hregions : t.regions = []) :
    GcShape cfg { g with slots := Function.update g.slots i t } := by
  have hused' (j : ℕ) : (Function.update g.slots i t j).used = (g.slots j).used := by
    by_cases hj : j = i
    · subst hj
      rw [Function.update_self, hused]
    · rw [Function.update_of_ne hj]
  refine ⟨fun j => ?_, fun j k hjk => ?_, fun j => ?_, fun j hj => ?_⟩
  · rw [hused']
    exact h.held j
  · rw [hused', hused']
    exact h.next j k hjk
  · rw [hused']
    exact h.bound j
  · rw [hused'] at hj
    by_cases hji : j = i
    · subst hji
      simpa only [Function.update_self] using hregions
    · simpa only [Function.update_of_ne hji] using h.blank j hj

/-- The protocol, for the calls of thread `p` that free memory at epoch `e`. -/
def gcShared (cfg : GcConfig) (p : Tid) (e : Option ℕ) : RG (GcState Tid Addr) (Option Tid) where
  inv := GcShape cfg
  guar j g g' := GcStep j g g' ∧ (j = some p → GcStamps p e g g')
  obs _ := True
  refl j g _ := ⟨.refl j g, fun _ => .refl p e g⟩

/-- An assertion about the index of thread `p` and the slots that it holds. -/
def gcSlots (φ : ℕ → (ℕ → Prop) → Prop) :
    Assn (gcShared cfg p e : RG (GcState Tid Addr) (Option Tid)) (some p) where
  holds g := φ (g.idx p) fun i => g.holder i = .thread p
  stable q hq g g' _ _ hg h := by
    have hholder : (fun i => g'.holder i = .thread p) = fun i => g.holder i = .thread p :=
      funext fun i => propext (hg.1.holder p (Ne.symm hq) i)
    rw [hg.1.idx p (Ne.symm hq), hholder]
    exact h

/-- The slots before `i` have all been used. -/
def gcUsed (i : ℕ) : Assn (gcShared cfg p e : RG (GcState Tid Addr) (Option Tid)) (some p) where
  holds g := ∀ j < i, (g.slots j).used ≠ .null
  stable _ _ _ _ _ _ hg h j hj := hg.1.taken j (h j hj)

/-- What a step of thread `p` must satisfy. -/
def GcFair (cfg : GcConfig) (p : Tid) (e : Option ℕ) (g g' : GcState Tid Addr) : Prop :=
  GcShape cfg g' ∧ GcStep (some p) g g' ∧ GcStamps p e g g'

section
variable {α β : Type} {P J : Assn (gcShared cfg p e : RG (GcState Tid Addr) (Option Tid)) (some p)}
  {Q : α → Assn (gcShared cfg p e : RG (GcState Tid Addr) (Option Tid)) (some p)}

/-- A thread reads the state. -/
theorem gcSharedRead_spec {f : GcState Tid Addr → β} {c : β → GcProg Tid Addr α}
    (R : β → Assn (gcShared cfg p e : RG (GcState Tid Addr) (Option Tid)) (some p))
    (h : ∀ g, P g → R (f g) g) (hc : ∀ b, Triple (gcShared cfg p e) (some p) (R b) (c b) Q J) :
    Triple (gcShared cfg p e) (some p) P (.read f >>= c) Q J :=
  .act R (fun g hg hP => ⟨hg.inv, (gcShared cfg p e).refl _ g hg.inv, h g hP⟩) hc

/-- A thread changes the state. -/
theorem gcSharedAct_spec {f : GcState Tid Addr → β × GcState Tid Addr} {c : β → GcProg Tid Addr α}
    (R : β → Assn (gcShared cfg p e : RG (GcState Tid Addr) (Option Tid)) (some p))
    (h : ∀ g, GcShape cfg g → P g → GcFair cfg p e g (f g).2 ∧ R (f g).1 (f g).2)
    (hc : ∀ b, Triple (gcShared cfg p e) (some p) (R b) (c b) Q J) :
    Triple (gcShared cfg p e) (some p) P (.atomic f >>= c) Q J :=
  .act R (fun g hg hP => ⟨(h g hg.inv hP).1.1, ⟨(h g hg.inv hP).1.2.1, fun _ =>
    (h g hg.inv hP).1.2.2⟩, (h g hg.inv hP).2⟩) hc

end

/-! ## The steps -/

/-- A step that leaves alone the slots and their holders. -/
theorem GcShape.keep {g g' : GcState Tid Addr} (h : GcShape cfg g) (hclock : g'.clock = g.clock)
    (hslots : g'.slots = g.slots) (hholder : g'.holder = g.holder)
    (hidx : ∀ q, q ≠ p → g'.idx q = g.idx q) (hidx' : e ≠ none → g'.idx p = g.idx p) :
    GcFair cfg p e g g' := by
  refine ⟨
      { held := ?_
        next := ?_
        bound := ?_
        blank := ?_ },
      { taken := ?_
        idx := fun q hq => hidx q (mt (congrArg some) hq)
        holder := ?_
        regions := ?_ },
      { clock := hclock
        own := fun he => ⟨hidx' he, fun i h => by rwa [hholder] at h⟩
        stamps := ?_ }⟩
  · rw [hslots, hholder]
    exact h.held
  · rw [hslots]
    exact h.next
  · rw [hslots]
    exact h.bound
  · rw [hslots]
    exact h.blank
  · rw [hslots]
    exact fun _ h => h
  · rw [hholder]
    exact fun _ _ _ => Iff.rfl
  · rw [hslots]
    exact fun _ _ _ _ => .inl rfl
  · rw [hslots]
    exact fun _ r hr => .inr ⟨r, hr, rfl⟩

/-- The thread changes a slot that it holds, but not its status. -/
theorem GcShape.modify {g : GcState Tid Addr} (h : GcShape cfg g) (hi : g.holder i = .thread p)
    {t : GcThread Addr} (hused : t.used = (g.slots i).used)
    (ht : ∀ r ∈ t.regions, e = some r.ts ∨ ∃ r' ∈ (g.slots i).regions, r'.ts = r.ts)
    {g' : GcState Tid Addr} (hclock : g'.clock = g.clock) (hidx : g'.idx = g.idx)
    (hholder : g'.holder = g.holder) (hslots : g'.slots = Function.update g.slots i t) :
    GcFair cfg p e g g' := by
  have hself : g'.slots i = t := by rw [hslots, Function.update_self]
  have hslot {j : ℕ} (hj : j ≠ i) : g'.slots j = g.slots j := by
    rw [hslots, Function.update_of_ne hj]
  have hused' (j : ℕ) : (g'.slots j).used = (g.slots j).used := by
    by_cases hj : j = i
    · rw [hj, hself, hused]
    · rw [hslot hj]
  have hbusy : (g.slots i).used = .busy := (h.held i).1 (by rw [hi]; nofun)
  refine ⟨
      { held := fun j => ?_
        next := fun j k hjk => ?_
        bound := fun j => ?_
        blank := fun j hj => ?_ },
      { taken := fun j => ?_
        idx := fun _ _ => congrFun hidx _
        holder := fun _ _ j => by rw [hholder]
        regions := fun q hq j hj => .inl (congrArg _ (hslot ?_)) },
      { clock := hclock
        own := fun _ => ⟨congrFun hidx _, fun j h => by rwa [hholder] at h⟩
        stamps := fun j r hr => ?_ }⟩
  · rw [hused', hholder]
    exact h.held j
  · rw [hused', hused']
    exact h.next j k hjk
  · rw [hused']
    exact h.bound j
  · rw [hused'] at hj
    rw [hslot (by rintro rfl; cases hbusy.symm.trans hj)]
    exact h.blank j hj
  · rw [hused']
    exact id
  · rintro rfl
    cases hi.symm.trans hj
    exact hq rfl
  · by_cases hj : j = i
    · subst hj
      rw [hself] at hr
      exact ht r hr
    · rw [hslot hj] at hr
      exact .inr ⟨r, hr, rfl⟩

/-- The thread takes or releases slot `i`; no other thread holds it. -/
theorem GcShape.take {g : GcState Tid Addr} (h : GcShape cfg g)
    (hi : ∀ q, q ≠ p → g.holder i ≠ .thread q) {k : GcHolder Tid} (hk : ∀ q, q ≠ p → k ≠ .thread q)
    (hown : e ≠ none → k ≠ .thread p) {u : GcUsed} (hu : u ≠ .null) (hku : k ≠ .nobody ↔ u = .busy) (hlt : i < cfg.maxGcThreads)
    (hprev : ∀ j < i, (g.slots j).used ≠ .null) {g' : GcState Tid Addr}
    (hclock : g'.clock = g.clock) (hidx : g'.idx = g.idx)
    (hholder : g'.holder = Function.update g.holder i k)
    (hslots : g'.slots = Function.update g.slots i { g.slots i with used := u }) :
    GcFair cfg p e g g' := by
  have hself : g'.slots i = { g.slots i with used := u } := by rw [hslots, Function.update_self]
  have hslot {j : ℕ} (hj : j ≠ i) : g'.slots j = g.slots j := by
    rw [hslots, Function.update_of_ne hj]
  have hregions (j : ℕ) : (g'.slots j).regions = (g.slots j).regions := by
    by_cases hj : j = i
    · rw [hj, hself]
    · rw [hslot hj]
  refine ⟨
      { held := fun j => ?_
        next := fun j l hjl hj => ?_
        bound := fun j hj => ?_
        blank := fun j hj => ?_ },
      { taken := fun j hj => ?_
        idx := fun _ _ => congrFun hidx _
        holder := fun q hq j => ?_
        regions := fun _ _ j _ => .inl (hregions j) },
      { clock := hclock
        own := fun he => ⟨congrFun hidx _, fun j hj => ?_⟩
        stamps := fun j r hr => .inr ⟨r, hregions j ▸ hr, rfl⟩ }⟩
  · by_cases hj : j = i
    · rw [hj, hself, hholder, Function.update_self]
      exact hku
    · rw [hslot hj, hholder, Function.update_of_ne hj]
      exact h.held j
  · have hji : j ≠ i := by
      rintro rfl
      rw [hself] at hj
      exact hu hj
    rw [hslot hji] at hj
    by_cases hl : l = i
    · exact (hprev j (lt_of_le_of_ne (hl ▸ hjl) hji) hj).elim
    · rw [hslot hl]
      exact h.next j l hjl hj
  · rw [hslot (by omega)]
    exact h.bound j hj
  · by_cases hji : j = i
    · subst hji
      rw [hself] at hj
      exact (hu hj).elim
    · rw [hslot hji] at hj ⊢
      exact h.blank j hj
  · by_cases hji : j = i
    · rw [hji, hself]
      exact hu
    · rwa [hslot hji]
  · have hq : q ≠ p := mt (congrArg some) hq
    by_cases hj : j = i
    · rw [hj, hholder, Function.update_self]
      exact ⟨fun h' => (hk q hq h').elim, fun h' => (hi q hq h').elim⟩
    · rw [hholder, Function.update_of_ne hj]
  · rw [hholder] at hj
    by_cases hji : j = i
    · rw [hji, Function.update_self] at hj
      exact (hown he hj).elim
    · rwa [Function.update_of_ne hji] at hj

/-- A slot that a thread holds has a place before the last one, behind slots that have been used. -/
theorem GcShape.place {g : GcState Tid Addr} (h : GcShape cfg g) (hi : g.holder i = .thread p) :
    i < cfg.maxGcThreads ∧ ∀ j < i, (g.slots j).used ≠ .null := by
  have hbusy : (g.slots i).used = .busy := (h.held i).1 (by rw [hi]; nofun)
  refine ⟨not_le.1 fun hle => ?_, fun j hj hnull => ?_⟩
  · cases (h.bound i hle).symm.trans hbusy
  · cases (h.next j i hj.le hnull).symm.trans hbusy

/-! ## The functions -/

section
variable {P J : Assn (gcShared cfg p e : RG (GcState Tid Addr) (Option Tid)) (some p)}

/-- `gc_compute_min` only reads. -/
theorem gcComputeMin_shared (now : ℕ) :
    Triple (gcShared cfg p e) (some p) P (gcComputeMin cfg now) (fun _ => P) J := by
  refine .iterate (fun _ => P) (fun _ _ h => h) fun (i, m) => ?_
  refine .ite (fun _ => ?_) fun _ => .of_ret fun _ _ h => h
  refine gcSharedRead_spec (fun _ => P) (fun _ h => h) fun used => ?_
  cases used with
  | null => exact .of_ret fun _ _ h => h
  | freeEmpty => exact .of_ret fun _ _ h => h
  | freeFull => exact .of_ret fun _ _ h => h
  | busy =>
    refine gcSharedRead_spec (fun _ => P) (fun _ h => h) fun ts => ?_
    exact .ite (fun _ => .of_ret fun _ _ h => h) fun _ => .of_ret fun _ _ h => h

variable {φ : ℕ → (ℕ → Prop) → Prop}

/-- `gc_clean_blocks`. -/
theorem gcCleanBlocks_shared (bs : List (Addr × ℕ)) :
    Triple (gcShared cfg p e) (some p) (gcSlots φ) (gcCleanBlocks bs) (fun _ => gcSlots φ) J := by
  induction bs with
  | nil => exact .of_ret fun _ _ h => h
  | cons b bs ih =>
    refine gcSharedAct_spec (fun _ => gcSlots φ) (fun g hg h => ⟨?_, h⟩) fun _ => ih
    exact hg.keep rfl rfl rfl (fun _ _ => rfl) fun _ => rfl

/-- Thread `p` holds slot `i`, which is its own. -/
def GcOwns (i : ℕ) (j : ℕ) (held : ℕ → Prop) : Prop := j = i ∧ held i

/-- A change of the regions of a slot that the thread holds. -/
theorem gcModifySlot_shared {α : Type} {f : GcThread Addr → GcThread Addr}
    {c : Unit → GcProg Tid Addr α} {Q : α → Assn (gcShared cfg p e) (some p)}
    (hused : ∀ t, (f t).used = t.used)
    (hf : ∀ t, ∀ r ∈ (f t).regions, e = some r.ts ∨ ∃ r' ∈ t.regions, r'.ts = r.ts)
    (hc : Triple (gcShared cfg p e) (some p) (gcSlots (GcOwns i)) (c ()) Q J) :
    Triple (gcShared cfg p e) (some p) (gcSlots (GcOwns i)) (gcModifySlot i f >>= c) Q J := by
  refine gcSharedAct_spec (fun _ => gcSlots (GcOwns i)) (fun g hg h => ⟨?_, h⟩) fun _ => hc
  exact hg.modify h.2 (hused _) (hf _) rfl rfl rfl rfl

/-- `gc_cleanup_thread`. -/
theorem gcCleanupThread_shared (m : ℕ) :
    Triple (gcShared cfg p e) (some p) (gcSlots (GcOwns i)) (gcCleanupThread i m)
      (fun _ => gcSlots (GcOwns i)) J := by
  refine .iterate (fun _ => gcSlots (GcOwns i)) (fun _ _ h => h) fun _ => ?_
  refine gcSharedRead_spec (fun _ => gcSlots (GcOwns i)) (fun _ h => h) fun rs => ?_
  cases rs with
  | nil => exact .of_ret fun _ _ h => h
  | cons head next =>
    refine .ite (fun _ => ?_) fun _ => .of_ret fun _ _ h => h
    refine .bind (gcCleanBlocks_shared head.blocks) fun _ => ?_
    refine gcModifySlot_shared (fun _ => rfl) (fun t r hr => ?_) (.of_ret fun _ _ h => h)
    exact .inr ⟨r, List.mem_of_mem_tail hr, rfl⟩

/-- `gc_cleanup`. -/
theorem gcCleanup_shared :
    Triple (gcShared cfg p e) (some p) (gcSlots (GcOwns i)) (gcCleanup cfg p)
      (fun _ => gcSlots (GcOwns i)) J := by
  refine gcSharedRead_spec (fun j => gcSlots (GcOwns i) ⊓ .pure (j = i)) (fun _ h => ⟨h, h.1⟩)
    fun j => .of_fact (fun _ _ h => h.2) fun hj => ?_
  subst hj
  refine gcSharedRead_spec (fun _ => gcSlots (GcOwns j)) (fun _ h => h.1) fun rs =>
    .ite (fun _ => .of_ret fun _ _ h => h) fun _ => ?_
  refine gcSharedRead_spec (fun _ => gcSlots (GcOwns j)) (fun _ h => h) fun now => ?_
  exact .bind (gcComputeMin_shared now) fun m => gcCleanupThread_shared m

theorem gcAddRegion_stamps {epoch : ℕ} (he : e = some epoch) (t : GcThread Addr) :
    ∀ r ∈ (gcAddRegion epoch t).regions, e = some r.ts ∨ ∃ r' ∈ t.regions, r'.ts = r.ts := by
  intro r hr
  unfold gcAddRegion at hr
  split at hr
  · rcases List.mem_append.1 hr with hr | hr
    · exact .inr ⟨r, hr, rfl⟩
    · rw [List.mem_singleton.1 hr]
      exact .inl he
  · exact .inr ⟨r, hr, rfl⟩

theorem gcAddBlock_stamps (b : Addr × ℕ) (t : GcThread Addr) :
    ∀ r ∈ (gcAddBlock b t).regions, ∃ r' ∈ t.regions, r'.ts = r.ts := by
  intro r hr
  obtain ⟨n, hn⟩ := List.mem_iff_getElem?.1 hr
  simp only [gcAddBlock, List.getElem?_modify, Option.map_eq_map, Option.map_eq_some_iff] at hn
  obtain ⟨r', hr', rfl⟩ := hn
  refine ⟨r', List.mem_of_getElem? hr', ?_⟩
  split <;> rfl

/-- `gc_free`. -/
theorem gcFree_shared {addr : Addr} {epoch : ℕ} (he : e = some epoch) :
    Triple (gcShared cfg p e) (some p) (gcSlots (GcOwns i)) (gcFree cfg p addr epoch)
      (fun _ => gcSlots (GcOwns i)) J := by
  refine gcSharedRead_spec (fun j => gcSlots (GcOwns i) ⊓ .pure (j = i)) (fun _ h => ⟨h, h.1⟩)
    fun j => .of_fact (fun _ _ h => h.2) fun hj => .pre (P := gcSlots (GcOwns i)) ?_ fun _ _ h => h.1
  subst hj
  refine gcModifySlot_shared (fun t => ?_) (gcAddRegion_stamps he) ?_
  · unfold gcAddRegion
    split <;> rfl
  refine gcModifySlot_shared (fun _ => rfl) (fun t r hr => .inr (gcAddBlock_stamps _ t r hr)) ?_
  cases cfg.cleanupFrequency with
  | none => exact .of_ret fun _ _ h => h
  | some frequency =>
    refine gcSharedAct_spec (fun _ => gcSlots (GcOwns j)) (fun g hg h => ⟨?_, h⟩) fun frees =>
      .ite (fun _ => gcCleanup_shared) fun _ => .of_ret fun _ _ h => h
    exact hg.modify (t := { g.slots j with frees := countFree (g.slots j).frees }) h.2 rfl
      (fun r hr => .inr ⟨r, hr, rfl⟩) rfl rfl rfl rfl

variable [DecidableEq Tid]

/-- `gc_set_epoch`. -/
theorem gcSetEpoch_shared {epoch : ℕ} :
    Triple (gcShared cfg p e) (some p) (gcSlots (GcOwns i)) (gcSetEpoch cfg p epoch)
      (fun _ => gcSlots (GcOwns i)) J := by
  refine gcSharedRead_spec (fun j => gcSlots (GcOwns i) ⊓ .pure (j = i)) (fun _ h => ⟨h, h.1⟩)
    fun j => .of_fact (fun _ _ h => h.2) fun hj => .pre (P := gcSlots (GcOwns i)) ?_ fun _ _ h => h.1
  subst hj
  refine .ite (fun _ => .of_ret fun _ _ h => h) fun _ => .last ?_
  refine gcSharedAct_spec (fun _ => gcSlots (GcOwns j)) (fun g hg h => ⟨?_, h⟩) fun _ =>
    .of_ret fun _ _ h => h
  exact hg.modify (t := { g.slots j with ts := epoch }) h.2 rfl (fun r hr => .inr ⟨r, hr, rfl⟩)
    rfl rfl rfl rfl

/-- `gc_init_thread`. -/
theorem gcInitThread_shared :
    Triple (gcShared cfg p none : RG (GcState Tid Addr) (Option Tid)) (some p) (.pure True)
      (gcInitThread cfg p) (fun _ => .ex fun i => gcSlots (GcOwns i)) (.pure True) := by
  refine gcSharedAct_spec (fun _ => .pure True) (fun g hg _ => ⟨?_, trivial⟩) fun nb =>
    .ite (fun _ => .jump fun _ _ _ => trivial) fun hnb => ?_
  · exact hg.keep rfl rfl rfl (fun _ _ => rfl) fun _ => rfl
  refine .bind (R := fun i => gcSlots fun _ held => held i) (.iterate
    (fun i => gcUsed i ⊓ .pure (i < cfg.maxGcThreads))
    (fun s _ _ => ⟨fun j hj => (Nat.not_lt_zero j hj).elim, show 0 < cfg.maxGcThreads by omega⟩)
    fun i => ?_) fun i => ?_
  · have hnext : ∀ {g : GcState Tid Addr}, i < cfg.maxGcThreads →
        (gcUsed (i + 1) : Assn (gcShared cfg p none) (some p)) g →
        (gcUsed (if i + 1 ≥ cfg.maxGcThreads then 0 else i + 1) ⊓
          .pure ((if i + 1 ≥ cfg.maxGcThreads then 0 else i + 1) < cfg.maxGcThreads) :
            Assn (gcShared cfg p none) (some p)) g := by
      intro g hi h
      split
      · exact ⟨fun j hj => (Nat.not_lt_zero j hj).elim, show 0 < cfg.maxGcThreads by omega⟩
      · exact ⟨h, show i + 1 < cfg.maxGcThreads by omega⟩
    refine gcSharedRead_spec (fun used => (gcUsed i ⊓ .pure (i < cfg.maxGcThreads)) ⊓
      .imp (used ≠ .null) (gcUsed (i + 1))) (fun g h => ⟨h, fun hne j hj => ?_⟩) fun used => ?_
    · rcases Nat.lt_succ_iff_lt_or_eq.1 hj with hj | rfl
      · exact h.1 j hj
      · exact hne
    refine .ite (fun hused => ?_) fun hused => .of_ret fun g _ h => hnext h.1.2 (h.2 ?_)
    · refine gcSharedAct_spec (fun ok => if ok then gcSlots fun _ held => held i
        else gcUsed (i + 1) ⊓ .pure (i < cfg.maxGcThreads)) (fun g hg h => ?_)
        fun ok => .ite (fun hok => ?_) fun hok => ?_
      · by_cases hu : (g.slots i).used = used
        · have hnobody : g.holder i = .nobody := not_not.1 (mt (hg.held i).1 (hu ▸ hused))
          simp only [if_pos hu]
          refine ⟨hg.take (fun q _ hq => ?_) (k := .thread p) (fun q hq h => ?_)
            (fun h => (h rfl).elim) (u := .busy) nofun ?_ h.1.2 h.1.1 rfl rfl rfl rfl, Function.update_self ..⟩
          · cases hnobody.symm.trans hq
          · exact hq (GcHolder.thread.inj h).symm
          · exact ⟨fun _ => rfl, fun _ => nofun⟩
        · simp only [if_neg hu]
          refine ⟨⟨hg, .refl _ g, .refl _ _ g⟩, fun j hj => ?_, h.1.2⟩
          rcases Nat.lt_succ_iff_lt_or_eq.1 hj with hj | rfl
          · exact h.1.1 j hj
          · by_cases hnull : used = .null
            · exact hnull ▸ hu
            · exact h.2 hnull j (Nat.lt_succ_self j)
      · subst hok
        refine gcSharedAct_spec (fun _ => gcSlots fun _ held => held i) (fun g hg h => ⟨?_, h⟩)
          fun epoch => ?_
        · exact hg.keep rfl rfl rfl (fun _ _ => rfl) fun _ => rfl
        · refine gcSharedAct_spec (fun _ => gcSlots fun _ held => held i) (fun g hg h => ⟨?_, h⟩)
            fun _ => .of_ret fun _ _ h => h
          exact hg.modify (t := { g.slots i with ts := epoch }) h rfl
            (fun r hr => .inr ⟨r, hr, rfl⟩) rfl rfl rfl rfl
      · rw [if_neg hok]
        exact .of_ret fun g _ h => hnext h.2 h.1
    · rw [not_not.1 hused]
      nofun
  · refine .last (gcSharedAct_spec (fun _ => gcSlots (GcOwns i)) (fun g hg h => ⟨?_, ?_⟩) fun _ =>
      .of_ret fun _ _ h => ⟨i, h⟩)
    · exact hg.keep rfl rfl rfl (fun q hq => Function.update_of_ne hq ..) fun h => (h rfl).elim
    · exact ⟨Function.update_self .., h⟩

omit [DecidableEq Tid] in
/-- `gc_exit_thread`. -/
theorem gcExitThread_shared :
    Triple (gcShared cfg p e) (some p) (gcSlots (GcOwns i)) (gcExitThread cfg p)
      (fun _ => .pure True) J := by
  refine gcSharedRead_spec (fun j => gcSlots (GcOwns i) ⊓ .pure (j = i)) (fun _ h => ⟨h, h.1⟩)
    fun j => .of_fact (fun _ _ h => h.2) fun hj => .pre (P := gcSlots (GcOwns i)) ?_ fun _ _ h => h.1
  subst hj
  refine gcModifySlot_shared (fun _ => rfl) (fun t r hr => .inr ⟨r, hr, rfl⟩) ?_
  refine gcSharedAct_spec (fun _ => .pure True) (fun g hg h => ⟨?_, trivial⟩) fun _ =>
    .last (gcSharedAct_spec (fun _ => .pure True) (fun g hg _ => ⟨?_, trivial⟩) fun _ =>
      .of_ret fun _ _ _ => trivial)
  · obtain ⟨hlt, hprev⟩ := hg.place h.2
    obtain ⟨hbusy, hnull⟩ := released_ne (g.slots j)
    refine hg.take (k := .nobody) (fun q hq hi => ?_) (fun _ _ => nofun) (fun _ => nofun) hnull
      ⟨fun h => (h rfl).elim, fun h => (hbusy h).elim⟩ hlt hprev rfl rfl rfl rfl
    exact hq (GcHolder.thread.inj (hi.symm.trans h.2))
  · exact hg.keep rfl rfl rfl (fun _ _ => rfl) fun _ => rfl

end

end TinyStm
