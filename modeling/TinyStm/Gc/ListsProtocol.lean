import TinyStm.Gc.Lists
import TinyStm.Conc.RelyGuarantee
import TinyStm.Conc.Tally

/-!
# The blocks of the slots

What `gc_free` has been given is what has been given back to the system and what the slots still
hold. The list of a slot is changed by the thread that has set the slot to `GC_BUSY` and is inside
of a call, and by nobody else. The multiset of the blocks is a tally over the slots, so a change of
one slot moves blocks between the slot and what has been given back, and the sum stays the same.
-/

namespace TinyStm.GcLists

/-! ## Lists of regions -/

section
variable {Addr : Type} {r mr : Region Addr} {rs : List (Region Addr)} {tail : Option ℕ}

/-- The blocks of the first region and of the others. -/
theorem blocksOf_cons : blocksOf (r :: rs) = (r.blocks : Multiset Addr) + blocksOf rs := by
  rw [blocksOf, List.flatMap_cons, ← Multiset.coe_add]
  rfl

/-- The blocks of two lists of regions. -/
theorem blocksOf_append {rs' : List (Region Addr)} : blocksOf (rs ++ rs') = blocksOf rs + blocksOf rs' := by
  rw [blocksOf, List.flatMap_append, ← Multiset.coe_add]
  rfl

/-- The last region is not an earlier one. -/
theorem getLast?_addr_ne {r' : Region Addr} (hnodup : ((r :: r' :: rs).map (·.addr)).Nodup) :
    some r.addr ≠ (r' :: rs).getLast?.map (·.addr) := by
  intro heq
  obtain ⟨d, hd, hdr⟩ := Option.map_eq_some_iff.1 heq.symm
  have hmem : d.addr ∈ (r' :: rs).map (·.addr) := List.mem_map_of_mem (List.mem_of_getLast? hd)
  rw [hdr] at hmem
  exact (List.nodup_cons.1 hnodup).1 hmem

/-- A region that is linked after the last one. -/
theorem linkAfter_last (hnodup : (rs.map (·.addr)).Nodup) (hne : rs ≠ []) :
    linkAfter (rs.getLast?.map (·.addr)) mr rs = rs ++ [mr] := by
  induction rs with
  | nil => exact (hne rfl).elim
  | cons r rs ih =>
    cases rs with
    | nil => exact if_pos rfl
    | cons r' rs =>
      rw [List.getLast?_cons_cons, linkAfter, if_neg (getLast?_addr_ne hnodup),
        ih (List.nodup_cons.1 hnodup).2 (List.cons_ne_nil _ _)]
      rfl

/-- The region that the address of the last one points to. -/
theorem find?_last (hnodup : (rs.map (·.addr)).Nodup) :
    rs.find? (fun r => some r.addr = rs.getLast?.map (·.addr)) = rs.getLast? := by
  induction rs with
  | nil => rfl
  | cons r rs ih =>
    cases rs with
    | nil => exact List.find?_cons_of_pos (by simp)
    | cons r' rs =>
      rw [List.getLast?_cons_cons, List.find?_cons_of_neg (by simpa using getLast?_addr_ne hnodup)]
      exact ih (List.nodup_cons.1 hnodup).2

/-- A block that is added to a region moves no region. -/
theorem map_addr_addBlock (i : ℕ) (addr : Addr) : (addBlock i addr rs).map (·.addr) = rs.map (·.addr) := by
  rw [addBlock, List.map_map]
  refine List.map_congr_left fun r _ => ?_
  dsimp only [Function.comp]
  split <;> rfl

/-- A block that is added to a region changes no timestamp. -/
theorem map_ts_addBlock (i : ℕ) (addr : Addr) : (addBlock i addr rs).map (·.ts) = rs.map (·.ts) := by
  rw [addBlock, List.map_map]
  refine List.map_congr_left fun r _ => ?_
  dsimp only [Function.comp]
  split <;> rfl

/-- No region has the address. -/
theorem addBlock_of_notMem {i : ℕ} (h : i ∉ rs.map (·.addr)) (addr : Addr) : addBlock i addr rs = rs := by
  refine (List.map_congr_left fun r hr => if_neg ?_).trans (List.map_id rs)
  rintro rfl
  exact h (List.mem_map_of_mem hr)

/-- A block is added to one region. -/
theorem blocksOf_addBlock {i : ℕ} (hnodup : (rs.map (·.addr)).Nodup) (hi : i ∈ rs.map (·.addr))
    (addr : Addr) : blocksOf (addBlock i addr rs) = addr ::ₘ blocksOf rs := by
  induction rs with
  | nil => nomatch hi
  | cons r rs ih =>
    obtain ⟨hr, hrs⟩ := List.nodup_cons.1 hnodup
    have hcons : addBlock i addr (r :: rs) =
      (if r.addr = i then { r with blocks := addr :: r.blocks } else r) :: addBlock i addr rs := rfl
    rw [hcons, blocksOf_cons, blocksOf_cons]
    by_cases hri : r.addr = i
    · rw [if_pos hri, addBlock_of_notMem (hri ▸ hr), ← Multiset.cons_coe, Multiset.cons_add]
    · rw [if_neg hri, ih hrs ((List.mem_cons.1 hi).resolve_left (Ne.symm hri)), Multiset.add_cons]

end

/-! ## The contents of a slot -/

/-- A slot, what has not been given back of it, and whether it is in the middle of an update. -/
structure Content (Addr : Type) where
  slot : Slot Addr
  left : Multiset Addr
  updating : Bool

namespace Content
variable {Addr : Type}

/-- The list is in order, and all of it has been allocated before address `n`. -/
structure Ok (c : Content Addr) (n : ℕ) : Prop where
  sorted : c.slot.head.Pairwise fun r r' => r.ts < r'.ts
  nodup : (c.slot.head.map (·.addr)).Nodup
  fresh : ∀ a ∈ c.slot.head.map (·.addr), a < n
  tail_eq : c.updating = false → c.slot.tail = c.slot.head.getLast?.map (·.addr)

/-- No function works on the slot. -/
structure Quiet (c : Content Addr) : Prop where
  updating_eq : c.updating = false
  left_eq : c.left = blocksOf c.slot.head

/-- More regions have been allocated since. -/
theorem Ok.mono {c : Content Addr} {n n' : ℕ} (h : c.Ok n) (hn : n ≤ n') : c.Ok n' :=
  ⟨h.sorted, h.nodup, fun a ha => (h.fresh a ha).trans_le hn, h.tail_eq⟩

end Content

variable {Tid Addr : Type}

/-- What the slot `i` holds. -/
def State.content (s : State Tid Addr) (i : ℕ) : Content Addr := ⟨s.slots i, s.left i, s.updating i⟩

/-! ## The protocol -/

/-- The invariant. -/
structure Inv (cfg : GcConfig) (s : State Tid Addr) : Prop where
  tally : Tally (fun m n : Multiset Addr => m + n) 0 s.given s.freed s.left (Finset.range cfg.maxGcThreads)
  ok : ∀ i, (s.content i).Ok s.allocs
  updating : ∀ i, (∀ p ∈ s.inside, s.holder i ≠ some p) → s.updating i = false
  quiet : ∀ i, (∀ p ∈ s.inside, s.holder i ≠ some p) → s.exited = false → (s.content i).Quiet
  busy : ∀ i, s.holder i ≠ none ↔ (s.slots i).used = .busy
  bound : ∀ i, s.holder i ≠ none → i < cfg.maxGcThreads
  front : ∀ i j, i ≤ j → (s.slots i).used = .null → (s.slots j).used = .null
  sound : s.dangling = false
  closed : s.exited = true → s.inside = ∅ ∧ s.freed = s.given

/-- What belongs to a thread: the slots that it holds, and their contents while it is inside of a call. -/
structure Own (Addr : Type) where
  inside : Prop
  registered : Prop
  idx : ℕ
  held : Set ℕ
  content : ℕ → Option (Content Addr)

variable [DecidableEq Tid]

/-- What a thread inside the collector has to itself. -/
def State.own (s : State Tid Addr) (p : Tid) : Own Addr where
  inside := p ∈ s.inside
  registered := p ∈ s.registered
  idx := s.idx p
  held := { i | s.holder i = some p }
  content i := if p ∈ s.inside ∧ s.holder i = some p then some (s.content i) else none

/-- What a thread may do: it leaves alone what belongs to others, and a slot that has been used stays so. -/
structure Guar (p : Tid) (s s' : State Tid Addr) : Prop where
  own : ∀ q, q ≠ p → s'.own q = s.own q
  taken : ∀ i, (s.slots i).used ≠ .null → (s'.slots i).used ≠ .null
  allocs : s.allocs ≤ s'.allocs

/-- The protocol. -/
def listsProtocol (cfg : GcConfig) : RG (State Tid Addr) Tid where
  inv := Inv cfg
  guar := Guar
  obs _ := True
  refl _ _ _ := ⟨fun _ _ => rfl, fun _ h => h, Nat.le_refl _⟩

variable {cfg : GcConfig} {p : Tid} {s s' : State Tid Addr} {i : ℕ}

/-- A thread inside of a call holds the slot. -/
theorem own_content {c : Content Addr} : (s.own p).content i = some c ↔
    p ∈ s.inside ∧ s.holder i = some p ∧ s.content i = c := by
  unfold State.own
  dsimp only
  split
  · rename_i h
    rw [Option.some.injEq]
    exact ⟨fun hc => ⟨h.1, h.2, hc⟩, fun hc => hc.2.2⟩
  · rename_i h
    exact ⟨nofun, fun hc => (h ⟨hc.1, hc.2.1⟩).elim⟩

/-- Slot `i`, with these contents, is one more slot of the thread. -/
def Own.take (o : Own Addr) (i : ℕ) (c : Content Addr) : Own Addr :=
  { o with held := insert i o.held, content := Function.update o.content i (some c) }

/-- The thread without slot `i`. -/
def Own.drop (o : Own Addr) (i : ℕ) : Own Addr :=
  { o with held := o.held \ {i}, content := Function.update o.content i none }

/-- A thread that has taken a slot is inside the collector, and the slot is its own. -/
theorem own_of_take {o : Own Addr} {c : Content Addr} (h : s.own p = o.take i c) :
    p ∈ s.inside ∧ s.holder i = some p ∧ s.content i = c := by
  rw [← own_content, h]
  exact Function.update_self ..

/-- A thread inside the collector has what its slot holds. -/
theorem own_drop_take (hp : p ∈ s.inside) (hi : s.holder i = some p) :
    s.own p = ((s.own p).drop i).take i (s.content i) := by
  have hheld : (s.own p).held = insert i ((s.own p).held \ {i}) :=
    (Set.insert_sdiff_self_of_mem (show i ∈ (s.own p).held from hi)).symm
  have hcontent : (s.own p).content =
      Function.update (Function.update (s.own p).content i none) i (some (s.content i)) := by
    rw [Function.update_idem]
    exact (Function.update_eq_self_iff.2 (own_content.2 ⟨hp, hi, rfl⟩).symm).symm
  rw [Own.take, Own.drop]
  dsimp only
  rw [← hheld, ← hcontent]

/-- Slots and threads are the same, but for the contents of some slots. -/
theorem own_congr {q : Tid} (hinside : q ∈ s'.inside ↔ q ∈ s.inside)
    (hregistered : q ∈ s'.registered ↔ q ∈ s.registered) (hidx : s'.idx q = s.idx q)
    (hheld : ∀ i, s'.holder i = some q ↔ s.holder i = some q)
    (hcontent : ∀ i, q ∈ s.inside → s.holder i = some q → s'.content i = s.content i) :
    s'.own q = s.own q := by
  have hheld' : { i | s'.holder i = some q } = { i | s.holder i = some q } := Set.ext hheld
  have hcontent' : (s'.own q).content = (s.own q).content := by
    funext i
    unfold State.own
    dsimp only
    simp only [hinside, hheld]
    split
    · rename_i h
      rw [hcontent i h.1 h.2]
    · rfl
  unfold State.own at hcontent' ⊢
  rw [Own.mk.injEq]
  exact ⟨propext hinside, propext hregistered, hidx, hheld', hcontent'⟩

/-- The holder of a slot changes its contents. -/
structure Put (p : Tid) (i : ℕ) (s s' : State Tid Addr) : Prop where
  content : ∀ j, j ≠ i → s'.content j = s.content j
  used : (s'.slots i).used = (s.slots i).used
  holder : s'.holder = s.holder
  inside : s'.inside = s.inside
  registered : s'.registered = s.registered
  idx : s'.idx = s.idx
  dangling : s'.dangling = s.dangling
  exited : s'.exited = s.exited
  allocs : s.allocs ≤ s'.allocs

omit [DecidableEq Tid] in
/-- A change of the slot's lists leaves the use of all slots alone. -/
theorem Put.slots_used (h : Put p i s s') (j : ℕ) : (s'.slots j).used = (s.slots j).used := by
  by_cases hj : j = i
  · rw [hj]
    exact h.used
  · exact congrArg (fun c => c.slot.used) (h.content j hj)

/-- The thread still has its slot. -/
theorem Put.own (h : Put p i s s') {o : Own Addr} {c : Content Addr} (ho : s.own p = o.take i c) :
    s'.own p = o.take i (s'.content i) := by
  obtain ⟨hp, hi, -⟩ := own_of_take ho
  have hcontent : (s'.own p).content = Function.update o.content i (some (s'.content i)) := by
    funext j
    by_cases hj : j = i
    · rw [hj, Function.update_self]
      exact own_content.2 ⟨h.inside ▸ hp, h.holder ▸ hi, rfl⟩
    · have hold := congrFun (congrArg Own.content ho) j
      rw [Own.take] at hold
      dsimp only at hold
      rw [Function.update_of_ne hj] at hold ⊢
      rw [← hold]
      unfold State.own
      dsimp only
      rw [h.inside, h.holder, h.content j hj]
  have hsame : s'.own p = { s.own p with content := (s'.own p).content } := by
    unfold State.own
    rw [Own.mk.injEq, h.inside, h.registered, h.idx, h.holder]
    exact ⟨rfl, rfl, rfl, rfl, rfl⟩
  rw [hsame, hcontent, ho]
  rfl

/-- The other threads do not have the slot. -/
theorem Put.guar (h : Put p i s s') (hi : s.holder i = some p) : Guar p s s' where
  own q hq := by
    refine own_congr (by rw [h.inside]) (by rw [h.registered]) (congrFun h.idx q) (fun j => by rw [h.holder])
      fun j _ hj => h.content j ?_
    rintro rfl
    exact hq (Option.some.inj (hj.symm.trans hi))
  taken j := by
    rw [h.slots_used]
    exact id
  allocs := h.allocs

omit [DecidableEq Tid] in
/-- Nobody is inside the collector after `gc_exit`. -/
theorem Inv.exited_false (h : Inv cfg s) (hp : p ∈ s.inside) : s.exited = false := by
  by_contra hn
  rw [Bool.not_eq_false] at hn
  rw [(h.closed hn).1] at hp
  exact Finset.notMem_empty p hp

omit [DecidableEq Tid] in
/-- A change of the slot's lists keeps the invariant if the lists are in order and no block is lost.
-/
theorem Put.inv (hput : Put p i s s') (h : Inv cfg s) (hp : p ∈ s.inside) (hi : s.holder i = some p)
    (hok : (s'.content i).Ok s'.allocs)
    (htally : Tally (fun m n : Multiset Addr => m + n) 0 s'.given s'.freed s'.left
      (Finset.range cfg.maxGcThreads)) : Inv cfg s' where
  tally := htally
  ok j := by
    by_cases hj : j = i
    · exact hj ▸ hok
    · rw [hput.content j hj]
      exact (h.ok j).mono hput.allocs
  updating j hj := by
    rw [hput.inside, hput.holder] at hj
    have hji : j ≠ i := by
      rintro rfl
      exact hj p hp hi
    exact (congrArg Content.updating (hput.content j hji)).trans (h.updating j hj)
  quiet j hj hex := by
    rw [hput.inside, hput.holder] at hj
    have hji : j ≠ i := by
      rintro rfl
      exact hj p hp hi
    rw [hput.content j hji]
    exact h.quiet j hj (hput.exited ▸ hex)
  busy j := by
    rw [hput.holder, hput.slots_used]
    exact h.busy j
  bound j := by
    rw [hput.holder]
    exact h.bound j
  front j k := by
    rw [hput.slots_used, hput.slots_used]
    exact h.front j k
  sound := hput.dangling.trans h.sound
  closed hex := by
    rw [hput.exited, h.exited_false hp] at hex
    nomatch hex

/-- The first slots have been used. -/
def passed (i : ℕ) : Assn (listsProtocol cfg : RG (State Tid Addr) Tid) p where
  holds s := ∀ j < i, (s.slots j).used ≠ .null
  stable _ _ _ _ _ _ hg h j hj := hg.taken j (h j hj)

/-- The addresses before `a` have been allocated. -/
def allocated (a : ℕ) : Assn (listsProtocol cfg : RG (State Tid Addr) Tid) p where
  holds s := a ≤ s.allocs
  stable _ _ _ _ _ _ hg h := h.trans hg.allocs

/-- What belongs to the thread. -/
def owns (o : Own Addr) : Assn (listsProtocol cfg : RG (State Tid Addr) Tid) p where
  holds s := s.own p = o
  stable _ hq _ _ _ _ hg h := (hg.own p (Ne.symm hq)).trans h

/-! ## The slots change hands -/

/-- Slot `i` gets a new status and a new holder. -/
def State.hand (s : State Tid Addr) (i : ℕ) (holder : Option Tid) (used : GcUsed) : State Tid Addr :=
  { s.setSlot i (fun t => { t with used := used }) with holder := Function.update s.holder i holder }

section hand
variable {holder : Option Tid} {used : GcUsed}

omit [DecidableEq Tid]

/-- The other slots are as they were. -/
theorem hand_slots_of_ne {j : ℕ} (hj : j ≠ i) : (s.hand i holder used).slots j = s.slots j :=
  Function.update_of_ne hj ..

/-- Only the use of the slot changes. -/
theorem hand_slots_self : (s.hand i holder used).slots i = { s.slots i with used := used } :=
  Function.update_self ..

/-- The other slots hold what they held. -/
theorem hand_content_of_ne {j : ℕ} (hj : j ≠ i) : (s.hand i holder used).content j = s.content j := by
  rw [State.content, hand_slots_of_ne hj]
  rfl

/-- The other slots have the holders that they had. -/
theorem hand_holder_of_ne {j : ℕ} (hj : j ≠ i) : (s.hand i holder used).holder j = s.holder j :=
  Function.update_of_ne hj ..

/-- The slot has its new holder. -/
theorem hand_holder_self : (s.hand i holder used).holder i = holder :=
  Function.update_self ..

/-- The lists of the slot are in order. -/
theorem hand_ok {n : ℕ} (h : (s.content i).Ok n) : ((s.hand i holder used).content i).Ok n := by
  rw [State.content, hand_slots_self]
  exact ⟨h.sorted, h.nodup, h.fresh, h.tail_eq⟩

/-- The slot is not being changed. -/
theorem hand_quiet (h : (s.content i).Quiet) : ((s.hand i holder used).content i).Quiet := by
  rw [State.content, hand_slots_self]
  exact ⟨h.updating_eq, h.left_eq⟩

/-- A slot changes hands. -/
theorem Inv.hand (h : Inv cfg s) (hi : i < cfg.maxGcThreads) (hbusy : holder ≠ none ↔ used = .busy)
    (hquiet : (∀ p ∈ s.inside, holder ≠ some p) → (s.content i).Quiet)
    (hused : used ≠ .null) (hfront : ∀ j < i, (s.slots j).used ≠ .null) :
    Inv cfg (s.hand i holder used) where
  tally := h.tally
  ok j := by
    by_cases hj : j = i
    · subst hj
      exact hand_ok (h.ok j)
    · rw [hand_content_of_ne hj]
      exact h.ok j
  updating j hq := by
    by_cases hj : j = i
    · subst hj
      rw [hand_holder_self] at hq
      exact (hquiet hq).updating_eq
    · rw [hand_holder_of_ne hj] at hq
      exact h.updating j hq
  quiet j hq hex := by
    by_cases hj : j = i
    · subst hj
      rw [hand_holder_self] at hq
      exact hand_quiet (hquiet hq)
    · rw [hand_holder_of_ne hj] at hq
      rw [hand_content_of_ne hj]
      exact h.quiet j hq hex
  busy j := by
    by_cases hj : j = i
    · rw [hj, hand_holder_self, hand_slots_self]
      exact hbusy
    · rw [hand_holder_of_ne hj, hand_slots_of_ne hj]
      exact h.busy j
  bound j hj := by
    by_cases hji : j = i
    · exact hji ▸ hi
    · rw [hand_holder_of_ne hji] at hj
      exact h.bound j hj
  front j k hjk hnull := by
    have hji : j ≠ i := by
      rintro rfl
      rw [hand_slots_self] at hnull
      exact hused hnull
    rw [hand_slots_of_ne hji] at hnull
    have hki : k ≠ i := by
      rintro rfl
      exact hfront j (Nat.lt_of_le_of_ne hjk hji) hnull
    rw [hand_slots_of_ne hki]
    exact h.front j k hjk hnull
  sound := h.sound
  closed := h.closed

end hand

/-- A slot of nobody, or of the thread itself, changes hands. -/
theorem hand_guar {holder : Option Tid} {used : GcUsed} (hold : ∀ q, q ≠ p → s.holder i ≠ some q)
    (hnew : ∀ q, q ≠ p → holder ≠ some q) (hused : used ≠ .null) : Guar p s (s.hand i holder used) where
  own q hq := by
    refine own_congr Iff.rfl Iff.rfl rfl (fun j => ?_) fun j _ hj => hand_content_of_ne ?_
    · by_cases hj : j = i
      · rw [hj, hand_holder_self]
        exact iff_of_false (hnew q hq) (hold q hq)
      · rw [hand_holder_of_ne hj]
    · rintro rfl
      exact hold q hq hj
  taken j hj := by
    by_cases hji : j = i
    · rw [hji, hand_slots_self]
      exact hused
    · rw [hand_slots_of_ne hji]
      exact hj
  allocs := Nat.le_refl _

/-- A slot is claimed. -/
theorem Inv.claim (h : Inv cfg s) (hu : (s.slots i).used ≠ .busy) (hi : i < cfg.maxGcThreads)
    (hfront : ∀ j < i, (s.slots j).used ≠ .null) (hp : p ∈ s.inside) :
    Inv cfg (s.hand i (some p) .busy) ∧ Guar p s (s.hand i (some p) .busy) ∧
      (s.hand i (some p) .busy).own p = (s.own p).take i ((s.hand i (some p) .busy).content i) ∧
      ((s.hand i (some p) .busy).content i).Quiet := by
  have hnone : s.holder i = none := by
    by_contra hn
    exact hu ((h.busy i).1 hn)
  have hquiet : (s.content i).Quiet := by
    refine h.quiet i (fun q _ => ?_) (h.exited_false hp)
    rw [hnone]
    nofun
  refine ⟨h.hand hi (iff_of_true nofun rfl) (fun hn => (hn p hp rfl).elim) nofun hfront,
    hand_guar (fun q _ => ?_) (fun q hq => ?_) nofun, ?_, hand_quiet hquiet⟩
  · rw [hnone]
    nofun
  · rw [Ne, Option.some.injEq]
    exact Ne.symm hq
  · have hheld : { j | (s.hand i (some p) .busy).holder j = some p } =
        insert i { j | s.holder j = some p } := by
      ext j
      by_cases hj : j = i
      · simp [hj, hand_holder_self]
      · simp [hj, hand_holder_of_ne hj]
    have hcontent : ((s.hand i (some p) .busy).own p).content =
        Function.update (s.own p).content i (some ((s.hand i (some p) .busy).content i)) := by
      funext j
      by_cases hj : j = i
      · rw [hj, Function.update_self]
        exact own_content.2 ⟨hp, hand_holder_self, rfl⟩
      · rw [Function.update_of_ne hj]
        unfold State.own
        dsimp only
        rw [hand_holder_of_ne hj, hand_content_of_ne hj]
        rfl
    rw [Own.take, ← hcontent]
    unfold State.own
    rw [hheld]
    rfl

/-- A slot is released. -/
theorem Inv.release (h : Inv cfg s) {o : Own Addr} {c : Content Addr} (ho : s.own p = o.take i c)
    (hc : c.Quiet) (hheld : i ∉ o.held) (hnone : o.content i = none) :
    Inv cfg (s.hand i none (s.slots i).released) ∧ Guar p s (s.hand i none (s.slots i).released) ∧
      (s.hand i none (s.slots i).released).own p = o := by
  obtain ⟨hp, hi, hci⟩ := own_of_take ho
  have hreleased : (s.slots i).released ≠ .busy ∧ (s.slots i).released ≠ .null := by
    rw [Slot.released]
    split <;> exact ⟨nofun, nofun⟩
  refine ⟨h.hand (h.bound i (by rw [hi]; nofun)) (iff_of_false (fun hn => hn rfl) hreleased.1)
    (fun _ => hci ▸ hc) hreleased.2 (fun j hj hnull => ?_), hand_guar (fun q hq => ?_) (fun _ _ => nofun)
    hreleased.2, ?_⟩
  · have hnull' := h.front j i hj.le hnull
    rw [(h.busy i).1 (by rw [hi]; nofun)] at hnull'
    nomatch hnull'
  · rw [hi, Ne, Option.some.injEq]
    exact Ne.symm hq
  · have hold : { j | s.holder j = some p } = insert i o.held := congrArg Own.held ho
    have hheld' : { j | (s.hand i none (s.slots i).released).holder j = some p } = o.held := by
      ext j
      by_cases hj : j = i
      · simp [hj, hand_holder_self, hheld]
      · have hmem : s.holder j = some p ↔ j ∈ insert i o.held := by
          rw [← hold]
          rfl
        exact (hand_holder_of_ne hj ▸ hmem).trans (Set.mem_insert_iff.trans (or_iff_right hj))
    have hcontent : ((s.hand i none (s.slots i).released).own p).content = o.content := by
      funext j
      by_cases hj : j = i
      · rw [hj, hnone]
        refine Option.eq_none_iff_forall_ne_some.2 fun c' hc' => ?_
        have hi' := (own_content.1 hc').2.1
        rw [hand_holder_self] at hi'
        nomatch hi'
      · have hold' := congrFun (congrArg Own.content ho) j
        rw [Own.take] at hold'
        dsimp only at hold'
        rw [Function.update_of_ne hj] at hold'
        rw [← hold']
        unfold State.own
        dsimp only
        rw [hand_holder_of_ne hj, hand_content_of_ne hj]
        rfl
    have hinside : (p ∈ s.inside) = o.inside := congrArg Own.inside ho
    have hregistered : (p ∈ s.registered) = o.registered := congrArg Own.registered ho
    have hidx : s.idx p = o.idx := congrArg Own.idx ho
    rw [show o = ⟨o.inside, o.registered, o.idx, o.held, o.content⟩ from rfl, ← hcontent, ← hheld', ← hinside,
      ← hregistered, ← hidx]
    rfl

end TinyStm.GcLists
