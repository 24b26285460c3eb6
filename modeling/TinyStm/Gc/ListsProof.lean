import TinyStm.Gc.ListsProtocol

/-!
# The functions that work on the lists

One specification for each of them. `o.take i c` is what belongs to a thread that holds slot `i`,
with contents `c`, and whatever `o` says besides. A specification says how the contents change and
that no block is lost: what has been given to the collector is, as a multiset, what has been given
back and what the lists hold.
-/

namespace TinyStm.GcLists

variable {Tid Addr : Type} [DecidableEq Tid] {cfg : GcConfig} {p : Tid} {i : ℕ}
  {o : Own Addr} {c : Content Addr}

omit [DecidableEq Tid] in
theorem content_setSlot {s : State Tid Addr} {f : Slot Addr → Slot Addr} :
    (s.setSlot i f).content i = { s.content i with slot := f (s.slots i) } := by
  rw [State.content, State.setSlot]
  dsimp only
  rw [Function.update_self]
  rfl

omit [DecidableEq Tid] in
/-- The holder of a slot changes fields of it. -/
theorem put_setSlot {s : State Tid Addr} {f : Slot Addr → Slot Addr}
    (hused : (f (s.slots i)).used = (s.slots i).used) : Put p i s (s.setSlot i f) where
  content j hj := by
    rw [State.content, State.setSlot]
    dsimp only
    rw [Function.update_of_ne hj]
    rfl
  used := by
    rw [State.setSlot]
    dsimp only
    rw [Function.update_self, hused]
  holder := rfl
  inside := rfl
  registered := rfl
  idx := rfl
  dangling := rfl
  exited := rfl
  allocs := Nat.le_refl _

omit [DecidableEq Tid] in
theorem content_left {s : State Tid Addr} {freed given m : Multiset Addr} :
    ({ s with freed := freed, given := given, left := Function.update s.left i m } : State Tid Addr).content i =
      { s.content i with left := m } := by
  rw [State.content]
  dsimp only
  rw [Function.update_self]
  rfl

omit [DecidableEq Tid] in
/-- Blocks are given to the holder of a slot, or given back by it. -/
theorem put_left {s : State Tid Addr} {freed given m : Multiset Addr} :
    Put p i s { s with freed := freed, given := given, left := Function.update s.left i m } where
  content j hj := by
    rw [State.content]
    dsimp only
    rw [Function.update_of_ne hj]
    rfl
  used := rfl
  holder := rfl
  inside := rfl
  registered := rfl
  idx := rfl
  dangling := rfl
  exited := rfl
  allocs := Nat.le_refl _

section
variable {J : Assn (listsProtocol cfg : RG (State Tid Addr) Tid) p}

/-- A step on the slot. -/
theorem put_spec {β : Type} {a : ℕ} (c' : Content Addr) {f : State Tid Addr → β × State Tid Addr}
    {R : β → Assn (listsProtocol cfg : RG (State Tid Addr) Tid) p}
    (hf : ∀ s, Inv cfg s → s.own p = o.take i c → s.content i = c → a ≤ s.allocs →
      i ∈ Finset.range cfg.maxGcThreads →
      Put p i s (f s).2 ∧ (f s).2.content i = c' ∧ c'.Ok (f s).2.allocs ∧
        Tally (fun m n : Multiset Addr => m + n) 0 (f s).2.given (f s).2.freed (f s).2.left
          (Finset.range cfg.maxGcThreads) ∧ R (f s).1 (f s).2) :
    Triple (listsProtocol cfg) p (owns (o.take i c) ⊓ allocated a) (.atomic f)
      (fun b => owns (o.take i c') ⊓ R b) J := by
  refine .atomic fun s hs ⟨ho, ha⟩ => ?_
  obtain ⟨hp, hi, hc⟩ := own_of_take ho
  have hrange : i ∈ Finset.range cfg.maxGcThreads :=
    Finset.mem_range.2 (hs.inv.bound i (by rw [hi]; nofun))
  obtain ⟨hput, hc', hok, htally, hR⟩ := hf s hs.inv ho hc ha hrange
  have hown := hput.own ho
  rw [hc'] at hown
  exact ⟨hput.inv hs.inv hp hi (hc' ▸ hok) htally, hput.guar hi, hown, hR⟩

/-- The links of the slot are changed. -/
theorem modifyLinks_spec {a : ℕ} {u : Bool} {f : Slot Addr → Slot Addr}
    (hused : (f c.slot).used = c.slot.used) (hok : ∀ n, a ≤ n → c.Ok n → Content.Ok ⟨f c.slot, c.left, u⟩ n) :
    Triple (listsProtocol cfg) p (owns (o.take i c) ⊓ allocated a) (modifyLinks i u f)
      (fun _ => owns (o.take i ⟨f c.slot, c.left, u⟩) ⊓ allocated a) J := by
  refine put_spec _ fun s hs _ hc ha _ => ?_
  subst hc
  have hcontent : ∀ j, j ≠ i → ({ s.setSlot i f with updating := Function.update s.updating i u } :
      State Tid Addr).content j = s.content j := by
    intro j hj
    rw [State.content, State.setSlot]
    dsimp only
    rw [Function.update_of_ne hj, Function.update_of_ne hj]
    rfl
  have hslot : (s.setSlot i f).slots i = f (s.slots i) := Function.update_self ..
  refine ⟨⟨hcontent, ?_, rfl, rfl, rfl, rfl, rfl, rfl, Nat.le_refl _⟩, ?_, hok _ ha (hs.ok i), hs.tally, ha⟩
  · exact hslot ▸ hused
  · rw [State.content]
    dsimp only
    rw [hslot, Function.update_self]
    rfl

/-- The other fields of the slot are changed, or blocks are added. -/
theorem modifySlot_spec {a : ℕ} {f : Slot Addr → Slot Addr}
    (hused : (f c.slot).used = c.slot.used)
    (hok : ∀ n, a ≤ n → c.Ok n → Content.Ok { c with slot := f c.slot } n) :
    Triple (listsProtocol cfg) p (owns (o.take i c) ⊓ allocated a) (modifySlot i f)
      (fun _ => owns (o.take i { c with slot := f c.slot }) ⊓ allocated a) J := by
  refine put_spec _ fun s hs _ hc ha _ => ?_
  subst hc
  exact ⟨put_setSlot hused, content_setSlot, hok _ ha (hs.ok i), hs.tally, ha⟩

/-- The thread holds the slot, on which no function works. -/
def rests (o : Own Addr) (i a : ℕ) : Assn (listsProtocol cfg : RG (State Tid Addr) Tid) p :=
  .ex fun c => (owns (o.take i c) ⊓ allocated a) ⊓ .pure c.Quiet

/-- A thread reads the slot that it holds. -/
theorem loadSlot_spec {a : ℕ} : Triple (listsProtocol cfg) p (owns (o.take i c) ⊓ allocated a) (loadSlot i)
    (fun t => (owns (o.take i c) ⊓ allocated a) ⊓ .pure (t = c.slot ∧ ∃ n, c.Ok n)) J := by
  refine .read fun s hs h => ⟨h, ?_⟩
  obtain ⟨-, -, hc⟩ := own_of_take h.1
  exact ⟨congrArg Content.slot hc, s.allocs, hc ▸ hs.inv.ok i⟩

/-- `gc_compute_min` only reads. -/
theorem gcComputeMin_spec (P : Assn (listsProtocol cfg : RG (State Tid Addr) Tid) p) (now : ℕ) :
    Triple (listsProtocol cfg) p P (gcComputeMin cfg now) (fun _ => P) J := by
  refine .iterate (fun _ => P) (fun _ _ h => h) fun (i, min) => .ite (fun _ => ?_) fun _ => .of_ret fun _ _ h => h
  refine .bind (R := fun _ => P) (.read fun _ _ h => h) fun t => ?_
  cases t.used with
  | null => exact .of_ret fun _ _ h => h
  | busy =>
    refine .bind (R := fun _ => P) (.read fun _ _ h => h) fun t => ?_
    exact .ite (fun _ => .of_ret fun _ _ h => h) fun _ => .of_ret fun _ _ h => h
  | freeEmpty => exact .of_ret fun _ _ h => h
  | freeFull => exact .of_ret fun _ _ h => h

/-- The thread reads the index of its slot. -/
theorem gcGetIdx_spec (P : Assn (listsProtocol cfg : RG (State Tid Addr) Tid) p)
    (hP : ∀ s, P s → (s.own p).idx = i) :
    Triple (listsProtocol cfg) p P (gcGetIdx p) (fun idx => P ⊓ .pure (idx = i)) J :=
  .read fun s _ h => ⟨h, hP s h⟩

/-! ## The region for a block -/

/-- A region for a block has been found, or added. -/
structure Located (c : Content Addr) (mr : ℕ) (c' : Content Addr) : Prop where
  updating_eq : c'.updating = false
  left_eq : c'.left = c.left
  blocks_eq : blocksOf c'.slot.head = blocksOf c.slot.head
  mem : mr ∈ c'.slot.head.map (·.addr)

/-- A new region is linked after the last one. -/
theorem ok_link {n mr epoch : ℕ} {u : Bool} {t : Slot Addr} {m : Multiset Addr} {tail : Option ℕ}
    (h : Content.Ok ⟨t, m, false⟩ mr) (hepoch : ∀ r ∈ t.head, r.ts < epoch) (hn : mr + 1 ≤ n)
    (htail : u = false → tail = some mr) :
    Content.Ok ⟨{ t with head := t.head ++ [⟨mr, [], epoch⟩], tail := tail }, m, u⟩ n where
  sorted := List.pairwise_append.2 ⟨h.sorted, List.pairwise_singleton _ _, fun r hr r' hr' => by
    rw [List.mem_singleton.1 hr']
    exact hepoch r hr⟩
  nodup := by
    rw [List.map_append]
    refine List.Nodup.append h.nodup (List.nodup_singleton _) fun a ha ha' => ?_
    rw [List.mem_singleton.1 ha'] at ha
    exact Nat.lt_irrefl mr (h.fresh mr ha)
  fresh a ha := by
    rw [List.map_append, List.mem_append] at ha
    rcases ha with ha | ha
    · have hlt := h.fresh a ha
      omega
    · rw [List.mem_singleton.1 ha]
      exact hn
  tail_eq hu := by
    rw [List.getLast?_concat]
    exact htail hu

/-- A new region at the end of the list. -/
theorem newRegion_spec {a : ℕ} (epoch : ℕ) (hc : c.updating = false) (hepoch : ∀ r ∈ c.slot.head, r.ts < epoch) :
    Triple (listsProtocol cfg) p (owns (o.take i c) ⊓ allocated a) (newRegion i epoch c.slot.head)
      (fun mr => .ex fun c' => (owns (o.take i c') ⊓ allocated a) ⊓ .pure (Located c mr c')) J := by
  refine .bind (R := fun mr => owns (o.take i c) ⊓ (allocated (max a (mr + 1)) ⊓ .pure (c.Ok mr)))
    (put_spec _ fun s hs _ hci ha _ => ?_) fun mr => .of_fact (fun _ _ h => h.2.2) fun hok => ?_
  · have hok := hci ▸ hs.ok i
    exact ⟨⟨fun _ _ => rfl, rfl, rfl, rfl, rfl, rfl, rfl, rfl, Nat.le_succ _⟩, hci, hok.mono (Nat.le_succ _),
      hs.tally, max_le (ha.trans (Nat.le_succ _)) (Nat.le_refl _), hok⟩
  · refine .pre (P := owns (o.take i c) ⊓ allocated (max a (mr + 1))) ?_ fun _ _ h => ⟨h.1, h.2.1⟩
    obtain ⟨⟨used, ts, head, tail, frees⟩, m, u⟩ := c
    obtain rfl : u = false := hc
    have htail : tail = head.getLast?.map (·.addr) := hok.tail_eq rfl
    have hblocks : blocksOf (head ++ [⟨mr, [], epoch⟩]) = blocksOf head := by
      rw [blocksOf_append]
      exact add_zero _
    have hmem : mr ∈ (head ++ [Region.mk mr [] epoch]).map Region.addr := by
      rw [List.map_append]
      exact List.mem_append_right _ (List.mem_singleton.2 rfl)
    have hlast : ∀ s, (owns (o.take i ⟨⟨used, ts, head ++ [⟨mr, [], epoch⟩], some mr, frees⟩, m, false⟩) ⊓
        allocated (max a (mr + 1)) : Assn (listsProtocol cfg : RG (State Tid Addr) Tid) p) s → ∃ c',
        ((owns (o.take i c') ⊓ allocated a) ⊓ .pure (Located ⟨⟨used, ts, head, tail, frees⟩, m, false⟩ mr c') :
          Assn (listsProtocol cfg : RG (State Tid Addr) Tid) p) s :=
      fun s h => ⟨_, ⟨h.1, (le_max_left _ _).trans h.2⟩, rfl, rfl, hblocks, hmem⟩
    have hlinked : ∀ {n tail' u'}, max a (mr + 1) ≤ n → (u' = false → tail' = some mr) →
        Content.Ok ⟨⟨used, ts, head ++ [⟨mr, [], epoch⟩], tail', frees⟩, m, u'⟩ n := fun hn htail' =>
      ok_link (t := ⟨used, ts, head, tail, frees⟩) hok hepoch ((le_max_right _ _).trans hn) htail'
    cases head with
    | nil =>
      refine .bind (modifyLinks_spec rfl fun n hn h => ⟨h.sorted, h.nodup, h.fresh, nofun⟩) fun _ => ?_
      exact .bind (modifyLinks_spec rfl fun n hn h => hlinked hn fun _ => rfl) fun _ =>
        .of_ret fun s _ h => hlast s h
    | cons r rs =>
      have hlink : linkAfter tail ⟨mr, [], epoch⟩ (r :: rs) = r :: rs ++ [⟨mr, [], epoch⟩] := by
        rw [htail]
        exact linkAfter_last hok.nodup (List.cons_ne_nil _ _)
      refine .bind (modifyLinks_spec rfl fun n hn h => ?_) fun _ => ?_
      · dsimp only
        rw [hlink]
        exact hlinked hn nofun
      · dsimp only
        rw [hlink]
        exact .bind (modifyLinks_spec rfl fun n hn h => hlinked hn fun _ => rfl) fun _ =>
          .of_ret fun s _ h => hlast s h

/-- The last region has the largest timestamp. -/
theorem ts_le_last {rs : List (Region Addr)} {d : Region Addr} (h : rs.Pairwise fun r r' => r.ts < r'.ts)
    (hlast : rs.getLast? = some d) : ∀ r ∈ rs, r.ts ≤ d.ts := by
  intro r hr
  obtain ⟨rs, rfl⟩ := List.getLast?_eq_some_iff.1 hlast
  rcases List.mem_append.1 hr with hr | hr
  · exact ((List.pairwise_append.1 h).2.2 r hr d (List.mem_singleton.2 rfl)).le
  · rw [List.mem_singleton.1 hr]

/-- The region for a block: a new one, or the last one. -/
theorem regionFor_spec {a epoch : ℕ} (hc : c.updating = false) :
    Triple (listsProtocol cfg) p (owns (o.take i c) ⊓ allocated a) (regionFor i epoch)
      (fun mr => .ex fun c' => (owns (o.take i c') ⊓ allocated a) ⊓ .pure (Located c mr c')) J := by
  refine .bind loadSlot_spec fun t => .of_fact (fun _ _ h => h.2) fun ⟨ht, n, hok⟩ =>
    .pre ?_ fun _ _ h => h.1
  subst ht
  cases hhead : c.slot.head with
  | nil =>
    have hnew := newRegion_spec (J := J) (a := a) (o := o) (i := i) epoch hc (by rw [hhead]; nofun)
    rwa [hhead] at hnew
  | cons r rs =>
    have hfind : c.slot.tailRegion = c.slot.head.getLast? := by
      rw [Slot.tailRegion, hok.tail_eq hc]
      exact find?_last hok.nodup
    cases hlast : c.slot.head.getLast? with
    | none => rw [List.getLast?_eq_none_iff.1 hlast] at hhead; nomatch hhead
    | some d =>
      dsimp only
      rw [hfind, hlast]
      have hd : d ∈ c.slot.head := List.mem_of_getLast? hlast
      refine .ite (fun hts => ?_) fun _ => .of_ret fun s _ h => ⟨c, h, hc, rfl, rfl, List.mem_map_of_mem hd⟩
      have hnew := newRegion_spec (J := J) (a := a) (o := o) (i := i) epoch hc fun r' hr' =>
        (ts_le_last hok.sorted hlast r' hr').trans_lt hts
      rwa [hhead] at hnew

/-- A block is added to a region. -/
theorem ok_addBlock {n mr : ℕ} {addr : Addr} (h : c.Ok n) :
    Content.Ok { c with slot := { c.slot with head := addBlock mr addr c.slot.head } } n where
  sorted := by
    have hts : (c.slot.head.map Region.ts).Pairwise (· < ·) := List.pairwise_map.2 h.sorted
    rw [← map_ts_addBlock mr addr] at hts
    exact List.pairwise_map.1 hts
  nodup := by
    rw [map_addr_addBlock]
    exact h.nodup
  fresh := by
    rw [map_addr_addBlock]
    exact h.fresh
  tail_eq hu := by
    rw [← List.getLast?_map, map_addr_addBlock, List.getLast?_map]
    exact h.tail_eq hu

/-! ## Blocks are given back -/

variable [DecidableEq Addr]

/-- `xfree` of a block that is left. -/
theorem xfree_spec {a : ℕ} {addr : Addr} (hleft : addr ∈ c.left) :
    Triple (listsProtocol cfg) p (owns (o.take i c) ⊓ allocated a) (xfree i addr)
      (fun _ => owns (o.take i { c with left := c.left.erase addr }) ⊓ allocated a) J := by
  refine put_spec _ fun s hs _ hc ha hi => ?_
  subst hc
  have hleft : addr ∈ s.left i := hleft
  refine ⟨put_left, content_left, ?_, ?_, ha⟩
  · exact ⟨(hs.ok i).sorted, (hs.ok i).nodup, (hs.ok i).fresh, (hs.ok i).tail_eq⟩
  · have hsettle : Tally _ 0 s.given _ (Function.update s.left i ((s.left i).erase addr)) _ :=
      hs.tally.settle (x := {addr}) hi (fun j hj => Function.update_of_ne hj ..)
        (by rw [Function.update_self, Multiset.singleton_add, Multiset.cons_erase hleft])
    rwa [Multiset.singleton_add] at hsettle

/-- `gc_clean_blocks`. -/
theorem gcCleanBlocks_spec {a : ℕ} {t : Slot Addr} {u : Bool} {m : Multiset Addr} (bs : List Addr) :
    Triple (listsProtocol cfg) p (owns (o.take i ⟨t, (bs : Multiset Addr) + m, u⟩) ⊓ allocated a)
      (gcCleanBlocks i bs) (fun _ => owns (o.take i ⟨t, m, u⟩) ⊓ allocated a) J := by
  induction bs with
  | nil =>
    rw [Multiset.coe_nil, zero_add]
    exact .of_ret fun _ _ h => h
  | cons addr bs ih =>
    rw [← Multiset.cons_coe, Multiset.cons_add]
    refine .bind (xfree_spec (Multiset.mem_cons_self ..)) fun _ => ?_
    rw [Multiset.erase_cons_head]
    exact ih

omit [DecidableEq Addr] in
/-- The first region is unlinked. -/
theorem ok_unlink {n : ℕ} {t : Slot Addr} {m : Multiset Addr} {r : Region Addr} {mr : List (Region Addr)}
    (h : Content.Ok ⟨{ t with head := r :: mr }, m, false⟩ n) :
    Content.Ok ⟨{ t with head := mr }, m, mr.isEmpty⟩ n where
  sorted := (List.pairwise_cons.1 h.sorted).2
  nodup := (List.nodup_cons.1 h.nodup).2
  fresh a ha := h.fresh a (List.mem_cons_of_mem _ ha)
  tail_eq hne := by
    have htail := h.tail_eq rfl
    cases mr with
    | nil => nomatch hne
    | cons r' mr => exact htail

/-- The loop of `gc_cleanup_thread`. -/
theorem cleanupLoop_spec {a : ℕ} (min : ℕ) (hc : c.Quiet) (hne : c.slot.head ≠ []) :
    Triple (listsProtocol cfg) p (owns (o.take i c) ⊓ allocated a) (cleanupLoop i min)
      (fun _ => rests o i a) J := by
  refine .iterate (fun _ => .ex fun c => (owns (o.take i c) ⊓ allocated a) ⊓
    .pure (c.Quiet ∧ c.slot.head ≠ [])) (fun s _ h => ⟨c, h, hc, hne⟩) fun _ => .of_ex fun c => ?_
  refine .of_fact (fun _ _ h => h.2) fun ⟨hc, hne⟩ => .pre ?_ fun _ _ h => h.1
  refine .bind loadSlot_spec fun t => .of_fact (fun _ _ h => h.2) fun ⟨ht, n, hok⟩ =>
    .pre ?_ fun _ _ h => h.1
  subst ht
  obtain ⟨⟨used, ts, head, tail, frees⟩, m, u⟩ := c
  obtain ⟨rfl, hleft⟩ : u = false ∧ m = blocksOf head := ⟨hc.updating_eq, hc.left_eq⟩
  cases head with
  | nil => exact (hne rfl).elim
  | cons r mr =>
    dsimp only
    refine .ite (fun _ => ?_) fun _ => .of_ret fun s _ h => ⟨_, h, hc⟩
    rw [blocksOf_cons] at hleft
    subst hleft
    refine .bind (gcCleanBlocks_spec r.blocks) fun _ =>
      .bind (modifyLinks_spec rfl fun n _ h => ok_unlink (t := ⟨used, ts, r :: mr, tail, frees⟩) h) fun _ => ?_
    cases mr with
    | nil =>
      refine .bind (modifyLinks_spec rfl fun n _ h => ⟨h.sorted, h.nodup, h.fresh, fun _ => rfl⟩) fun _ =>
        .of_ret fun s _ h => ⟨_, h, rfl, rfl⟩
    | cons r' mr => exact .of_ret fun s _ h => ⟨_, h, ⟨rfl, rfl⟩, List.cons_ne_nil _ _⟩

/-- `gc_cleanup_thread`. -/
theorem gcCleanupThread_spec {a : ℕ} (min : ℕ) :
    Triple (listsProtocol cfg) p (rests o i a) (gcCleanupThread i min) (fun _ => rests o i a) J := by
  refine .of_ex fun c => .of_fact (fun _ _ h => h.2) fun hc => .pre ?_ fun _ _ h => h.1
  refine .bind loadSlot_spec fun t => .of_fact (fun _ _ h => h.2) fun ⟨ht, _⟩ => .pre ?_ fun _ _ h => h.1
  cases hhead : t.head with
  | nil => exact .of_ret fun s _ h => ⟨c, h, hc⟩
  | cons r mr => exact cleanupLoop_spec min hc (by rw [← ht, hhead]; nofun)

/-- `gc_cleanup`. -/
theorem gcCleanup_spec {a : ℕ} (hidx : o.idx = i) :
    Triple (listsProtocol cfg) p (rests o i a) (gcCleanup cfg p) (fun _ => rests o i a) J := by
  refine .of_ex fun c => .of_fact (fun _ _ h => h.2) fun hc => .pre ?_ fun _ _ h => h.1
  refine .bind (gcGetIdx_spec _ fun s h => (congrArg Own.idx h.1).trans hidx) fun idx =>
    .of_fact (fun _ _ h => h.2) fun hi => .pre ?_ fun _ _ h => h.1
  subst hi
  refine .bind loadSlot_spec fun t => .pre ?_ fun _ _ h => h.1
  cases t.head with
  | nil => exact .of_ret fun s _ h => ⟨c, h, hc⟩
  | cons r mr =>
    refine .bind (R := fun _ => rests o idx a) (.read fun s _ h => ⟨c, h, hc⟩) fun now => ?_
    exact .bind (gcComputeMin_spec _ now) fun min => gcCleanupThread_spec min

/-- `gc_free`. -/
theorem gcFree_spec {a epoch : ℕ} {addr : Addr} (hidx : o.idx = i) :
    Triple (listsProtocol cfg) p (rests o i a) (gcFree cfg p addr epoch) (fun _ => rests o i a) J := by
  refine .of_ex fun c => .of_fact (fun _ _ h => h.2) fun hc => .pre ?_ fun _ _ h => h.1
  refine .bind (R := fun idx => owns (o.take i { c with left := addr ::ₘ c.left }) ⊓
    (allocated a ⊓ .pure (idx = i))) (put_spec _ fun s hs ho hci ha hi => ?_) fun idx =>
    .of_fact (fun _ _ h => h.2.2) fun hi => ?_
  · have hsi : s.idx p = i := (congrArg Own.idx ho).trans hidx
    subst hci
    simp only [hsi]
    refine ⟨put_left, content_left, ?_, ?_, ha, trivial⟩
    · exact ⟨(hs.ok i).sorted, (hs.ok i).nodup, (hs.ok i).fresh, (hs.ok i).tail_eq⟩
    · have hcount : Tally _ 0 _ s.freed (Function.update s.left i (addr ::ₘ s.left i)) _ :=
        hs.tally.count (x := {addr}) hi (fun j hj => Function.update_of_ne hj ..)
          (by rw [Function.update_self, Multiset.singleton_add])
      rwa [Multiset.singleton_add] at hcount
  · subst hi
    refine .pre (P := owns (o.take idx { c with left := addr ::ₘ c.left }) ⊓ allocated a) ?_
      fun _ _ h => ⟨h.1, h.2.1⟩
    refine .bind (regionFor_spec hc.updating_eq) fun mr => .of_ex fun c' =>
      .of_fact (fun _ _ h => h.2) fun hl => .of_fact (fun s hs h => ?_) fun hnodup :
        (c'.slot.head.map (·.addr)).Nodup => .pre ?_ fun _ _ h => h.1
    · exact (own_of_take h.1.1).2.2 ▸ (hs.inv.ok idx).nodup
    refine .bind (modifySlot_spec rfl fun n _ h => ok_addBlock h) fun _ => ?_
    have hquiet : Content.Quiet { c' with slot := { c'.slot with head := addBlock mr addr c'.slot.head } } := by
      refine ⟨hl.updating_eq, ?_⟩
      dsimp only
      rw [blocksOf_addBlock hnodup hl.mem, hl.blocks_eq, hl.left_eq, hc.left_eq]
    generalize { c' with slot := { c'.slot with head := addBlock mr addr c'.slot.head } } = c'' at hquiet ⊢
    cases cfg.cleanupFrequency with
    | none => exact .of_ret fun s _ h => ⟨c'', h, hquiet⟩
    | some frequency =>
      refine .bind (put_spec { c'' with slot := { c''.slot with frees := countFree c''.slot.frees } }
        (R := fun _ => allocated a) fun s hs _ hci ha _ => ?_) fun frees => ?_
      · subst hci
        have hok := hs.ok idx
        have hcontent : (s.setSlot idx fun t => { t with frees := countFree t.frees }).content idx =
            { s.content idx with slot := { s.slots idx with frees := countFree (s.slots idx).frees } } := content_setSlot
        have hput : Put p idx s (s.setSlot idx fun t => { t with frees := countFree t.frees }) := put_setSlot rfl
        exact ⟨hput, hcontent, ⟨hok.sorted, hok.nodup, hok.fresh, hok.tail_eq⟩, hs.tally, ha⟩
      · have hrests : ∀ s, (owns (o.take idx { c'' with slot := { c''.slot with frees := countFree c''.slot.frees } }) ⊓
            allocated a : Assn (listsProtocol cfg : RG (State Tid Addr) Tid) p) s →
            (rests o idx a : Assn (listsProtocol cfg : RG (State Tid Addr) Tid) p) s :=
          fun s h => ⟨_, h, hquiet.updating_eq, hquiet.left_eq⟩
        exact .ite (fun _ => (gcCleanup_spec hidx).pre fun s _ => hrests s) fun _ => .of_ret fun s _ => hrests s

end

end TinyStm.GcLists
