import TinyStm.Conc.Pool
import TinyStm.Gc.ListsCalls
import Mathlib.Algebra.Order.Sub.Basic
import Mathlib.Data.Multiset.OrderedMonoid

/-!
# The collector gives every block back once

In every run, a block that has been given to `gc_free` is given back at most once, and once when
`gc_exit` has returned; the lists of the slots stay in order. The invariant is the tally of
`TinyStm.Gc.ListsProtocol`. What remains to be seen here are the functions that run while nobody is
inside the collector: the reset of a rollover and `gc_exit`, whose loops go over all slots.
-/

namespace TinyStm.GcLists

variable {Tid Addr : Type} {cfg : GcConfig} {p : Tid} {i : ℕ} {s s' : State Tid Addr}

/-! ## `gc_reset` and `gc_exit` -/

/-- The step changes the contents of slots, while no thread is inside of a call. -/
structure Same (s s' : State Tid Addr) : Prop where
  used : ∀ i, (s'.slots i).used = (s.slots i).used
  holder : s'.holder = s.holder
  inside : s'.inside = s.inside
  registered : s'.registered = s.registered
  idx : s'.idx = s.idx
  allocs : s'.allocs = s.allocs

/-- Two steps that change no slot's holder. -/
theorem Same.trans {s'' : State Tid Addr} (h : Same s s') (h' : Same s' s'') : Same s s'' :=
  ⟨fun i => (h'.used i).trans (h.used i), h'.holder.trans h.holder, h'.inside.trans h.inside,
    h'.registered.trans h.registered, h'.idx.trans h.idx, h'.allocs.trans h.allocs⟩

/-- Such a step may be taken while nobody is inside the collector. -/
theorem Same.guar [DecidableEq Tid] (h : Same s s') (hin : s.inside = ∅) : Guar p s s' where
  own q _ := by
    refine own_congr (by rw [h.inside]) (by rw [h.registered]) (congrFun h.idx q) (fun _ => by rw [h.holder])
      fun _ hq => ?_
    rw [hin] at hq
    exact (Finset.notMem_empty q hq).elim
  taken i := by
    rw [h.used]
    exact id
  allocs := h.allocs.ge

/-- A thread stays outside. -/
theorem Same.outside [DecidableEq Tid] (h : Same s s') (hin : s.inside = ∅) (ho : (s.own p).Outside) :
    (s'.own p).Outside := by
  refine ⟨fun hp => ?_, fun i => ?_⟩
  · have hp : p ∈ s'.inside := hp
    rw [h.inside, hin] at hp
    exact Finset.notMem_empty p hp
  · have hheld := ho.held i
    unfold State.own at hheld ⊢
    rw [h.holder, h.registered, h.idx]
    exact hheld

variable [DecidableEq Addr]

/-- The regions of a slot on which no function works are given back. -/
theorem cleanRegions_tally (h : Tally (fun m n : Multiset Addr => m + n) 0 s.given s.freed s.left
    (Finset.range cfg.maxGcThreads)) (hi : i < cfg.maxGcThreads) (hleft : s.left i = blocksOf (s.slots i).head) :
    Tally (fun m n : Multiset Addr => m + n) 0 (s.cleanRegions i).given (s.cleanRegions i).freed
      (s.cleanRegions i).left (Finset.range cfg.maxGcThreads) := by
  refine h.settle (Finset.mem_range.2 hi) (fun j hj => Function.update_of_ne hj ..) ?_
  have hself : (s.cleanRegions i).left i = s.left i - blocksOf (s.slots i).head := Function.update_self ..
  rw [hself, hleft, tsub_self, add_zero]

/-- A slot that `gc_reset` has cleared. -/
def State.cleared (s : State Tid Addr) (cfg : GcConfig) (i : ℕ) : State Tid Addr :=
  (s.cleanRegions i).setSlot i fun t => { t with ts := cfg.epochMax, head := [], tail := none, frees := 0 }

/-- The slot that is reset. -/
theorem cleared_slots_self : (s.cleared cfg i).slots i =
    { s.slots i with ts := cfg.epochMax, head := [], tail := none, frees := 0 } :=
  Function.update_self ..

/-- The other slots hold what they held. -/
theorem cleared_content_of_ne {j : ℕ} (hj : j ≠ i) : (s.cleared cfg i).content j = s.content j := by
  have hslot : (s.cleared cfg i).slots j = s.slots j := Function.update_of_ne hj ..
  have hleft : (s.cleared cfg i).left j = s.left j := Function.update_of_ne hj ..
  rw [State.content, hslot, hleft]
  rfl

/-- The reset changes no holder. -/
theorem cleared_same : Same s (s.cleared cfg i) where
  used j := by
    by_cases hj : j = i
    · rw [hj, cleared_slots_self]
    · exact congrArg (fun c : Content Addr => c.slot.used) (cleared_content_of_ne hj)
  holder := rfl
  inside := rfl
  registered := rfl
  idx := rfl
  allocs := rfl

/-- The reset of one slot. -/
theorem Inv.cleared (h : Inv cfg s) (hin : s.inside = ∅) (hex : s.exited = false) (hi : i < cfg.maxGcThreads) :
    Inv cfg (s.cleared cfg i) := by
  have hnobody : ∀ j, ∀ q ∈ s.inside, s.holder j ≠ some q := fun j q hq => by
    rw [hin] at hq
    exact (Finset.notMem_empty q hq).elim
  have hupdating := h.updating i (hnobody i)
  have hleft : (s.cleared cfg i).left i = 0 := by
    have hself : (s.cleared cfg i).left i = s.left i - blocksOf (s.slots i).head := Function.update_self ..
    have hquiet : s.left i = blocksOf (s.slots i).head := (h.quiet i (hnobody i) hex).left_eq
    rw [hself, hquiet, tsub_self]
  refine ⟨cleanRegions_tally h.tally hi (h.quiet i (hnobody i) hex).left_eq, fun j => ?_, h.updating,
    fun j hj _ => ?_, fun j => ?_, h.bound, fun j k => ?_, h.sound, fun hn => ?_⟩
  · by_cases hj : j = i
    · subst hj
      rw [State.content, cleared_slots_self]
      exact ⟨.nil, List.nodup_nil, fun _ ha => (List.not_mem_nil ha).elim, fun _ => rfl⟩
    · rw [cleared_content_of_ne hj]
      exact h.ok j
  · by_cases hji : j = i
    · subst hji
      rw [State.content, cleared_slots_self, hleft]
      exact ⟨hupdating, rfl⟩
    · rw [cleared_content_of_ne hji]
      exact h.quiet j hj hex
  · rw [cleared_same.used]
    exact h.busy j
  · rw [cleared_same.used, cleared_same.used]
    exact h.front j k
  · cases hex.symm.trans hn

/-- The loop of `gc_reset`. -/
theorem Inv.resetFrom (n i : ℕ) (h : Inv cfg s) (hin : s.inside = ∅) (hex : s.exited = false)
    (hi : n + i ≤ cfg.maxGcThreads) : Inv cfg (s.resetFrom cfg n i) ∧ Same s (s.resetFrom cfg n i) := by
  have hrefl : Same s s := ⟨fun _ => rfl, rfl, rfl, rfl, rfl, rfl⟩
  induction n generalizing i s with
  | zero => exact ⟨h, hrefl⟩
  | succ n ih =>
    rw [State.resetFrom]
    split
    · exact ⟨h, hrefl⟩
    · have hlt : i < cfg.maxGcThreads := by omega
      have hnext := ih (i + 1) (h.cleared hin hex hlt) hin hex (by omega)
        ⟨fun _ => rfl, rfl, rfl, rfl, rfl, rfl⟩
      exact ⟨hnext.1, cleared_same.trans hnext.2⟩

/-- The loop of `gc_exit`. -/
structure Emptied (cfg : GcConfig) (n : ℕ) (s s' : State Tid Addr) : Prop where
  tally : Tally (fun m n : Multiset Addr => m + n) 0 s.given s'.freed s'.left (Finset.range cfg.maxGcThreads)
  empty : ∀ i < n, s'.left i = 0
  left : ∀ i, n ≤ i → s'.left i = s.left i
  same : s' = { s with freed := s'.freed, left := s'.left }

/-- The loop of `gc_exit` gives back what the slots hold. -/
theorem Inv.cleanSlots (h : Inv cfg s) (hin : s.inside = ∅) (hex : s.exited = false) (n : ℕ)
    (hn : n ≤ cfg.maxGcThreads) : Emptied cfg n s (s.cleanSlots n) := by
  induction n with
  | zero => exact ⟨h.tally, nofun, fun _ _ => rfl, rfl⟩
  | succ n ih =>
    have ih := ih (Nat.le_of_succ_le hn)
    have hleft : (s.cleanSlots n).left n = blocksOf ((s.cleanSlots n).slots n).head := by
      rw [ih.left n (Nat.le_refl n), ih.same]
      refine (h.quiet n (fun q hq => ?_) hex).left_eq
      rw [hin] at hq
      exact (Finset.notMem_empty q hq).elim
    have hself : (s.cleanSlots (n + 1)).left n = 0 := by
      have hself : (s.cleanSlots (n + 1)).left n =
        (s.cleanSlots n).left n - blocksOf ((s.cleanSlots n).slots n).head := Function.update_self ..
      rw [hself, hleft, tsub_self]
    have hother : ∀ j, j ≠ n → (s.cleanSlots (n + 1)).left j = (s.cleanSlots n).left j := fun j hj =>
      Function.update_of_ne hj ..
    have htally := cleanRegions_tally (s := s.cleanSlots n) (i := n) (by rw [ih.same]; exact ih.tally)
      hn hleft
    refine ⟨?_, fun j hj => ?_, fun j hj => ?_, ?_⟩
    · have hgiven : (s.cleanSlots n).given = s.given := by rw [ih.same]
      rw [← hgiven]
      exact htally
    · rcases Nat.lt_succ_iff_lt_or_eq.1 hj with hj | rfl
      · exact (hother j hj.ne).trans (ih.empty j hj)
      · exact hself
    · exact (hother j (by omega)).trans (ih.left j (by omega))
    · have hclean : s.cleanSlots (n + 1) = (s.cleanSlots n).cleanRegions n := rfl
      have hsame : (s.cleanSlots n).cleanRegions n = { s.cleanSlots n with
        freed := ((s.cleanSlots n).cleanRegions n).freed, left := ((s.cleanSlots n).cleanRegions n).left } := rfl
      have hprev : ∀ freed left, ({ s.cleanSlots n with freed := freed, left := left } : State Tid Addr) =
          { s with freed := freed, left := left } := by
        rw [ih.same]
        exact fun _ _ => rfl
      rw [hclean]
      exact hsame.trans (hprev _ _)

/-- After `gc_exit`. -/
theorem Inv.exit (h : Inv cfg s) (hin : s.inside = ∅) (hex : s.exited = false) :
    Inv cfg { s.cleanSlots cfg.maxGcThreads with exited := true } ∧
      Same s { s.cleanSlots cfg.maxGcThreads with exited := true } := by
  obtain ⟨htally, hempty, -, hsame⟩ := h.cleanSlots hin hex _ (Nat.le_refl _)
  generalize hs' : s.cleanSlots cfg.maxGcThreads = s' at htally hempty hsame
  rw [hsame]
  have hfreed : s.given = s'.freed := by
    rw [htally.eq_add_sum, Finset.sum_eq_zero fun i hi => hempty i (Finset.mem_range.1 hi), add_zero]
  have hok (i : ℕ) : (Content.mk (s.slots i) (s'.left i) (s.updating i)).Ok s.allocs :=
    ⟨(h.ok i).sorted, (h.ok i).nodup, (h.ok i).fresh, (h.ok i).tail_eq⟩
  constructor
  · refine { tally := htally, ok := hok, updating := h.updating, quiet := ?_, busy := h.busy,
             bound := h.bound, front := h.front, sound := h.sound, closed := ?_ }
    · intro i hi hopen
      cases hopen
    · intro _
      exact ⟨hin, hfreed.symm⟩
  · exact { used := fun _ => rfl, holder := rfl, inside := rfl, registered := rfl, idx := rfl,
            allocs := rfl }

/-! ## Runs -/

variable [DecidableEq Tid] {J : Assn (listsProtocol cfg : RG (State Tid Addr) Tid) p}

/-- `gc_reset`. -/
theorem gcReset_spec : Triple (listsProtocol cfg : RG (State Tid Addr) Tid) p (has fun o => o.Outside)
    (gcReset cfg) (fun _ => has fun o => o.Outside) J := by
  refine .modify fun s hs h => ?_
  split
  · rename_i hrest
    obtain ⟨hin, hex⟩ := hrest
    have hreset := hs.inv.resetFrom cfg.maxGcThreads 0 hin hex (Nat.le_refl _)
    exact ⟨hreset.1, hreset.2.guar hin, hreset.2.outside hin h⟩
  · exact ⟨hs.inv, (listsProtocol cfg).refl p s hs.inv, h⟩

/-- `gc_exit`. -/
theorem gcExit_spec : Triple (listsProtocol cfg : RG (State Tid Addr) Tid) p (has fun o => o.Outside)
    (gcExit cfg) (fun _ => has fun o => o.Outside) J := by
  refine .modify fun s hs h => ?_
  split
  · rename_i hrest
    obtain ⟨hin, hex, -⟩ := hrest
    have hexit := hs.inv.exit hin hex
    exact ⟨hexit.1, hexit.2.guar hin, hexit.2.outside hin h⟩
  · exact ⟨hs.inv, (listsProtocol cfg).refl p s hs.inv, h⟩

/-- What holds when a command is given. -/
def Cmd.pre (p : Tid) : Cmd Addr → Assn (listsProtocol cfg : RG (State Tid Addr) Tid) p
  | .initThread => has fun o => o.Outside ∧ ¬ o.registered
  | .setEpoch _ | .free _ _ | .cleanup | .exitThread => has fun o => o.Outside ∧ o.registered
  | .cleanupAll => has fun o => o.Outside ∧ True
  | .reset | .exit | .tick _ => has fun o => o.Outside

/-- Every call keeps the invariant. -/
theorem exec_spec (p : Tid) (cmd : Cmd Addr) : Triple (listsProtocol cfg) p (cmd.pre p) (exec cfg p cmd)
    (fun _ => has fun o => o.Outside) (has fun o => o.Outside) := by
  have hready : ∀ s : State Tid Addr, Inv cfg s → s.exited = false → (s.own p).Outside → (s.own p).registered →
      (ready : Assn (listsProtocol cfg : RG (State Tid Addr) Tid) p) { s with inside := insert p s.inside } :=
    fun s hs hex ho hreg => (ready_or_bare_of_outside hs ho hex).1 hreg
  cases cmd with
  | initThread =>
    have hinit : Triple (listsProtocol cfg : RG (State Tid Addr) Tid) p bare
        (do let _ ← gcInitThread cfg p; pure ()) (fun _ => ready ⊔ bare) (has fun o => o.Outside) :=
      .bind gcInitThread_spec fun _ => .of_ret fun _ _ h => h
    exact within_spec (φ := fun o => ¬ o.registered) hinit fun s hs hex ho hreg =>
      (ready_or_bare_of_outside hs ho hex).2 hreg
  | setEpoch epoch => exact within_spec (ready_spec fun _ => gcSetEpoch_spec) hready
  | free addr epoch => exact within_spec (ready_spec fun _ => gcFree_spec rfl) hready
  | cleanup => exact within_spec (ready_spec fun _ => gcCleanup_spec rfl) hready
  | cleanupAll =>
    refine within_spec (φ := fun _ => True) gcCleanupAll_frame fun s hs hex ho _ => ?_
    by_cases hreg : p ∈ s.registered
    · exact .inl ((ready_or_bare_of_outside hs ho hex).1 hreg)
    · exact .inr ((ready_or_bare_of_outside hs ho hex).2 hreg)
  | exitThread => exact within_spec gcExitThread_spec hready
  | reset => exact gcReset_spec
  | exit => exact gcExit_spec
  | tick now =>
    refine .modify fun s hs h => ?_
    have hstep := hs.inv.rename (p := p) s.nbActive now s.idx s.registered (fun _ _ => rfl) fun _ _ => Iff.rfl
    exact ⟨hstep.1, hstep.2, h⟩

omit [DecidableEq Addr] in
/-- A call that is made finds what it needs. -/
theorem Called.pre {cmd : Cmd Addr} (h : Called p cmd s) (ho : (s.own p).Outside) :
    (cmd.pre p : Assn (listsProtocol cfg : RG (State Tid Addr) Tid) p) s := by
  cases cmd with
  | initThread => exact ⟨ho, h⟩
  | setEpoch epoch => exact ⟨ho, h⟩
  | free addr epoch => exact ⟨ho, h⟩
  | cleanup => exact ⟨ho, h⟩
  | cleanupAll => exact ⟨ho, trivial⟩
  | exitThread => exact ⟨ho, h⟩
  | reset => exact ho
  | exit => exact ho
  | tick now => exact ho

omit [DecidableEq Tid] [DecidableEq Addr] in
/-- The invariant holds when the collector has been initialised. -/
theorem inv_init (cfg : GcConfig) (clock : ℕ) : Inv cfg (State.init cfg clock : State Tid Addr) where
  tally := Tally.init (zero_add 0) fun _ _ => rfl
  ok _ := ⟨.nil, List.nodup_nil, nofun, fun _ => rfl⟩
  updating _ _ := rfl
  quiet _ _ _ := ⟨rfl, rfl⟩
  busy _ := iff_of_false (fun h => h rfl) nofun
  bound _ h := (h rfl).elim
  front _ _ _ _ := rfl
  sound := rfl
  closed := nofun

/-- What the collector promises. -/
structure Promised (s : State Tid Addr) : Prop where
  once : s.freed ≤ s.given
  all : s.exited = true → s.freed = s.given
  sound : s.dangling = false
  sorted : ∀ i, (s.slots i).head.Pairwise fun r r' => r.ts < r'.ts
  tail_eq : ∀ i, s.updating i = false → (s.slots i).tail = (s.slots i).head.getLast?.map (·.addr)
  empty_iff : ∀ i, s.updating i = false → ((s.slots i).head = [] ↔ (s.slots i).tail = none)
  updater : ∀ i, s.updating i = true → ∃ p ∈ s.inside, s.holder i = some p
  front : ∀ i j, i ≤ j → (s.slots i).used = .null → (s.slots j).used = .null

omit [DecidableEq Tid] [DecidableEq Addr] in
/-- The invariant says what is promised. -/
theorem Inv.promised (h : Inv cfg s) : Promised s where
  once := by
    rw [h.tally.eq_add_sum]
    exact Multiset.le_add_right _ _
  all hex := (h.closed hex).2
  sound := h.sound
  sorted i := (h.ok i).sorted
  tail_eq i hu := (h.ok i).tail_eq hu
  empty_iff i hu := by
    have htail : (s.slots i).tail = (s.slots i).head.getLast?.map (·.addr) := (h.ok i).tail_eq hu
    rw [htail, Option.map_eq_none_iff, List.getLast?_eq_none_iff]
  updater i hu := by
    by_contra hn
    have hquiet := h.updating i fun p hp hip => hn ⟨p, hp, hip⟩
    nomatch hu.symm.trans hquiet
  front := h.front

/-- In every run the collector gives back what it has been given, once. -/
theorem freed_once {clock : ℕ} {T : Pool (State Tid Addr) Tid}
    (h : Pool.Reaches (exec cfg) Called (Pool.init (State.init cfg clock)) T) : Promised T.st := by
  have hinv : Inv cfg T.st := (Pool.sound (S := Pool.init (State.init cfg clock))
    (B := fun _ => has fun o => o.Outside) exec_spec (fun _ _ _ _ ho hc => hc.pre ho) (inv_init cfg clock)
    (fun p => Pool.atOutline_init ⟨Finset.notMem_empty p, fun i => iff_of_false nofun nofun⟩) h
    fun _ _ _ => trivial).1
  exact hinv.promised

/-- A thread leaves garbage of two epochs, and the thread that takes its slot gives back the older part. -/
def inherited : List (Pool.Label (Fin 2) (Cmd ℕ)) :=
  Pool.Label.calls 30 [(0, .initThread), (0, .free 7 1), (0, .free 8 1), (0, .free 9 4), (0, .exitThread),
    (0, .tick 3), (1, .initThread), (1, .cleanup), (1, .exitThread), (0, .exit)]

/-- The collector after that. -/
def afterInherited : Pool (State (Fin 2) ℕ) (Fin 2) :=
  Pool.follow (exec ⟨2, 100, none⟩) (Pool.init (State.init ⟨2, 100, none⟩ 0)) inherited

set_option maxRecDepth 10000 in
/-- Such a run with a slot that is taken over. -/
theorem freed_once_inherited : afterInherited.st.exited = true ∧ afterInherited.st.freed = {7, 8, 9} ∧
    Promised afterInherited.st :=
  ⟨by decide, by decide, freed_once (Pool.Follows.reaches (by decide))⟩

end TinyStm.GcLists
