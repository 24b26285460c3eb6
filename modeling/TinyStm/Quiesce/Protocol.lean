import Mathlib.Data.List.Perm.Subperm
import TinyStm.Gc.Shared
import TinyStm.Quiesce.Model

/-!
# The protocol of the waiting threads

`Act` lists what a thread may do to the shared state, with what it knows when it does so. The invariant
`Inv` relates the words that several threads change: who holds the mutex, who is counted in
`threads_nb`, and who may be inside the collector while the clock is rolled over. What a thread keeps
to itself is `Own`.
-/

namespace TinyStm.Quiesce

variable {Tid Addr : Type} [DecidableEq Tid] {cfg : Config} {p q : Tid} {s s' : State Tid Addr}

@[simp] theorem setTx_txs_self (s : State Tid Addr) (p : Tid) (f : Tx → Tx) :
    (s.setTx p f).txs p = f (s.txs p) :=
  Function.update_self ..

theorem setTx_txs_of_ne (h : q ≠ p) (f : Tx → Tx) : (s.setTx p f).txs q = s.txs q :=
  Function.update_of_ne h ..

/-- A change that a thread makes to its own descriptor, and that no other thread looks at. -/
inductive Move : Tx → Tx → Prop
  | attr {tx : Tx} (b : Bool) : tx.point = .outside → Move tx { tx with noRetry := b }
  | prepare {tx : Tx} : tx.point = .outside ∨ tx.point = .aborting →
      Move tx { tx with point := .preparing }
  | spin {tx : Tx} : tx.mode = 1 → tx.status.isActive = false →
      Move tx { tx with point := .spinning }
  | activate {tx : Tx} : tx.point = .preparing → Move tx { tx with status := .active }
  | irrevocable {tx : Tx} : tx.point = .preparing → Move tx { tx with status := .irrevocable }
  | idle {tx : Tx} : tx.point = .preparing → Move tx { tx with status := .idle }
  | abort {tx : Tx} : tx.point = .running ∨ tx.point = .outside →
      Move tx { tx with status := .aborted, point := .aborting }
  | first {tx : Tx} (serial : Bool) : tx.mode = 0 → Move tx { tx with mode := 1, serial := serial }
  | grant {tx : Tx} : tx.serial = false → tx.mode = 2 → Move tx { tx with mode := tx.mode + 1 }
  | forget {tx : Tx} : tx.point = .releasing → Move tx { tx with mode := 0, serial := false }
  | commit {tx : Tx} : tx.mode = 0 → Move tx { tx with status := .committed, point := .outside }
  | init {tx : Tx} : tx.point = .outside → Move tx .init
  | gc {tx : Tx} (b : Bool) : Move tx { tx with inGc := b }
  | freed {tx : Tx} : Move tx { tx with freeing := none }

/-- The transaction is active and has got past `stm_check_quiesce`. -/
def Tx.Inside (tx : Tx) : Prop := tx.status.isActive = true ∧ tx.point ≠ .preparing

/-- The thread may be inside the collector: it is not waiting in the barrier, or it has a slot and is
not registered. -/
def State.Busy (s : State Tid Addr) (p : Tid) : Prop :=
  p ∈ s.window ∨ p ∈ s.threads ∧ p ∉ s.barrier

/-- No thread may be inside the collector, if the rollover has not gone wrong. -/
def State.Covered (s : State Tid Addr) : Prop :=
  s.exposed = true ∨ s.uncounted = true ∨ s.window = [] ∧ ∀ q ∈ s.threads, q ∈ s.barrier

/-- What thread `p` may do. -/
inductive Act (cfg : Config) (p : Tid) : State Tid Addr → State Tid Addr → Prop
  | stutter {s : State Tid Addr} : Act cfg p s s
  | lock {s : State Tid Addr} : s.mutex = none → Act cfg p s { s with mutex := some p }
  | unlock {s : State Tid Addr} : s.mutex = some p → s.granted ≠ some p → s.rolling ≠ some p →
      Act cfg p s { s with mutex := none }
  | spurious {s : State Tid Addr} (pick : ℕ) :
      Act cfg p s { s with sleepers := wake pick s.sleepers }
  /- threads come and go -/
  | enterWindow {s : State Tid Addr} : Act cfg p s { s with
      window := p :: s.window, exposed := s.exposed || decide (s.rolling ≠ none) }
  | register {s : State Tid Addr} : s.mutex = some p → s.rolling ≠ some p → p ∉ s.threads →
      p ∉ s.barrier → Act cfg p s { s with
        threads := p :: s.threads, threadsNb := s.threadsNb + 1, window := s.window.filter (· ≠ p) }
  | unregister {s : State Tid Addr} (pick : ℕ) : s.mutex = some p → s.rolling ≠ some p →
      p ∈ s.threads → p ∉ s.barrier → (s.txs p).point = .outside →
      (s.txs p).status.isActive = false → Act cfg p s { s with
        threads := s.threads.erase p, threadsNb := s.threadsNb - 1, window := p :: s.window
        sleepers := if s.quiesce ≠ 0 then wake pick s.sleepers else s.sleepers
        checked := Function.update s.checked p false }
  | leaveWindow {s : State Tid Addr} : (s.txs p).inGc = false → (s.txs p).freeing = none →
      Act cfg p s { s with window := s.window.filter (· ≠ p) }
  /- the barrier -/
  | arrive {s : State Tid Addr} : s.mutex = some p → s.rolling ≠ some p → p ∉ s.barrier →
      (s.txs p).point = .outside ∨ (s.txs p).point = .preparing → (s.txs p).inGc = false →
      (s.txs p).freeing = none → Act cfg p s { s with
        threadsNb := s.threadsNb - 1, quiesce := if s.quiesce = 0 then 1 else s.quiesce
        barrier := p :: s.barrier, halted := s.halted || decide ((s.txs p).mode ≥ 2)
        uncounted := s.uncounted || decide (p ∉ s.threads) }
  | sleep {s : State Tid Addr} : s.mutex = some p → s.granted ≠ some p → s.rolling ≠ some p →
      p ∈ s.barrier → p ∉ s.sleepers → s.quiesce ≠ 0 → s.threadsNb ≠ 0 →
      Act cfg p s { s with sleepers := p :: s.sleepers, mutex := none }
  | depart {s : State Tid Addr} : s.mutex = some p → s.rolling ≠ some p → p ∈ s.barrier →
      p ∉ s.sleepers → s.quiesce = 0 →
      Act cfg p s { s with threadsNb := s.threadsNb + 1, barrier := s.barrier.erase p }
  | beginRollover {s : State Tid Addr} : s.mutex = some p → s.threadsNb = 0 → Act cfg p s { s with
      gc := { s.gc with clock := 0 }, rolling := some p, exposed := s.exposed || s.window ≠ []
      crew := 0, spare := [], overdraws := 0 }
  | reset {s : State Tid Addr} {g : GcState Tid (Block Tid Addr)} : s.rolling = some p →
      GcStep none s.gc g → (∀ c, cfg.gc = some c → GcShape c g) →
      (∀ i, (g.slots i).regions = (s.gc.slots i).regions ∨ (g.slots i).regions = []) →
      Act cfg p s { s with gc := g }
  | endRollover {s : State Tid Addr} : s.rolling = some p → s.granted ≠ some p →
      (cfg.gc ≠ none → s.exposed = true ∨ s.uncounted = true ∨ ∀ i, (s.gc.slots i).regions = []) →
      Act cfg p s { s with quiesce := 0, sleepers := [], rolling := none }
  /- serial irrevocability -/
  | quiesce {s : State Tid Addr} : s.mutex = some p → s.rolling ≠ some p →
      Act cfg p s { s with quiesce := 2 }
  | grantSerial {s : State Tid Addr} : s.mutex = some p → s.quiesce = 2 → (s.txs p).mode = 2 →
      (s.overtaken = true ∨ ∀ q ∈ s.threads, q ≠ p → ¬ (s.txs q).Inside) → p ∉ s.barrier →
      Act cfg p s { s.setTx p (fun tx => { tx with mode := tx.mode + 1 }) with granted := some p }
  | release {s : State Tid Addr} : s.granted = some p → (s.txs p).point = .releasing →
      Act cfg p s { s with
        quiesce := 0, granted := none, stranded := s.stranded || decide (s.sleepers ≠ []) }
  | pass {s : State Tid Addr} : (s.txs p).point = .preparing → (s.txs p).status.isActive = true →
      s.quiesce ≠ 2 ∨ s.granted = some p → p ∉ s.barrier →
      Act cfg p s (s.setTx p fun tx => { tx with point := .running })
  | restore {s : State Tid Addr} {st : Status} : (s.txs p).point = .preparing →
      st.isActive = true → p ∉ s.barrier → Act cfg p s
        { s.setTx p (fun tx => { tx with status := st, point := .running }) with
          overtaken := s.overtaken || decide (s.quiesce = 2) }
  /- the token -/
  | takeToken {s : State Tid Addr} : s.irrevocable = 0 → (s.txs p).mode = 1 →
      (s.txs p).point = .spinning ∨
        (s.txs p).point = .running ∧ (s.txs p).status.isActive = true → p ∉ s.barrier →
      Act cfg p s { s.setTx p (fun tx => { tx with
        mode := tx.mode + 1, point := if tx.point = .spinning then .preparing else tx.point }) with
        irrevocable := 1 }
  | returnToken {s : State Tid Addr} : p ∈ s.threads → p ∉ s.barrier → (s.txs p).mode ≠ 0 →
      (s.txs p).point = .running ∨ (s.txs p).point = .outside →
      Act cfg p s { s.setTx p (fun tx => { tx with point := .releasing }) with
        irrevocable := 0, misreleased := s.misreleased || decide ((s.txs p).mode < 2) }
  | request {s : State Tid Addr} (serial : Bool) : p ∉ s.barrier →
      (s.txs p).point = .outside ∨ (s.txs p).point = .aborting → Act cfg p s
        { s.setTx p (fun tx => { tx with mode := 1, serial := serial }) with
          leaked := s.leaked || decide ((s.txs p).mode ≥ 2) }
  | giveUp {s : State Tid Addr} : p ∉ s.barrier → (s.txs p).point = .aborting →
      (s.txs p).status.isActive = false → Act cfg p s
      { s.setTx p (fun tx => { tx with point := .outside }) with
        leaked := s.leaked || decide ((s.txs p).mode ≥ 2) }
  /- the descriptor, the clock and the collector -/
  | move {s : State Tid Addr} {f : Tx → Tx} : Move (s.txs p) (f (s.txs p)) → p ∉ s.barrier →
      ((f (s.txs p)).point ≠ .outside → p ∈ s.threads) →
      ((f (s.txs p)).inGc = true ∨ (f (s.txs p)).freeing ≠ none → s.Busy p) →
      Act cfg p s (s.setTx p f)
  | start {s : State Tid Addr} : p ∈ s.threads → p ∉ s.barrier → Act cfg p s
      { s.setTx p (fun tx => { tx with start := s.gc.clock }) with
        checked := Function.update s.checked p (decide (s.gc.clock < cfg.versionMax)) }
  | tick {s : State Tid Addr} (unchecked : Bool) : Act cfg p s (s.tick cfg p unchecked)
  | epoch {s : State Tid Addr} : s.Busy p → p ∉ s.barrier →
      Act cfg p s (s.setTx p fun tx => { tx with freeing := some s.gc.clock })
  | call {s : State Tid Addr} {e : ℕ} : (s.txs p).freeing = some e →
      (cfg.gc ≠ none → s.gc.holder (s.gc.idx p) = .thread p) → Act cfg p s { s with
      failed := s.failed || (s.gc.slots (s.gc.idx p)).tailTs.any fun ts => decide (e < ts) }
  | gc {s : State Tid Addr} {g : GcState Tid (Block Tid Addr)} : cfg.gc ≠ none → s.Busy p →
      GcStep (some p) s.gc g → GcStamps p (s.txs p).freeing s.gc g →
      (∀ c, cfg.gc = some c → GcShape c g) → Act cfg p s { s with gc := g }

/-- The invariant. -/
structure Inv (cfg : Config) (s : State Tid Addr) : Prop where
  active : ∀ q, (s.txs q).status.isActive = true → q ∈ s.threads
  registered : ∀ q, (s.txs q).point ≠ .outside → q ∈ s.threads
  granted : ∀ q, s.granted = some q → s.mutex = some q ∧ s.quiesce = 2
  serial : ∀ q, (s.txs q).mode = 3 → (s.txs q).serial = true → (s.txs q).point ≠ .releasing →
    s.granted = some q
  threads : s.threads.Nodup
  barrier : s.barrier.Nodup
  sleepers : s.sleepers.Nodup
  asleep : ∀ q ∈ s.sleepers, q ∈ s.barrier
  counted : s.uncounted = true ∨ ∀ q ∈ s.barrier, q ∈ s.threads
  count : s.threadsNb = s.threads.length - s.barrier.length
  rolling : ∀ q, s.rolling = some q → s.mutex = some q ∧ s.Covered
  busy : ∀ q, (s.txs q).inGc = true ∨ (s.txs q).freeing ≠ none → s.Busy q
  waits : ∀ q ∈ s.barrier, (s.txs q).point = .outside ∨ (s.txs q).point = .preparing
  shape : ∀ c, cfg.gc = some c → GcShape c s.gc

/-! ## The invariant is kept -/

/-- A step that changes the descriptor of `p`, the token and some auxiliary fields. -/
theorem Inv.setTx (h : Inv cfg s) {tx : Tx} {i : ℕ} {checked : Tid → Bool}
    {overtaken leaked misreleased : Bool} (hbarrier : p ∉ s.barrier) (hactive : tx.status.isActive = true → p ∈ s.threads)
    (hregistered : tx.point ≠ .outside → p ∈ s.threads)
    (hserial : tx.mode = 3 → tx.serial = true → tx.point ≠ .releasing → s.granted = some p)
    (hbusy : tx.inGc = true ∨ tx.freeing ≠ none → s.Busy p) :
    Inv cfg { s with
      txs := Function.update s.txs p tx, irrevocable := i, checked := checked, overtaken := overtaken
      leaked := leaked, misreleased := misreleased } := by
  have hself : Function.update s.txs p tx p = tx := Function.update_self ..
  have hother : ∀ {q}, q ≠ p → Function.update s.txs p tx q = s.txs q := fun hq =>
    Function.update_of_ne hq ..
  refine ⟨fun q hq => ?_, fun q hq => ?_, h.granted, fun q => ?_, h.threads, h.barrier, h.sleepers,
    h.asleep, h.counted, h.count, h.rolling, fun q hq => ?_, fun q hq => ?_, h.shape⟩
  all_goals dsimp only at *
  · by_cases hqp : q = p
    · subst hqp
      rw [hself] at hq
      exact hactive hq
    · rw [hother hqp] at hq
      exact h.active q hq
  · by_cases hqp : q = p
    · subst hqp
      rw [hself] at hq
      exact hregistered hq
    · rw [hother hqp] at hq
      exact h.registered q hq
  · by_cases hqp : q = p
    · subst hqp
      rw [hself]
      exact hserial
    · rw [hother hqp]
      exact h.serial q
  · by_cases hqp : q = p
    · subst hqp
      rw [hself] at hq
      exact hbusy hq
    · rw [hother hqp] at hq
      exact h.busy q hq
  · rw [hother (by rintro rfl; exact hbarrier hq)]
    exact h.waits q hq

omit [DecidableEq Tid] in
theorem wake_sublist (pick : ℕ) (l : List Tid) : (wake pick l).Sublist l := List.eraseIdx_sublist ..

omit [DecidableEq Tid] in
/-- The thread that holds the mutex and does not roll the clock over: no thread does. -/
theorem Inv.not_rolling (h : Inv cfg s) (hmutex : s.mutex = some p) (hrolling : s.rolling ≠ some p) :
    s.rolling = none := by
  cases hr : s.rolling with
  | none => rfl
  | some q =>
    obtain rfl : p = q := Option.some.inj (hmutex.symm.trans (h.rolling q hr).1)
    exact (hrolling hr).elim

omit [DecidableEq Tid] in
/-- When nobody is counted, every registered thread waits in the barrier, if all that wait there are
registered. -/
theorem Inv.covered (h : Inv cfg s) (hnb : s.threadsNb = 0) (hwindow : s.window = []) : s.Covered := by
  rcases h.counted with hu | hsub
  · exact .inr (.inl hu)
  · refine .inr (.inr ⟨hwindow, fun q hq => ?_⟩)
    have hlength := h.count
    have hperm := (h.barrier.subperm hsub).perm_of_length_le (by omega)
    exact hperm.mem_iff.2 hq

/-- A transaction becomes active inside `int_stm_prepare`. -/
theorem Move.active {tx tx' : Tx} (h : Move tx tx') (hactive : tx'.status.isActive = true) :
    tx.status.isActive = true ∨ tx'.point ≠ .outside := by
  cases h with
  | activate h | irrevocable h => exact .inr (by rw [h]; nofun)
  | idle | abort | commit | init => cases hactive
  | attr | prepare | spin | first | grant | forget | gc | freed => exact .inl hactive

/-- A move does not make a transaction serial irrevocable. -/
theorem Move.serial {tx tx' : Tx} (h : Move tx tx') (hmode : tx'.mode = 3)
    (hserial : tx'.serial = true) (hpoint : tx'.point ≠ .releasing) :
    tx.mode = 3 ∧ tx.serial = true ∧ tx.point ≠ .releasing := by
  cases h with
  | prepare h =>
    refine ⟨hmode, hserial, fun h' => ?_⟩
    rcases h with h | h <;> cases h.symm.trans h'
  | abort h =>
    refine ⟨hmode, hserial, fun h' => ?_⟩
    rcases h with h | h <;> cases h.symm.trans h'
  | spin h _ => cases h.symm.trans hmode
  | commit h => cases h.symm.trans hmode
  | first | forget | init => cases hmode
  | grant h => cases h.symm.trans hserial
  | attr | activate | irrevocable | idle | gc | freed => exact ⟨hmode, hserial, hpoint⟩

/-- A step that leaves alone the descriptors and the token keeps the invariant, if it keeps what the
invariant says of the rest. -/
theorem Act.inv (h : Act cfg p s s') (hs : Inv cfg s) : Inv cfg s' := by
  cases h with
  | stutter => exact hs
  | lock hmutex =>
    refine { hs with granted := fun q hq => ?_, rolling := fun q hq => ?_ }
    · cases hmutex.symm.trans (hs.granted q hq).1
    · cases hmutex.symm.trans (hs.rolling q hq).1
  | unlock hmutex hgranted hrolling =>
    refine { hs with granted := fun q hq => ?_, rolling := fun q hq => ?_ }
    · obtain rfl : p = q := Option.some.inj (hmutex.symm.trans (hs.granted q hq).1)
      exact (hgranted hq).elim
    · cases (hs.not_rolling hmutex hrolling).symm.trans hq
  | spurious pick =>
    refine { hs with sleepers := ?_, asleep := fun q hq => ?_ }
    · exact hs.sleepers.sublist (wake_sublist ..)
    · exact hs.asleep q ((wake_sublist ..).subset hq)
  | enterWindow =>
    refine { hs with rolling := fun q hq => ⟨(hs.rolling q hq).1, .inl ?_⟩, busy := fun q hq => ?_ }
    · have hq : s.rolling = some q := hq
      simp [hq]
    · exact (hs.busy q hq).imp (List.mem_cons_of_mem _) id
  | register hmutex hrolling hp hbarrier =>
    refine { hs with
      active := fun q hq => List.mem_cons_of_mem _ (hs.active q hq)
      registered := fun q hq => List.mem_cons_of_mem _ (hs.registered q hq)
      threads := List.nodup_cons.2 ⟨hp, hs.threads⟩
      counted := hs.counted.imp id fun h q hq => List.mem_cons_of_mem _ (h q hq)
      count := ?_, rolling := fun q hq => ?_, busy := fun q hq => ?_ }
    · have hcount := hs.count
      simp only [List.length_cons]
      omega
    · cases (hs.not_rolling hmutex hrolling).symm.trans hq
    · by_cases hqp : q = p
      · subst hqp
        exact .inr ⟨List.mem_cons_self, hbarrier⟩
      · refine (hs.busy q hq).imp (fun h => ?_) fun h => ⟨List.mem_cons_of_mem _ h.1, h.2⟩
        exact List.mem_filter.2 ⟨h, by simpa using hqp⟩
  | unregister pick hmutex hrolling hp hbarrier hpoint hinactive =>
    have hsub : (if s.quiesce ≠ 0 then wake pick s.sleepers else s.sleepers).Sublist s.sleepers := by
      split
      · exact wake_sublist ..
      · exact List.Sublist.refl _
    have herase : ∀ {q}, q ≠ p → q ∈ s.threads → q ∈ s.threads.erase p := fun hqp hq =>
      (List.mem_erase_of_ne hqp).2 hq
    refine { hs with
      active := fun q hq => herase (by rintro rfl; cases hinactive.symm.trans hq) (hs.active q hq)
      registered := fun q hq => herase (by rintro rfl; exact hq hpoint) (hs.registered q hq)
      threads := hs.threads.erase p
      sleepers := hs.sleepers.sublist hsub
      asleep := fun q hq => hs.asleep q (hsub.subset hq)
      counted := hs.counted.imp id fun h q hq => herase (by rintro rfl; exact hbarrier hq) (h q hq)
      count := ?_, rolling := fun q hq => ?_, busy := fun q hq => ?_ }
    · have hcount := hs.count
      have hlength := List.length_erase_of_mem hp
      have hpos := List.length_pos_of_mem hp
      dsimp only
      omega
    · cases (hs.not_rolling hmutex hrolling).symm.trans hq
    · by_cases hqp : q = p
      · exact .inl (hqp ▸ List.mem_cons_self)
      · exact (hs.busy q hq).imp (List.mem_cons_of_mem _) fun h => ⟨herase hqp h.1, h.2⟩
  | leaveWindow hgc hfreeing =>
    refine { hs with
      rolling := fun q hq => ⟨(hs.rolling q hq).1, ?_⟩, busy := fun q hq => ?_ }
    · refine (hs.rolling q hq).2.imp id (Or.imp id fun h => ⟨?_, h.2⟩)
      simp [h.1]
    · have hqp : q ≠ p := by
        rintro rfl
        exact hq.elim (fun h => by cases hgc.symm.trans h) fun h => h hfreeing
      exact (hs.busy q hq).imp (fun h => List.mem_filter.2 ⟨h, by simpa using hqp⟩) id
  | arrive hmutex hrolling hbarrier hpoint hgc hfreeing =>
    refine { hs with
      granted := fun q hq => ⟨(hs.granted q hq).1, ?_⟩
      barrier := List.nodup_cons.2 ⟨hbarrier, hs.barrier⟩
      asleep := fun q hq => List.mem_cons_of_mem _ (hs.asleep q hq)
      counted := ?_, count := ?_, rolling := fun q hq => ?_, busy := fun q hq => ?_
      waits := fun q hq => ?_ }
    · have hquiesce := (hs.granted q hq).2
      simp [hquiesce]
    · by_cases hp : p ∈ s.threads
      · refine hs.counted.imp (fun h => by simp [h]) fun h q hq => ?_
        rcases List.mem_cons.1 hq with rfl | hq
        · exact hp
        · exact h q hq
      · exact .inl (by simp [hp])
    · have hcount := hs.count
      simp only [List.length_cons]
      omega
    · cases (hs.not_rolling hmutex hrolling).symm.trans hq
    · have hqp : q ≠ p := by
        rintro rfl
        exact hq.elim (fun h => by cases hgc.symm.trans h) fun h => h hfreeing
      exact (hs.busy q hq).imp id fun h => ⟨h.1, by simp [hqp, h.2]⟩
    · rcases List.mem_cons.1 hq with rfl | hq
      · exact hpoint
      · exact hs.waits q hq
  | sleep hmutex hgranted hrolling hbarrier hsleepers _ _ =>
    refine { hs with
      granted := fun q hq => ?_, rolling := fun q hq => ?_
      sleepers := List.nodup_cons.2 ⟨hsleepers, hs.sleepers⟩, asleep := fun q hq => ?_ }
    · obtain rfl : p = q := Option.some.inj (hmutex.symm.trans (hs.granted q hq).1)
      exact (hgranted hq).elim
    · rcases List.mem_cons.1 hq with rfl | hq
      · exact hbarrier
      · exact hs.asleep q hq
    · cases (hs.not_rolling hmutex hrolling).symm.trans hq
  | depart hmutex hrolling hbarrier hsleepers _ =>
    have herase : ∀ {q}, q ∈ s.barrier.erase p → q ∈ s.barrier := List.mem_of_mem_erase
    refine { hs with
      barrier := hs.barrier.erase p
      asleep := fun q hq => (List.mem_erase_of_ne (by rintro rfl; exact hsleepers hq)).2
        (hs.asleep q hq)
      counted := hs.counted.imp id fun h q hq => h q (herase hq)
      count := ?_, rolling := fun q hq => ?_
      busy := fun q hq => (hs.busy q hq).imp id fun h => ⟨h.1, fun hq => h.2 (herase hq)⟩
      waits := fun q hq => hs.waits q (herase hq) }
    · have hcount := hs.count
      have hlength := List.length_erase_of_mem hbarrier
      have hpos := List.length_pos_of_mem hbarrier
      dsimp only
      omega
    · cases (hs.not_rolling hmutex hrolling).symm.trans hq
  | beginRollover hmutex hnb =>
    refine { hs with
      rolling := fun q hq => ⟨hmutex.trans hq, ?_⟩
      shape := fun c hc => (hs.shape c hc).setClock 0 }
    by_cases hwindow : s.window = []
    · exact (hs.covered hnb hwindow).imp (fun h => by simp [h]) id
    · exact .inl (by simp [hwindow])
  | reset hrolling hstep hshape _ => exact { hs with shape := hshape }
  | endRollover hrolling hgranted _ =>
    refine { hs with
      granted := fun q hq => ?_, sleepers := List.nodup_nil, asleep := fun q hq => nomatch hq
      rolling := fun q hq => nomatch hq }
    obtain rfl : q = p :=
      Option.some.inj ((hs.granted q hq).1.symm.trans (hs.rolling p hrolling).1)
    exact (hgranted hq).elim
  | quiesce hmutex hrolling =>
    exact { hs with granted := fun q hq => ⟨(hs.granted q hq).1, rfl⟩ }
  | grantSerial hmutex hquiesce hmode _ hbarrier =>
    have h : Inv cfg { s with granted := some p } := by
      refine { hs with
        granted := fun q hq => ⟨hmutex.trans hq, hquiesce⟩, serial := fun q hmode hserial hq => ?_ }
      exact hmutex.symm.trans (hs.granted q (hs.serial q hmode hserial hq)).1
    exact h.setTx hbarrier (hs.active p) (hs.registered p) (fun _ _ _ => rfl) (hs.busy p)
  | release hgranted hpoint =>
    refine { hs with granted := nofun, serial := fun q hmode hserial hq => ?_ }
    obtain rfl : p = q := Option.some.inj (hgranted.symm.trans (hs.serial q hmode hserial hq))
    exact (hq hpoint).elim
  | pass hpoint hactive _ hbarrier =>
    have hp : p ∈ s.threads := hs.registered p (by rw [hpoint]; nofun)
    exact hs.setTx hbarrier (fun _ => hp) (fun _ => hp)
      (fun hmode hserial _ => hs.serial p hmode hserial (by rw [hpoint]; nofun)) fun h => hs.busy p h
  | restore hpoint hactive hbarrier =>
    have hp : p ∈ s.threads := hs.registered p (by rw [hpoint]; nofun)
    exact hs.setTx hbarrier (fun _ => hp) (fun _ => hp)
      (fun hmode hserial _ => hs.serial p hmode hserial (by rw [hpoint]; nofun)) fun h => hs.busy p h
  | takeToken _ hmode hpoint hbarrier =>
    refine hs.setTx hbarrier (hs.active p) (fun _ => hs.registered p ?_)
      (fun hmode' _ _ => ?_) fun h => hs.busy p h
    · rcases hpoint with hpoint | ⟨hpoint, -⟩ <;> rw [hpoint] <;> nofun
    · simp [hmode] at hmode'
  | returnToken hp hbarrier _ _ =>
    exact hs.setTx hbarrier (fun _ => hp) (fun _ => hp) (fun _ _ h => (h rfl).elim) fun h => hs.busy p h
  | request serial hbarrier hpoint =>
    exact hs.setTx hbarrier (hs.active p) (hs.registered p) nofun (hs.busy p)
  | giveUp hbarrier hpoint _ =>
    exact hs.setTx hbarrier (hs.active p) (fun h => (h rfl).elim)
      (fun hmode hserial _ => hs.serial p hmode hserial (by rw [hpoint]; nofun)) fun h => hs.busy p h
  | move hmove hbarrier hregistered hbusy =>
    refine hs.setTx hbarrier (fun h => (hmove.active h).elim (hs.active p) hregistered) hregistered
      (fun hmode hserial hq => ?_) hbusy
    obtain ⟨hmode, hserial, hq⟩ := hmove.serial hmode hserial hq
    exact hs.serial p hmode hserial hq
  | start hp hbarrier =>
    exact hs.setTx hbarrier (hs.active p) (fun _ => hp) (hs.serial p) (hs.busy p)
  | tick => exact { hs with shape := fun c hc => (hs.shape c hc).setClock _ }
  | epoch hbusy hbarrier =>
    exact hs.setTx hbarrier (hs.active p) (hs.registered p) (hs.serial p) fun _ => hbusy
  | call _ _ => exact { hs with }
  | gc _ _ _ _ hshape => exact { hs with shape := hshape }

/-! ## What a thread has to itself -/

/-- What thread `p` has to itself: its descriptor, whether it is registered, waits in the barrier, has a
slot without being registered, is serial irrevocable, rolls the clock over, and holds its slot. -/
structure Own where
  tx : Tx
  registered : Prop
  waiting : Prop
  windowed : Prop
  granted : Prop
  rolls : Prop
  slotted : Prop

/-- What thread `p` has to itself. -/
def State.own (s : State Tid Addr) (p : Tid) : Own where
  tx := s.txs p
  registered := p ∈ s.threads
  waiting := p ∈ s.barrier
  windowed := p ∈ s.window
  granted := s.granted = some p
  rolls := s.rolling = some p
  slotted := s.gc.holder (s.gc.idx p) = .thread p

theorem own_setTx (s : State Tid Addr) (p : Tid) (f : Tx → Tx) :
    (s.setTx p f).own p = { s.own p with tx := f (s.txs p) } := by
  simp [State.own, State.setTx]

omit [DecidableEq Tid] in
theorem own_congr (htx : s'.txs q = s.txs q) (hthreads : q ∈ s'.threads ↔ q ∈ s.threads)
    (hbarrier : q ∈ s'.barrier ↔ q ∈ s.barrier) (hwindow : q ∈ s'.window ↔ q ∈ s.window)
    (hgranted : s'.granted = some q ↔ s.granted = some q)
    (hrolling : s'.rolling = some q ↔ s.rolling = some q)
    (hslot : s'.gc.holder (s'.gc.idx q) = .thread q ↔ s.gc.holder (s.gc.idx q) = .thread q) :
    s'.own q = s.own q := by
  simp only [State.own, htx, hthreads, hbarrier, hwindow, hgranted, hrolling, hslot]

/-- The steps of the other threads leave it alone. -/
theorem Act.own (h : Act cfg p s s') (hs : Inv cfg s) (hq : q ≠ p) : s'.own q = s.own q := by
  have htx (tx : Tx) :
      { s.own q with tx := (Function.update s.txs p tx : Tid → Tx) q } = s.own q :=
    congrArg (fun tx : Tx => { s.own q with tx := tx }) (Function.update_of_ne hq ..)
  have hmutex_ne (hmutex : s.mutex = some p) : s.mutex ≠ some q := fun h =>
    hq (Option.some.inj (h.symm.trans hmutex))
  cases h with
  | stutter | lock | unlock | spurious | sleep | quiesce | tick | call => rfl
  | enterWindow => exact own_congr rfl .rfl .rfl (by simp [hq]) .rfl .rfl .rfl
  | register =>
    exact own_congr rfl (by simp [hq]) .rfl (by simp [hq]) .rfl .rfl .rfl
  | unregister =>
    exact own_congr rfl (List.mem_erase_of_ne hq) .rfl (by simp [hq]) .rfl .rfl .rfl
  | leaveWindow => exact own_congr rfl .rfl .rfl (by simp [hq]) .rfl .rfl .rfl
  | arrive => exact own_congr rfl .rfl (by simp [hq]) .rfl .rfl .rfl .rfl
  | depart => exact own_congr rfl .rfl (List.mem_erase_of_ne hq) .rfl .rfl .rfl .rfl
  | beginRollover hmutex _ =>
    refine own_congr rfl .rfl .rfl .rfl .rfl ⟨fun h => ?_, fun h => ?_⟩ .rfl
    · exact (hq (Option.some.inj h).symm).elim
    · exact (hmutex_ne hmutex (hs.rolling q h).1).elim
  | reset _ hstep _ _ => exact own_congr rfl .rfl .rfl .rfl .rfl .rfl (hstep.slotted nofun)
  | endRollover hrolling _ _ =>
    refine own_congr rfl .rfl .rfl .rfl .rfl ⟨nofun, fun h => ?_⟩ .rfl
    exact (hq (Option.some.inj (h.symm.trans hrolling))).elim
  | grantSerial hmutex _ _ _ _ =>
    refine own_congr (Function.update_of_ne hq ..) .rfl .rfl .rfl ⟨fun h => ?_, fun h => ?_⟩ .rfl .rfl
    · exact (hq (Option.some.inj h).symm).elim
    · exact (hmutex_ne hmutex (hs.granted q h).1).elim
  | release hgranted _ =>
    refine own_congr rfl .rfl .rfl .rfl ⟨nofun, fun h => ?_⟩ .rfl .rfl
    exact (hq (Option.some.inj (h.symm.trans hgranted))).elim
  | pass | restore | takeToken | returnToken | request | giveUp | move | start | epoch => exact htx _
  | gc _ _ hstep _ _ =>
    exact own_congr rfl .rfl .rfl .rfl .rfl .rfl (hstep.slotted (mt Option.some.inj hq))

/-- The protocol. No transaction returns a token that it does not hold. -/
def protocol (cfg : Config) : RG (State Tid Addr) Tid where
  inv := Inv cfg
  guar := Act cfg
  obs s := s.misreleased = false
  refl _ _ _ := .stutter

/-- An assertion about what thread `p` has to itself. -/
def has (φ : Own → Prop) : Assn (protocol cfg : RG (State Tid Addr) Tid) p where
  holds s := φ (s.own p)
  stable q hq s s' hs _ hg h := by
    rw [Act.own hg hs (Ne.symm hq)]
    exact h

/-- The holder of the mutex is the only one to change what it protects. -/
theorem Act.guarded (h : Act cfg q s s') (hs : Inv cfg s) (hq : q ≠ p) (hp : s.mutex = some p) :
    s'.mutex = some p ∧ s'.quiesce = s.quiesce ∧ s'.threadsNb = s.threadsNb ∧
      s'.threads = s.threads := by
  have hne {r : Tid} (h : s.mutex = some r) : r = p := Option.some.inj (h.symm.trans hp)
  cases h with
  | lock hmutex => cases hmutex.symm.trans hp
  | unlock hmutex | register hmutex | unregister _ hmutex | arrive hmutex | sleep hmutex
  | depart hmutex | quiesce hmutex => exact (hq (hne hmutex)).elim
  | endRollover hrolling => exact (hq (hne (hs.rolling q hrolling).1)).elim
  | release hgranted => exact (hq (hne (hs.granted q hgranted).1)).elim
  | stutter | spurious | enterWindow | leaveWindow | beginRollover | reset | grantSerial | pass
  | restore | takeToken | returnToken | request | giveUp | move | start | tick | epoch | call | gc =>
    exact ⟨hp, rfl, rfl, rfl⟩

/-- Thread `p` holds the mutex, and what it protects is as `ψ` says. -/
def locked (ψ : ℕ → ℤ → List Tid → Prop) : Assn (protocol cfg : RG (State Tid Addr) Tid) p where
  holds s := s.mutex = some p ∧ ψ s.quiesce s.threadsNb s.threads
  stable q hq s s' hs _ hg h := by
    obtain ⟨hmutex, hquiesce, hnb, hthreads⟩ := Act.guarded hg hs hq h.1
    rw [hquiesce, hnb, hthreads]
    exact ⟨hmutex, h.2⟩

/-- Thread `p` does not sleep. -/
def awake : Assn (protocol cfg : RG (State Tid Addr) Tid) p where
  holds s := p ∉ s.sleepers
  stable q hq s s' _ _ hg h := by
    cases hg with
    | spurious => exact fun hp => h ((wake_sublist ..).subset hp)
    | unregister =>
      intro hp
      dsimp only at hp
      split at hp
      · exact h ((wake_sublist ..).subset hp)
      · exact h hp
    | sleep => exact fun hp => (List.mem_cons.1 hp).elim (fun hp => hq hp.symm) h
    | endRollover => nofun
    | _ => exact h

end TinyStm.Quiesce
