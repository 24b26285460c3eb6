import TinyStm.Result.Exclusive

/-!
# The collector across rollovers and thread exits

While the clock is rolled over no thread is inside the collector, and memory is freed at epochs that
do not decrease, unless the clock is rolled over while a thread registers or exits: such a thread
has a slot of the collector but is not counted. The set of the threads that hold a slot and that of
the threads that the barrier counts differ only while a thread is between the two in
`stm_init_thread` or `stm_exit_thread`. The condition is on the state before the clock is rolled
over.
-/

namespace TinyStm.Quiesce

variable {Tid Addr : Type} [DecidableEq Tid] {cfg : Config} {p q : Tid} {s s' : State Tid Addr}

/-- While the clock is rolled over no thread is inside a function of the collector, or is about to free
memory, or runs a transaction; and the assertion of `gc_free` has not failed. -/
structure State.Collected (s : State Tid Addr) : Prop where
  idle : ∀ p, s.rolling = some p → ∀ q, (s.txs q).inGc = false ∧ (s.txs q).freeing = none ∧
    ((s.txs q).point = .outside ∨ (s.txs q).point = .preparing)
  asserted : s.failed = false

/-- The epochs: those of the regions are in the past, and those in the slot of a thread that frees memory
are not after the epoch at which it does so. -/
structure State.Epochs (cfg : Config) (s : State Tid Addr) : Prop where
  past : s.rolling = none → ∀ i, ∀ r ∈ (s.gc.slots i).regions, r.ts ≤ s.gc.clock
  read : ∀ q e, (s.txs q).freeing = some e → e ≤ s.gc.clock
  mono : ∀ q e, (s.txs q).freeing = some e → s.gc.holder (s.gc.idx q) = .thread q →
    ∀ r ∈ (s.gc.slots (s.gc.idx q)).regions, r.ts ≤ e
  none : cfg.gc = none → ∀ i, (s.gc.slots i).regions = []
  asserted : s.failed = false

omit [DecidableEq Tid] in
/-- While the clock is rolled over, no thread is inside the collector, if the rollover has not gone
wrong. -/
theorem Inv.not_busy (hs : Inv cfg s) (he : s.exposed = false) (hu : s.uncounted = false)
    (hrolling : s.rolling = some p) (q : Tid) : ¬ s.Busy q := by
  have hcovered := (hs.rolling p hrolling).2
  obtain ⟨hwindow, hbarrier⟩ :=
    (hcovered.resolve_left (by simp [he])).resolve_left (by simp [hu])
  rintro (hq | ⟨hq, hq'⟩)
  · simp [hwindow] at hq
  · exact hq' (hbarrier q hq)

omit [DecidableEq Tid] in
theorem State.Epochs.collected (h : s.Epochs cfg) (hs : Inv cfg s) (he : s.exposed = false)
    (hu : s.uncounted = false) : s.Collected := by
  refine ⟨fun p hp q => ?_, h.asserted⟩
  have hbusy := mt (hs.busy q) (hs.not_busy he hu hp q)
  rw [not_or, Bool.not_eq_true, not_not] at hbusy
  refine ⟨hbusy.1, hbusy.2, ?_⟩
  by_cases hq : (s.txs q).point = .outside
  · exact .inl hq
  · have hcovered := (hs.rolling p hp).2
    obtain ⟨-, hbarrier⟩ := (hcovered.resolve_left (by simp [he])).resolve_left (by simp [hu])
    exact hs.waits q (hbarrier q (hs.registered q hq))

omit [DecidableEq Tid] in
/-- A step that leaves the collector alone; threads may end to free memory. -/
theorem State.Epochs.keep (h : s.Epochs cfg) (hgc : s'.gc = s.gc)
    (hrolling : s'.rolling = .none → s.rolling = .none) (hfailed : s'.failed = s.failed)
    (hfreeing : ∀ q e, (s'.txs q).freeing = some e → (s.txs q).freeing = some e) :
    s'.Epochs cfg := by
  refine ⟨fun hr => ?_, fun q e he => ?_, fun q e he => ?_, ?_, hfailed.trans h.asserted⟩
  · rw [hgc]
    exact h.past (hrolling hr)
  · rw [hgc]
    exact h.read q e (hfreeing q e he)
  · rw [hgc]
    exact h.mono q e (hfreeing q e he)
  · rw [hgc]
    exact h.none

/-- A thread changes its descriptor, and does not begin to free memory. -/
theorem State.Epochs.setTx (h : s.Epochs cfg) {tx : Tx} (hgc : s'.gc = s.gc)
    (hrolling : s'.rolling = s.rolling) (hfailed : s'.failed = s.failed)
    (htxs : s'.txs = Function.update s.txs p tx)
    (hfreeing : tx.freeing = .none ∨ tx.freeing = (s.txs p).freeing) : s'.Epochs cfg := by
  refine h.keep hgc (fun hr => hrolling ▸ hr) hfailed fun q e he => ?_
  rw [htxs] at he
  by_cases hq : q = p
  · rw [hq, Function.update_self] at he
    rcases hfreeing with hf | hf
    · cases hf.symm.trans he
    · rw [hq, ← hf, he]
  · rwa [Function.update_of_ne hq] at he

/-- A move does not begin to free memory. -/
theorem Move.freeing {tx tx' : Tx} (h : Move tx tx') :
    tx'.freeing = none ∨ tx'.freeing = tx.freeing := by
  cases h with
  | init | freed => exact .inl rfl
  | _ => exact .inr rfl

omit [DecidableEq Tid] in
/-- The assertion of `gc_free`. -/
theorem tailTs_any {t : GcThread (Block Tid Addr)} {e : ℕ} (h : ∀ r ∈ t.regions, r.ts ≤ e) :
    (t.tailTs.any fun ts => decide (e < ts)) = false := by
  unfold GcThread.tailTs
  cases hlast : t.regions.getLast? with
  | none => rfl
  | some r =>
    have hle := h r (List.mem_of_getLast? hlast)
    simpa using hle

/-- A step keeps the epochs, if the clock is not rolled over beside an unregistered thread with a slot,
or beside one that is not counted in the barrier. -/
theorem State.Epochs.step (h : s.Epochs cfg) (hs : Inv cfg s) (hact : Act cfg p s s')
    (he : s'.exposed = false) (hu : s'.uncounted = false) : s'.Epochs cfg := by
  have hs' := hact.inv hs
  cases hact with
  | beginRollover hmutex hnb =>
    have hfree (q : Tid) (e : ℕ) : (s.txs q).freeing ≠ some e := fun hq =>
      hs'.not_busy he hu (p := p) rfl q (hs'.busy q (.inr (by simp [hq])))
    exact ⟨nofun, fun q e hq => (hfree q e hq).elim, fun q e hq => (hfree q e hq).elim, h.none,
      h.asserted⟩
  | reset hrolling _ _ hregions =>
    have hfree (q : Tid) (e : ℕ) : (s.txs q).freeing ≠ some e := fun hq =>
      hs.not_busy he hu hrolling q (hs.busy q (.inr (by simp [hq])))
    exact ⟨fun hr => (by cases hrolling.symm.trans hr), fun q e hq => (hfree q e hq).elim,
      fun q e hq => (hfree q e hq).elim, fun hn i => (hregions i).elim (fun h' => h'.trans (h.none hn i)) id,
      h.asserted⟩
  | endRollover _ _ hempty =>
    have hnil (i : ℕ) : (s.gc.slots i).regions = [] := by
      by_cases hgc : cfg.gc = .none
      · exact h.none hgc i
      · exact ((hempty hgc).resolve_left (by simpa using he)).resolve_left (by simpa using hu) i
    exact ⟨fun _ i r hr => by simp [hnil] at hr, h.read, h.mono, h.none, h.asserted⟩
  | epoch hbusy _ =>
    have hrolling : s.rolling = .none := by
      cases hr : s.rolling with
      | none => rfl
      | some q => exact (hs.not_busy he hu hr p hbusy).elim
    have hread (q : Tid) (e : ℕ)
        (hq : ((s.setTx p fun tx => { tx with freeing := some s.gc.clock }).txs q).freeing = some e) :
        e = s.gc.clock ∨ (s.txs q).freeing = some e := by
      by_cases hqp : q = p
      · rw [hqp, setTx_txs_self] at hq
        exact .inl (Option.some.inj hq).symm
      · rw [setTx_txs_of_ne hqp] at hq
        exact .inr hq
    refine ⟨h.past, fun q e hq => ?_, fun q e hq hslot => ?_, h.none, h.asserted⟩
    · exact (hread q e hq).elim Eq.le (h.read q e)
    · rcases hread q e hq with rfl | hq
      · exact h.past hrolling _
      · exact h.mono q e hq hslot
  | tick =>
    exact ⟨fun hr i r hi => (h.past hr i r hi).trans (Nat.le_succ _),
      fun q e hq => (h.read q e hq).trans (Nat.le_succ _), h.mono, h.none, h.asserted⟩
  | call hfreeing hslot =>
    refine ⟨h.past, h.read, h.mono, h.none, ?_⟩
    rw [Bool.or_eq_false_iff]
    refine ⟨h.asserted, tailTs_any fun r hr => ?_⟩
    by_cases hgc : cfg.gc = .none
    · simp [h.none hgc] at hr
    · exact h.mono p _ hfreeing (hslot hgc) r hr
  | gc hgc _ hstep hstamps _ =>
    refine ⟨fun hr i => ?_, fun q e hq => ?_, fun q e hq hslot => ?_, fun hn => (hgc hn).elim, h.asserted⟩
    · refine hstamps.le (fun r hi => ?_) fun e he => ?_
      · exact (h.past hr i r hi).trans hstamps.clock.ge
      · exact (h.read p e he).trans hstamps.clock.ge
    · exact (h.read q e hq).trans hstamps.clock.ge
    · by_cases hqp : q = p
      · subst hqp
        have hne : (s.txs q).freeing ≠ .none := fun hn => by cases hn.symm.trans hq
        obtain ⟨hidx, hheld⟩ := hstamps.own hne
        have hslot := hheld _ hslot
        dsimp only
        rw [hidx] at hslot ⊢
        exact hstamps.le (h.mono q e hq hslot) fun e' he' => (Option.some.inj (he'.symm.trans hq)).le
      · have hqj : some q ≠ some p := mt Option.some.inj hqp
        have hslot := (hstep.slotted hqj).1 hslot
        have hregions := (hstep.regions q hqj _ hslot).resolve_right nofun
        dsimp only
        rw [hstep.idx q hqj, hregions]
        exact h.mono q e hq hslot
  | grantSerial | pass | restore | takeToken | returnToken | request | giveUp =>
    exact h.setTx rfl rfl rfl rfl (.inr rfl)
  | start => exact h.setTx rfl rfl rfl rfl (.inr rfl)
  | move hmove => exact h.setTx rfl rfl rfl rfl hmove.freeing
  | _ => exact h.keep rfl id rfl fun _ _ h => h

/-- While the clock is rolled over no thread is inside the collector, and the assertion of `gc_free` does
not fail, in every run in which the clock is not rolled over beside a thread that has a slot of the
collector and is not registered, and the threads that enter the barrier are registered. -/
theorem rollover_collected {T : Pool (State Tid Addr) Tid}
    (h : QRun cfg (fun s => s.misreleased = false ∧ s.exposed = false ∧ s.uncounted = false) T) :
    T.st.Collected := by
  have hinit : (State.init cfg : State Tid Addr).Epochs cfg :=
    ⟨fun _ _ _ => nofun, fun _ _ => nofun, fun _ _ => nofun, fun _ _ => rfl, rfl⟩
  obtain ⟨hs, hJ⟩ := h.preserves (fun _ h => h.1) (J := State.Epochs cfg) hinit
    fun _ _ _ hs hact ho hJ => hJ.step hs hact ho.2.1 ho.2.2
  exact hJ.collected hs h.obs.2.1 h.obs.2.2

/-- A build with the collector. -/
def Config.collecting : Config := ⟨1, some ⟨2, 10, none⟩⟩

/-- Thread 1 reads the clock in `int_stm_exit_thread`; thread 0 rolls it over, and thread 1 frees its
memory. -/
def exiting : List (Pool.Label (Fin 2) (Cmd Unit)) :=
  Pool.Label.calls 60 [(0, .initThread), (1, .initThread), (0, .start false),
    (0, .commit (.committed true) [])] ++ [.invoke 1 (.exitThread 0)] ++
    List.replicate 5 (.exec 1) ++ Pool.Label.calls 40 [(0, .start false)] ++
    List.replicate 60 (.exec 1)

/-- Thread 1 comes back, takes the same slot and exits. -/
def returning : List (Pool.Label (Fin 2) (Cmd Unit)) :=
  exiting ++ Pool.Label.calls 60 [(1, .initThread), (1, .exitThread 0)]

/-- Both threads wait in the barrier, and thread 1 rolls the clock over. -/
def resetting : List (Pool.Label (Fin 2) (Cmd Unit)) :=
  Pool.Label.calls 60 [(0, .initThread), (1, .initThread), (0, .start false),
    (0, .commit (.committed true) [()]), (0, .start false)] ++
    Pool.Label.calls 10 [(1, .start false)]

set_option maxRecDepth 10000 in
/-- The assertion of `gc_free` fails after a rollover beside a thread that exits. -/
theorem rollover_not_collected : ∃ T : Pool (State (Fin 2) Unit) (Fin 2),
    QRun .collecting (fun _ => True) T ∧ ¬ T.st.Collected := by
  refine ⟨after .collecting returning, Pool.FollowsIn.reaches (by decide), fun h => ?_⟩
  have hasserted := h.asserted
  revert hasserted
  decide

set_option maxRecDepth 10000 in
/-- It is rolled over while both threads wait. -/
theorem rollover_collected_resetting :
    (after .collecting resetting).st.rolling = some 1 ∧ (after .collecting resetting).st.Collected :=
  ⟨by decide, rollover_collected
    (show QRun .collecting _ _ from Pool.FollowsIn.reaches (by decide))⟩

end TinyStm.Quiesce
