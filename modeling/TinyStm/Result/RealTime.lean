import TinyStm.Conc.Under
import TinyStm.History.RealTime
import TinyStm.Proof.Late
import TinyStm.Result.ReadOnly

/-!
# Strict serializability

The serial order of the committed transactions respects real time: a transaction that had committed
before a thread began another one comes first. A transaction takes its timestamp, or the end of its
snapshot, from the clock after it has begun, and the clock only grows. So the serial order by
timestamps, with the order of the commits among equal ones, is one that real time allows.
-/

namespace TinyStm

section
variable {Tid Addr Lock : Type} {w : ℕ}

/-- Thread `p` runs no command, and no transaction of it is under way. -/
def Idle (T : Pool (State Tid Addr Lock w) Tid) (p : Tid) : Prop :=
  (T.ctl p).Done ∧ (T.st.txs p).status.isActive = false

/-- Executed one at a time from `m₀`, the commit `σ i` at the place `i`, the committed transactions
return the values that their loads returned and leave the memory, if no lock is held. -/
def SerializedBy [DecidableEq Addr] (m₀ : Mem Addr w) (s : State Tid Addr Lock w)
    (σ : Equiv.Perm (Fin s.commits.length)) : Prop :=
  ∃ m, History.Replays m₀ (List.ofFn fun i => s.commits.log (σ i)) m ∧
    ((∀ ℓ, ∃ n, s.locks ℓ = .free n) → s.mem = m)

theorem Serializable.order [DecidableEq Addr] {m₀ : Mem Addr w} {s : State Tid Addr Lock w}
    (h : Serializable m₀ s) : SerializedBy m₀ s s.commits.order :=
  h _ (History.order_perm _ _) (History.order_sorted _)

end

variable {Tid Addr Lock : Type} {w : ℕ} [DecidableEq Tid] [DecidableEq Addr] [DecidableEq Lock]
  {S : Setting Tid Addr Lock w} {C : Tid → Cmd Addr w → State Tid Addr Lock w → Prop} {size : ℕ}
  {T U : Pool (State Tid Addr Lock w) Tid}

/-- The commits since `T` are new ones, and those of threads that were idle have their place after
the clock of `T`. -/
structure LateCommits (T U : Pool (State Tid Addr Lock w) Tid) (recent : History Tid Addr w) :
    Prop where
  eq : U.st.commits = recent ++ T.st.commits
  key : ∀ c ∈ recent, Idle T c.tid → 2 * T.st.clock + 1 ≤ c.key

omit [DecidableEq Tid] [DecidableEq Addr] [DecidableEq Lock] in
/-- What a call needs of the outline between two calls. -/
theorem placeReadyFor_of_called {good : Commit Tid Addr w → Prop} {N : ℕ} {L : History Tid Addr w}
    {p : Tid} {φ χ : Place Addr w → Prop} {cmd : Cmd Addr w} {s : State Tid Addr Lock w}
    (h : placeReady good N L p φ s) (hk : Called p cmd s)
    (hχ : cmd = .commit → φ (s.txs p).place → χ (s.txs p).place) :
    placeReadyFor good N L p φ χ cmd s := by
  cases cmd with
  | start attr => exact h
  | setIrrevocable => exact h
  | load a => exact h (.inl hk)
  | store a x => exact h (.inl hk)
  | store2 a x k => exact h (.inl hk)
  | commit => exact hχ rfl (h (.inl hk))
  | abort reason => exact h (.inl hk)

/-- In the middle of a call every thread adds commits of its own only. -/
theorem Run.pushes (hcall : ∀ p cmd s, C p cmd s → Called p cmd s) {cfg : Config Addr Lock}
    {m₀ : Mem Addr w} (hT : Run cfg m₀ size C T) (p : Tid) : Pool.AtOutline
      (G := late (fun _ => False) 0 []) (lateReady (fun _ => False) 0 []) T p :=
  (Pool.sound (G := late (fun _ => False) 0 []) (B := lateReady (fun _ => False) 0 [])
    exec_late (fun p k s _ hB hk => placeReadyFor_of_called hB (hcall p k s hk) fun _ h => h)
    ⟨[], rfl, nofun⟩
    (fun _ => Pool.atOutline_init fun _ => False.elim) hT fun _ _ _ => Nat.zero_le _).2 p

/-- A run only adds commits. -/
theorem Run.commits_suffix (hcall : ∀ p cmd s, C p cmd s → Called p cmd s) {cfg : Config Addr Lock}
    {m₀ : Mem Addr w} (hT : Run cfg m₀ size C T) (hU : Pool.Reaches (exec cfg) C T U) :
    T.st.commits <:+ U.st.commits :=
  Pool.sound_rel (G := late (fun _ => False) 0 []) (B := lateReady (fun _ => False) 0 [])
    (R := fun s s' => s.commits <:+ s'.commits) (fun _ => List.suffix_rfl)
    (fun _ _ _ h h' => h.trans h') (fun _ _ _ _ _ h => h.commits.imp fun _ h => h.1.symm) exec_late
    (fun p k s _ hB hk => placeReadyFor_of_called hB (hcall p k s hk) fun _ h => h)
    ⟨T.st.commits, (List.append_nil _).symm, fun _ _ => False.elim⟩ (Run.pushes hcall hT) hU
    fun _ _ _ => Nat.zero_le _

/-- What a run commits from `T` on. -/
theorem Run.lateCommits
    (hC : ∀ p cmd s, s.view.Inv S → boundary S p s → C p cmd s → Admits S p cmd s)
    (hcall : ∀ p cmd s, C p cmd s → Called p cmd s)
    (ho : ∀ v, S.obs v) (hT : Run S.cfg S.mem₀ size C T)
    (hU : Pool.Reaches (exec S.cfg) C T U) : ∃ recent, LateCommits T U recent := by
  have hsound := Run.sound hC hT fun _ _ _ => ho _
  -- the threads that are idle begin new outlines, the others go on with theirs
  have hB : ∀ p, Pool.AtOutline (G := late (Idle T) T.st.clock T.st.commits)
      (lateReady (Idle T) T.st.clock T.st.commits) T p := by
    intro p
    by_cases hp : Idle T p
    · refine Pool.atOutline_done hp.1 fun hbusy _ => ?_
      obtain ⟨tx, hidle, htx, -⟩ | ⟨tx, hact, htx, -⟩ :=
        (hsound.2 p).of_done ⟨hsound.1, ho _⟩ hp.1
      · rw [htx, hidle.inactive, hidle.nesting] at hbusy
        exact hbusy.elim (fun h => nomatch h) fun h => absurd h (lt_irrefl 0)
      · have hinactive := hp.2
        rw [htx, hact.active] at hinactive
        cases hinactive
    · exact (Run.pushes hcall hT p).under (late_refines _ _ _)
        (fun s s' hs _ hg => ⟨late_of_pushes hs hg hp, hg⟩) fun _ _ _ _ hp' => (hp hp').elim
  have hclock : ∀ V, Pool.Reaches (exec S.cfg) C T V → T.st.clock ≤ V.st.clock := fun V hV =>
    Run.sound_rel (R := fun s s' => s.clock ≤ s'.clock) hC (fun _ => le_rfl)
      (fun _ _ _ => le_trans) (fun _ _ _ _ _ hg => hg.2.clock) hT hV ho
  obtain ⟨⟨recent, heq, hkey⟩, -⟩ := Pool.sound (G := late (Idle T) T.st.clock T.st.commits)
    (B := lateReady (Idle T) T.st.clock T.st.commits) exec_late
    (fun p k s _ hB hk => placeReadyFor_of_called hB (hcall p k s hk) fun _ h => h)
    ⟨[], rfl, nofun⟩ hB hU fun V hV _ => hclock V hV
  exact ⟨recent, heq, hkey⟩

omit [DecidableEq Tid] [DecidableEq Addr] [DecidableEq Lock] in
/-- A place in the serial order is at most after the clock. -/
theorem key_le_of_ts_le {c : Commit Tid Addr w} {N : ℕ} (h : c.ts ≤ N) : c.key ≤ 2 * N + 1 := by
  unfold Commit.key
  split <;> omega

/-- The calls of transactions of the design `d` that keep their hints. -/
def KeptCall (cfg : Config Addr Lock) (d : Design) (p : Tid) (cmd : Cmd Addr w)
    (s : State Tid Addr Lock w) : Prop :=
  AnyCall cfg d p cmd s ∧ HintKept p cmd s ∧ SafeCall cfg d p cmd s

instance (cfg : Config Addr Lock) (d : Design) (p : Tid) (cmd : Cmd Addr w)
    (s : State Tid Addr Lock w) : Decidable (KeptCall cfg d p cmd s) :=
  inferInstanceAs (Decidable (_ ∧ _ ∧ _))

/-- The order `σ` of the committed transactions respects real time: a transaction comes after all
those that had committed when its thread was idle before. -/
def InRealTime (cfg : Config Addr Lock) (m₀ : Mem Addr w) (size : ℕ)
    (C : Tid → Cmd Addr w → State Tid Addr Lock w → Prop) (U : Pool (State Tid Addr Lock w) Tid)
    (σ : Equiv.Perm (Fin U.st.commits.length)) : Prop :=
  ∀ T, Run cfg m₀ size C T → Pool.Reaches (exec cfg) C T U →
    T.st.commits <:+ U.st.commits ∧ ∀ i j : Fin U.st.commits.length,
      i < T.st.commits.length → T.st.commits.length ≤ j → Idle T (U.st.commits.log j).tid →
        σ.symm i < σ.symm j

/-- There is a serial order of the committed transactions that respects real time. -/
def StrictlySerializable (cfg : Config Addr Lock) (m₀ : Mem Addr w) (size : ℕ)
    (C : Tid → Cmd Addr w → State Tid Addr Lock w → Prop) (U : Pool (State Tid Addr Lock w) Tid) :
    Prop :=
  ∃ σ : Equiv.Perm (Fin U.st.commits.length), SerializedBy m₀ U.st σ ∧ InRealTime cfg m₀ size C U σ

/-- Fewer calls have fewer runs. -/
theorem InRealTime.mono {C C' : Tid → Cmd Addr w → State Tid Addr Lock w → Prop}
    {cfg : Config Addr Lock} {m₀ : Mem Addr w} {σ : Equiv.Perm (Fin U.st.commits.length)}
    (h : InRealTime cfg m₀ size C U σ) (hC : ∀ p k s, C' p k s → C p k s) :
    InRealTime cfg m₀ size C' U σ :=
  fun T hT hTU => h T (hT.mono hC) (hTU.mono hC)

/-- The order by the places respects real time, in runs in which the read-only hint is kept. -/
theorem Run.order_inRealTime {cfg : Config Addr Lock} {d : Design}
    {m₀ : Mem Addr w} (hU : Run cfg m₀ size (KeptCall cfg d) U) :
    SerializedBy m₀ U.st U.st.commits.order ∧
      InRealTime cfg m₀ size (KeptCall cfg d) U U.st.commits.order := by
  have hC : ∀ (p : Tid) cmd (s : State Tid Addr Lock w),
      s.view.Inv (hintSetting cfg d m₀ : Setting Tid Addr Lock w) →
      boundary (hintSetting cfg d m₀) p s → KeptCall cfg d p cmd s →
        Admits (hintSetting cfg d m₀) p cmd s :=
    fun p cmd s _ hB hk => admits_of_hint p cmd s (fun ha => (active_of_boundary hB ha).attr)
      hk.1 hk.2.1 hk.2.2
  have hser := Run.serializable (S := hintSetting cfg d m₀) trivial (fun _ => trivial) hC hU
  refine ⟨hser.order, fun T hT hTU => ?_⟩
  obtain ⟨recent, heq, hkey⟩ := Run.lateCommits (S := hintSetting cfg d m₀) hC
    (fun _ _ _ hk => hk.1.1) (fun _ => trivial) hT hTU
  refine ⟨⟨recent, heq.symm⟩, fun i j hi hj hidle => History.order_lt (hi.trans_le hj) ?_⟩
  have hinv := (Run.sound (S := hintSetting cfg d m₀) hC hT fun _ _ _ => trivial).1
  exact (key_le_of_ts_le (hinv.ts_le _ (History.log_mem_of_lt heq hi))).trans
    (hkey _ (History.log_mem_of_le heq hj) hidle)

/-- Runs in which the read-only hint is kept are strictly serializable in every design. -/
theorem strictly_serializable {cfg : Config Addr Lock} {d : Design}
    {m₀ : Mem Addr w} {size : ℕ} {U : Pool (State Tid Addr Lock w) Tid}
    (hU : Run cfg m₀ size (KeptCall cfg d) U) :
    StrictlySerializable cfg m₀ size (KeptCall cfg d) U :=
  ⟨_, hU.order_inRealTime⟩

/-- A reader that began before a writer commits after it, and the next reader finds what was
written. -/
def overlappingCalls : List (Fin 3 × Cmd (Fin 2) 8) :=
  [(0, .start .reader), (0, .load 0), (1, .start .readWrite), (1, .load 0), (1, .store 0 1),
    (1, .commit), (0, .load 1), (0, .commit), (2, .start .reader), (2, .load 0), (2, .commit)]

set_option maxRecDepth 10000 in
theorem strictly_serializable_overlapping : StrictlySerializable (.plain .writeBackEtl id)
    (fun _ => 0#8) 4 (KeptCall (.plain .writeBackEtl id) .writeBackEtl)
    (after (.plain .writeBackEtl id) 4 30 overlappingCalls) :=
  strictly_serializable (run_after (by decide))

end TinyStm
