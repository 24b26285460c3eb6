import TinyStm.Quiesce.Calls

/-!
# Serial irrevocability is exclusive

A transaction that has been granted serial irrevocability runs alone, unless a thread that waited in
`stm_check_quiesce` for an earlier one overtakes it: such a thread makes its descriptor active again
without looking at `quiesce` once more. Serial mode begins when all other transactions are seen
inactive, one after the other; it lasts until the token is given back. A thread that starts an
attempt looks at `quiesce` first. The condition is on the step with which a waiting thread goes on.
-/

namespace TinyStm.Quiesce

variable {Tid Addr : Type} [DecidableEq Tid] {cfg : Config} {p q : Tid} {s s' : State Tid Addr}

/-- While a transaction is serial irrevocable, the other descriptors are inactive, or have not got past
`stm_check_quiesce` in `int_stm_prepare`. -/
def State.Exclusive (s : State Tid Addr) : Prop :=
  ∀ p q, s.granted = some p → q ≠ p →
    (s.txs q).status.isActive = false ∨ (s.txs q).point = .preparing

omit [DecidableEq Tid] in
theorem Tx.not_inside {tx : Tx} :
    ¬ tx.Inside ↔ tx.status.isActive = false ∨ tx.point = .preparing := by
  rw [Tx.Inside, not_and_or, Bool.not_eq_true, not_not]

/-- The quiescence is granted after all other threads have been waited for. -/
theorem Act.granted (h : Act cfg q s s') (hp : s'.granted = some p) :
    s.granted = some p ∨ q = p ∧
      (s.overtaken = true ∨ ∀ t ∈ s.threads, t ≠ p → ¬ (s.txs t).Inside) := by
  cases h with
  | grantSerial _ _ _ hinside => exact .inr (Option.some.inj hp ▸ ⟨rfl, hinside⟩)
  | release => cases hp
  | _ => exact .inl hp

/-- A step keeps the exclusion, if no thread overtakes. -/
theorem State.Exclusive.step (h : s.Exclusive) (hs : Inv cfg s) (hact : Act cfg q s s')
    (ho : s'.overtaken = false) : s'.Exclusive := by
  intro p t hp htp
  rw [← Tx.not_inside]
  have htx (htq : t ≠ q) : s'.txs t = s.txs t := congrArg Own.tx (hact.own hs htq)
  have hmono : s.overtaken = false := by
    cases hact with
    | restore => exact (Bool.or_eq_false_iff.1 ho).1
    | _ => exact ho
  rcases hact.granted hp with hp' | ⟨rfl, hinside⟩
  · have ht : ¬ (s.txs t).Inside := Tx.not_inside.2 (h p t hp' htp)
    by_cases hq : q = p
    · rwa [htx (hq ▸ htp)]
    · have hgranted := hs.granted p hp'
      exact (hact.inside hs hq hgranted.1 hgranted.2 (.inr ht)).resolve_left (by simp [ho])
  · rw [htx htp]
    by_cases ht : t ∈ s.threads
    · exact (hinside.resolve_left (by simp [hmono])) t ht htp
    · exact fun hinside => ht (hs.active t hinside.1)

/-- A transaction that has been granted serial irrevocability runs alone until it has committed, in every
run in which no thread overtakes it in `stm_check_quiesce`. -/
theorem serial_exclusive {T : Pool (State Tid Addr) Tid}
    (h : QRun cfg (fun s => s.misreleased = false ∧ s.overtaken = false) T) : T.st.Exclusive :=
  (h.preserves (fun _ h => h.1) (J := State.Exclusive) nofun
    fun _ _ _ hs hact ho hJ => hJ.step hs hact ho.2).2

/-- An abort without further effects. -/
def Abort.plain : Abort := ⟨false, false, false, none⟩

/-- The build of the runs below. -/
def Config.small : Config := ⟨100, none⟩

/-- Thread 1 waits in `stm_check_quiesce` while a transaction of thread 0 is serial irrevocable; this
one commits, and thread 1 sees it. -/
def waiting : List (Pool.Label (Fin 2) (Cmd Unit)) :=
  Pool.Label.calls 20 [(0, .initThread), (1, .initThread), (0, .start false),
    (0, .setIrrevocable true true false .plain), (1, .start false),
    (0, .commit (.committed false) [])] ++ [.exec 1]

/-- The next transaction of thread 0 is granted serial irrevocability. -/
def granting : List (Pool.Label (Fin 2) (Cmd Unit)) :=
  waiting ++ Pool.Label.calls 20 [(0, .start false), (0, .setIrrevocable true true false .plain)]

/-- Thread 1 goes on with its transaction. -/
def overtaking : List (Pool.Label (Fin 2) (Cmd Unit)) := granting ++ [.exec 1]

/-- The pool after a schedule of these threads. -/
def after (cfg : Config) {n : ℕ} (ls : List (Pool.Label (Fin n) (Cmd Unit))) :
    Pool (State (Fin n) Unit) (Fin n) :=
  Pool.follow (exec cfg) (Pool.init (.init cfg)) ls

set_option maxRecDepth 10000 in
/-- A thread that waits for a serial irrevocable transaction runs beside the next one. -/
theorem serial_not_exclusive : ∃ T : Pool (State (Fin 2) Unit) (Fin 2),
    QRun .small (fun _ => True) T ∧ ¬ T.st.Exclusive := by
  refine ⟨after .small overtaking, Pool.FollowsIn.reaches (by decide), fun h => ?_⟩
  have h := h 0 1 (by decide) (by decide)
  revert h
  decide

set_option maxRecDepth 10000 in
/-- Until then it waits. -/
theorem serial_exclusive_granting :
    (after .small granting).st.granted = some 0 ∧ (after .small granting).st.Exclusive :=
  ⟨by decide, serial_exclusive
    (show QRun .small _ _ from Pool.FollowsIn.reaches (by decide))⟩

end TinyStm.Quiesce
