import TinyStm.Proof.SeesCtl
import TinyStm.Result.Snapshots
import TinyStm.Result.ReadOnly

/-!
# One snapshot, with commit-time locking

With commit-time locking every live transaction has, at every time, seen the committed memory as of
the end of its snapshot, also one that stores although it was started read-only. The committed
transactions are serializable unless there is such a store: what a read-only transaction has loaded
is not validated.
-/

namespace TinyStm

variable {Tid Addr Lock : Type} {w : ℕ} [DecidableEq Tid] [DecidableEq Addr] [DecidableEq Lock]
  {S : Setting Tid Addr Lock w} {p q : Tid} {s s' : State Tid Addr Lock w} {cfg : Config Addr Lock}
  {m₀ : Mem Addr w}

omit [DecidableEq Tid] [DecidableEq Lock] in
/-- The loads of the active attempts return the values of the committed memory as of the end of the
snapshot, under the stores of the attempt. -/
def SnapshotAtEnd (m₀ : Mem Addr w) (s : State Tid Addr Lock w) : Prop :=
  ∀ p, (s.txs p).status.isActive = true →
    (s.txs p).trace.Consistent (History.memAt m₀ s.commits (s.txs p).end_)

/-- The calls of transactions that do not become irrevocable, with any attributes. -/
def RevocableCall (p : Tid) (cmd : Cmd Addr w) (s : State Tid Addr Lock w) : Prop :=
  Called p cmd s ∧ cmd ≠ .setIrrevocable

instance (p : Tid) (cmd : Cmd Addr w) (s : State Tid Addr Lock w) :
    Decidable (RevocableCall p cmd s) :=
  inferInstanceAs (Decidable (_ ∧ _))

/-- The last step of a load or a store: an attempt that is not active is left alone. -/
def RecordsAtEnd (p : Tid) (s s' : State Tid Addr Lock w) : Prop :=
  (s'.txs p).status.isActive = false → KeepsEnd p s s'

omit [DecidableEq Addr] [DecidableEq Lock] in
theorem record_shortAtEnd (e : Event Addr w) :
    (record p e : M Tid Addr Lock w Unit).Short (RecordsAtEnd p) := by
  refine ⟨fun s hs => ?_, fun _ => trivial⟩
  rw [KeepsEnd]
  simp only [State.setTx_txs_self] at hs ⊢
  split at hs
  · next ha => exact (Bool.false_ne_true (hs.symm.trans ha)).elim
  · next ha =>
    rw [if_neg ha]
    exact ⟨rfl, rfl⟩

omit [DecidableEq Tid] [DecidableEq Lock] in
/-- An attempt that is active between two calls has seen the memory as of the end of its snapshot.
-/
theorem SeenAtEnd.of_boundary (hd : ∀ attr, S.cfg.designOf attr = .writeBackCtl) (hstrict : S.strict)
    (htokens : ¬ S.tokens) (hg : (protocol S).guar p s s') (hs : (protocol S).Ok s')
    (hB : boundary S p s') (hE : RecordsAtEnd p s s') (h : SeenAtEnd S p s) : SeenAtEnd S p s' := by
  rcases hB with ⟨tx, hidle, htx, -⟩ | ⟨tx, hact, htx, ⟨m, hsnap⟩, hws⟩
  · exact h.keeps hg (hE (htx ▸ hidle.inactive))
  · exact seenAtEnd_of_live (hd _) hstrict htokens hs hact.phase ⟨htx, hsnap, hws⟩

/-- The program of a command keeps what has been seen, but for its last step. -/
theorem exec_watchedAtEnd (hd : ∀ attr, S.cfg.designOf attr = .writeBackCtl)
    (hstrict : S.strict) (htokens : ¬ S.tokens) (hobs : ∀ v, S.obs v) (p : Tid) (cmd : Cmd Addr w) (hirr : cmd ≠ .setIrrevocable) :
    Watched (protocol S) p (SeenAtEnd S p) (RecordsAtEnd p) (pre S p cmd) (exec S.cfg p cmd) := by
  cases cmd with
  | start attr => exact .of_watch (intStmStart_watch attr _)
  | load a =>
    refine .mk (.pre (intStmLoad_watch hd hstrict htokens hobs) ?_) fun x => record_shortAtEnd _
    rintro s - ⟨tx, m, ⟨hact, -⟩, htx, hlive, -⟩
    exact ⟨tx, m, hact, htx, hlive⟩
  | store a x => exact .mk (stmWrite_watch hd _) fun _ => record_shortAtEnd _
  | store2 a x k => exact .mk (stmWrite_watch hd _) fun _ => record_shortAtEnd _
  | commit => exact .mk (intStmCommit_watch hd _) fun _ => trivial
  | abort reason => exact .of_watch (stmRollback_watch (.explicit reason) _)
  | setIrrevocable => exact (hirr rfl).elim

/-- With commit-time locking every attempt has, at every time, seen the memory as of the end of its
snapshot. -/
theorem Run.seenAtEnd (hd : ∀ attr, S.cfg.designOf attr = .writeBackCtl) (hstrict : S.strict)
    (htokens : ¬ S.tokens) (hobs : ∀ v, S.obs v)
    {C : Tid → Cmd Addr w → State Tid Addr Lock w → Prop}
    (hC : ∀ p cmd s, s.view.Inv S → boundary S p s → C p cmd s → Admits S p cmd s)
    (hirr : ∀ p cmd s, C p cmd s → cmd ≠ .setIrrevocable) {size : ℕ}
    {T : Pool (State Tid Addr Lock w) Tid} (h : Run S.cfg S.mem₀ size C T) (p : Tid) :
    SeenAtEnd S p T.st := by
  have hadmits := fun p cmd s hs hB hk => pre_of_admits (S := S) p cmd s hB (hC p cmd s hs hB hk)
  refine Pool.Reaches.watched (G := protocol S) (B := boundary S) (K := SeenAtEnd S)
    (E := RecordsAtEnd) (S := Pool.init (State.init S.mem₀ size)) exec_spec
    (fun p k s hs hB hk => hadmits p k s hs.inv hB hk) (fun _ => hobs _) ?_ ?_ ?_
    (inv_init S size) (fun p => Pool.atOutline_init (boundary_init S size p)) ?_ ?_ h p
  · exact fun p k s hk => exec_watchedAtEnd hd hstrict htokens hobs p k (hirr p k s hk)
  · exact fun p q s s' hq _ _ hg hK => hK.other hq hg
  · exact fun p s s' hK hE hinv hg hB => hK.of_boundary hd hstrict htokens hg ⟨hinv, hobs _⟩ hB hE
  · exact fun _ => trivial
  · exact fun p => .nil rfl

omit [DecidableEq Tid] in
/-- The calls of transactions that do not become irrevocable are admitted. -/
theorem admits_of_revocable {hm : cfg.design ≠ .modular} {hr : cfg.NoRequests}
    (hd : cfg.design = .writeBackCtl) {hint : Prop} (p : Tid) (cmd : Cmd Addr w) (s : State Tid Addr Lock w)
    (hv : s.view.Inv (snapshotSetting cfg hm hr m₀ hint : Setting Tid Addr Lock w))
    (hB : boundary (snapshotSetting cfg hm hr m₀ hint) p s) (h : RevocableCall p cmd s)
    (hkept : hint → HintKept p cmd s) : Admits (snapshotSetting cfg hm hr m₀ hint) p cmd s := by
  obtain ⟨hcall, hirr⟩ := h
  have hdesign : ∀ {attr}, cfg.designOf attr = .writeBackCtl := fun {_} => designOf_of_ne hd (by decide)
  have hstore : (s.txs p).status.isActive = true → ∀ x ∈ cmd.target,
      MayStore (snapshotSetting cfg hm hr m₀ hint : Setting Tid Addr Lock w) (s.txs p) x.1 x.2 := by
    refine fun ha x hx => ⟨fun hh => ?_, trivial, fun hc => (hc hdesign).elim,
      fun hc => nomatch hdesign.symm.trans hc⟩
    by_contra hro
    rw [Option.mem_def, (hkept hh ha (by simpa using hro)).1] at hx
    cases hx
  cases cmd with
  | start attr => exact ⟨fun hc => (hc hd).elim, hcall⟩
  | load a =>
    refine ⟨hcall, fun _ => .inr (.inr fun hh => ?_), fun _ _ hi => (hi ((hv.off id).2 p)).elim⟩
    rcases hB with ⟨tx, hidle, htx, -⟩ | ⟨tx, hact, htx, -, hws⟩
    · have hact : (s.txs p).status.isActive = true := hcall
      rw [htx, hidle.inactive] at hact
      cases hact
    · exact ((hws.ctl hdesign).noLocks _ hh).elim
  | store a x => exact ⟨hcall, hstore hcall _ rfl⟩
  | store2 a x k => exact ⟨hcall, hstore hcall _ rfl⟩
  | commit => exact ⟨hcall, fun _ _ _ _ _ reason _ => hr _ _⟩
  | abort reason => exact hcall
  | setIrrevocable => exact (hirr rfl).elim

/-- With commit-time locking, every live transaction has seen the committed memory as of the end of
its snapshot, in every state of every run; and the committed transactions are serializable if no
transaction that was started read-only stores. -/
theorem ctl_one_snapshot (hd : cfg.design = .writeBackCtl) (hr : cfg.NoRequests) {size : ℕ}
    {T : Pool (State Tid Addr Lock w) Tid} (h : Run cfg m₀ size RevocableCall T) :
    SnapshotAtEnd m₀ T.st ∧
      (Run cfg m₀ size (fun p cmd s => RevocableCall p cmd s ∧ HintKept p cmd s) T →
        Serializable m₀ T.st) := by
  have hm : cfg.design ≠ .modular := by simp [hd]
  refine ⟨fun p _ => ?_, fun hkept => ?_⟩
  · exact (Run.seenAtEnd (S := snapshotSetting cfg hm hr m₀ False)
      (fun attr => designOf_of_ne hd (by decide)) trivial id (fun _ => trivial)
      (fun p cmd s hv hB hk => admits_of_revocable hd p cmd s hv hB hk False.elim)
      (fun _ _ _ hk => hk.2) h p).consistent
  · exact Run.serializable (S := snapshotSetting cfg hm hr m₀ True) trivial (fun _ => trivial)
      (fun p cmd s hv hB ⟨hk, hkept⟩ => admits_of_revocable hd p cmd s hv hB hk fun _ => hkept) hkept

/-- A transaction extends its snapshot over the commit of another one, and one that was started
read-only finds the end of its snapshot too old. -/
def extendCalls : List (Fin 3 × Cmd (Fin 3) 8) :=
  [(0, .start .readWrite), (0, .load 0), (2, .start .reader), (2, .load 1), (1, .start .readWrite),
    (1, .store 1 1), (1, .store2 2 0xab 0xf0), (1, .commit), (0, .load 1), (0, .store2 2 7 0x0f),
    (0, .load 2), (2, .load 0), (2, .load 1), (0, .commit)]

set_option maxRecDepth 10000 in
theorem ctl_one_snapshot_calls :
    SnapshotAtEnd (fun _ => 0#8) (after (.plain .writeBackCtl id) 4 40 extendCalls).st ∧
      Serializable (fun _ => 0#8) (after (.plain .writeBackCtl id) 4 40 extendCalls).st :=
  have h : Run (.plain .writeBackCtl id) (fun _ => 0#8) 4 (fun p cmd s =>
      RevocableCall p cmd s ∧ HintKept p cmd s) (after (.plain .writeBackCtl id) 4 40 extendCalls) :=
    run_after (by decide)
  (ctl_one_snapshot (by rfl) (fun _ _ => rfl) (run_after (by decide))).imp id fun hs => hs h

set_option maxRecDepth 10000 in
/-- Two transactions that were started read-only and increment a word both commit on its initial
value. -/
theorem ctl_not_serializable : ∃ T : Pool (State (Fin 2) (Fin 1) (Fin 1) 8) (Fin 2),
    Run (.plain .writeBackCtl id) (fun _ => 0#8) 4 RevocableCall T ∧
      ¬ Serializable (fun _ => 0#8) T.st := by
  refine ⟨after (.plain .writeBackCtl id) 4 40 lostUpdate, run_after (by decide), fun h => ?_⟩
  have hl := h.replayable (l := (after (.plain .writeBackCtl id) 4 40 lostUpdate).st.commits.reverse)
    (List.reverse_perm _) (by decide)
  exact absurd hl (by decide)

end TinyStm
