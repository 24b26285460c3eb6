import TinyStm.Proof.Sees
import TinyStm.Result.NoRetry

/-!
# One snapshot

With encounter-time locking, the values that a live transaction has loaded are those of one committed
memory under its own stores, whether it will commit or not. This fails where a transaction stores to a
stripe that has changed since its snapshot: the lock is taken without a look at the version, and loads
from a stripe that the transaction holds do not look at it either.
-/

namespace TinyStm

section
variable {Tid Addr Lock : Type} {w : ℕ} [DecidableEq Tid] [DecidableEq Addr]

/-- The loads of the active attempts return the values of one committed memory each, under the stores of
the attempt. -/
def OneSnapshot (m₀ : Mem Addr w) (s : State Tid Addr Lock w) : Prop :=
  ∀ p, (s.txs p).status.isActive = true →
    ∃ n, (s.txs p).trace.Consistent (History.memAt m₀ s.commits n)

omit [DecidableEq Tid] in
/-- One need not look beyond the last commit. -/
theorem OneSnapshot.bounded {m₀ : Mem Addr w} {s : State Tid Addr Lock w} (h : OneSnapshot m₀ s)
    {p : Tid} (hp : (s.txs p).status.isActive = true) {N : ℕ} (hN : ∀ c ∈ s.commits, c.ts ≤ N) :
    ∃ n ≤ N, (s.txs p).trace.Consistent (History.memAt m₀ s.commits n) := by
  obtain ⟨n, hn⟩ := h p hp
  rcases le_total n N with hle | hle
  · exact ⟨n, hle, hn⟩
  · refine ⟨N, le_rfl, ?_⟩
    rwa [← History.memAt_eq_of_le hle fun c hc _ hlt => absurd (hN c hc) (by omega)]

/-- A load from a stripe that the transaction holds: the stripe had not changed since the snapshot when
it was acquired, or the transaction has stored the whole word. -/
def CoveredLoad (cfg : Config Addr Lock) (p : Tid) (cmd : Cmd Addr w) (s : State Tid Addr Lock w) :
    Prop :=
  ∀ a ∈ cmd.source, (s.txs p).trace.cover a = BitVec.allOnes w ∨
    ((s.locks (cfg.getLock a)).owner = some p →
      lockGetTimestamp (s.saved (cfg.getLock a)) ≤ (s.txs p).end_)

instance (cfg : Config Addr Lock) (p : Tid) (cmd : Cmd Addr w) (s : State Tid Addr Lock w) :
    Decidable (CoveredLoad cfg p cmd s) :=
  inferInstanceAs (Decidable (∀ a ∈ cmd.source, _))

end

variable {Tid Addr Lock : Type} {w : ℕ} [DecidableEq Tid] [DecidableEq Addr] [DecidableEq Lock]
  {S : Setting Tid Addr Lock w} {p q : Tid} {s s' : State Tid Addr Lock w}

/-! ## The loads so far -/

variable (S p s) in
/-- What `p` has loaded are values of one committed memory, for good. -/
def Seen : Prop := ∃ n, s.view.Sees S (s.txs p).trace n

omit [DecidableEq Tid] [DecidableEq Lock] in
/-- Nothing that another thread does changes what has been seen. -/
theorem Seen.other (hq : q ≠ p) (hg : (protocol S).guar q s s') (h : Seen S p s) : Seen S p s' := by
  obtain ⟨n, hn⟩ := h
  refine ⟨n, ?_⟩
  rw [hg.1 p hq.symm]
  exact hn.step hg.2

omit [DecidableEq Tid] [DecidableEq Lock] in
/-- Nor does a step of the thread itself that adds no event. -/
theorem Seen.fades (hg : (protocol S).guar p s s') (hr : Fades p s s') (h : Seen S p s) :
    Seen S p s' := by
  obtain ⟨n, hn⟩ := h
  refine ⟨n, ?_⟩
  rcases hr with heq | hnil
  · rw [heq]
    exact hn.step hg.2
  · rw [hnil]
    exact .nil

omit [DecidableEq Tid] [DecidableEq Lock] in
/-- A program that adds no event is watched. -/
theorem watch_of_fades {α : Type} {c : M Tid Addr Lock w α} (hc : c.Actions (Fades p))
    (P : Asn S p) : Watch (protocol S) p (Seen S p) P c fun _ => .pure True :=
  (Watch.of_actions hc fun _ _ _ _ hg hr hK hP => ⟨hK.fades hg hr, hP⟩).pre fun _ _ _ => trivial

/-- The last step of a load or a store: an attempt that is not active adds no event. -/
def Records (p : Tid) (s s' : State Tid Addr Lock w) : Prop :=
  (s'.txs p).status.isActive = false → (s'.txs p).trace = (s.txs p).trace

omit [DecidableEq Addr] [DecidableEq Lock] in
theorem record_short (e : Event Addr w) :
    (record p e : M Tid Addr Lock w Unit).Short (Records p) := by
  refine ⟨fun s hs => ?_, fun _ => trivial⟩
  simp only [State.setTx_txs_self] at hs ⊢
  split at hs
  · next ha => exact (Bool.false_ne_true (hs.symm.trans ha)).elim
  · next ha => rw [if_neg ha]

/-- The program of a command adds no event before its last step. -/
theorem exec_watched (p : Tid) (cmd : Cmd Addr w) (hirr : cmd ≠ .setIrrevocable) (P : Asn S p) :
    Watched (protocol S) p (Seen S p) (Records p) P (exec S.cfg p cmd) := by
  cases cmd with
  | start attr => exact .of_watch (watch_of_fades (intStmStart_fades attr) P)
  | load a => exact .mk (watch_of_fades intStmLoad_fades P) fun x => record_short _
  | store a x => exact .mk (watch_of_fades stmWrite_fades P) fun _ => record_short _
  | store2 a x k => exact .mk (watch_of_fades stmWrite_fades P) fun _ => record_short _
  | commit => exact .mk (watch_of_fades intStmCommit_fades P) fun _ => trivial
  | abort reason => exact .of_watch (watch_of_fades (stmRollback_fades (.explicit reason)) P)
  | setIrrevocable => exact (hirr rfl).elim

omit [DecidableEq Tid] [DecidableEq Lock] in
/-- Between two calls the loads of an active attempt are covered by its snapshot. -/
theorem Seen.of_boundary (hS : ∀ attr, S.attrs attr → S.cfg.designOf attr ≠ .writeBackCtl →
    attr.readOnly = false) (hstrict : S.strict) (htokens : ¬ S.tokens)
    (hg : (protocol S).guar p s s') (hinv : s'.view.Inv S) (hB : boundary S p s')
    (hE : Records p s s') (h : Seen S p s) : Seen S p s' := by
  rcases hB with ⟨tx, hidle, htx, -⟩ | ⟨tx, hact, htx, ⟨m, hsnap⟩, -⟩
  · exact h.fades hg (.inl (hE (htx ▸ hidle.inactive)))
  · have hirr : tx.irrevocable = 0 := htx ▸ (hinv.off htokens).2 p
    have hblind : ¬ View.Blind S tx := by
      rintro ⟨-, ⟨hd, hro⟩ | h3⟩
      · simp [hS _ hact.attr hd] at hro
      · omega
    refine ⟨tx.end_, ?_⟩
    rw [htx]
    exact hsnap.sees hinv hstrict hblind hirr ((congrArg StmTx.phase htx).trans hact.phase)

/-- In a strict run every attempt has, at every time, seen one committed memory. -/
theorem Run.seen (hro : ∀ attr, S.attrs attr → S.cfg.designOf attr ≠ .writeBackCtl →
    attr.readOnly = false) (hstrict : S.strict) (htokens : ¬ S.tokens) (hobs : ∀ v, S.obs v)
    {C : Tid → Cmd Addr w → State Tid Addr Lock w → Prop}
    (hC : ∀ p cmd s, s.view.Inv S → boundary S p s → C p cmd s → Admits S p cmd s)
    (hirr : ∀ p cmd s, C p cmd s → cmd ≠ .setIrrevocable) {size : ℕ}
    {T : Pool (State Tid Addr Lock w) Tid} (h : Run S.cfg S.mem₀ size C T) (p : Tid) :
    Seen S p T.st := by
  have hadmits := fun p cmd s hs hB hk => pre_of_admits (S := S) p cmd s hB (hC p cmd s hs hB hk)
  refine Pool.Reaches.watched (G := protocol S) (B := boundary S) (K := Seen S)
    (E := Records) (S := Pool.init (State.init S.mem₀ size)) exec_spec
    (fun p k s hs hB hk => hadmits p k s hs.inv hB hk) (fun _ => hobs _) ?_ ?_ ?_
    (inv_init S size) (fun p => Pool.atOutline_init (boundary_init S size p)) ?_ ?_ h p
  · exact fun p k s hk => exec_watched p k (hirr p k s hk) _
  · exact fun p q s s' hq _ _ hg hK => hK.other hq hg
  · exact fun p s s' hK hE hinv hg hB => hK.of_boundary hro hstrict htokens hg hinv hB hE
  · exact fun _ => trivial
  · exact fun p => ⟨0, .nil⟩

/-! ## Plain transactions -/

/-- What is assumed of strict runs, of transactions that are not started read-only with encounter-time
locking, and keep the hint where it is asked for with commit-time locking. -/
def snapshotSetting (cfg : Config Addr Lock) (hm : cfg.design ≠ .modular) (hr : cfg.NoRequests)
    (m₀ : Mem Addr w) (hint : Prop) : Setting Tid Addr Lock w where
  cfg := cfg
  attrs attr := cfg.design ≠ .writeBackCtl → attr.readOnly = false
  mem₀ := m₀
  tokens := False
  enabled_of_tokens := enabled_of_false cfg
  tokens_of_requests := requests_of_none hr
  strict := True
  hint := hint
  mask _ := True
  mask_or := any_mask_or
  obs _ := True
  plain := .of_one fun attr _ => designOf_static hm attr

/-- The calls whose loads are consistent. -/
def CoveredCall (cfg : Config Addr Lock) (p : Tid) (cmd : Cmd Addr w) (s : State Tid Addr Lock w) :
    Prop :=
  TidyCall cfg p cmd s ∧ CoveredLoad cfg p cmd s

instance (cfg : Config Addr Lock) (p : Tid) (cmd : Cmd Addr w) (s : State Tid Addr Lock w) :
    Decidable (CoveredCall cfg p cmd s) :=
  inferInstanceAs (Decidable (_ ∧ _))

omit [DecidableEq Tid] [DecidableEq Addr] [DecidableEq Lock] in
/-- A stripe that is held has the last version that its owner has saved. -/
theorem lastTs_of_owner {s : State Tid Addr Lock w} {ℓ : Lock} (h : s.view.Holds p ℓ) :
    (s.locks ℓ).owner = some p ∧ s.view.lastTs ℓ = lockGetTimestamp (s.saved ℓ) := by
  obtain ⟨i, hi⟩ := h
  have hi' : s.locks ℓ = .owned p i := hi
  exact ⟨by rw [hi']; rfl, by rw [View.lastTs, View.lastWord_of_owned hi]; rfl⟩

omit [DecidableEq Tid] in
/-- The calls of such transactions are admitted. -/
theorem admits_of_covered {cfg : Config Addr Lock} {hm : cfg.design ≠ .modular} {hr : cfg.NoRequests}
    {m₀ : Mem Addr w} [DecidableEq Tid] (p : Tid) (cmd : Cmd Addr w) (s : State Tid Addr Lock w)
    (hv : s.view.Inv (snapshotSetting cfg hm hr m₀ False : Setting Tid Addr Lock w)) (h : PlainCall p cmd s)
    (hc : CoveredCall cfg p cmd s) : Admits (snapshotSetting cfg hm hr m₀ False) p cmd s := by
  obtain ⟨hcall, hirr, hattr⟩ := h
  obtain ⟨⟨hroom, hsaved⟩, hcovered⟩ := hc
  have hstore : ∀ x ∈ cmd.target,
      MayStore (snapshotSetting cfg hm hr m₀ False : Setting Tid Addr Lock w) (s.txs p) x.1 x.2 :=
    fun x hx => ⟨False.elim, trivial, fun _ => hroom x hx,
      fun hd => hsaved ((designOf_static hm _).symm.trans hd) x hx⟩
  cases cmd with
  | start attr => exact ⟨fun _ => hattr attr rfl, hcall⟩
  | load a =>
    refine ⟨hcall, fun _ => .inr ((hcovered a rfl).imp id fun hle hh => ?_), fun _ _ hi =>
      (hi ((hv.off id).2 p)).elim⟩
    obtain ⟨hown, hts⟩ := lastTs_of_owner hh
    exact hts.trans_le (hle hown)
  | store a x => exact ⟨hcall, hstore _ rfl⟩
  | store2 a x k => exact ⟨hcall, hstore _ rfl⟩
  | commit => exact ⟨hcall, fun _ => False.elim⟩
  | abort reason => exact hcall
  | setIrrevocable => exact (hirr rfl).elim

/-- With encounter-time locking, every live transaction has seen one committed memory, in every state of
every run in which each load from a stripe that the transaction holds is covered by its snapshot. -/
theorem etl_one_snapshot {cfg : Config Addr Lock}
    (hd : cfg.design = .writeBackEtl ∨ cfg.design = .writeThrough) (hr : cfg.NoRequests)
    {m₀ : Mem Addr w} {size : ℕ} {T : Pool (State Tid Addr Lock w) Tid}
    (h : Run cfg m₀ size (fun p cmd s => PlainCall p cmd s ∧ CoveredCall cfg p cmd s) T) :
    OneSnapshot m₀ T.st := by
  have hm : cfg.design ≠ .modular := by
    rcases hd with h | h <;> simp [h]
  intro p _
  obtain ⟨n, hn⟩ := Run.seen (S := snapshotSetting cfg hm hr m₀ False)
    (fun attr h hc => h fun h' => hc ((designOf_static hm attr).trans h')) trivial id (fun _ => trivial)
    (fun p cmd s hv _ ⟨hk, hc⟩ => admits_of_covered p cmd s hv hk hc)
    (fun _ _ _ hk => hk.1.2.1) h p
  exact ⟨n, hn.consistent⟩

/-- Words 1 and 2 share a stripe. -/
def pairStripe (a : Fin 3) : Fin 2 := if a = 0 then 0 else 1

/-- A transaction loads word 0, another one stores to words 0 and 1, and the first one stores to word 2
and loads it. -/
def blindCalls : List (Fin 2 × Cmd (Fin 3) 8) :=
  [(0, .start .readWrite), (0, .load 0), (1, .start .readWrite), (1, .store 0 1), (1, .store 1 1),
    (1, .commit), (0, .store 2 5), (0, .load 2)]

set_option maxRecDepth 10000 in
theorem etl_one_snapshot_calls :
    OneSnapshot (fun _ => 0#8) (after (.plain .writeThrough pairStripe) 4 40 blindCalls).st :=
  have h : Run (.plain .writeThrough pairStripe) (fun _ => 0#8) 4
      (fun p cmd s => PlainCall p cmd s ∧ CoveredCall (.plain .writeThrough pairStripe) p cmd s)
      (after (.plain .writeThrough pairStripe) 4 40 blindCalls) := run_after (by decide)
  etl_one_snapshot (.inr rfl) (fun _ _ => rfl) h

/-- Then it loads word 1. -/
def mixedCalls : List (Fin 2 × Cmd (Fin 3) 8) := blindCalls ++ [(0, .load 1)]

set_option maxRecDepth 10000 in
/-- It has seen word 0 from before the commit of the other transaction and word 1 from after it. -/
theorem etl_mixed_snapshot :
    (∃ T : Pool (State (Fin 2) (Fin 3) (Fin 2) 8) (Fin 2),
      Run (.plain .writeBackEtl pairStripe) (fun _ => 0#8) 4 PlainCall T ∧
        ¬ OneSnapshot (fun _ => 0#8) T.st) ∧
    ∃ T : Pool (State (Fin 2) (Fin 3) (Fin 2) 8) (Fin 2),
      Run (.plain .writeThrough pairStripe) (fun _ => 0#8) 4 PlainCall T ∧
        ¬ OneSnapshot (fun _ => 0#8) T.st := by
  refine ⟨⟨after (.plain .writeBackEtl pairStripe) 4 40 mixedCalls, run_after (by decide), fun h => ?_⟩,
    after (.plain .writeThrough pairStripe) 4 40 mixedCalls, run_after (by decide), fun h => ?_⟩
  all_goals
    obtain ⟨n, hn, hc⟩ := h.bounded (p := 0) (N := 1) (by decide) (by decide)
    rcases Nat.le_one_iff_eq_zero_or_eq_one.1 hn with rfl | rfl
    · exact absurd hc (by decide)
    · exact absurd hc (by decide)

end TinyStm
