import TinyStm.Result.Calls

/-!
# Serializability

What it means for a state that a run has reached to be serializable. `Run.serializable` is the
common part of the results on the three designs. A state is serializable if its committed
transactions, in some order, can be executed one after the other on the initial memory with the
values that they have loaded, and leave the words that are in memory under the free locks. The
protocol keeps the commits with their timestamps as a ghost history; the serial order is that of the
timestamps.
-/

namespace TinyStm

section
variable {Tid Addr Lock : Type} {w : ℕ}

/-- The committed transactions, executed one at a time from `m₀` in the order of their keys, return
the values that their loads returned and leave the memory, if no lock is held. -/
def Serializable [DecidableEq Addr] (m₀ : Mem Addr w) (s : State Tid Addr Lock w) : Prop :=
  ∀ l : History Tid Addr w, l.Perm s.commits → l.Pairwise (·.key ≤ ·.key) →
    ∃ m, History.Replays m₀ l m ∧ ((∀ ℓ, ∃ n, s.locks ℓ = .free n) → s.mem = m)

/-- One order in which the loads do not return their values is enough. -/
theorem Serializable.replayable [DecidableEq Addr] {m₀ : Mem Addr w} {s : State Tid Addr Lock w}
    (h : Serializable m₀ s) {l : History Tid Addr w} (hl : l.Perm s.commits)
    (hs : l.Pairwise (·.key ≤ ·.key)) : History.Replayable m₀ l :=
  have ⟨_, hr, _⟩ := h l hl hs
  hr.replayable

end

variable {Tid Addr Lock : Type} {w : ℕ} [DecidableEq Addr] {S : Setting Tid Addr Lock w}

/-- A state that satisfies the invariant is serializable. -/
theorem View.Inv.serializable {s : State Tid Addr Lock w} (h : s.view.Inv S) (hS : S.hint) :
    Serializable S.mem₀ s := by
  intro l hl hsorted
  have hsound := h.sound hS
  refine ⟨_, hsound.replays (fun c hc _ => h.ts_le c hc) hl hsorted, fun hfree => funext fun a => ?_⟩
  obtain ⟨n, hn⟩ := hfree (S.cfg.getLock a)
  exact h.mem_of_free hn

/-- Every state that a run reaches is serializable, if its calls are admitted. -/
theorem Run.serializable [DecidableEq Tid] [DecidableEq Lock] (hhint : S.hint)
    (hobs : ∀ v, S.obs v) {C : Tid → Cmd Addr w → State Tid Addr Lock w → Prop}
    (hC : ∀ p cmd s, s.view.Inv S → boundary S p s → C p cmd s → Admits S p cmd s) {size : ℕ}
    {T : Pool (State Tid Addr Lock w) Tid} (h : Run S.cfg S.mem₀ size C T) :
    Serializable S.mem₀ T.st :=
  (Run.sound hC h fun _ _ _ => hobs _).1.serializable hhint

/-- Stores under all masks are considered. -/
theorem any_mask_or {w : ℕ} (_ _ : BitVec w) (_ _ : True) : True := trivial

/-- Where no callback requests irrevocability there are no irrevocable transactions. -/
theorem requests_of_none {Addr Lock : Type} {cfg : Config Addr Lock} (hr : cfg.NoRequests)
    (reason n : ℕ) (h : cfg.requests reason n = true) : False := by
  rw [hr] at h
  cases h

/-- The callbacks of a build without support for irrevocable transactions request none. -/
theorem enabled_of_requests {Addr Lock : Type} (cfg : Config Addr Lock) (reason n : ℕ)
    (h : cfg.requests reason n = true) : cfg.irrevocableEnabled = true := by
  unfold Config.requests at h
  split at h
  · cases h
  · exact (Bool.and_eq_true_iff.1 h).1

/-- Runs without irrevocable transactions need no support for them. -/
theorem enabled_of_false {Addr Lock : Type} (cfg : Config Addr Lock) (h : False) :
    cfg.irrevocableEnabled = true := h.elim

/-! ## Plain transactions -/

section
variable {Tid Addr Lock : Type} {w : ℕ} [DecidableEq Tid] [DecidableEq Addr] [DecidableEq Lock]

omit [DecidableEq Addr] [DecidableEq Lock] in
/-- The design of a build that selects it for all transactions. -/
theorem designOf_of_ne {cfg : Config Addr Lock} {d : Design} {attr : Attr} (hd : cfg.design = d)
    (hm : d ≠ .modular) : cfg.designOf attr = d := by
  subst hd
  unfold Config.designOf
  split
  · exact (hm ‹_›).elim
  · rfl

omit [DecidableEq Addr] [DecidableEq Lock] in
/-- All transactions of a static build have its design. -/
theorem designOf_static {cfg : Config Addr Lock} (hm : cfg.design ≠ .modular) (attr : Attr) :
    cfg.designOf attr = cfg.design := designOf_of_ne rfl hm

omit [DecidableEq Tid] [DecidableEq Addr] [DecidableEq Lock] in
/-- The transactions of a static build that are not read-only do not mix. -/
theorem abortsPlain_readWrite {cfg : Config Addr Lock} {d : Design} (hd : cfg.design = d)
    (hm : d ≠ .modular) :
    AbortsPlain cfg (fun attr => attr.readOnly = false) fun _ : View Tid Addr Lock w => True :=
  .of_one fun _ _ => designOf_of_ne hd hm

/-- What is assumed of runs of transactions that may be neither irrevocable nor read-only and that
store under the masks `mask`. -/
def plainSetting (cfg : Config Addr Lock) (d : Design) (hd : cfg.design = d) (hm : d ≠ .modular)
    (hr : cfg.NoRequests) (m₀ : Mem Addr w) (mask : BitVec w → Prop)
    (mask_or : ∀ j k, mask j → mask k → mask (j ||| k)) : Setting Tid Addr Lock w where
  cfg := cfg
  attrs attr := attr.readOnly = false
  mem₀ := m₀
  tokens := False
  enabled_of_tokens := False.elim
  tokens_of_requests := requests_of_none hr
  strict := False
  hint := True
  mask := mask
  mask_or := mask_or
  obs _ := True
  plain := abortsPlain_readWrite hd hm

omit [DecidableEq Tid] in
/-- The calls of such transactions are admitted. -/
theorem admits_of_plain {cfg : Config Addr Lock} {d : Design} {hd : cfg.design = d}
    {hm : d ≠ .modular} {hr : cfg.NoRequests} {m₀ : Mem Addr w} {mask : BitVec w → Prop}
    {mask_or : ∀ j k, mask j → mask k → mask (j ||| k)} (p : Tid) (cmd : Cmd Addr w)
    (s : State Tid Addr Lock w)
    (hv : s.view.Inv (plainSetting cfg d hd hm hr m₀ mask mask_or : Setting Tid Addr Lock w))
    (hB : boundary (plainSetting cfg d hd hm hr m₀ mask mask_or) p s) (h : PlainCall p cmd s)
    (hmask : ∀ x ∈ cmd.target, mask x.2) (hroom : d ≠ .writeBackCtl → RoomyStore cfg p cmd s)
    (hzero : d = .writeThrough → ¬ mask 0#w) :
    Admits (plainSetting cfg d hd hm hr m₀ mask mask_or) p cmd s := by
  obtain ⟨hcall, hirr, hattr⟩ := h
  have hstore : (s.txs p).status.isActive = true → ∀ x ∈ cmd.target,
      MayStore (plainSetting cfg d hd hm hr m₀ mask mask_or : Setting Tid Addr Lock w) (s.txs p)
        x.1 x.2 := by
    refine fun ha x hx => ⟨fun _ => (active_of_boundary hB ha).attr, hmask x hx,
      fun hc => hroom (fun h => hc ((designOf_of_ne hd hm).trans h)) x hx, fun hc _ e he he0 => ?_⟩
    have := (active_of_boundary hB ha).mask e (List.mem_of_find?_eq_some he)
    exact (hzero ((designOf_of_ne hd hm).symm.trans hc) (he0 ▸ this)).elim
  cases cmd with
  | start attr => exact ⟨hattr attr rfl, hcall⟩
  | load a => exact ⟨hcall, ⟨nofun, fun _ _ hi => (hi ((hv.off id).2 p)).elim⟩⟩
  | store a x => exact ⟨hcall, hstore hcall _ rfl⟩
  | store2 a x k => exact ⟨hcall, hstore hcall _ rfl⟩
  | commit => exact ⟨hcall, fun _ _ _ _ _ reason _ => hr _ _⟩
  | abort reason => exact hcall
  | setIrrevocable => exact (hirr rfl).elim

end

end TinyStm
