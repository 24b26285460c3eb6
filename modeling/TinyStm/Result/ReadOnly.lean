import TinyStm.Result.Serializable

/-!
# The read-only hint

Runs of transactions with arbitrary attributes, in any design, are serializable as long as no
transaction that was started read-only stores or becomes irrevocable after it has begun: with the
hint no read set is kept, so there is nothing to validate. The condition is on the calls of each
transaction and not on the others. In a MODULAR build all transactions must select the same design;
a run with two designs whose loads are not consistent stands at the end.
-/

namespace TinyStm

variable {Tid Addr Lock : Type} {w : ℕ} [DecidableEq Tid] [DecidableEq Addr] [DecidableEq Lock]

/-- The calls that the designs handle for transactions that keep their hints. -/
def SafeCall (cfg : Config Addr Lock) (d : Design) (p : Tid) (cmd : Cmd Addr w)
    (s : State Tid Addr Lock w) : Prop :=
  (d ≠ .writeBackCtl → RoomyStore cfg p cmd s) ∧ (d = .writeThrough → SavedStore cfg p cmd s) ∧
    (d = .writeBackCtl → MergedLoad p cmd s) ∧ (cmd = .setIrrevocable → cfg.design ≠ .modular) ∧
    TokenKept cfg p cmd s

instance (cfg : Config Addr Lock) (d : Design) (p : Tid) (cmd : Cmd Addr w)
    (s : State Tid Addr Lock w) : Decidable (SafeCall cfg d p cmd s) :=
  inferInstanceAs (Decidable (_ ∧ _ ∧ _ ∧ _ ∧ _))

/-- What is assumed of runs of transactions of the design `d` that keep their hints. -/
def hintSetting (cfg : Config Addr Lock) (d : Design) (m₀ : Mem Addr w) :
    Setting Tid Addr Lock w where
  cfg := cfg
  attrs attr := cfg.designOf attr = d
  mem₀ := m₀
  tokens := cfg.irrevocableEnabled = true
  enabled_of_tokens h := h
  tokens_of_requests := enabled_of_requests cfg
  strict := False
  hint := True
  mask _ := True
  mask_or := any_mask_or
  obs _ := True
  plain := .of_one fun _ h => h

omit [DecidableEq Tid] in
/-- The calls of such transactions are admitted. -/
theorem admits_of_hint {cfg : Config Addr Lock} {d : Design} {m₀ : Mem Addr w} (p : Tid)
    (cmd : Cmd Addr w) (s : State Tid Addr Lock w)
    (hdesign : (s.txs p).status.isActive = true → cfg.designOf (s.txs p).attr = d)
    (h : AnyCall cfg d p cmd s) (hkept : HintKept p cmd s) (hsafe : SafeCall cfg d p cmd s) :
    Admits (hintSetting cfg d m₀) p cmd s := by
  obtain ⟨hcall, hattr, he⟩ := h
  obtain ⟨hroom, hsaved, hmerged, hmod, htoken⟩ := hsafe
  have hro : (s.txs p).status.isActive = true → (cmd.target ≠ none ∨ cmd = .setIrrevocable) →
      (s.txs p).attr.readOnly = false := fun ha hcmd => by
    by_contra hr
    have := hkept ha (by simpa using hr)
    exact hcmd.elim (· this.1) (this.2 ·)
  have hstore : (s.txs p).status.isActive = true → ∀ x ∈ cmd.target,
      MayStore (hintSetting cfg d m₀ : Setting Tid Addr Lock w) (s.txs p) x.1 x.2 := by
    refine fun ha x hx => ⟨fun _ => hro ha (.inl ?_), trivial,
      fun hc => hroom (fun h => hc ((hdesign ha).trans h)) x hx,
      fun hc => hsaved ((hdesign ha).symm.trans hc) x hx⟩
    rw [Option.mem_def.1 hx]
    nofun
  cases cmd with
  | start attr => exact ⟨hattr attr rfl, hcall⟩
  | load a => exact ⟨hcall, nofun, fun hc _ => hmerged ((hdesign hcall).symm.trans hc) a rfl⟩
  | store a x => exact ⟨hcall, hstore hcall _ rfl⟩
  | store2 a x k => exact ⟨hcall, hstore hcall _ rfl⟩
  | commit => exact ⟨hcall, fun hn _ => htoken rfl hn⟩
  | abort reason => exact hcall
  | setIrrevocable => exact ⟨he rfl, fun _ => ⟨hmod rfl, fun ha => hro ha (.inr rfl)⟩⟩

/-- Runs in which the read-only hint is kept are serializable in every design. -/
theorem hint_serializable {cfg : Config Addr Lock} {d : Design} {m₀ : Mem Addr w}
    {size : ℕ} {T : Pool (State Tid Addr Lock w) Tid}
    (h : Run cfg m₀ size (fun p cmd s => AnyCall cfg d p cmd s ∧ HintKept p cmd s ∧
      SafeCall cfg d p cmd s) T) : Serializable m₀ T.st :=
  Run.serializable (S := hintSetting cfg d m₀) trivial (fun _ => trivial)
    (fun p cmd s _ hB ⟨hk, hkept, hsafe⟩ =>
      admits_of_hint p cmd s (fun ha => (active_of_boundary hB ha).attr) hk hkept hsafe) h

/-- A reader finds the word of a writer that has committed. -/
def readerCalls : List (Fin 2 × Cmd (Fin 2) 8) :=
  [(0, .start .readWrite), (0, .load 0), (1, .start .reader), (1, .load 1), (0, .store 0 1),
    (0, .commit), (1, .load 0), (1, .load 0), (1, .commit)]

set_option maxRecDepth 10000 in
theorem hint_serializable_readerCalls :
    Serializable (fun _ => 0#8) (after (.plain .writeBackEtl id) 4 30 readerCalls).st :=
  hint_serializable (d := .writeBackEtl) (run_after (by decide))

/-- Two transactions that were started read-only increment the same word. -/
def lostUpdate : List (Fin 2 × Cmd (Fin 1) 8) :=
  [(0, .start .reader), (0, .load 0), (1, .start .reader), (1, .load 0), (0, .store 0 1),
    (0, .commit), (1, .store 0 1), (1, .commit)]

set_option maxRecDepth 10000 in
/-- Both commit on the same initial value. -/
theorem hint_not_serializable : ∃ T : Pool (State (Fin 2) (Fin 1) (Fin 1) 8) (Fin 2),
    Run (.plain .writeBackEtl id) (fun _ => 0#8) 4 (fun p cmd s =>
      AnyCall (.plain .writeBackEtl id) .writeBackEtl p cmd s ∧
        SafeCall (.plain .writeBackEtl id) .writeBackEtl p cmd s) T ∧
      ¬ Serializable (fun _ => 0#8) T.st := by
  refine ⟨after (.plain .writeBackEtl id) 4 30 lostUpdate, run_after (by decide),
    fun h => ?_⟩
  have hl := h.replayable (l := (after (.plain .writeBackEtl id) 4 30 lostUpdate).st.commits.reverse)
    (List.reverse_perm _) (by decide)
  exact absurd hl (by decide)

end TinyStm
