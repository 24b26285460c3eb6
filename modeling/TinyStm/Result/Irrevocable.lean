import TinyStm.Result.Serializable

/-!
# Irrevocable transactions

Serializability with transactions that become irrevocable, at their start or later. An irrevocable
transaction records no loads. What it has loaded stays the committed value while it holds the token,
since no other transaction passes the token check of its commit; so it is serialized at its own
commit like the others.
-/

namespace TinyStm

variable {Tid Addr Lock : Type} {w : ℕ} [DecidableEq Tid] [DecidableEq Addr] [DecidableEq Lock]

/-- The calls of transactions that are not started read-only and store whole words. -/
def WholeWordCall (p : Tid) (cmd : Cmd Addr w) (s : State Tid Addr Lock w) : Prop :=
  Called p cmd s ∧ (∀ x ∈ cmd.target, x.2 = BitVec.allOnes w) ∧
    ∀ attr ∈ cmd.attr?, attr.readOnly = false

instance (p : Tid) (cmd : Cmd Addr w) (s : State Tid Addr Lock w) :
    Decidable (WholeWordCall p cmd s) :=
  inferInstanceAs (Decidable (_ ∧ _ ∧ _))

/-- What is assumed of runs of transactions that may be irrevocable, but not read-only, and store whole
words. -/
def wholeWordSetting (cfg : Config Addr Lock) (d : Design) (hd : cfg.design = d)
    (hm : d ≠ .modular) (he : cfg.irrevocableEnabled = true) (m₀ : Mem Addr w) :
    Setting Tid Addr Lock w where
  cfg := cfg
  attrs attr := attr.readOnly = false
  mem₀ := m₀
  tokens := True
  enabled_of_tokens _ := he
  tokens_of_requests _ _ _ := trivial
  strict := False
  hint := True
  mask k := k = BitVec.allOnes w
  mask_or j k hj hk := by rw [hj, hk, BitVec.or_self]
  obs _ := True
  plain := abortsPlain_readWrite hd hm

omit [DecidableEq Tid] in
/-- The calls of such transactions are admitted. -/
theorem admits_of_wholeWord {cfg : Config Addr Lock} {d : Design} {hd : cfg.design = d}
    {hm : d ≠ .modular} {he : cfg.irrevocableEnabled = true} {m₀ : Mem Addr w} (p : Tid)
    (cmd : Cmd Addr w) (s : State Tid Addr Lock w)
    (hB : boundary (wholeWordSetting cfg d hd hm he m₀) p s) (h : WholeWordCall p cmd s)
    (hroom : d ≠ .writeBackCtl → RoomyStore cfg p cmd s) (htoken : TokenKept cfg p cmd s) :
    Admits (wholeWordSetting cfg d hd hm he m₀) p cmd s := by
  obtain ⟨hcall, hmask, hattr⟩ := h
  have hstore : (s.txs p).status.isActive = true → ∀ x ∈ cmd.target,
      MayStore (wholeWordSetting cfg d hd hm he m₀ : Setting Tid Addr Lock w) (s.txs p)
        x.1 x.2 := by
    refine fun ha x hx => ⟨fun _ => (active_of_boundary hB ha).attr, hmask x hx,
      fun hc => hroom (fun h => hc ((designOf_of_ne hd hm).trans h)) x hx, fun _ h0 e he he0 => ?_⟩
    -- all masks are full, so none is empty unless all are
    have hfull := (active_of_boundary hB ha).mask e (List.mem_of_find?_eq_some he)
    exact (h0 ((hmask x hx).trans (hfull.symm.trans he0))).elim
  cases cmd with
  | start attr => exact ⟨hattr attr rfl, hcall⟩
  | load a => exact ⟨hcall, ⟨nofun, fun _ _ _ e he _ => .inl ((active_of_boundary hB hcall).mask e he)⟩⟩
  | store a x => exact ⟨hcall, hstore hcall _ rfl⟩
  | store2 a x k => exact ⟨hcall, hstore hcall _ rfl⟩
  | commit => exact ⟨hcall, fun hn _ => htoken rfl hn⟩
  | abort reason => exact hcall
  | setIrrevocable =>
    exact ⟨trivial, fun _ => ⟨fun h => hm (hd.symm.trans h), fun ha => (active_of_boundary hB ha).attr⟩⟩

/-- Runs with irrevocable transactions are serializable in all three designs, if with encounter-time
locking no store of a `no_retry` transaction needs a new entry while its write set is full, and if no
commit of such a transaction may fail and give back a token that it has only requested. -/
theorem irrevocable_serializable {cfg : Config Addr Lock} (hm : cfg.design ≠ .modular)
    (he : cfg.irrevocableEnabled = true) {m₀ : Mem Addr w} {size : ℕ}
    {T : Pool (State Tid Addr Lock w) Tid}
    (h : Run cfg m₀ size (fun p cmd s => WholeWordCall p cmd s ∧
      (cfg.design ≠ .writeBackCtl → RoomyStore cfg p cmd s) ∧ TokenKept cfg p cmd s) T) :
    Serializable m₀ T.st :=
  Run.serializable (S := wholeWordSetting cfg cfg.design rfl hm he m₀) trivial (fun _ => trivial)
    (fun p cmd s _ hB ⟨hk, hroom, htoken⟩ => admits_of_wholeWord p cmd s hB hk hroom htoken) h

/-- A transaction becomes irrevocable after its first load, and another one that has read the same word
aborts when it commits. -/
def tokenCalls : List (Fin 2 × Cmd (Fin 2) 8) :=
  [(1, .start .readWrite), (1, .load 0), (0, .start .readWrite), (0, .load 0), (0, .setIrrevocable),
    (0, .store 0 1), (1, .store 1 1), (1, .commit), (0, .load 1), (0, .commit), (1, .load 0),
    (1, .commit)]

set_option maxRecDepth 10000 in
theorem irrevocable_serializable_tokenCalls :
    Serializable (fun _ => 0#8) (after (.plain .writeBackEtl id) 4 30 tokenCalls).st :=
  irrevocable_serializable (by decide) (by rfl)
    (run_after (by decide))

/-- A transaction that is not retried stores to word 0 after its write set has overflowed, and the next
one of its thread is irrevocable. -/
def tokenOverflow : List (Fin 1 × Cmd (Fin 5) 8) :=
  [(0, .start .once), (0, .store 2 5), (0, .store 0 7), (0, .setIrrevocable),
    (0, .start .readWrite), (0, .store 3 1), (0, .store 4 1), (0, .load 0), (0, .commit)]

set_option maxRecDepth 10000 in
/-- The irrevocable transaction commits although it has loaded a value that was never committed. -/
theorem irrevocable_not_serializable : ∃ T : Pool (State (Fin 1) (Fin 5) (Fin 5) 8) (Fin 1),
    Run (.plain .writeThrough id) (fun _ => 0#8) 1 WholeWordCall T ∧
      ¬ Serializable (fun _ => 0#8) T.st := by
  refine ⟨after (.plain .writeThrough id) 1 30 tokenOverflow, run_after (by decide),
    fun h => ?_⟩
  have hl := h.replayable (l := (after (.plain .writeThrough id) 1 30 tokenOverflow).st.commits)
    (.refl _) (by decide)
  exact absurd hl (by decide)

end TinyStm
