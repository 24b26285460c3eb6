import TinyStm.History.Block
import TinyStm.Result.RealTime

/-!
# Atomic blocks

What the library is for: a client whose threads run their transactions as atomic blocks, in any
interleaving and with any aborts, ends up where it would have if each committed block had been
executed at once, in an order that respects real time. The abstract side is `TinyStm.History.Block`:
a block is a sequential program, and running it on a memory gives a trace and a memory. The faithful
side is a run whose threads follow their blocks. The connection is that a trace which the block can
perform and which is consistent with a memory is the trace of the block on that memory.
-/

namespace TinyStm

variable {Tid Addr Lock ι : Type} {w : ℕ}

/-- The calls of a client that runs the blocks: an attempt performs one of them, and commits at its
end. A retry begins the block anew. -/
def BlockCall (blocks : ι → AtomicBlock Addr w) [DecidableEq Addr] (p : Tid) (cmd : Cmd Addr w)
    (s : State Tid Addr Lock w) : Prop :=
  match cmd with
  | .start _ => (s.txs p).nesting = 0
  | .load a => ∃ i, (blocks i).Performs (s.txs p).trace (.load a 0#w)
  | .store a x => ∃ i, (blocks i).Performs (s.txs p).trace (.store a x (BitVec.allOnes w))
  | .store2 a x k => ∃ i, (blocks i).Performs (s.txs p).trace (.store a x k)
  | .commit => ∃ i, (blocks i).Completes (s.txs p).trace
  | .abort _ | .setIrrevocable => True

instance [Fintype ι] [DecidableEq Addr] (blocks : ι → AtomicBlock Addr w) (p : Tid)
    (cmd : Cmd Addr w) (s : State Tid Addr Lock w) : Decidable (BlockCall blocks p cmd s) :=
  match cmd with
  | .start _ => Nat.decEq (s.txs p).nesting 0
  | .load _ | .store _ _ | .store2 _ _ _ | .commit => Fintype.decidableExistsFintype
  | .abort _ | .setIrrevocable => .isTrue trivial

variable [DecidableEq Tid] [DecidableEq Addr] [DecidableEq Lock] {cfg : Config Addr Lock}
  {m₀ : Mem Addr w} {size : ℕ} {C : Tid → Cmd Addr w → State Tid Addr Lock w → Prop}
  {T U : Pool (State Tid Addr Lock w) Tid} {blocks : ι → AtomicBlock Addr w}

/-- What is committed are complete executions of the blocks. -/
theorem Run.completes (hcall : ∀ p cmd s, C p cmd s → Called p cmd s)
    (hblock : ∀ p cmd s, C p cmd s → BlockCall blocks p cmd s) (hT : Run cfg m₀ size C T) :
    ∀ c ∈ T.st.commits, ∃ i, (blocks i).Completes c.trace := by
  have hφ : Lasting 0 (fun _ : Place Addr w => True) fun _ => True :=
    ⟨fun _ _ _ _ => trivial, fun _ _ _ => trivial⟩
  have hχ : Lasting 0 (fun x : Place Addr w => ∃ i, (blocks i).Completes x.trace) fun _ => True :=
    ⟨fun _ _ _ h => h, fun _ _ _ => trivial⟩
  have hv : ∀ p : Tid, Vouches (fun c => ∃ i, (blocks i).Completes c.trace) 0 p
      fun x : Place Addr w => ∃ i, (blocks i).Completes x.trace :=
    fun p => ⟨fun _ _ _ h => h, fun _ _ _ h => h⟩
  obtain ⟨⟨l, hl, hgood⟩, -⟩ := Pool.sound
    (G := pushing (fun c => ∃ i, (blocks i).Completes c.trace) 0 [])
    (B := fun p => placeReady (fun c => ∃ i, (blocks i).Completes c.trace) 0 [] p fun _ => True)
    (fun p cmd => exec_pushing hφ hχ (fun _ _ => trivial) (fun _ _ _ => trivial) (hv p) cmd)
    (fun p k s _ hB hk => placeReadyFor_of_called hB (hcall p k s hk) fun hk' _ => by
      subst hk'
      exact hblock p .commit s hk)
    ⟨[], rfl, nofun⟩ (fun _ => Pool.atOutline_init fun _ => trivial) hT fun _ _ _ => Nat.zero_le _
  rw [List.append_nil] at hl
  exact fun c hc => hgood c (hl ▸ hc)

/-- The committed blocks are executed one at a time in the order `σ`, and the memory is what the
last one leaves, if no lock is held. -/
def ExecutedBy (blocks : ι → AtomicBlock Addr w) (m₀ : Mem Addr w) (s : State Tid Addr Lock w)
    (σ : Equiv.Perm (Fin s.commits.length)) : Prop :=
  ∃ m, History.Executes blocks m₀ (List.ofFn fun i => s.commits.log (σ i)) m ∧
    ((∀ ℓ, ∃ n, s.locks ℓ = .free n) → s.mem = m)

omit [DecidableEq Tid] [DecidableEq Lock] in
/-- A serial order of commits that are complete executions of blocks. -/
theorem SerializedBy.executed {s : State Tid Addr Lock w} {σ : Equiv.Perm (Fin s.commits.length)}
    (h : SerializedBy m₀ s σ) (hb : ∀ c ∈ s.commits, ∃ i, (blocks i).Completes c.trace) :
    ExecutedBy blocks m₀ s σ := by
  obtain ⟨m, hreplays, hmem⟩ := h
  exact ⟨m, hreplays.executes fun c hc => hb c ((History.order_perm _ _).mem_iff.1 hc), hmem⟩

/-- The calls of a client that runs the blocks and keeps the hints. -/
def ClientCall (cfg : Config Addr Lock) (d : Design) (blocks : ι → AtomicBlock Addr w) (p : Tid)
    (cmd : Cmd Addr w) (s : State Tid Addr Lock w) : Prop :=
  KeptCall cfg d p cmd s ∧ BlockCall blocks p cmd s

instance [Fintype ι] (cfg : Config Addr Lock) (d : Design) (blocks : ι → AtomicBlock Addr w)
    (p : Tid) (cmd : Cmd Addr w) (s : State Tid Addr Lock w) :
    Decidable (ClientCall cfg d blocks p cmd s) :=
  inferInstanceAs (Decidable (_ ∧ _))

/-- The order by the places is one in which the blocks are executed at once. -/
theorem Run.order_executed {d : Design}
    (hU : Run cfg m₀ size (ClientCall cfg d blocks) U) :
    ExecutedBy blocks m₀ U.st U.st.commits.order ∧
      InRealTime cfg m₀ size (ClientCall cfg d blocks) U U.st.commits.order := by
  have hkept : ∀ (p : Tid) k (s : State Tid Addr Lock w), ClientCall cfg d blocks p k s →
      KeptCall cfg d p k s := fun _ _ _ h => h.1
  obtain ⟨hser, hreal⟩ := Run.order_inRealTime (Pool.Reaches.mono hkept hU)
  have hb : ∀ c ∈ U.st.commits, ∃ i, (blocks i).Completes c.trace :=
    Run.completes (fun _ _ _ h => h.1.1.1) (fun _ _ _ h => h.2) hU
  exact ⟨hser.executed hb, hreal.mono hkept⟩

/-- Atomic blocks are atomic: in every run of a client, in every design, the committed blocks have
loaded what they load, and the memory is what it is, when they are executed one at a time in an
order that respects real time. -/
theorem blocks_atomic {d : Design}
    (hU : Run cfg m₀ size (ClientCall cfg d blocks) U) :
    ∃ σ, ExecutedBy blocks m₀ U.st σ ∧ InRealTime cfg m₀ size (ClientCall cfg d blocks) U σ :=
  ⟨_, Run.order_executed hU⟩

/-- An increment. -/
def incrementBlock : Unit → AtomicBlock (Fin 2) 8 :=
  fun _ => .load 0 fun x => .store 0 (x + 1) (BitVec.allOnes 8) .done

/-- Two increments that overlap: the second one finds the lock taken, and begins anew. -/
def incrementCalls : List (Fin 2 × Cmd (Fin 2) 8) :=
  [(0, .start .readWrite), (1, .start .readWrite), (0, .load 0), (1, .load 0), (0, .store 0 1),
    (1, .store 0 1), (0, .commit), (1, .load 0), (1, .store 0 2), (1, .commit)]

set_option maxRecDepth 10000 in
theorem blocks_atomic_increments : ∃ σ,
    ExecutedBy incrementBlock (fun _ => 0#8)
        (after (.plain .writeThrough id) 4 40 incrementCalls).st σ ∧
      InRealTime (.plain .writeThrough id) (fun _ => 0#8) 4
        (ClientCall (.plain .writeThrough id) .writeThrough incrementBlock)
        (after (.plain .writeThrough id) 4 40 incrementCalls) σ :=
  blocks_atomic (run_after (by decide))

/-! ## Clients that start each block with attributes of its own -/

section
variable {Tid Addr Lock ι : Type} {w : ℕ}

/-- The calls of a client that starts the block `i` with the attributes `attr i` and stores whole
words: between `stm_start` and `stm_commit` it performs a block that has the attributes of the
transaction, and it calls nothing else. -/
def AttrCall (blocks : ι → AtomicBlock Addr w) (attr : ι → Attr) [DecidableEq Addr] (p : Tid)
    (cmd : Cmd Addr w) (s : State Tid Addr Lock w) : Prop :=
  match cmd with
  | .start att => (s.txs p).nesting = 0 ∧ ∃ i, attr i = att
  | .load a => (s.txs p).status.isActive = true ∧
      ∃ i, attr i = (s.txs p).attr ∧ (blocks i).Performs (s.txs p).trace (.load a 0#w)
  | .store a x => (s.txs p).status.isActive = true ∧
      ∃ i, attr i = (s.txs p).attr ∧
        (blocks i).Performs (s.txs p).trace (.store a x (BitVec.allOnes w))
  | .commit => (s.txs p).status.isActive = true ∧
      ∃ i, attr i = (s.txs p).attr ∧ (blocks i).Completes (s.txs p).trace
  | .store2 _ _ _ | .abort _ | .setIrrevocable => False

instance [Fintype ι] [DecidableEq Addr] (blocks : ι → AtomicBlock Addr w) (attr : ι → Attr)
    (p : Tid) (cmd : Cmd Addr w) (s : State Tid Addr Lock w) :
    Decidable (AttrCall blocks attr p cmd s) :=
  match cmd with
  | .start _ => inferInstanceAs (Decidable (_ ∧ ∃ _, _))
  | .load _ | .store _ _ | .commit => inferInstanceAs (Decidable (_ ∧ ∃ _, _ ∧ _))
  | .store2 _ _ _ | .abort _ | .setIrrevocable => .isFalse id

/-- The attributes suit the blocks: no block is given up after an abort, and only blocks that store
nothing are started read-only. -/
structure Suits [DecidableEq Addr] (blocks : ι → AtomicBlock Addr w) (attr : ι → Attr) : Prop where
  retried : ∀ i, (attr i).noRetry = false
  storeless : ∀ i, (attr i).readOnly = true → ∀ tr a x k,
    ¬ (blocks i).Performs tr (.store a x k)

variable [DecidableEq Tid] [DecidableEq Addr] [DecidableEq Lock] {cfg : Config Addr Lock}
  {m₀ : Mem Addr w} {size : ℕ} {U : Pool (State Tid Addr Lock w) Tid}
  {blocks : ι → AtomicBlock Addr w} {attr : ι → Attr}

/-- Whole words only. -/
theorem or_allOnes (j k : BitVec w) (hj : j = BitVec.allOnes w) (_ : k = BitVec.allOnes w) :
    j ||| k = BitVec.allOnes w := by
  simp [hj]

/-- What is assumed of runs of transactions that are retried and store whole words. -/
def wordSetting (cfg : Config Addr Lock) (hm : cfg.design ≠ .modular) (m₀ : Mem Addr w) :
    Setting Tid Addr Lock w where
  cfg := cfg
  attrs attr := attr.noRetry = false
  mem₀ := m₀
  tokens := cfg.irrevocableEnabled = true
  enabled_of_tokens h := h
  tokens_of_requests := enabled_of_requests cfg
  strict := False
  hint := True
  mask := (· = BitVec.allOnes w)
  mask_or := or_allOnes
  obs _ := True
  plain := .of_one fun attr _ => designOf_static hm attr

omit [DecidableEq Tid] [DecidableEq Lock] in
/-- Such a client makes its calls as the interface asks. -/
theorem AttrCall.called {p : Tid} {cmd : Cmd Addr w} {s : State Tid Addr Lock w}
    (h : AttrCall blocks attr p cmd s) : Called p cmd s := by
  cases cmd with
  | start att =>
    have hnesting : (s.txs p).nesting = 0 := h.1
    change (s.txs p).nesting + 1 < 2 ^ 32
    omega
  | load a => exact h.1
  | store a x => exact h.1
  | commit => exact h.1
  | store2 a x k => exact h.elim
  | abort reason => exact h.elim
  | setIrrevocable => exact h.elim

omit [DecidableEq Tid] [DecidableEq Lock] in
/-- Such a client runs the blocks. -/
theorem AttrCall.block {p : Tid} {cmd : Cmd Addr w} {s : State Tid Addr Lock w}
    (h : AttrCall blocks attr p cmd s) : BlockCall blocks p cmd s := by
  cases cmd with
  | start att => exact h.1
  | load a => exact h.2.imp fun _ => And.right
  | store a x => exact h.2.imp fun _ => And.right
  | commit => exact h.2.imp fun _ => And.right
  | store2 a x k => exact h.elim
  | abort reason => exact h.elim
  | setIrrevocable => exact h.elim

omit [DecidableEq Tid] [DecidableEq Lock] in
/-- Its stores are stores of whole words. -/
theorem AttrCall.store_of_target {p : Tid} {cmd : Cmd Addr w} {s : State Tid Addr Lock w}
    (h : AttrCall blocks attr p cmd s) {x : Addr × BitVec w} (hx : x ∈ cmd.target) :
    ∃ v, cmd = .store x.1 v ∧ x.2 = BitVec.allOnes w := by
  cases cmd with
  | store a v =>
    obtain rfl := Option.some.inj hx
    exact ⟨v, rfl, rfl⟩
  | store2 a v k => exact h.elim
  | start att => cases hx
  | load a => cases hx
  | commit => cases hx
  | abort reason => cases hx
  | setIrrevocable => cases hx

omit [DecidableEq Tid] in
/-- The calls of such a client are calls of a client that keeps its hints: what the designs do not
handle needs `no_retry`, a store under a partial mask or a call of `stm_set_irrevocable`. -/
theorem AttrCall.client {hm : cfg.design ≠ .modular} (hsuits : Suits blocks attr) {p : Tid}
    {cmd : Cmd Addr w} {s : State Tid Addr Lock w} (hB : boundary (wordSetting cfg hm m₀) p s)
    (h : AttrCall blocks attr p cmd s) : ClientCall cfg cfg.design blocks p cmd s := by
  have hactive : (s.txs p).status.isActive = true → TxActive (wordSetting cfg hm m₀).toPremises (s.txs p) :=
    active_of_boundary hB
  have hretried (ha : (s.txs p).status.isActive = true) : (s.txs p).attr.noRetry = false :=
    (hactive ha).attr
  have hmask (ha : (s.txs p).status.isActive = true) :
      ∀ e ∈ (s.txs p).wSet.entries, e.mask = BitVec.allOnes w :=
    (hactive ha).mask
  have hirr : cmd ≠ .setIrrevocable := by
    rintro rfl
    exact h
  have hany : AnyCall cfg cfg.design p cmd s :=
    ⟨h.called, fun att _ => designOf_static hm att, fun hc => (hirr hc).elim⟩
  have hkept : HintKept p cmd s := by
    intro _ hro
    refine ⟨Option.eq_none_iff_forall_not_mem.2 fun x hx => ?_, hirr⟩
    obtain ⟨v, rfl, -⟩ := h.store_of_target hx
    obtain ⟨-, i, hi, hperf⟩ := h
    exact hsuits.storeless i (hi ▸ hro) _ _ _ _ hperf
  have hroom : RoomyStore cfg p cmd s := by
    intro x hx _ hno
    obtain ⟨v, rfl, -⟩ := h.store_of_target hx
    rw [hretried h.1] at hno
    cases hno
  have hsaved : SavedStore cfg p cmd s := by
    intro x hx hx0 e he he0
    obtain ⟨v, rfl, hall⟩ := h.store_of_target hx
    have he1 := hmask h.1 e (List.mem_of_find?_eq_some he)
    exact (hx0 (hall.trans (he1.symm.trans he0))).elim
  have hmerged : MergedLoad p cmd s := by
    intro a ha _ e he _
    obtain rfl := Cmd.mem_source.1 ha
    exact .inl (hmask h.1 e he)
  have htoken : TokenKept cfg p cmd s := by
    intro hcmd _ hno
    obtain rfl := Cmd.isCommit_iff.1 hcmd
    rw [hretried h.1] at hno
    cases hno
  exact ⟨⟨hany, hkept, fun _ => hroom, fun _ => hsaved, fun _ => hmerged,
    fun hc => (hirr hc).elim, htoken⟩, h.block⟩

omit [DecidableEq Tid] in
/-- The calls of such a client are admitted. -/
theorem admits_of_attr {hm : cfg.design ≠ .modular} (hsuits : Suits blocks attr) (p : Tid)
    (cmd : Cmd Addr w) (s : State Tid Addr Lock w) (hB : boundary (wordSetting cfg hm m₀) p s)
    (h : AttrCall blocks attr p cmd s) : Admits (wordSetting cfg hm m₀) p cmd s := by
  obtain ⟨⟨hany, hkept, hsafe⟩, -⟩ := h.client hsuits hB
  have hadmits : Admits (hintSetting cfg cfg.design m₀) p cmd s :=
    admits_of_hint p cmd s (fun _ => designOf_static hm _) hany hkept hsafe
  cases cmd with
  | start att =>
    obtain ⟨-, i, rfl⟩ := h
    exact ⟨hsuits.retried i, hadmits.2⟩
  | load a => exact ⟨hadmits.1, hadmits.2.strict, hadmits.2.merged⟩
  | store a x => exact ⟨hadmits.1, { hadmits.2 with mask := rfl }⟩
  | commit => exact hadmits
  | store2 a x k => exact h.elim
  | abort reason => exact h.elim
  | setIrrevocable => exact h.elim

/-- The runs of such a client are runs of a client that keeps its hints, in every static design. -/
theorem Run.client_of_attr (hm : cfg.design ≠ .modular) (hsuits : Suits blocks attr)
    (hU : Run cfg m₀ size (AttrCall blocks attr) U) :
    Run cfg m₀ size (ClientCall cfg cfg.design blocks) U := by
  refine Pool.Reaches.mono_of hU fun V p cmd hV hdone h => ?_
  have hsound := Run.sound (S := wordSetting cfg hm m₀)
    (fun q k s _ hB hk => admits_of_attr hsuits q k s hB hk) hV fun _ _ _ => trivial
  exact h.client hsuits ((hsound.2 p).of_done ⟨hsound.1, trivial⟩ hdone)

end

end TinyStm
