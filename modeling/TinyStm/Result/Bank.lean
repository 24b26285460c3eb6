import TinyStm.Result.AtomicRuns
import Mathlib.Algebra.BigOperators.Fin
import Mathlib.Tactic.DeriveFintype

/-!
# The bank

`src/test/bank/bank.c` moves money between accounts, sums them up and resets them, each in one
transaction. All accounts are 0 at the start, and the test expects that they sum up to 0 at the end.
They do, whatever the threads run and however the transactions are interleaved, and so does every
sum that a transaction has computed in between.
-/

namespace TinyStm

namespace Bank

variable {Addr : Type} {w n : ℕ}

/-- The transactions of the test; accounts are numbers. -/
inductive Op (n : ℕ)
  | transfer (src dst : Fin n)
  | total
  | reset
  deriving DecidableEq, Fintype

/-- `transfer`. -/
def transfer (balance : Fin n → Addr) (amount : BitVec w) (src dst : Fin n) : AtomicBlock Addr w :=
  .load (balance src) fun i =>
    .store (balance src) (i - amount) (BitVec.allOnes w) <|
      .load (balance dst) fun j =>
        .store (balance dst) (j + amount) (BitVec.allOnes w) .done

/-- The loop of `total`. -/
def loadAll : List Addr → AtomicBlock Addr w
  | [] => .done
  | a :: as => .load a fun _ => loadAll as

/-- The loop of `reset`. -/
def storeAll : List Addr → AtomicBlock Addr w
  | [] => .done
  | a :: as => .store a 0#w (BitVec.allOnes w) (storeAll as)

/-- The transactions of a bank whose accounts have their balances at `balance`; the test transfers
1. -/
def block (balance : Fin n → Addr) (amount : BitVec w) : Op n → AtomicBlock Addr w
  | .transfer src dst => transfer balance amount src dst
  | .total => loadAll (List.ofFn balance)
  | .reset => storeAll (List.ofFn balance)

/-- The attributes with which `TM_START` starts them: an identifier, and `RO` for `total`. -/
def attr : Op n → Attr
  | .transfer _ _ => ⟨0, false, false⟩
  | .total => ⟨1, true, false⟩
  | .reset => ⟨2, false, false⟩

/-- What `total` returns after the loads of a trace. -/
def sumLoaded : Trace Addr w → BitVec w
  | [] => 0
  | .load _ x :: tr => x + sumLoaded tr
  | .store _ _ _ :: tr => sumLoaded tr

/-- What `total` returns outside of a transaction. -/
def total (balance : Fin n → Addr) (m : Mem Addr w) : BitVec w := ∑ i, m (balance i)

variable [DecidableEq Addr] {balance : Fin n → Addr} {m : Mem Addr w}

/-- A balance changes by `d`. -/
theorem total_update (hb : balance.Injective) (i : Fin n) (d : BitVec w) :
    total balance (Function.update m (balance i) (m (balance i) + d)) = total balance m + d := by
  have hcomp : (fun j => Function.update m (balance i) (m (balance i) + d) (balance j)) =
      Function.update (m ∘ balance) i ((m ∘ balance) i + d) :=
    Function.update_comp_eq_of_injective m hb i _
  have hsplit := Finset.add_sum_erase Finset.univ (m ∘ balance) (Finset.mem_univ i)
  simp only [total, hcomp]
  rw [Finset.sum_update_of_mem (Finset.mem_univ i), ← Finset.erase_eq]
  simp only [Function.comp] at hsplit ⊢
  rw [← hsplit, add_right_comm]

/-- A transfer keeps the total, also one from an account to itself. -/
theorem total_transfer (hb : balance.Injective) (amount : BitVec w) (src dst : Fin n) :
    total balance ((transfer balance amount src dst).run m) = total balance m := by
  simp only [transfer, AtomicBlock.run, BitVec.merge_allOnes]
  rw [total_update hb, sub_eq_add_neg, total_update hb, neg_add_cancel_right]

theorem loadAll_run (as : List Addr) : (loadAll as : AtomicBlock Addr w).run m = m := by
  induction as with
  | nil => rfl
  | cons a as ih => exact ih

omit [DecidableEq Addr] in
theorem sumLoaded_append (tr tr' : Trace Addr w) :
    sumLoaded (tr ++ tr') = sumLoaded tr + sumLoaded tr' := by
  induction tr with
  | nil => simp [sumLoaded]
  | cons e tr ih =>
    cases e with
    | load a x => simp [sumLoaded, ih, add_assoc]
    | store a v k => exact ih

theorem sumLoaded_loadAll (as : List Addr) :
    sumLoaded ((loadAll as : AtomicBlock Addr w).trace m) = (as.map m).sum := by
  induction as with
  | nil => rfl
  | cons a as ih =>
    simp only [loadAll, AtomicBlock.trace, sumLoaded_append, ih, List.map_cons, List.sum_cons]
    simp [sumLoaded, add_comm]

theorem storeAll_run (as : List Addr) (a : Addr) :
    (storeAll as : AtomicBlock Addr w).run m a = if a ∈ as then 0#w else m a := by
  induction as generalizing m with
  | nil => simp [storeAll, AtomicBlock.run]
  | cons b as ih =>
    simp only [storeAll, AtomicBlock.run, BitVec.merge_allOnes, ih, List.mem_cons]
    by_cases ha : a ∈ as
    · simp [ha]
    · by_cases hab : a = b <;> simp [ha, hab]

theorem total_reset : total balance ((storeAll (List.ofFn balance)).run m) = 0 := by
  simp [total, storeAll_run]

/-- Every transaction of the test keeps a total of 0. -/
theorem total_zero (hb : balance.Injective) (amount : BitVec w) (op : Op n)
    (h : total balance m = 0) : total balance ((block balance amount op).run m) = 0 := by
  cases op with
  | transfer src dst => exact (total_transfer hb amount src dst).trans h
  | total =>
    simp only [block, loadAll_run]
    exact h
  | reset => exact total_reset

/-- What is left of `total` are loads. -/
theorem loadAll_after {as : List Addr} {tr : Trace Addr w} {c : AtomicBlock Addr w}
    (h : (loadAll as).after tr = some c) : ∃ as', c = loadAll as' := by
  induction tr generalizing c with
  | nil => exact ⟨as, (Option.some.inj h).symm⟩
  | cons e tr ih =>
    obtain ⟨d, hd, hstep⟩ := Option.bind_eq_some_iff.1 h
    obtain ⟨as', rfl⟩ := ih hd
    cases as' with
    | nil => cases e <;> cases hstep
    | cons a as' =>
      cases e with
      | store b v k => cases hstep
      | load b x =>
        simp only [loadAll, AtomicBlock.step?, Option.ite_none_right_eq_some,
          Option.some.injEq] at hstep
        exact ⟨as', hstep.2.symm⟩

/-- `total` performs no store. -/
theorem not_performs_loadAll {as : List Addr} {tr : Trace Addr w} {a : Addr} {x k : BitVec w} :
    ¬ (loadAll as).Performs tr (.store a x k) := by
  intro h
  obtain ⟨c, hc⟩ := Option.isSome_iff_exists.1 h
  obtain ⟨d, hd, hstep⟩ := Option.bind_eq_some_iff.1 hc
  obtain ⟨as', rfl⟩ := loadAll_after hd
  cases as' <;> cases hstep

/-- The test gives no transaction up, and the one that it starts read-only stores nothing. -/
theorem suits (balance : Fin n → Addr) (amount : BitVec w) :
    Suits (block balance amount) attr where
  retried op := by
    cases op <;> rfl
  storeless op hro tr a x k := by
    cases op with
    | transfer src dst => cases hro
    | total => exact not_performs_loadAll
    | reset => cases hro

/-- A sum that a transaction has computed. -/
theorem sumLoaded_total {amount : BitVec w} {tr : Trace Addr w}
    (h : (block balance amount .total).Completes tr) (ht : tr.Consistent m) :
    sumLoaded tr = total balance m := by
  rw [h.trace_eq ht, block, sumLoaded_loadAll, List.map_ofFn, List.sum_ofFn]
  rfl

end Bank

variable {Tid Addr Lock : Type} {w n : ℕ} [DecidableEq Tid] [DecidableEq Addr] [DecidableEq Lock]
  {cfg : Config Addr Lock} {m₀ : Mem Addr w} {size : ℕ}
  {U : Pool (State Tid Addr Lock w) Tid}

/-- The accounts of the bank sum up to 0 whenever no lock is held, and every transaction that has
summed them up has found 0, in a build with any of the three designs. -/
theorem bank_total_zero {balance : Fin n → Addr} {amount : BitVec w} (hm : cfg.design ≠ .modular)
    (hb : balance.Injective) (h0 : ∀ i, m₀ (balance i) = 0#w)
    (hU : Run cfg m₀ size (AttrCall (Bank.block balance amount) Bank.attr) U) :
    ((∀ ℓ, ∃ l, U.st.locks ℓ = .free l) → Bank.total balance U.st.mem = 0) ∧
      ∀ c ∈ U.st.commits, (Bank.block balance amount .total).Completes c.trace →
        Bank.sumLoaded c.trace = 0 := by
  have hclient := Run.client_of_attr hm (Bank.suits balance amount) hU
  obtain ⟨⟨m, hexec, hmem⟩, -⟩ := Run.order_executed hclient
  have hstart : Bank.total balance m₀ = 0 := by simp [Bank.total, h0]
  obtain ⟨hm, hall⟩ := hexec.invariant (I := fun m => Bank.total balance m = 0)
    (fun op m h => Bank.total_zero hb amount op h) hstart
  refine ⟨fun hfree => hmem hfree ▸ hm, fun c hc htotal => ?_⟩
  obtain ⟨op, m', -, hm', htrace⟩ := hall c ((History.order_perm _ _).mem_iff.2 hc)
  rw [Bank.sumLoaded_total htotal (htrace ▸ AtomicBlock.trace_consistent _ m')]
  exact hm'

/-- Two transfers that overlap, of which one is aborted and begins anew, and a reader of both
accounts. -/
def bankCalls : List (Fin 3 × Cmd (Fin 2) 8) :=
  [(0, .start (Bank.attr (.transfer 0 1 : Bank.Op 2))), (0, .load 0), (0, .store 0 255),
    (1, .start (Bank.attr (.transfer 1 0 : Bank.Op 2))), (1, .load 1), (1, .store 1 255),
    (0, .load 1), (0, .load 0), (1, .load 0), (1, .store 0 1), (1, .commit),
    (2, .start (Bank.attr (.total : Bank.Op 2))), (2, .load 0), (2, .load 1), (2, .commit)]

set_option maxRecDepth 10000 in
theorem bank_total_zero_overlapping :
    ((∀ ℓ, ∃ l, (after (.plain .writeBackEtl id) 4 40 bankCalls).st.locks ℓ = .free l) →
      Bank.total id (after (.plain .writeBackEtl id) 4 40 bankCalls).st.mem = 0) ∧
    ∀ c ∈ (after (.plain .writeBackEtl id) 4 40 bankCalls).st.commits,
      (Bank.block id 1#8 .total).Completes c.trace → Bank.sumLoaded c.trace = 0 :=
  bank_total_zero (by decide) Function.injective_id (fun _ => rfl) (run_after (by decide))

end TinyStm
