import Mathlib.Data.Prod.Lex
import TinyStm.Model.Contention

/-!
# Which transaction has priority

Both contention managers that compare descriptors order them strictly and totally, by a rank and
then by address. The rank of `cm_karma` is the work done, and the lesser rank wins. `cm_timestamp`
compares timestamps, where the smaller one wins; `cm_karma` compares the accesses made, and kills
the other transaction where that one has done more. So what its comment says holds of the opposite
order.
-/

namespace TinyStm

variable {w : ℕ} (txs : BitVec w → CmTx w)

/-- In the set `S`, the first of two descriptors decides to kill the second. -/
def Kills (cm : BitVec w → BitVec w → Decision) (S : Finset (BitVec w)) (a b : S) : Prop :=
  cm a b = killOther

/-- The manager kills the other transaction when its own has the lesser rank, or the same rank and the
lesser address. -/
def KillsByRank (cm : BitVec w → BitVec w → Decision) (rank : BitVec w → ℕ) : Prop :=
  ∀ me other, cm me other = killOther ↔
    rank me < rank other ∨ rank me = rank other ∧ me < other

/-- A manager that decides by rank and address orders every set of descriptors. -/
theorem KillsByRank.strictTotal {cm : BitVec w → BitVec w → Decision} {rank : BitVec w → ℕ}
    (h : KillsByRank cm rank) (S : Finset (BitVec w)) : IsStrictTotalOrder S (Kills cm S) := by
  let key : S → ℕ ×ₗ ℕ := fun a => toLex (rank a, a.1.toNat)
  have hkey : ∀ a b : S, Kills cm S a b ↔ key a < key b := fun a b => by
    rw [Kills, h, Prod.Lex.toLex_lt_toLex, BitVec.lt_def]
  have hinj : Function.Injective key := fun a b hab =>
    Subtype.ext (BitVec.eq_of_toNat_eq (congrArg (fun x => (ofLex x).2) hab))
  exact
    { trichotomous := fun a b hab hba => by
        rw [hkey] at hab hba
        exact hinj (le_antisymm (not_lt.1 hba) (not_lt.1 hab))
      irrefl := fun a ha => lt_irrefl _ ((hkey a a).1 ha)
      trans := fun a b c hab hbc =>
        (hkey a c).2 (lt_trans ((hkey a b).1 hab) ((hkey b c).1 hbc)) }

theorem cmTimestamp_rank : KillsByRank (cmTimestamp txs) fun a => (txs a).timestamp.toNat := by
  intro me other
  rw [cmTimestamp, ← BitVec.lt_def, BitVec.toNat_inj]
  split
  · simp [*]
  · split
    · simp [*]
    · simp only [*, or_self, iff_false]
      decide

/-- The work done, as documented. -/
def workDone (tx : CmTx w) : ℕ := 2 * tx.wSetNbEntries.toNat + tx.rSetNbEntries.toNat

/-- The work that `cm_karma` compares wraps around. -/
theorem karmaWork_toNat (tx : CmTx w) : (karmaWork tx).toNat = workDone tx % 2 ^ 32 := by
  rw [karmaWork, BitVec.toNat_add, BitVec.toNat_shiftLeft, Nat.shiftLeft_eq, workDone]
  omega

theorem cmKarma_rank : KillsByRank (cmKarma txs) fun a => workDone (txs a) % 2 ^ 32 := by
  intro me other
  dsimp only
  rw [cmKarma, ← karmaWork_toNat, ← karmaWork_toNat, ← BitVec.lt_def, BitVec.toNat_inj]
  split
  · simp [*]
  · split
    · simp [*]
    · simp only [*, or_self, iff_false]
      decide

/-- Both managers order the descriptors of `S` strictly and totally; of two with different timestamps
the one with the lesser wins, and of two that have done different amounts of work the one that has done
more. -/
def Consistent (S : Finset (BitVec w)) : Prop :=
  (IsStrictTotalOrder S (Kills (cmTimestamp txs) S) ∧
    ∀ a b : S, (txs a).timestamp < (txs b).timestamp → Kills (cmTimestamp txs) S a b) ∧
  IsStrictTotalOrder S (Kills (cmKarma txs) S) ∧
    ∀ a b : S, workDone (txs b) < workDone (txs a) → Kills (cmKarma txs) S a b

/-- The managers are consistent on a set of descriptors exactly when all have done the same work, but
for those whose work has wrapped around to less than the others'. -/
theorem consistent_iff (S : Finset (BitVec w)) : Consistent txs S ↔
    ∀ a ∈ S, ∀ b ∈ S, workDone (txs b) < workDone (txs a) →
      workDone (txs a) % 2 ^ 32 < workDone (txs b) % 2 ^ 32 ∨
      workDone (txs a) % 2 ^ 32 = workDone (txs b) % 2 ^ 32 ∧ a < b := by
  constructor
  · intro h a ha b hb hlt
    exact (cmKarma_rank txs a b).1 (h.2.2 ⟨a, ha⟩ ⟨b, hb⟩ hlt)
  · intro h
    refine ⟨⟨(cmTimestamp_rank txs).strictTotal S, fun a b hlt => ?_⟩,
      (cmKarma_rank txs).strictTotal S, fun a b hlt => ?_⟩
    · exact (cmTimestamp_rank txs a b).2 (.inl (BitVec.lt_def.1 hlt))
    · exact (cmKarma_rank txs a b).2 (h a a.2 b b.2 hlt)

/-- The descriptor at address 1 has read one location and the others nothing. -/
def oneReader (a : BitVec 64) : CmTx 64 := ⟨0#64, 0#32, if a = 1#64 then 1#32 else 0#32⟩

/-- A transaction that has read a location is killed by one that has done nothing. -/
theorem not_consistent_oneReader : ¬ Consistent oneReader {1#64, 2#64} := by
  intro h
  have h12 : cmKarma oneReader 1#64 2#64 = killOther :=
    h.2.2 ⟨1#64, by decide⟩ ⟨2#64, by decide⟩ (by decide)
  revert h12
  decide

end TinyStm
