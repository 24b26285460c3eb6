import TinyStm.Conc.Small
import Mathlib.Data.BitVec
import Mathlib.Data.Nat.Bits
import Mathlib.Order.Nat

/-!
# Contention managers

`cm_timestamp` and `cm_karma` of `src/stm.c`, the two contention managers that compare descriptors. A
descriptor is known by its address.
-/

namespace TinyStm

/-- The result of a contention manager: `KILL_SELF`, `KILL_OTHER` and `DELAY_RESTART`. -/
abbrev Decision := BitVec 32

def killSelf : Decision := 0x00#32

def killOther : Decision := 0x01#32

def delayRestart : Decision := 0x04#32

/-- What the contention managers read of a descriptor. The two `nb_entries` are of type
`unsigned int`. -/
structure CmTx (w : ℕ) where
  timestamp : BitVec w
  wSetNbEntries : BitVec 32
  rSetNbEntries : BitVec 32

variable {w : ℕ} (txs : BitVec w → CmTx w)

/-- Oldest transaction has priority. -/
def cmTimestamp (me other : BitVec w) : Decision :=
  if (txs me).timestamp < (txs other).timestamp then killOther
  else if (txs me).timestamp = (txs other).timestamp ∧ me < other then killOther
  else killSelf ||| delayRestart

/-- `me_work` and `other_work`. -/
def karmaWork (tx : CmTx w) : BitVec 32 := (tx.wSetNbEntries <<< 1) + tx.rSetNbEntries

/-- Transaction with more work done has priority. -/
def cmKarma (me other : BitVec w) : Decision :=
  if karmaWork (txs me) < karmaWork (txs other) then killOther
  else if karmaWork (txs me) = karmaWork (txs other) ∧ me < other then killOther
  else killSelf

end TinyStm
