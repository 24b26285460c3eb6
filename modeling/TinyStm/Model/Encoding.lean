import TinyStm.Model.Types

/-!
# The encoding of lock words

The `LOCK_*` macros of `src/stm_internal.h` on words of `w` bits, for both numbers of owned bits: 2 with
`CM == CM_MODULAR`, and 1 otherwise. Elsewhere the words are numbers, with one owned bit.
-/

namespace TinyStm.Encoding

variable {w : ℕ} (modular : Bool)

/-- `OWNED_BITS`. -/
def ownedBits : ℕ := if modular then 2 else 1

/-- `WRITE_MASK`. -/
def writeMask : BitVec w := 0x01#w

/-- `READ_MASK`. -/
def readMask : BitVec w := 0x02#w

/-- `OWNED_MASK`. -/
def ownedMask : BitVec w := if modular then writeMask ||| readMask else writeMask

/-- `INCARNATION_MASK`. -/
def incarnationMask : BitVec w := BitVec.ofNat w (incarnationMax <<< 1)

/-- `LOCK_BITS`. -/
def lockBits : ℕ := ownedBits modular + incarnationBits

/-- `MAX_THREADS`, as a word. -/
def maxThreads : BitVec w := BitVec.ofNat w TinyStm.maxThreads

/-- `VERSION_MAX`. -/
def versionMax : BitVec w := (~~~0#w >>> lockBits modular) - maxThreads

/-- `LOCK_GET_OWNED`. -/
def lockGetOwned (l : BitVec w) : BitVec w := l &&& ownedMask modular

/-- `LOCK_GET_WRITE`. -/
def lockGetWrite (l : BitVec w) : BitVec w := l &&& writeMask

/-- `LOCK_SET_ADDR_WRITE`. -/
def lockSetAddrWrite (a : BitVec w) : BitVec w := a ||| writeMask

/-- `LOCK_GET_ADDR`. -/
def lockGetAddr (l : BitVec w) : BitVec w := l &&& ~~~ownedMask modular

/-- `LOCK_GET_READ`. -/
def lockGetRead (l : BitVec w) : BitVec w := l &&& readMask

/-- `LOCK_SET_ADDR_READ`. -/
def lockSetAddrRead (a : BitVec w) : BitVec w := a ||| readMask

/-- `LOCK_UPGRADE`. -/
def lockUpgrade (l : BitVec w) : BitVec w := l ||| writeMask

/-- `LOCK_GET_TIMESTAMP`. -/
def lockGetTimestamp (l : BitVec w) : BitVec w := l >>> lockBits modular

/-- `LOCK_SET_TIMESTAMP`. -/
def lockSetTimestamp (t : BitVec w) : BitVec w := t <<< lockBits modular

/-- `LOCK_GET_INCARNATION`. -/
def lockGetIncarnation (l : BitVec w) : BitVec w := (l &&& incarnationMask) >>> ownedBits modular

/-- `LOCK_SET_INCARNATION`. -/
def lockSetIncarnation (i : BitVec w) : BitVec w := i <<< ownedBits modular

/-- `LOCK_UPD_INCARNATION`. -/
def lockUpdIncarnation (l i : BitVec w) : BitVec w :=
  (l &&& ~~~(incarnationMask ||| ownedMask modular)) ||| lockSetIncarnation modular i

/-- `LOCK_UNIT`. -/
def lockUnit : BitVec w := ~~~0#w

end TinyStm.Encoding
