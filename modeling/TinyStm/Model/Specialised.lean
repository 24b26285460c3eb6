import TinyStm.Model.Stm

/-!
# Specialised accesses

The loads and stores of `src/stm_internal.h` for an address that the transaction has read (`RaR`,
`WaR`) or written (`RaW`, `WaW`) before, or will write (`RfW`). They are dispatched by `DESIGN` only.
`junk` is a value that the code does not determine: an uninitialised variable, or the entry that an
assertion requires when there is none.
-/

namespace TinyStm

variable {Tid Addr Lock : Type} {w : ℕ} [DecidableEq Tid] [DecidableEq Addr] [DecidableEq Lock]

/-! ## WRITE_BACK_ETL -/

/-- `stm_wbetl_RaR`. -/
def stmWbetlRaR (cfg : Config Addr Lock) (p : Tid) (addr : Addr) : M Tid Addr Lock w (BitVec w) :=
  stmWbetlReadInvisible cfg p addr

/-- `stm_wbetl_RaW`: the value of the entry that the lock points to, the first of its chain. -/
def stmWbetlRaW (cfg : Config Addr Lock) (p : Tid) (junk : BitVec w) (addr : Addr) :
    M Tid Addr Lock w (BitVec w) := do
  let l ← loadLock (cfg.getLock addr)
  let tx ← getTx p
  match l with
  | .owned q i => pure (if tx.Owns p q i then (tx.wSet.entries[i]?.map (·.value)).getD junk else junk)
  | .free _ => pure junk

/-- `stm_wbetl_RfW`. -/
def stmWbetlRfW (cfg : Config Addr Lock) (p : Tid) (addr : Addr) : M Tid Addr Lock w (BitVec w) := do
  stmWbetlWrite cfg p addr 0#w 0#w
  loadWord addr

/-- `stm_wbetl_WaR`. -/
def stmWbetlWaR (cfg : Config Addr Lock) (p : Tid) (addr : Addr) (value mask : BitVec w) :
    M Tid Addr Lock w Unit :=
  stmWbetlWrite cfg p addr value mask

/-- `stm_wbetl_WaW`: the entry must exist. -/
def stmWbetlWaW (cfg : Config Addr Lock) (p : Tid) (addr : Addr) (value mask : BitVec w) :
    M Tid Addr Lock w Unit := do
  let l ← loadLock (cfg.getLock addr)
  let tx ← getTx p
  match l with
  | .owned q i =>
    if tx.Owns p q i then
      match chainFind tx.wSet.entries addr tx.wSet.entries.length i with
      | .found j e => wbetlMerge p addr value mask j e
      | .last _ _ => pure ()
    else pure ()
  | .free _ => pure ()

/-! ## WRITE_BACK_CTL -/

/-- `stm_wbctl_RaR`, `stm_wbctl_RaW` and `stm_wbctl_RfW`. -/
def stmWbctlRaR (cfg : Config Addr Lock) (p : Tid) (addr : Addr) : M Tid Addr Lock w (BitVec w) :=
  stmWbctlRead cfg p addr

/-- `stm_wbctl_WaR`. -/
def stmWbctlWaR (cfg : Config Addr Lock) (p : Tid) (addr : Addr) (value mask : BitVec w) :
    M Tid Addr Lock w Unit :=
  stmWbctlWrite cfg p addr value mask

/-- `stm_wbctl_WaW`: the entry must exist. -/
def stmWbctlWaW (p : Tid) (addr : Addr) (value mask : BitVec w) : M Tid Addr Lock w Unit := do
  let tx ← getTx p
  match stmHasWritten tx addr with
  | some i => modifyTx p fun tx => { tx with
      wSet := tx.wSet.modify i fun e =>
        { e with value := BitVec.merge e.value value mask, mask := e.mask ||| mask } }
  | none => pure ()

/-! ## WRITE_THROUGH -/

/-- `stm_wt_RaR`. -/
def stmWtRaR (cfg : Config Addr Lock) (p : Tid) (addr : Addr) : M Tid Addr Lock w (BitVec w) :=
  stmWtRead cfg p addr

/-- `stm_wt_RaW`. -/
def stmWtRaW (addr : Addr) : M Tid Addr Lock w (BitVec w) :=
  loadWord addr

/-- `stm_wt_RfW`. -/
def stmWtRfW (cfg : Config Addr Lock) (p : Tid) (addr : Addr) : M Tid Addr Lock w (BitVec w) := do
  stmWtWrite cfg p addr 0#w 0#w
  loadWord addr

/-- `stm_wt_WaR`. -/
def stmWtWaR (cfg : Config Addr Lock) (p : Tid) (addr : Addr) (value mask : BitVec w) :
    M Tid Addr Lock w Unit :=
  stmWtWrite cfg p addr value mask

/-- `stm_wt_WaW`. -/
def stmWtWaW (addr : Addr) (value mask : BitVec w) : M Tid Addr Lock w Unit :=
  wtStore addr value mask

/-! ## Dispatch -/

/-- `int_stm_RaR`. -/
def intStmRaR (cfg : Config Addr Lock) (p : Tid) (junk : BitVec w) (addr : Addr) :
    M Tid Addr Lock w (BitVec w) :=
  match cfg.design with
  | .writeBackEtl => stmWbetlRaR cfg p addr
  | .writeBackCtl => stmWbctlRaR cfg p addr
  | .writeThrough => stmWtRaR cfg p addr
  | .modular => pure junk

/-- `int_stm_RaW`. -/
def intStmRaW (cfg : Config Addr Lock) (p : Tid) (junk : BitVec w) (addr : Addr) :
    M Tid Addr Lock w (BitVec w) :=
  match cfg.design with
  | .writeBackEtl => stmWbetlRaW cfg p junk addr
  | .writeBackCtl => stmWbctlRaR cfg p addr
  | .writeThrough => stmWtRaW addr
  | .modular => pure junk

/-- `int_stm_RfW`. -/
def intStmRfW (cfg : Config Addr Lock) (p : Tid) (junk : BitVec w) (addr : Addr) :
    M Tid Addr Lock w (BitVec w) :=
  match cfg.design with
  | .writeBackEtl => stmWbetlRfW cfg p addr
  | .writeBackCtl => stmWbctlRaR cfg p addr
  | .writeThrough => stmWtRfW cfg p addr
  | .modular => pure junk

/-- `int_stm_WaR`. -/
def intStmWaR (cfg : Config Addr Lock) (p : Tid) (addr : Addr) (value mask : BitVec w) :
    M Tid Addr Lock w Unit :=
  match cfg.design with
  | .writeBackEtl => stmWbetlWaR cfg p addr value mask
  | .writeBackCtl => stmWbctlWaR cfg p addr value mask
  | .writeThrough => stmWtWaR cfg p addr value mask
  | .modular => pure ()

/-- `int_stm_WaW`. -/
def intStmWaW (cfg : Config Addr Lock) (p : Tid) (addr : Addr) (value mask : BitVec w) :
    M Tid Addr Lock w Unit :=
  match cfg.design with
  | .writeBackEtl => stmWbetlWaW cfg p addr value mask
  | .writeBackCtl => stmWbctlWaW p addr value mask
  | .writeThrough => stmWtWaW addr value mask
  | .modular => pure ()

end TinyStm
