/-
Control and status registers, traps and interrupts of the processor
(`tracer/src/emulator/cpu.rs`). Of the trap types, those that the modelled
code raises: environment calls and the interrupts `handle_interrupt` looks
for.
-/
import LightningJolt.Cpu

namespace LightningJolt

/-! ## Register addresses -/

def csrUstatusAddress : Nat := 0x000
def csrFflagsAddress : Nat := 0x001
def csrFrmAddress : Nat := 0x002
def csrFcsrAddress : Nat := 0x003
def csrUieAddress : Nat := 0x004
def csrUtvecAddress : Nat := 0x005
def csrUepcAddress : Nat := 0x041
def csrUcauseAddress : Nat := 0x042
def csrUtvalAddress : Nat := 0x043
def csrSstatusAddress : Nat := 0x100
def csrSedelegAddress : Nat := 0x102
def csrSidelegAddress : Nat := 0x103
def csrSieAddress : Nat := 0x104
def csrStvecAddress : Nat := 0x105
def csrSepcAddress : Nat := 0x141
def csrScauseAddress : Nat := 0x142
def csrStvalAddress : Nat := 0x143
def csrSipAddress : Nat := 0x144
def csrMstatusAddress : Nat := 0x300
def csrMedelegAddress : Nat := 0x302
def csrMidelegAddress : Nat := 0x303
def csrMieAddress : Nat := 0x304
def csrMtvecAddress : Nat := 0x305
def csrMepcAddress : Nat := 0x341
def csrMcauseAddress : Nat := 0x342
def csrMtvalAddress : Nat := 0x343
def csrMipAddress : Nat := 0x344
def csrCycleAddress : Nat := 0xc00
def csrTimeAddress : Nat := 0xc01

inductive TrapType
  | environmentCallFromUMode
  | environmentCallFromSMode
  | environmentCallFromMMode
  | machineExternalInterrupt
  | machineSoftwareInterrupt
  | machineTimerInterrupt
  | supervisorExternalInterrupt
  | supervisorSoftwareInterrupt
  | supervisorTimerInterrupt
deriving DecidableEq

/-- `get_trap_cause` in 64-bit mode. -/
def TrapType.cause : TrapType → U64
  | .environmentCallFromUMode => 8
  | .environmentCallFromSMode => 9
  | .environmentCallFromMMode => 11
  | .supervisorSoftwareInterrupt => 0x8000000000000001
  | .machineSoftwareInterrupt => 0x8000000000000003
  | .supervisorTimerInterrupt => 0x8000000000000005
  | .machineTimerInterrupt => 0x8000000000000007
  | .supervisorExternalInterrupt => 0x8000000000000009
  | .machineExternalInterrupt => 0x800000000000000b

/-- The bit of the `xie` register that enables the interrupt. -/
def TrapType.enableBit : TrapType → Option Nat
  | .supervisorSoftwareInterrupt => .some 1
  | .machineSoftwareInterrupt => .some 3
  | .supervisorTimerInterrupt => .some 5
  | .machineTimerInterrupt => .some 7
  | .supervisorExternalInterrupt => .some 9
  | .machineExternalInterrupt => .some 11
  | _ => .none

/-- `get_privilege_encoding`. -/
def PrivilegeMode.encoding : PrivilegeMode → Option Nat
  | .user => .some 0
  | .supervisor => .some 1
  | .reserved => .none
  | .machine => .some 3

namespace Cpu

/-- `read_csr_raw`: SSTATUS, SIE and SIP are views of the machine registers,
and the clock is not supported. -/
def readCsrRaw (cpu : Cpu) (address : Nat) : Option U64 :=
  if address = csrFflagsAddress then .some (cpu.csr csrFcsrAddress &&& 0x1f)
  else if address = csrFrmAddress then .some ((cpu.csr csrFcsrAddress >>> 5) &&& 0x7)
  else if address = csrSstatusAddress then .some (cpu.csr csrMstatusAddress &&& 0x80000003000de162)
  else if address = csrSieAddress then .some (cpu.csr csrMieAddress &&& 0x222)
  else if address = csrSipAddress then .some (cpu.csr csrMipAddress &&& 0x222)
  else if address = csrTimeAddress then .none
  else .some (cpu.csr address)

/-- A control register overwritten. -/
def setCsr (cpu : Cpu) (address : Nat) (value : U64) : Cpu :=
  { cpu with csr := Function.update cpu.csr address value }

/-- The bits of `mask` of a control register overwritten. -/
def setCsrBits (cpu : Cpu) (address : Nat) (mask value : U64) : Cpu :=
  cpu.setCsr address ((cpu.csr address &&& ~~~mask) ||| (value &&& mask))

/-- `write_csr_raw`. -/
def writeCsrRaw (cpu : Cpu) (address : Nat) (value : U64) : Option Cpu :=
  if address = csrFflagsAddress then .some (cpu.setCsrBits csrFcsrAddress 0x1f value)
  else if address = csrFrmAddress then .some (cpu.setCsrBits csrFcsrAddress 0xe0 (value <<< 5))
  else if address = csrSstatusAddress then
    .some (cpu.setCsrBits csrMstatusAddress 0x80000003000de162 value)
  else if address = csrSieAddress then .some (cpu.setCsrBits csrMieAddress 0x222 value)
  else if address = csrSipAddress then .some (cpu.setCsrBits csrMipAddress 0x222 value)
  else if address = csrMidelegAddress then .some (cpu.setCsr address (value &&& 0x666))
  else if address = csrTimeAddress then .none
  else .some (cpu.setCsr address value)

/-! ## Traps -/

/-- The mode that handles a trap of this cause. -/
def newPrivilegeMode (cpu : Cpu) (cause : U64) (isInterrupt : Bool) : PrivilegeMode :=
  let mdeleg := cpu.csr (if isInterrupt then csrMidelegAddress else csrMedelegAddress)
  let sdeleg := cpu.csr (if isInterrupt then csrSidelegAddress else csrSedelegAddress)
  let pos := (cause &&& 0xffff).toNat
  if (mdeleg >>> pos) &&& 1 = 0 then .machine
  else if (sdeleg >>> pos) &&& 1 = 0 then .supervisor
  else .user

/-- Whether an interrupt is taken: not by a lower mode, by the same one only
if its `xstatus` enables interrupts, and only if its `xie` enables this one. -/
def interruptEnabled (cpu : Cpu) (t : TrapType) (newMode : PrivilegeMode) : Option Bool := do
  let current ← cpu.privilegeMode.encoding
  let new ← newMode.encoding
  let (statusAddress, statusBit) ← match cpu.privilegeMode with
    | .machine => .some (csrMstatusAddress, 3)
    | .supervisor => .some (csrSstatusAddress, 1)
    | .user => .some (csrUstatusAddress, 0)
    | .reserved => .none
  let status ← cpu.readCsrRaw statusAddress
  let ie ← match newMode with
    | .machine => cpu.readCsrRaw csrMieAddress
    | .supervisor => cpu.readCsrRaw csrSieAddress
    | .user => cpu.readCsrRaw csrUieAddress
    | .reserved => .none
  if new < current then pure false
  else if current = new ∧ (status >>> statusBit) &&& 1 = 0 then pure false
  else match t.enableBit with
    | .some b => pure ((ie >>> b) &&& 1 != 0)
    | .none => pure true

/-- The machine status a trap leaves: MIE goes to MPIE, the mode to MPP. -/
def machineTrapStatus (status current : U64) : U64 :=
  (status &&& ~~~(0x1888 : U64)) ||| (((status >>> 3) &&& 1) <<< 7) ||| (current <<< 11)

/-- The supervisor status a trap leaves: SIE goes to SPIE, the mode to SPP. -/
def supervisorTrapStatus (status current : U64) : U64 :=
  (status &&& ~~~(0x122 : U64)) ||| (((status >>> 1) &&& 1) <<< 5) ||| ((current &&& 1) <<< 8)

/-- The part of `handle_trap` that takes the trap in `newMode`. -/
def takeTrap (t : TrapType) (value instructionAddress : U64) (newMode : PrivilegeMode) :
    CpuM Unit := fun cpu => do
  let current ← cpu.privilegeMode.encoding
  let (epc, causeAddress, tval, tvec) ← match newMode with
    | .machine => .some (csrMepcAddress, csrMcauseAddress, csrMtvalAddress, csrMtvecAddress)
    | .supervisor => .some (csrSepcAddress, csrScauseAddress, csrStvalAddress, csrStvecAddress)
    | .user => .some (csrUepcAddress, csrUcauseAddress, csrUtvalAddress, csrUtvecAddress)
    | .reserved => .none
  let cpu := { cpu with privilegeMode := newMode }
  let cpu ← cpu.writeCsrRaw epc instructionAddress
  let cpu ← cpu.writeCsrRaw causeAddress t.cause
  let cpu ← cpu.writeCsrRaw tval value
  let pc ← cpu.readCsrRaw tvec
  -- A vectored `tvec` adds four times the cause.
  let pc := if pc &&& 3 ≠ 0 then (pc &&& ~~~(3 : U64)) + 4 * (t.cause &&& 0xffff) else pc
  let cpu := { cpu with pc := pc }
  let current := BitVec.ofNat 64 current
  match newMode with
  | .machine =>
    let status ← cpu.readCsrRaw csrMstatusAddress
    let cpu ← cpu.writeCsrRaw csrMstatusAddress (machineTrapStatus status current)
    pure ((), cpu)
  | .supervisor =>
    let status ← cpu.readCsrRaw csrSstatusAddress
    let cpu ← cpu.writeCsrRaw csrSstatusAddress (supervisorTrapStatus status current)
    pure ((), cpu)
  | _ => .none

/-- `handle_trap`: whether the trap was taken. -/
def handleTrap (t : TrapType) (value instructionAddress : U64) (isInterrupt : Bool) :
    CpuM Bool := do
  let cpu ← get
  let newMode := cpu.newPrivilegeMode t.cause isInterrupt
  let enabled ← if isInterrupt then StateT.lift (cpu.interruptEnabled t newMode) else pure true
  if enabled then
    takeTrap t value instructionAddress newMode
    pure true
  else pure false

/-- The interrupts `handle_interrupt` tries in turn, with their `mip` bits. -/
def interruptOrder : List (U64 × TrapType) :=
  [(0x800, .machineExternalInterrupt), (0x008, .machineSoftwareInterrupt),
   (0x080, .machineTimerInterrupt), (0x200, .supervisorExternalInterrupt),
   (0x002, .supervisorSoftwareInterrupt), (0x020, .supervisorTimerInterrupt)]

/-- The branches of `handle_interrupt`: the first pending interrupt that is
taken clears its bit and wakes the processor. -/
def tryInterrupts (minterrupt instructionAddress : U64) : List (U64 × TrapType) → CpuM Unit
  | [] => pure ()
  | (bit, t) :: rest => do
    if minterrupt &&& bit ≠ 0 then
      let pc := (← get).pc
      if ← handleTrap t pc instructionAddress true then
        modify fun cpu => { cpu.setCsr csrMipAddress (cpu.csr csrMipAddress &&& ~~~bit) with wfi := false }
      else tryInterrupts minterrupt instructionAddress rest
    else tryInterrupts minterrupt instructionAddress rest

/-- `handle_interrupt`. -/
def handleInterrupt (instructionAddress : U64) : CpuM Unit := do
  let cpu ← get
  tryInterrupts (cpu.csr csrMipAddress &&& cpu.csr csrMieAddress) instructionAddress interruptOrder

end Cpu

end LightningJolt
