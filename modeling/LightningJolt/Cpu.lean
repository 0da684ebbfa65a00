/-
The processor state (`tracer/src/emulator/cpu.rs`) in 64-bit mode: the
register file with its virtual registers, the LR/SC reservation, the advice
tape and the control and status registers.
-/
import LightningJolt.Mmu

namespace LightningJolt

/-! ## Registers -/

/-- The register file: 32 architectural registers, then the virtual ones.
Register 0 reads as zero; `write_register` never stores to it. -/
structure Registers where
  read : Nat → U64
  zero : read 0 = 0

namespace Registers

/-- `Cpu::write_register`. -/
def write (x : Registers) (reg : Nat) (value : U64) : Registers where
  read r := if r = reg ∧ r ≠ 0 then value else x.read r
  zero := by simp [x.zero]

/-- All registers zero, as in `Cpu::new`. -/
def initial : Registers where
  read _ := 0
  zero := rfl

@[simp] theorem read_zero (x : Registers) : x.read 0 = 0 := x.zero

@[simp] theorem write_zero (x : Registers) (v : U64) : x.write 0 v = x := by
  cases x
  simp only [write, Registers.mk.injEq]
  funext r
  by_cases h : r = 0 <;> simp_all

theorem read_write (x : Registers) (a b : Nat) (v : U64) :
    (x.write a v).read b = if b = a ∧ b ≠ 0 then v else x.read b := rfl

@[simp] theorem read_write_self (x : Registers) {a : Nat} (v : U64) (ha : a ≠ 0) :
    (x.write a v).read a = v := by simp [read_write, ha]

theorem read_write_ne (x : Registers) {a b : Nat} (v : U64) (hab : b ≠ a) :
    (x.write a v).read b = x.read b := by simp [read_write, hab]

@[ext] theorem ext {x y : Registers} (h : ∀ r, x.read r = y.read r) : x = y := by
  cases x
  cases y
  simp only [Registers.mk.injEq]
  exact funext h

end Registers

/-! ## The reservation and the advice tape -/

inductive ReservationWidth
  | word
  | doubleword
deriving DecidableEq

structure AdviceTape where
  data : List U8
  readPosition : Nat

namespace AdviceTape

def write (t : AdviceTape) (bytes : List U8) : AdviceTape := { t with data := t.data ++ bytes }

/-- `AdviceTape::read`: `numBytes` bytes, little-endian, or `none` past the end. -/
def read (t : AdviceTape) (numBytes : Nat) : Option (U64 × AdviceTape) :=
  if t.readPosition + numBytes > t.data.length then .none
  else .some (fromLeBytes ((t.data.drop t.readPosition).take numBytes),
    { t with readPosition := t.readPosition + numBytes })

def remaining (t : AdviceTape) : Nat := t.data.length - t.readPosition

end AdviceTape

/-! ## The processor -/

inductive PrivilegeMode
  | user
  | supervisor
  | reserved
  | machine
deriving DecidableEq

structure Cpu where
  x : Registers
  pc : U64
  mmu : Mmu
  reservation : U64
  isReservationSet : Bool
  reservationWidth : ReservationWidth
  adviceTape : AdviceTape
  csr : Nat → U64
  privilegeMode : PrivilegeMode
  wfi : Bool
  clock : U64

/-- A computation of the emulator, `none` on a panic. -/
abbrev CpuM := StateT Cpu Option

namespace Cpu

def writeRegister (cpu : Cpu) (reg : Nat) (value : U64) : Cpu :=
  { cpu with x := cpu.x.write reg value }

def setReservation (cpu : Cpu) (address : U64) (width : ReservationWidth) : Cpu :=
  { cpu with reservation := address, isReservationSet := true, reservationWidth := width }

def clearReservation (cpu : Cpu) : Cpu := { cpu with isReservationSet := false }

def hasReservation (cpu : Cpu) (address : U64) (width : ReservationWidth) : Bool :=
  cpu.isReservationSet && cpu.reservation == address && cpu.reservationWidth == width

/-- `Cpu::new`. The one control register set is `misa`. -/
def new : Cpu where
  x := .initial
  pc := 0
  mmu := .new
  reservation := 0
  isReservationSet := false
  reservationWidth := .word
  adviceTape := { data := [], readPosition := 0 }
  csr address := if address = 0x301 then 0x800000008014312f else 0
  privilegeMode := .machine
  wfi := false
  clock := 0

/-- A computation on the memory management unit, run in the processor. -/
def onMmu {α} (x : MmuM α) : CpuM α := fun cpu => do
  let (a, mmu) ← x cpu.mmu
  pure (a, { cpu with mmu := mmu })

variable (cpu : Cpu) (reg : Nat) (value : U64)

@[simp] theorem writeRegister_x : (cpu.writeRegister reg value).x = cpu.x.write reg value := rfl
@[simp] theorem writeRegister_pc : (cpu.writeRegister reg value).pc = cpu.pc := rfl
@[simp] theorem writeRegister_mmu : (cpu.writeRegister reg value).mmu = cpu.mmu := rfl
@[simp] theorem writeRegister_adviceTape :
    (cpu.writeRegister reg value).adviceTape = cpu.adviceTape := rfl
@[simp] theorem writeRegister_reservation :
    (cpu.writeRegister reg value).reservation = cpu.reservation := rfl
@[simp] theorem writeRegister_isReservationSet :
    (cpu.writeRegister reg value).isReservationSet = cpu.isReservationSet := rfl
@[simp] theorem writeRegister_reservationWidth :
    (cpu.writeRegister reg value).reservationWidth = cpu.reservationWidth := rfl
@[simp] theorem writeRegister_csr : (cpu.writeRegister reg value).csr = cpu.csr := rfl
@[simp] theorem writeRegister_zero : cpu.writeRegister 0 value = cpu := by
  simp [writeRegister]

end Cpu

end LightningJolt
