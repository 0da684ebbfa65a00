/-
RAM by bytes: the bytes of a doubleword, of its fields and of a field
blended into it, and what the accesses of `Memory` come to.
-/
import LightningJolt.Memory
import LightningJolt.Fallible

namespace LightningJolt

open Fallible

/-! ## Bytes of a value -/

section Values

variable {d v w mask : U64} {i j k n : Nat}

theorem getLsbD_leByte (v : U64) (i : Nat) {b : Nat} (hb : b < 8) :
    (leByte v i).getLsbD b = v.getLsbD (8 * i + b) := by
  simp [leByte, hb]

theorem eq_of_leByte (h : ∀ i < 8, leByte v i = leByte w i) : v = w := by
  refine BitVec.eq_of_getLsbD_eq fun b hb => ?_
  have hbyte := congrArg (fun x => x.getLsbD (b % 8)) (h (b / 8) (by omega))
  simp only [getLsbD_leByte _ _ (show b % 8 < 8 by omega)] at hbyte
  rwa [Nat.div_add_mod] at hbyte

theorem leByte_fromLeBytes (bs : List U8) {i : Nat} (hi : i < 8) :
    leByte (fromLeBytes bs) i = bs.getD i 0 := by
  induction bs generalizing i with
  | nil =>
    refine BitVec.eq_of_getLsbD_eq fun b hb => ?_
    rw [getLsbD_leByte _ _ hb]
    simp [fromLeBytes]
  | cons byte bs ih =>
    refine BitVec.eq_of_getLsbD_eq fun b hb => ?_
    have hcons : fromLeBytes (byte :: bs) = fromLeBytes bs <<< 8 ||| byte.setWidth 64 := rfl
    rw [getLsbD_leByte _ _ hb, hcons, BitVec.getLsbD_or, BitVec.getLsbD_shiftLeft,
      BitVec.getLsbD_setWidth]
    cases i with
    | zero => simp [hb, show b < 64 by omega]
    | succ i =>
      have htail := congrArg (fun x => x.getLsbD b) (ih (show i < 8 by omega))
      simp only [getLsbD_leByte _ _ hb] at htail
      rw [List.getD_cons_succ, ← htail, show 8 * (i + 1) + b - 8 = 8 * i + b by omega]
      simp [show 8 * (i + 1) + b < 64 by omega, show ¬ 8 * (i + 1) + b < 8 by omega,
        BitVec.getLsbD_of_ge byte (8 * (i + 1) + b) (by omega)]

/-- The field of `n` bytes from byte `k` up. -/
theorem leByte_field {m : Nat} (hm : m = 8 * n) (hi : i < n) (hk : k + n ≤ 8) :
    leByte (((d >>> (8 * k)).setWidth m).setWidth 64) i = leByte d (k + i) := by
  refine BitVec.eq_of_getLsbD_eq fun b hb => ?_
  rw [getLsbD_leByte _ _ hb, getLsbD_leByte _ _ hb, BitVec.getLsbD_setWidth, BitVec.getLsbD_setWidth,
    BitVec.getLsbD_ushiftRight, show 8 * k + (8 * i + b) = 8 * (k + i) + b by omega]
  simp [show 8 * i + b < 64 by omega, show 8 * i + b < m by omega]

/-- A field is the bytes it has. -/
theorem eq_field {m : Nat} {x : BitVec m} (hm : m = 8 * n) (hk : k + n ≤ 8)
    (h : ∀ i < n, leByte (x.setWidth 64) i = leByte d (k + i)) : x = (d >>> (8 * k)).setWidth m := by
  refine BitVec.eq_of_getLsbD_eq fun b hb => ?_
  have hbyte := congrArg (fun y => y.getLsbD (b % 8)) (h (b / 8) (by omega))
  simp only [getLsbD_leByte _ _ (show b % 8 < 8 by omega), BitVec.getLsbD_setWidth,
    Nat.div_add_mod] at hbyte
  rw [BitVec.getLsbD_setWidth, BitVec.getLsbD_ushiftRight,
    show 8 * k + b = 8 * (k + b / 8) + b % 8 by omega, ← hbyte]
  simp [hb, show b < 64 by omega]

theorem blend_doubleword : Memory.blend d (-1) v 0 = v := by
  simp [Memory.blend]

end Values

/-! ## RAM -/

namespace MemoryData

/-- The same doublewords; the recorded first accesses may differ. -/
instance setoid : Setoid MemoryData where
  r m m' := m.memory = m'.memory ∧ m.numDoublewords = m'.numDoublewords
  iseqv := {
    refl := fun _ => ⟨rfl, rfl⟩
    symm := fun h => ⟨h.1.symm, h.2.symm⟩
    trans := fun h h' => ⟨h.1.trans h'.1, h.2.trans h'.2⟩ }

/-- The offset lies within the memory. -/
def Covers (m : MemoryData) (address : Nat) : Prop := address / 8 < m.numDoublewords

/-- The memory with the doubleword at an offset replaced. -/
def put (m : MemoryData) (address : Nat) (d : U64) : MemoryData :=
  { m with memory := Function.update m.memory (address / 8) d }

/-- The doubleword around an offset. -/
def dword (m : MemoryData) (address : Nat) : U64 := m.memory (address / 8)

def byte (m : MemoryData) (address : Nat) : U8 := leByte (m.dword address) (address % 8)

theorem accessU64_reads (address : Nat) :
    Reads (accessU64 (address / 8)) (·.Covers address) (·.dword address) where
  run m hm := ⟨m.record (address / 8), if_pos hm, ⟨rfl, rfl⟩⟩
  fail m hm := if_neg hm
  ok_congr m m' h := by rw [Covers, Covers, h.2]
  val_congr m m' h _ := by rw [dword, dword, h.1]
  upd_congr _ _ h _ := h

theorem assignU64_acts (address : Nat) (d : U64) :
    Acts (assignU64 (address / 8) d) (·.Covers address) (fun _ => ⟨⟩) (·.put address d) where
  run m hm := ⟨_, if_pos hm, ⟨rfl, rfl⟩⟩
  fail m hm := if_neg hm
  ok_congr m m' h := by rw [Covers, Covers, h.2]
  val_congr _ _ _ _ := rfl
  upd_congr m m' h _ := by
    refine ⟨?_, h.2⟩
    rw [put, put, h.1]

/-- A read and a write of one doubleword. -/
theorem modify_acts (address : Nat) (f : U64 → U64) :
    Acts (accessU64 (address / 8) >>= fun d => assignU64 (address / 8) (f d)) (·.Covers address)
      (fun _ => ⟨⟩) fun m => m.put address (f (m.dword address)) :=
  ((accessU64_reads address).bind fun d => assignU64_acts address (f d)).congr
    (fun _ => and_self_iff) (fun _ _ => rfl) fun _ _ => Setoid.refl _

end MemoryData

namespace Memory

open MemoryData

variable {address : Nat}

theorem readByte_reads (address : Nat) :
    Reads (readByte address) (·.Covers address) (·.byte address) :=
  ((accessU64_reads address).bind fun _ => Acts.pure _).congr (fun _ => and_iff_left trivial)
    (fun _ _ => rfl) fun _ _ => Setoid.refl _

theorem readHalfword_reads (h : address % 2 = 0) :
    Reads (readHalfword address) (·.Covers address)
      fun m => (m.dword address >>> (8 * (address % 8))).setWidth 16 := by
  rw [readHalfword, if_pos h]
  exact ((accessU64_reads address).bind fun d => Acts.pure _).congr (fun _ => and_iff_left trivial)
    (fun _ _ => rfl) fun _ _ => Setoid.refl _

theorem readWord_reads (h : address % 4 = 0) :
    Reads (readWord address) (·.Covers address)
      fun m => (m.dword address >>> (8 * (address % 8))).setWidth 32 := by
  rw [readWord, if_pos h]
  exact ((accessU64_reads address).bind fun d => Acts.pure _).congr (fun _ => and_iff_left trivial)
    (fun _ _ => rfl) fun _ _ => Setoid.refl _

theorem readDoubleword_reads (h : address % 8 = 0) :
    Reads (readDoubleword address) (·.Covers address) (·.dword address) := by
  rw [readDoubleword, if_pos h]
  exact accessU64_reads address

theorem writeByte_acts (address : Nat) (value : U8) :
    Acts (writeByte address value) (·.Covers address) (fun _ => ⟨⟩) fun m =>
      m.put address (blend (m.dword address) 0xff (value.setWidth 64) (8 * (address % 8))) :=
  modify_acts address fun d => blend d 0xff (value.setWidth 64) (8 * (address % 8))

theorem writeHalfword_acts (h : address % 2 = 0) (value : U16) :
    Acts (writeHalfword address value) (·.Covers address) (fun _ => ⟨⟩) fun m =>
      m.put address (blend (m.dword address) 0xffff (value.setWidth 64) (8 * (address % 8))) := by
  rw [writeHalfword, if_pos h]
  exact modify_acts address fun d => blend d 0xffff (value.setWidth 64) (8 * (address % 8))

theorem writeWord_acts (h : address % 4 = 0) (value : U32) :
    Acts (writeWord address value) (·.Covers address) (fun _ => ⟨⟩) fun m =>
      m.put address (blend (m.dword address) 0xffffffff (value.setWidth 64) (8 * (address % 8))) := by
  rw [writeWord, if_pos h]
  exact modify_acts address fun d => blend d 0xffffffff (value.setWidth 64) (8 * (address % 8))

theorem writeDoubleword_acts (h : address % 8 = 0) (value : U64) :
    Acts (writeDoubleword address value) (·.Covers address) (fun _ => ⟨⟩) (·.put address value) := by
  rw [writeDoubleword, if_pos h]
  exact assignU64_acts address value

end Memory

end LightningJolt
