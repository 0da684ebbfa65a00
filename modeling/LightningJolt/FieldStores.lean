/-
A field stored by way of its doubleword, as the sequences do, against the
store of the field itself (`tracer/src/emulator/mmu.rs`): the two leave the
same memory, save where the doubleword is that of the panic flag.
-/
import LightningJolt.StoreConditional

namespace LightningJolt

open Fallible

/-- The low bytes of a value that is `n` bytes wide. -/
theorem leByte_truncate (v : U64) {n w i : Nat} (hw : w = 8 * n) (hn : n ≤ 8) (hi : i < n) :
    leByte ((v.setWidth w).setWidth 64) i = leByte v i := by
  refine BitVec.eq_of_getLsbD_eq fun b hb => ?_
  rw [getLsbD_leByte _ _ hb, getLsbD_leByte _ _ hb, BitVec.getLsbD_setWidth, BitVec.getLsbD_setWidth]
  simp [show 8 * i + b < 64 by omega, show 8 * i + b < w by omega]

namespace Mmu

variable {m m' : Mmu} {n ea : Nat} {v w : U64}

/-- `w` is the doubleword around `ea`, its `n` bytes at `ea` those of `v`. -/
def Blended (m : Mmu) (n ea : Nat) (v w : U64) : Prop :=
  ∀ i < 8, leByte w i =
    if ea % 8 ≤ i ∧ i < ea % 8 + n then leByte v (i - ea % 8) else m.byte (ea / 8 * 8 + i)

/-- An address behind the first byte of the panic doubleword, the flag not yet
set: a store there is dropped, one to its doubleword sets the flag. -/
def PanicTail (m : Mmu) (ea : Nat) : Prop :=
  ∃ d, m.joltDevice = .some d ∧ d.panic = false ∧ d.memoryLayout.panic < ea ∧
    ea < d.memoryLayout.termination

theorem not_panicTail_of_aligned (h8 : ea % 8 = 0) : ¬ m.PanicTail ea := by
  rintro ⟨d, -, -, hlo, hhi⟩
  have hl := d.wellFormed
  have h1 := hl.outputEnd_aligned
  have h2 := hl.panic_eq
  have h3 := hl.termination_eq
  omega

theorem getLsbD_shiftedMask {k n i b : Nat} (hk : k + n ≤ 8) (hi : i < 8) (hb : b < 8) :
    ((fieldMask n) <<< (8 * k)).getLsbD (8 * i + b) = decide (k ≤ i ∧ i < k + n) := by
  rw [BitVec.getLsbD_shiftLeft]
  by_cases hlo : 8 * i + b < 8 * k
  · simp [hlo, show ¬ k ≤ i by omega]
  · rw [getLsbD_fieldMask (by omega) _ (by omega), Bool.eq_iff_iff]
    simp only [Bool.and_eq_true, decide_eq_true_eq, Bool.not_eq_true', decide_eq_false_iff_not]
    omega

/-- The doubleword that a blend in RAM makes. -/
theorem blend_byte_field (d v : U64) {k n i : Nat} (hk : k + n ≤ 8) (hi : i < 8) :
    leByte (Memory.blend d (fieldMask n) (v &&& fieldMask n) (8 * k)) i =
      if k ≤ i ∧ i < k + n then leByte v (i - k) else leByte d i := by
  refine BitVec.eq_of_getLsbD_eq fun b hb => ?_
  have hmask := getLsbD_shiftedMask hk hi hb
  have hvalue : ((v &&& fieldMask n) <<< (8 * k)).getLsbD (8 * i + b) =
      (decide (k ≤ i ∧ i < k + n) && v.getLsbD (8 * i + b - 8 * k)) := by
    rw [← hmask, BitVec.getLsbD_shiftLeft, BitVec.getLsbD_shiftLeft, BitVec.getLsbD_and]
    ac_rfl
  rw [getLsbD_leByte _ _ hb, Memory.blend, BitVec.getLsbD_or, BitVec.getLsbD_and, BitVec.getLsbD_not,
    hmask, hvalue]
  by_cases hin : k ≤ i ∧ i < k + n
  · rw [if_pos hin, getLsbD_leByte _ _ hb, show 8 * i + b - 8 * k = 8 * (i - k) + b by omega]
    simp [hin]
  · rw [if_neg hin, getLsbD_leByte _ _ hb]
    simp [hin, show 8 * i + b < 64 by omega]

theorem blended_ram (hram : ramStartAddress ≤ ea) (hin : ea % 8 + n ≤ 8) (hw : m.Blended n ea v w) :
    w = Memory.blend (m.memory.dword (ea - ramStartAddress)) (fieldMask n) (v &&& fieldMask n)
      (8 * (ea % 8)) := by
  refine eq_of_leByte fun i hi => ?_
  rw [hw i hi, blend_byte_field _ _ hin hi, ← dword_ram m hram, leByte_dword _ _ hi]

theorem storedField_ram (hram : ramStartAddress ≤ ea) (hin : ea % 8 + n ≤ 8)
    (hw : m.Blended n ea v w) : m.storedField 8 (ea / 8 * 8) w ≈ m.storedField n ea v := by
  have hram8 := ramStart_mod
  have hmask : fieldMask 8 = -1 := by decide
  have hones : w &&& (-1 : U64) = w := by
    rw [show (-1 : U64) = BitVec.allOnes 64 from BitVec.neg_one_eq_allOnes, BitVec.and_allOnes]
  rw [storedField, storedField, if_pos (by omega), if_pos hram, ← blended_ram hram hin hw, hmask,
    show ea / 8 * 8 % 8 = 0 by omega, Nat.mul_zero, blend_doubleword, hones, MemoryData.put,
    MemoryData.put, show (ea / 8 * 8 - ramStartAddress) / 8 = (ea - ramStartAddress) / 8 by omega]

/-- The device after either store, but for the flag. -/
theorem storedBytes_blended {d : JoltDevice} (hd : m.joltDevice = .some d)
    (hram : ¬ ramStartAddress ≤ ea) (hin : ea % 8 + n ≤ 8)
    (hst : ∀ i < 8, d.Writable (ea / 8 * 8 + i)) (hw : m.Blended n ea v w)
    (hpanic : (d.storedBytes (ea / 8 * 8) w 8).panic = (d.storedBytes ea v n).panic) :
    (d.storedBytes (ea / 8 * 8) w 8).load = (d.storedBytes ea v n).load := by
  have hram8 := ramStart_mod
  have hfield : ∀ i < n, d.Writable (ea + i) := by
    intro i hi
    have hbyte := hst (ea % 8 + i) (by omega)
    rwa [show ea / 8 * 8 + (ea % 8 + i) = ea + i by omega] at hbyte
  funext b
  rw [JoltDevice.storedBytes_load hst, JoltDevice.storedBytes_load hfield, hpanic]
  by_cases hb : d.isPanic b
  · rw [if_pos hb, if_pos hb]
  rw [if_neg hb, if_neg hb]
  by_cases hdword : ea / 8 * 8 ≤ b ∧ b < ea / 8 * 8 + 8 ∧ b < d.memoryLayout.panic
  · rw [if_pos hdword, hw _ (by omega)]
    by_cases hbyte : ea ≤ b ∧ b < ea + n
    · rw [if_pos (by omega), if_pos (by omega),
        show b - ea / 8 * 8 - ea % 8 = b - ea by omega]
    · rw [if_neg (by omega), if_neg (by omega),
        show ea / 8 * 8 + (b - ea / 8 * 8) = b by omega, byte, if_neg (by omega), deviceByte, hd,
        Option.bind_some]
      have hwritable := hst (b - ea / 8 * 8) (by omega)
      rw [show ea / 8 * 8 + (b - ea / 8 * 8) = b by omega] at hwritable
      obtain ⟨c, hc⟩ := Option.isSome_iff_exists.mp
        (JoltDevice.isSome_load (JoltDevice.readable_of_writable hwritable))
      rw [hc, Option.getD_some]
  · rw [if_neg hdword, if_neg (by omega)]

theorem deviceStorable_of_field {k : Nat} (h : m.FieldStorable k ea) (hram : ¬ ramStartAddress ≤ ea) :
    ∀ i < k, m.DeviceStorable (ea + i) := by
  rwa [FieldStorable, if_neg hram] at h

theorem fieldStorable_congr {k : Nat} (h : m ≈ m') : m.FieldStorable k ea ↔ m'.FieldStorable k ea := by
  unfold FieldStorable DeviceStorable
  obtain ⟨hmem, hdev⟩ := equiv_cases h
  rw [validAddress_congr h, MemoryData.Covers, MemoryData.Covers, hmem.2]
  rcases hdev with ⟨hd, hd'⟩ | ⟨d, d', hd, hd', hlayout, -, -⟩
  · simp [hd, hd']
  · simp [hd, hd', JoltDevice.Writable, hlayout]

/-- **A field by its doubleword.** To blend the field into the doubleword
around it and to store that leaves what the store of the field does, unless
the address is behind the first byte of the panic doubleword and the flag is
not set. -/
theorem storedField_blended (hn : 0 < n) (hin : ea % 8 + n ≤ 8)
    (hst : m.FieldStorable 8 (ea / 8 * 8)) (hw : m.Blended n ea v w) :
    m.storedField 8 (ea / 8 * 8) w ≈ m.storedField n ea v ↔ ¬ m.PanicTail ea := by
  have hram8 := ramStart_mod
  by_cases hram : ramStartAddress ≤ ea
  · have hnot : ¬ m.PanicTail ea := by
      rintro ⟨d, -, -, -, hhi⟩
      have hl := d.wellFormed
      have h1 := hl.termination_eq
      have h2 := hl.ioEnd_eq
      have h3 := hl.ioEnd_le
      omega
    exact iff_of_true (storedField_ram hram hin hw) hnot
  unfold FieldStorable at hst
  rw [if_neg (by omega)] at hst
  obtain ⟨-, d, hd, -⟩ := hst 0 (by decide)
  have hdword : ∀ i < 8, d.Writable (ea / 8 * 8 + i) := by
    intro i hi
    obtain ⟨-, d', hd', hwritable⟩ := hst i hi
    rw [hd] at hd'
    cases hd'
    exact hwritable
  have hfield : ∀ i < n, d.Writable (ea + i) := by
    intro i hi
    have hbyte := hdword (ea % 8 + i) (by omega)
    rwa [show ea / 8 * 8 + (ea % 8 + i) = ea + i by omega] at hbyte
  have hl := d.wellFormed
  have h1 := hl.outputEnd_aligned
  have h2 := hl.panic_eq
  have h3 := hl.termination_eq
  have hflags : (d.storedBytes (ea / 8 * 8) w 8).panic = (d.storedBytes ea v n).panic ↔
      ¬ m.PanicTail ea := by
    rw [JoltDevice.storedBytes_panic hdword, JoltDevice.storedBytes_panic hfield]
    have htail : m.PanicTail ea ↔ d.panic = false ∧ d.memoryLayout.panic < ea ∧
        ea < d.memoryLayout.termination := by
      simp [PanicTail, hd]
    rw [htail]
    cases d.panic with
    | true => simp
    | false =>
      simp only [Bool.false_or, decide_eq_decide, true_and]
      omega
  rw [← hflags, storedField, storedField, if_neg (by omega), if_neg hram]
  constructor
  · intro h
    rcases (equiv_cases h).2 with ⟨hnone, -⟩ | ⟨d1, d2, hd1, hd2, -, hpanic, -⟩
    · rw [hd] at hnone
      cases hnone
    · rw [hd] at hd1 hd2
      cases hd1
      cases hd2
      exact hpanic
  · intro hpanic
    refine equiv_of_device (Setoid.refl _) (by rw [hd]; rfl) (by rw [hd]; rfl) ?_ hpanic
      (storedBytes_blended hd hram hin hdword hw hpanic)
    rw [JoltDevice.storedBytes_memoryLayout, JoltDevice.storedBytes_memoryLayout]

theorem Plain.not_panicTail (h : m.Plain ea) : ¬ m.PanicTail ea := by
  rintro ⟨d, hd, -, hlo, hhi⟩
  have h3 := d.wellFormed.termination_eq
  have h4 := d.wellFormed.ioEnd_eq
  have h5 : d.memoryLayout.panic ≤ ea ∧ ea < d.memoryLayout.ioEnd := by omega
  exact h d hd h5

/-- The bytes after a field is blended into its doubleword. -/
theorem byte_blended (hin : ea % 8 + n ≤ 8) (hst : m.FieldStorable 8 (ea / 8 * 8))
    (hplain : m.Plain ea) (hw : m.Blended n ea v w) (b : Nat) :
    (m.storedField 8 (ea / 8 * 8) w).byte b =
      if ea ≤ b ∧ b < ea + n then leByte v (b - ea) else m.byte b := by
  rw [byte_storedField (by omega) hst hplain.aligned]
  by_cases hdword : ea / 8 * 8 ≤ b ∧ b < ea / 8 * 8 + 8
  · rw [if_pos hdword, hw _ (by omega)]
    by_cases hbyte : ea ≤ b ∧ b < ea + n
    · rw [if_pos (by omega), if_pos hbyte, show b - ea / 8 * 8 - ea % 8 = b - ea by omega]
    · rw [if_neg (by omega), if_neg hbyte, show ea / 8 * 8 + (b - ea / 8 * 8) = b by omega]
  · rw [if_neg hdword, if_neg (by omega)]

end Mmu

end LightningJolt
