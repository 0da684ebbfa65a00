/-
Stores of the memory management unit, as updates of what memory can be seen
to hold.
-/
import LightningJolt.Access

namespace LightningJolt

open Fallible

namespace Mmu

variable {m m' : Mmu} {ea : Nat}

/-! ## One byte -/

/-- A byte below RAM that the device lets a guest store. -/
def DeviceStorable (m : Mmu) (ea : Nat) : Prop :=
  unsupportedStore ea = false ∧ ∃ d, m.joltDevice = .some d ∧ d.Writable ea

def ByteStorable (m : Mmu) (ea : Nat) : Prop :=
  if ramStartAddress ≤ ea then
    m.validAddress ea true = true ∧ m.memory.Covers (ea - ramStartAddress)
  else m.DeviceStorable ea

/-- The mask of a field of `n` bytes. -/
def fieldMask (n : Nat) : U64 := BitVec.ofNat 64 (2 ^ (8 * n) - 1)

/-- Memory after a store of the `n` low bytes of a value. -/
def storedField (m : Mmu) (n ea : Nat) (value : U64) : Mmu :=
  if ramStartAddress ≤ ea then
    { m with
      memory := m.memory.put (ea - ramStartAddress)
        (Memory.blend (m.memory.dword (ea - ramStartAddress)) (fieldMask n)
          (value &&& fieldMask n) (8 * (ea % 8))) }
  else { m with joltDevice := m.joltDevice.map (·.storedBytes ea value n) }

/-- Below RAM, a guest may store where the device is writable. -/
theorem validAddress_store {d : JoltDevice} (hd : m.joltDevice = .some d) (hram : ¬ ramStartAddress ≤ ea) :
    m.validAddress ea true = true ↔ d.Writable ea := by
  have hl := d.wellFormed
  have h1 := hl.lowest_le_input
  have h2 := hl.input_le
  have h3 := hl.outputStart_eq
  rw [validAddress, hd]
  simp only [if_pos (Nat.not_le.mp hram), if_true, Bool.and_eq_true, Bool.or_eq_true,
    decide_eq_true_eq]
  constructor
  · intro h
    exact JoltDevice.writable_iff.mpr (by simpa only [Bool.or_eq_true] using h.2)
  · intro h
    refine ⟨?_, by simpa only [Bool.or_eq_true] using JoltDevice.writable_iff.mp h⟩
    obtain ⟨hlo, hhi⟩ := h
    omega

theorem byteStorable_congr (h : m ≈ m') : m.ByteStorable ea ↔ m'.ByteStorable ea := by
  unfold ByteStorable DeviceStorable
  obtain ⟨hmem, hdev⟩ := equiv_cases h
  rw [validAddress_congr h, MemoryData.Covers, MemoryData.Covers, hmem.2]
  rcases hdev with ⟨hd, hd'⟩ | ⟨d, d', hd, hd', hlayout, -, -⟩
  · simp [hd, hd']
  · simp [hd, hd', JoltDevice.Writable, hlayout]

/-- A store leaves what can be stored as it is. -/
theorem validAddress_storedField (m : Mmu) (n ea : Nat) (value : U64) (b : Nat) (isWrite : Bool) :
    (m.storedField n ea value).validAddress b isWrite = m.validAddress b isWrite := by
  unfold storedField
  split_ifs
  · rfl
  · cases hd : m.joltDevice with
    | none => simp [validAddress, hd]
    | some d =>
      simp only [validAddress, hd, Option.map_some, JoltDevice.isInput, JoltDevice.isTrustedAdvice,
        JoltDevice.isUntrustedAdvice, JoltDevice.isOutput, JoltDevice.isPanic,
        JoltDevice.isTermination, JoltDevice.storedBytes_memoryLayout]

theorem covers_storedField (m : Mmu) (n ea : Nat) (value : U64) (b : Nat) :
    (m.storedField n ea value).memory.Covers b ↔ m.memory.Covers b := by
  unfold storedField
  split_ifs <;> exact Iff.rfl

theorem device_storedField (m : Mmu) (n ea : Nat) (value : U64) :
    (m.storedField n ea value).joltDevice = m.joltDevice.map fun d =>
      if ramStartAddress ≤ ea then d else d.storedBytes ea value n := by
  unfold storedField
  split_ifs
  · simp
  · rfl

theorem deviceStorable_storedField (m : Mmu) (n ea : Nat) (value : U64) (b : Nat) :
    (m.storedField n ea value).DeviceStorable b ↔ m.DeviceStorable b := by
  unfold DeviceStorable
  rw [device_storedField]
  cases m.joltDevice with
  | none => simp
  | some d =>
    split_ifs
    · simp
    · simp [JoltDevice.Writable, JoltDevice.storedBytes_memoryLayout]

theorem byteStorable_storedField (m : Mmu) (n ea : Nat) (value : U64) (b : Nat) :
    (m.storedField n ea value).ByteStorable b ↔ m.ByteStorable b := by
  unfold ByteStorable
  rw [validAddress_storedField, covers_storedField, deviceStorable_storedField]

theorem getLsbD_fieldMask {n : Nat} (hn : n ≤ 8) :
    ∀ b < 64, (fieldMask n).getLsbD b = decide (b < 8 * n) := by
  have h : ∀ n ≤ 8, ∀ b < 64, (fieldMask n).getLsbD b = decide (b < 8 * n) := by decide
  exact h n hn

theorem and_fieldMask {n w : Nat} (hw : w = 8 * n) (hn : n ≤ 8) (value : BitVec w) :
    value.setWidth 64 &&& fieldMask n = value.setWidth 64 := by
  refine BitVec.eq_of_getLsbD_eq fun b hb => ?_
  rw [BitVec.getLsbD_and, getLsbD_fieldMask hn b hb, BitVec.getLsbD_setWidth]
  by_cases hin : b < 8 * n
  · simp [hin]
  · simp [BitVec.getLsbD_of_ge value b (by omega)]

theorem leByte_setWidth (value : U8) : leByte (value.setWidth 64) 0 = value := by
  refine BitVec.eq_of_getLsbD_eq fun b hb => ?_
  rw [getLsbD_leByte _ _ hb, BitVec.getLsbD_setWidth]
  simp [show b < 64 by omega]

theorem storedField_congr {n : Nat} {value : U64} (h : m ≈ m')
    (hok : ¬ ramStartAddress ≤ ea → ∀ i < n, m.DeviceStorable (ea + i)) :
    m.storedField n ea value ≈ m'.storedField n ea value := by
  obtain ⟨hmem, hdev⟩ := equiv_cases h
  by_cases hram : ramStartAddress ≤ ea
  · have hview : m.view = m'.view := h
    simp only [view, Prod.mk.injEq] at hview
    change view _ = view _
    rw [storedField, storedField, if_pos hram, if_pos hram]
    simp only [view, MemoryData.put, MemoryData.dword, hmem.1, hmem.2, hview.2.2]
  · rw [storedField, storedField, if_neg hram, if_neg hram]
    rcases hdev with ⟨hd, hd'⟩ | ⟨d, d', hd, hd', hlayout, hpanic, hload⟩
    · change view _ = view _
      simp only [view, hd, hd', hmem.1, hmem.2, Option.map_none]
    · have hw : ∀ i < n, d.Writable (ea + i) := by
        intro i hi
        obtain ⟨-, d1, hd1, hwritable⟩ := hok hram i hi
        rw [hd] at hd1
        cases hd1
        exact hwritable
      have hw' : ∀ i < n, d'.Writable (ea + i) := by
        intro i hi
        rw [JoltDevice.Writable, ← hlayout]
        exact hw i hi
      have hpanics : (d.storedBytes ea value n).panic = (d'.storedBytes ea value n).panic := by
        rw [JoltDevice.storedBytes_panic hw, JoltDevice.storedBytes_panic hw', hpanic, hlayout]
      refine equiv_of_device (d := d.storedBytes ea value n) hmem
        (by rw [hd]; rfl) (by rw [hd']; rfl) ?_ hpanics ?_
      · rw [JoltDevice.storedBytes_memoryLayout, JoltDevice.storedBytes_memoryLayout, hlayout]
      · funext b
        rw [JoltDevice.storedBytes_load hw, JoltDevice.storedBytes_load hw', hpanics, hload, hlayout,
          JoltDevice.isPanic, JoltDevice.isPanic, hlayout]

theorem storeRaw_acts (ea : Nat) (value : U8) :
    Acts (storeRaw ea value) (·.ByteStorable ea) (fun _ => ⟨⟩)
      (·.storedField 1 ea (value.setWidth 64)) := by
  have hcongr : ∀ m m' : Mmu, m ≈ m' → m.ByteStorable ea →
      m.storedField 1 ea (value.setWidth 64) ≈ m'.storedField 1 ea (value.setWidth 64) := by
    intro m m' h hok
    refine storedField_congr h fun hram i hi => ?_
    rw [ByteStorable, if_neg hram] at hok
    rw [Nat.lt_one_iff.mp hi]
    exact hok
  by_cases hram : ramStartAddress ≤ ea
  · have hram8 := ramStart_mod
    unfold storeRaw
    rw [if_pos hram]
    refine ((assertStore_reads ea).bind fun _ => onMemory_acts (Memory.writeByte_acts _ value)).congr
      (fun m => ?_) (fun _ _ => rfl) fun m _ => ?_
    · rw [ByteStorable, if_pos hram]
      exact Iff.rfl
    · rw [storedField, if_pos hram, and_fieldMask (n := 1) rfl (by decide) value,
        show ea % 8 = (ea - ramStartAddress) % 8 by omega]
      exact Setoid.refl _
  · have hrun : ∀ m, storeRaw ea value m = if unsupportedStore ea = true then .none
        else if m.validAddress ea true = true then storeRawDevice ea value m else .none := by
      intro m
      unfold storeRaw
      rw [if_neg hram]
      split_ifs with h1 h2
      · rfl
      · simp [Fallible.bind_apply, assertEffectiveStoreAddress, h2]
      · simp [Fallible.bind_apply, assertEffectiveStoreAddress, h2]
    exact {
      run := by
        intro m hm
        have hok := hm
        rw [ByteStorable, if_neg hram] at hok
        obtain ⟨hsupported, d, hd, hw⟩ := hok
        have hstore : d.store ea value = .some (d.stored ea value) := by
          rw [JoltDevice.stored, JoltDevice.store_writable hw]
          rfl
        refine ⟨{ m with joltDevice := .some (d.stored ea value) }, ?_, ?_⟩
        · rw [hrun, hsupported, if_neg Bool.false_ne_true, if_pos ((validAddress_store hd hram).mpr hw)]
          simp [storeRawDevice, hd, hstore]
        · have hone : d.storedBytes ea (value.setWidth 64) 1 = d.stored ea value := by
            rw [JoltDevice.storedBytes, List.range_one, List.foldl_cons, leByte_setWidth]
            rfl
          rw [storedField, if_neg hram, hd, Option.map_some, hone]
      fail := by
        intro m hm
        rw [ByteStorable, if_neg hram] at hm
        rw [hrun]
        split_ifs with h1 h2
        · rfl
        · cases hd : m.joltDevice with
          | none => simp [storeRawDevice, hd]
          | some d =>
            exact absurd ⟨Bool.eq_false_iff.mpr h1, d, hd, (validAddress_store hd hram).mp h2⟩ hm
        · rfl
      ok_congr := fun _ _ h => byteStorable_congr h
      val_congr := fun _ _ _ _ => rfl
      upd_congr := hcongr }

/-! ## A field -/

/-- The field of `n` bytes can be stored. -/
def FieldStorable (m : Mmu) (n ea : Nat) : Prop :=
  if ramStartAddress ≤ ea then
    m.validAddress ea true = true ∧ m.memory.Covers (ea - ramStartAddress)
  else ∀ i < n, m.DeviceStorable (ea + i)

/-- Below RAM the loop over the bytes is `JoltDevice.storedBytes`. -/
theorem foldl_storedField (m : Mmu) (value : U64) {n : Nat} (hend : ea + n ≤ ramStartAddress) :
    (List.range n).foldl
        (fun m i => m.storedField 1 ((ea + i) % 2 ^ 64) ((leByte value i).setWidth 64)) m =
      { m with joltDevice := m.joltDevice.map (·.storedBytes ea value n) } := by
  have hlt : ramStartAddress < 2 ^ 64 := by decide
  induction n with
  | zero =>
    have hnone : ∀ d : JoltDevice, d.storedBytes ea value 0 = d := fun _ => rfl
    simp [hnone]
  | succ n ih =>
    rw [List.range_succ, List.foldl_append, ih (by omega), List.foldl_cons, List.foldl_nil,
      Nat.mod_eq_of_lt (by omega), storedField, if_neg (by omega)]
    have hone : ∀ d : JoltDevice, d.storedBytes (ea + n) ((leByte value n).setWidth 64) 1 =
        d.stored (ea + n) (leByte value n) := by
      intro d
      rw [JoltDevice.storedBytes, List.range_one, List.foldl_cons, leByte_setWidth]
      rfl
    simp only [Option.map_map]
    congr 2
    funext d
    rw [Function.comp_apply, hone, JoltDevice.storedBytes_succ]

theorem storeRawBytes_acts {n : Nat} (value : U64) (hend : ea + n ≤ ramStartAddress)
    (hn : 0 < n) :
    Acts (storeRawBytes ea value n) (·.FieldStorable n ea) (fun _ => ⟨⟩)
      (·.storedField n ea value) := by
  have hlt : ramStartAddress < 2 ^ 64 := by decide
  refine (Acts.forM (fun i => storeRaw_acts ((ea + i) % 2 ^ 64) (leByte value i))
    (fun i j m _ => byteStorable_storedField ..) (List.range n)).congr (fun m => ?_)
    (fun _ _ => rfl) fun m _ => ?_
  · rw [FieldStorable, if_neg (by omega)]
    refine ⟨fun h i hi => ?_, fun h i hi => ?_⟩
    · have hbyte := h i (List.mem_range.mpr hi)
      rwa [Nat.mod_eq_of_lt (by omega), ByteStorable, if_neg (by omega)] at hbyte
    · have hi' := List.mem_range.mp hi
      rw [Nat.mod_eq_of_lt (by omega), ByteStorable, if_neg (by omega)]
      exact h i hi'
  · rw [foldl_storedField m value hend, storedField, if_neg (by omega)]

/-- The raw stores of a field, by the path in RAM and byte by byte. -/
theorem storeRaw_field {n w : Nat} (hw : w = 8 * n) (hn : 2 ≤ n) (hin : ea % 8 + n ≤ 8)
    (hlt : ea < 2 ^ 64) (value : BitVec w) {mem : MemM Unit}
    (hmem : Acts mem (·.Covers (ea - ramStartAddress)) (fun _ => ⟨⟩) fun m =>
      m.put (ea - ramStartAddress) (Memory.blend (m.dword (ea - ramStartAddress)) (fieldMask n)
        (value.setWidth 64) (8 * ((ea - ramStartAddress) % 8)))) :
    Acts (if fastPath ea n then do assertEffectiveStoreAddress ea; onMemory mem
      else storeRawBytes ea (value.setWidth 64) n)
      (·.FieldStorable n ea) (fun _ => ⟨⟩) (·.storedField n ea (value.setWidth 64)) := by
  have hram8 := ramStart_mod
  rw [fastPath_eq (by omega) hn]
  by_cases hram : ramStartAddress ≤ ea
  · rw [decide_eq_true hram, if_pos rfl]
    refine ((assertStore_reads ea).bind fun _ => onMemory_acts hmem).congr (fun m => ?_)
      (fun _ _ => rfl) fun m _ => ?_
    · rw [FieldStorable, if_pos hram]
      exact Iff.rfl
    · rw [storedField, if_pos hram, and_fieldMask hw (by omega),
        show ea % 8 = (ea - ramStartAddress) % 8 by omega]
      exact Setoid.refl _
  · rw [decide_eq_false hram, if_neg Bool.false_ne_true]
    exact storeRawBytes_acts _ (by omega) (by omega)

theorem storeHalfwordRaw_acts (hlt : ea < 2 ^ 64) (h2 : ea % 2 = 0) (value : U16) :
    Acts (storeHalfwordRaw ea value) (·.FieldStorable 2 ea) (fun _ => ⟨⟩)
      (·.storedField 2 ea (value.setWidth 64)) := by
  have hram8 := ramStart_mod
  have hmask : fieldMask 2 = 0xffff := by decide
  have hmem := Memory.writeHalfword_acts (show (ea - ramStartAddress) % 2 = 0 by omega) value
  rw [← hmask] at hmem
  have hpath := storeRaw_field (n := 2) (w := 16) rfl (by decide) (by omega) hlt value hmem
  unfold storeHalfwordRaw
  exact hpath

theorem storeWordRaw_acts (hlt : ea < 2 ^ 64) (h4 : ea % 4 = 0) (value : U32) :
    Acts (storeWordRaw ea value) (·.FieldStorable 4 ea) (fun _ => ⟨⟩)
      (·.storedField 4 ea (value.setWidth 64)) := by
  have hram8 := ramStart_mod
  have hmask : fieldMask 4 = 0xffffffff := by decide
  have hmem := Memory.writeWord_acts (show (ea - ramStartAddress) % 4 = 0 by omega) value
  rw [← hmask] at hmem
  have hpath := storeRaw_field (n := 4) (w := 32) rfl (by decide) (by omega) hlt value hmem
  unfold storeWordRaw
  exact hpath

theorem storeDoublewordRaw_acts (hlt : ea < 2 ^ 64) (h8 : ea % 8 = 0) (value : U64) :
    Acts (storeDoublewordRaw ea value) (·.FieldStorable 8 ea) (fun _ => ⟨⟩)
      (·.storedField 8 ea value) := by
  have hram8 := ramStart_mod
  have hmem : Acts (Memory.writeDoubleword (ea - ramStartAddress) value)
      (·.Covers (ea - ramStartAddress)) (fun _ => ⟨⟩) fun m =>
      m.put (ea - ramStartAddress) (Memory.blend (m.dword (ea - ramStartAddress)) (fieldMask 8)
        (value.setWidth 64) (8 * ((ea - ramStartAddress) % 8))) := by
    refine (Memory.writeDoubleword_acts (by omega) value).congr (fun _ => Iff.rfl) (fun _ _ => rfl)
      fun m _ => ?_
    have hmask : fieldMask 8 = -1 := by decide
    rw [show (ea - ramStartAddress) % 8 = 0 by omega, Nat.mul_zero, hmask, blend_doubleword,
      BitVec.setWidth_eq]
  have hpath := storeRaw_field (n := 8) (w := 64) rfl (by decide) (by omega) hlt value hmem
  unfold storeDoublewordRaw
  simpa only [BitVec.setWidth_eq] using hpath

/-! ## The recorded stores -/

theorem validAddress_of_storable {n : Nat} (hn : 0 < n) (h : m.FieldStorable n ea) :
    m.validAddress ea true = true := by
  unfold FieldStorable at h
  split_ifs at h with hram
  · exact h.1
  · obtain ⟨-, d, hd, hw⟩ := h 0 hn
    exact (validAddress_store hd hram).mpr hw

theorem recordable_of_storable (h8 : ea % 8 = 0) (h : m.FieldStorable 8 ea) : m.Recordable ea ea := by
  unfold FieldStorable at h
  intro i hi
  by_cases hram : ramStartAddress ≤ ea
  · rw [if_pos hram] at h
    rw [if_neg (by omega), covers_iff m hram h8 hi]
    exact h.2
  · rw [if_neg hram] at h
    rw [if_pos (by omega)]
    obtain ⟨-, d, hd, hw⟩ := h i hi
    rw [deviceByte, hd]
    exact JoltDevice.isSome_load (JoltDevice.readable_of_writable hw)

theorem traceStore_reads (ea : Nat) (value : U64) :
    Reads (traceStore ea value) (fun m => m.validAddress ea true = true ∧ m.Recordable ea ea)
      fun m => ⟨ea, m.recorded ea ea, value⟩ :=
  ((assertStore_reads ea).bind fun _ => (traceBytes_reads ea ea).bind fun preValue =>
    Acts.pure (RamWrite.mk ea preValue value)).congr
    (fun _ => by rw [and_iff_left trivial]; rfl) (fun _ _ => rfl) fun _ _ => Setoid.refl _

/-- A doubleword store: the record has the value it replaced. -/
theorem storeDoubleword_acts (hlt : ea < 2 ^ 64) (value : U64) :
    Acts (storeDoubleword ea value) (fun m => ea % 8 = 0 ∧ m.FieldStorable 8 ea)
      (fun m => ⟨ea, m.dword ea, value⟩) (·.storedField 8 ea value) := by
  by_cases h8 : ea % 8 = 0
  · refine Acts.guard_bind _ (((traceStore_reads ea value).bind fun w =>
      (storeDoublewordRaw_acts hlt h8 value).bind fun _ => Acts.pure w).congr (fun m => ?_)
      (fun m _ => ?_) fun m _ => Setoid.refl _)
    · rw [and_iff_left trivial]
      exact ⟨fun h => h.2, fun h =>
        ⟨⟨validAddress_of_storable (by decide) h, recordable_of_storable h8 h⟩, h⟩⟩
    · rw [recorded_eq m h8]
  · have hfail : Acts (failure : MmuM RamWrite) (fun _ => False)
        (fun m => ⟨ea, m.dword ea, value⟩) (·.storedField 8 ea value) := Acts.failure
    have hrun : storeDoubleword ea value = failure := by
      rw [storeDoubleword, guard, if_neg h8]
      rfl
    rw [hrun]
    exact hfail.congr (fun m => by simp [h8]) (fun _ h => h.elim) fun _ h => h.elim

/-- What is left of a recorded store is the raw one. -/
theorem store_some {trace : MmuM RamWrite} {raw : MmuM Unit} {okt ok : Mmu → Prop}
    {val : Mmu → RamWrite} {upd : Mmu → Mmu} (ht : Reads trace okt val)
    (hraw : Acts raw ok (fun _ => ⟨⟩) upd) {w : RamWrite}
    (h : (do let w ← trace; raw; pure w : MmuM RamWrite) m = .some (w, m')) : ok m ∧ upd m ≈ m' := by
  obtain ⟨hok, -, hupd⟩ := (ht.bind fun w => hraw.bind fun _ => Acts.pure w).some h
  exact ⟨hok.2.1, hupd⟩

theorem traceStoreByte_reads (ea : Nat) (value : U64) :
    ∃ ok val, Reads (traceStoreByte ea value) ok val :=
  ⟨_, _, (assertStore_reads ea).bind fun _ => (traceBytes_reads ea (ea / 4 * 4)).bind fun _ =>
    Acts.pure _⟩

theorem traceStoreHalfword_reads (heven : ea % 2 = 0) (value : U64) :
    ∃ ok val, Reads (traceStoreHalfword ea value) ok val := by
  unfold traceStoreHalfword
  by_cases h2 : ea % 4 = 2
  · simp only [if_pos h2]
    exact ⟨_, _, (assertStore_reads ea).bind fun _ => (traceBytes_reads ea _).bind fun _ =>
      Acts.pure _⟩
  · have h0 : ea % 4 = 0 := by omega
    simp only [if_neg h2, if_pos h0]
    exact ⟨_, _, (assertStore_reads ea).bind fun _ => (traceBytes_reads ea _).bind fun _ =>
      Acts.pure _⟩

theorem store_stored {value : U8} {w : RamWrite} (h : store ea value m = .some (w, m')) :
    m.FieldStorable 1 ea ∧ m.storedField 1 ea (value.setWidth 64) ≈ m' := by
  obtain ⟨ok, val, htrace⟩ := traceStoreByte_reads ea (value.setWidth 64)
  obtain ⟨hok, hupd⟩ := store_some htrace (storeRaw_acts ea value) h
  refine ⟨?_, hupd⟩
  unfold ByteStorable at hok
  unfold FieldStorable
  split_ifs with hram
  · rwa [if_pos hram] at hok
  · rw [if_neg hram] at hok
    intro i hi
    rwa [Nat.lt_one_iff.mp hi]

theorem storeHalfword_stored (hlt : ea < 2 ^ 64) {value : U16} {w : RamWrite}
    (h : storeHalfword ea value m = .some (w, m')) :
    ea % 2 = 0 ∧ m.FieldStorable 2 ea ∧ m.storedField 2 ea (value.setWidth 64) ≈ m' := by
  by_cases h2 : ea % 2 = 0
  · rw [storeHalfword, guard, if_pos h2] at h
    obtain ⟨ok, val, htrace⟩ := traceStoreHalfword_reads h2 (value.setWidth 64)
    exact ⟨h2, store_some htrace (storeHalfwordRaw_acts hlt h2 value) h⟩
  · rw [storeHalfword, guard, if_neg h2] at h
    cases h

theorem storeWord_stored (hlt : ea < 2 ^ 64) {value : U32} {w : RamWrite}
    (h : storeWord ea value m = .some (w, m')) :
    ea % 4 = 0 ∧ m.FieldStorable 4 ea ∧ m.storedField 4 ea (value.setWidth 64) ≈ m' := by
  by_cases h4 : ea % 4 = 0
  · rw [storeWord, guard, if_pos h4] at h
    exact ⟨h4, store_some (traceStore_reads ea _) (storeWordRaw_acts hlt h4 value) h⟩
  · rw [storeWord, guard, if_neg h4] at h
    cases h

end Mmu

end LightningJolt
