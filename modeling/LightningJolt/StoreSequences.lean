/-
The sequences that touch memory, on the processor alone: a step rule for `LD`
and `SD`, and from them what the sequences of `LW` and `SW` do to a word, to
the registers and to every other byte.
-/
import LightningJolt.Stores
import LightningJolt.Expansion

namespace LightningJolt

open Fallible

/-! ## Bytes of memory -/

namespace Mmu

variable {m m' : Mmu} {ea : Nat} {v : U64}

theorem byte_congr (h : m ≈ m') : m.byte = m'.byte := by
  funext b
  have hmem := (equiv_cases h).1
  rw [byte, byte, MemoryData.byte, MemoryData.byte, MemoryData.dword, MemoryData.dword, hmem.1,
    deviceByte_congr h]

/-- The doubleword at `ea` holds what is stored there: it is not the one of
the panic flag, which any store sets, or of the termination flag, which drops
stores. -/
def Plain (m : Mmu) (ea : Nat) : Prop :=
  ∀ d, m.joltDevice = .some d → ¬ (d.memoryLayout.panic ≤ ea ∧ ea < d.memoryLayout.ioEnd)

theorem plain_congr (h : m ≈ m') : m.Plain ea ↔ m'.Plain ea := by
  rcases (equiv_cases h).2 with ⟨hd, hd'⟩ | ⟨d, d', hd, hd', hlayout, -, -⟩
  · simp [Plain, hd, hd']
  · simp [Plain, hd, hd', hlayout]

theorem Plain.aligned (h : m.Plain ea) : m.Plain (ea / 8 * 8) := by
  intro d hd hin
  have hl := d.wellFormed
  have h1 := hl.outputEnd_aligned
  have h2 := hl.panic_eq
  have h3 := hl.ioEnd_eq
  exact h d hd (by omega)

theorem byte_put (m : MemoryData) {a b : Nat} (h8 : a % 8 = 0) :
    (m.put a v).byte b = if a ≤ b ∧ b < a + 8 then leByte v (b - a) else m.byte b := by
  change leByte (Function.update m.memory (a / 8) v (b / 8)) (b % 8) =
    if a ≤ b ∧ b < a + 8 then leByte v (b - a) else leByte (m.memory (b / 8)) (b % 8)
  by_cases hin : b / 8 = a / 8
  · rw [hin, Function.update_self, if_pos (by omega), show b - a = b % 8 by omega]
  · rw [Function.update_of_ne hin, if_neg (by omega)]

/-- The bytes after a doubleword is stored. -/
theorem byte_storedField (h8 : ea % 8 = 0) (hst : m.FieldStorable 8 ea) (hplain : m.Plain ea)
    (v : U64) (b : Nat) :
    (m.storedField 8 ea v).byte b = if ea ≤ b ∧ b < ea + 8 then leByte v (b - ea) else m.byte b := by
  have hram8 := ramStart_mod
  have hmask : fieldMask 8 = -1 := by decide
  by_cases hram : ramStartAddress ≤ ea
  · rw [storedField, if_pos hram, hmask, h8, Nat.mul_zero, blend_doubleword]
    by_cases hb : ramStartAddress ≤ b
    · rw [byte, byte, if_pos hb, if_pos hb, byte_put _ (by omega)]
      have hand : v &&& (-1 : U64) = v := by
        rw [show (-1 : U64) = BitVec.allOnes 64 from BitVec.neg_one_eq_allOnes, BitVec.and_allOnes]
      rw [hand, show b - ramStartAddress - (ea - ramStartAddress) = b - ea by omega]
      refine if_congr ?_ rfl rfl
      omega
    · rw [byte, byte, if_neg hb, if_neg hb, if_neg (by omega)]
      rfl
  · rw [storedField, if_neg hram]
    rw [FieldStorable, if_neg hram] at hst
    obtain ⟨-, d, hd, -⟩ := hst 0 (by decide)
    have hw : ∀ i < 8, d.Writable (ea + i) := by
      intro i hi
      obtain ⟨-, d', hd', hw⟩ := hst i hi
      rw [hd] at hd'
      cases hd'
      exact hw
    have hl := d.wellFormed
    have h1 := hl.outputEnd_aligned
    have h2 := hl.panic_eq
    have h3 := hl.ioEnd_eq
    have h4 := hl.termination_eq
    have h5 := hl.ioEnd_le
    have hout := hplain d hd
    have hlast := (hw 7 (by decide)).2
    have hbelow : ea + 8 ≤ d.memoryLayout.panic := by omega
    by_cases hb : ramStartAddress ≤ b
    · rw [byte, byte, if_pos hb, if_pos hb, if_neg (by omega)]
    · rw [byte, byte, if_neg hb, if_neg hb, deviceByte, deviceByte, hd, Option.map_some,
        Option.bind_some, Option.bind_some, JoltDevice.storedBytes_load hw]
      by_cases hpanic : d.isPanic b
      · have hflag : (d.storedBytes ea v 8).panic = d.panic := by
          rw [JoltDevice.storedBytes_panic hw, decide_eq_false (by omega), Bool.or_false]
        have hrange := hpanic
        simp only [JoltDevice.isPanic, Bool.and_eq_true, decide_eq_true_eq] at hrange
        have hnot : ¬ (ea ≤ b ∧ b < ea + 8) := by omega
        rw [if_pos hpanic, hflag, if_neg hnot, JoltDevice.load_panic hpanic]
      · rw [if_neg hpanic]
        by_cases hin : ea ≤ b ∧ b < ea + 8
        · have hbefore : ea ≤ b ∧ b < ea + 8 ∧ b < d.memoryLayout.panic := by omega
          rw [if_pos hbefore, if_pos hin]
          rfl
        · have hout' : ¬ (ea ≤ b ∧ b < ea + 8 ∧ b < d.memoryLayout.panic) := by omega
          rw [if_neg hout', if_neg hin]

/-- The blend of a word into a doubleword. -/
theorem word_blend_byte (d v : U64) {k i : Nat} (hi : i < 8) :
    leByte (d ^^^ ((d ^^^ (v <<< (8 * k))) &&& (((-1 : U64) >>> 32) <<< (8 * k)))) i =
      if k ≤ i ∧ i < k + 4 then leByte v (i - k) else leByte d i := by
  refine BitVec.eq_of_getLsbD_eq fun b hb => ?_
  have hones : (-1 : U64) = BitVec.allOnes 64 := BitVec.neg_one_eq_allOnes
  have hbit : (((-1 : U64) >>> 32) <<< (8 * k)).getLsbD (8 * i + b) =
      decide (k ≤ i ∧ i < k + 4) := by
    rw [hones, BitVec.getLsbD_shiftLeft, BitVec.getLsbD_ushiftRight, BitVec.getLsbD_allOnes,
      Bool.eq_iff_iff]
    simp only [Bool.and_eq_true, decide_eq_true_eq, Bool.not_eq_true', decide_eq_false_iff_not]
    omega
  rw [getLsbD_leByte _ _ hb, BitVec.getLsbD_xor, BitVec.getLsbD_and, hbit, BitVec.getLsbD_xor]
  by_cases hin : k ≤ i ∧ i < k + 4
  · rw [if_pos hin, getLsbD_leByte _ _ hb, BitVec.getLsbD_shiftLeft,
      show 8 * i + b - 8 * k = 8 * (i - k) + b by omega]
    have hlt : 8 * i + b < 64 := by omega
    have hge : ¬ 8 * i + b < 8 * k := by omega
    simp [hin, hlt, hge]
  · rw [if_neg hin, getLsbD_leByte _ _ hb]
    simp [hin]

end Mmu

/-! ## Memory operations -/

section Rules

variable {address : U64} {ops : List BasicOp} {cpu cpu' : Cpu}

theorem runOps_append (ops ops' : List BasicOp) :
    runOps address (ops ++ ops') cpu = (runOps address ops cpu).bind (runOps address ops') := by
  induction ops generalizing cpu with
  | nil => rfl
  | cons op ops ih =>
    simp only [List.cons_append, runOps, Option.bind_eq_bind, Option.bind_assoc, ih]

theorem runOps_LD {o : FormatLoad} (h : runOps address (.LD o :: ops) cpu = .some cpu') :
    let ea := (cpu.x.read o.rs1 + (o.imm.setWidth 32).signExtend 64).toNat
    ea % 8 = 0 ∧ ∃ mmu, cpu.mmu ≈ mmu ∧
      runOps address ops ({ cpu with mmu := mmu }.writeRegister o.rd (cpu.mmu.dword ea)) =
        .some cpu' := by
  intro ea
  rw [runOps] at h
  obtain ⟨⟨access, cpu1⟩, hexec, h⟩ := Option.bind_eq_some_iff.mp h
  obtain ⟨⟨⟨value, r⟩, cpu2⟩, hload, hrest⟩ := Option.bind_eq_some_iff.mp hexec
  obtain ⟨⟨⟨value', r'⟩, mmu⟩, hmmu, heq⟩ := Option.bind_eq_some_iff.mp hload
  cases heq
  cases hrest
  obtain ⟨⟨h8, -⟩, hvalue, hsame⟩ := (Mmu.loadDoubleword_reads (BitVec.isLt _)).some hmmu
  cases hvalue
  exact ⟨h8, mmu, hsame, h⟩

theorem runOps_SD {o : FormatS} (h : runOps address (.SD o :: ops) cpu = .some cpu') :
    let ea := (cpu.x.read o.rs1 + o.imm).toNat
    ea % 8 = 0 ∧ cpu.mmu.FieldStorable 8 ea ∧
      ∃ mmu, cpu.mmu.storedField 8 ea (cpu.x.read o.rs2) ≈ mmu ∧
        runOps address ops { cpu with mmu := mmu } = .some cpu' := by
  intro ea
  rw [runOps] at h
  obtain ⟨⟨access, cpu1⟩, hexec, h⟩ := Option.bind_eq_some_iff.mp h
  obtain ⟨⟨w, cpu2⟩, hstore, hrest⟩ := Option.bind_eq_some_iff.mp hexec
  obtain ⟨⟨w', mmu⟩, hmmu, heq⟩ := Option.bind_eq_some_iff.mp hstore
  cases heq
  cases hrest
  obtain ⟨⟨h8, hst⟩, -, hsame⟩ := (Mmu.storeDoubleword_acts (BitVec.isLt _) _).some hmmu
  exact ⟨h8, hst, mmu, hsame, h⟩

end Rules

/-! ## Addresses of words -/

theorem and_dwordMask (a : U64) : (a &&& dwordMask).toNat = a.toNat / 8 * 8 := by
  have hbits : ∀ i < 64, dwordMask.getLsbD i = decide (3 ≤ i) := by decide
  have hshift : a &&& dwordMask = (a >>> 3) <<< 3 := by
    refine BitVec.eq_of_getLsbD_eq fun i hi => ?_
    rw [BitVec.getLsbD_and, hbits i hi, BitVec.getLsbD_shiftLeft, BitVec.getLsbD_ushiftRight]
    by_cases h3 : 3 ≤ i
    · simp [h3, hi, show ¬ i < 3 by omega, show 3 + (i - 3) = i by omega]
    · simp [h3, show i < 3 by omega]
  have ha := a.isLt
  rw [hshift, BitVec.toNat_shiftLeft, BitVec.toNat_ushiftRight, Nat.shiftLeft_eq,
    Nat.shiftRight_eq_div_pow]
  omega

theorem word_aligned {a : U64} (h : AlignOp.holds .VirtualAssertWordAlignment a = true) :
    a.toNat % 4 = 0 := by
  simp only [AlignOp.holds, beq_iff_eq] at h
  have hnat := congrArg BitVec.toNat h
  rw [BitVec.toNat_and] at hnat
  exact (Nat.and_two_pow_sub_one_eq_mod a.toNat 2).symm.trans hnat

/-- The address the sequences store the doubleword to. -/
theorem dword_address (x imm : U64) :
    (IOp.eval .ANDI (IOp.eval .ADDI x imm) dwordMask + 0).toNat = (x + imm).toNat / 8 * 8 := by
  rw [add_zero]
  exact and_dwordMask (x + imm)

/-- The same address, as `LD` takes its immediate. -/
theorem ld_address (x imm : U64) :
    (IOp.eval .ANDI (IOp.eval .ADDI x imm) dwordMask +
      BitVec.signExtend 64 (BitVec.setWidth 32 (0 : U64))).toNat = (x + imm).toNat / 8 * 8 :=
  dword_address x imm

/-- The distance of a word in bits, which the sequences shift by. -/
theorem word_distance (a : U64) :
    (IOp.eval .VirtualMULI a ((1 : U64) <<< ((3 : U64) &&& 0x3f).toNat)).toNat % 64 =
      8 * (a.toNat % 8) := by
  have hmul : IOp.eval .VirtualMULI a ((1 : U64) <<< ((3 : U64) &&& 0x3f).toNat) = a <<< 3 :=
    mul_one_shiftLeft a 3
  rw [hmul, BitVec.toNat_shiftLeft, Nat.shiftLeft_eq]
  omega

/-- The mask of a word. -/
theorem word_mask :
    ShiftIOp.eval .VirtualSRLI (IOp.eval .ORI 0 (-1)) (shiftRightBitmask ((32 : U64) &&& 0x3f).toNat) =
      (-1 : U64) >>> 32 :=
  eval_srli (-1) (by decide)

/-! ## The word sequences -/

section Words

variable {address : U64} {cpu cpu' : Cpu} {next : Nat}

/-- `LW`: the word goes to `rd`, sign-extended. -/
theorem run_LW {o : FormatLoad} (hd : o.rd < next) (h0 : o.rd ≠ 0)
    (h : runOps address (LW.inlineSequence o next) cpu = .some cpu') :
    let ea := (cpu.x.read o.rs1 + o.imm).toNat
    ea % 4 = 0 ∧ cpu.mmu ≈ cpu'.mmu ∧
      cpu'.x.read o.rd = (cpu.mmu.field 32 ea).signExtend 64 ∧
      ∀ k < next, k ≠ o.rd → cpu'.x.read k = cpu.x.read k := by
  intro ea
  simp only [LW.inlineSequence, loadDword, SLLI.inlineSequence, SRL.inlineSequence,
    rightShiftSequence, List.flatten_cons, List.flatten_nil, List.cons_append, List.nil_append,
    runOps_align] at h
  split_ifs at h with halign
  simp (disch := omega) only [runOps_i, Cpu.writeRegister_x, Registers.read_write_self] at h
  obtain ⟨-, mmu, hsame, h⟩ := runOps_LD h
  simp (disch := omega) only [runOps_i, runOps_shiftR, runOps_nil, Cpu.writeRegister_x,
    Registers.read_write_self, Registers.read_write_ne, Option.some.injEq] at h
  subst h
  refine ⟨word_aligned halign, hsame, ?_, fun k hk hne => ?_⟩
  · simp (disch := omega) only [Cpu.writeRegister_x, Cpu.writeRegister_mmu,
      Registers.read_write_self, eval_signExtendWord, eval_srl, ld_address, word_distance]
    rfl
  · simp (disch := omega) only [Cpu.writeRegister_x, Registers.read_write_ne]

/-- `SW`: the word at the address becomes the low word of `rs2`. -/
theorem run_SW {o : FormatS} (h2 : o.rs2 < next) (hnext : 0 < next)
    (h : runOps address (SW.inlineSequence o next) cpu = .some cpu') :
    let ea := (cpu.x.read o.rs1 + o.imm).toNat
    ea % 4 = 0 ∧
      (cpu.mmu.Plain ea → ∀ b, cpu'.mmu.byte b =
        if ea ≤ b ∧ b < ea + 4 then leByte (cpu.x.read o.rs2) (b - ea) else cpu.mmu.byte b) ∧
      ∀ k < next, cpu'.x.read k = cpu.x.read k := by
  intro ea
  simp only [SW.inlineSequence, loadDword, SLLI.inlineSequence, SRLI.inlineSequence,
    SLL.inlineSequence, rightShiftISequence, List.flatten_cons, List.flatten_nil, List.cons_append,
    List.nil_append, runOps_align] at h
  split_ifs at h with halign
  simp (disch := omega) only [runOps_i, Cpu.writeRegister_x, Registers.read_write_self] at h
  obtain ⟨-, mmu, hsame, h⟩ := runOps_LD h
  simp (disch := omega) only [runOps_i, runOps_r, runOps_shiftI, Cpu.writeRegister_x,
    Registers.read_write_self, Registers.read_write_ne] at h
  obtain ⟨h8, hst, mmu', hsame', h⟩ := runOps_SD h
  simp (disch := omega) only [Cpu.writeRegister_x, Cpu.writeRegister_mmu, eval_xor,
    Registers.read_write_self, Registers.read_write_ne, eval_sll, word_mask, Registers.read_zero,
    dword_address, ld_address] at h8 hst hsame' hsame
  simp only [runOps_nil, Option.some.injEq] at h
  subst h
  have h4 : ea % 4 = 0 := word_aligned halign
  refine ⟨h4, fun hplain b => ?_, fun k hk => ?_⟩
  · have hdistance : (IOp.eval .VirtualMULI (IOp.eval .ADDI (cpu.x.read o.rs1) o.imm)
        ((1 : U64) <<< ((3 : U64) &&& 0x3f).toNat)).toNat % 64 = 8 * (ea % 8) := word_distance _
    rw [hdistance] at hsame'
    change mmu'.byte b = _
    rw [← Mmu.byte_congr hsame',
      Mmu.byte_storedField h8 hst ((Mmu.plain_congr hsame).mp hplain).aligned,
      ← Mmu.byte_congr hsame]
    by_cases hin : ea / 8 * 8 ≤ b ∧ b < ea / 8 * 8 + 8
    · rw [if_pos hin]
      refine (Mmu.word_blend_byte _ _ (by omega)).trans ?_
      rw [Mmu.leByte_dword _ _ (by omega), show ea / 8 * 8 + (b - ea / 8 * 8) = b by omega]
      by_cases hword : ea ≤ b ∧ b < ea + 4
      · rw [if_pos (by omega), if_pos hword, show b - ea / 8 * 8 - ea % 8 = b - ea by omega]
      · rw [if_neg (by omega), if_neg hword]
    · rw [if_neg hin, if_neg (by omega)]
  · simp (disch := omega) only [Cpu.writeRegister_x, Registers.read_write_ne]

end Words

end LightningJolt
