/-
The sequences of the loads, the stores and the atomics
(`tracer/src/instruction`), which touch memory by aligned doublewords only:
what each leaves in `rd`, in memory and in the registers around it.
-/
import LightningJolt.FieldStores

namespace LightningJolt

open Fallible

/-- But for `rd` and memory, what a sequence leaves of the processor: the
registers below those it allocates, and all that is not a register. -/
structure Framed (next : Nat) (rd : Option Nat) (cpu cpu' : Cpu) : Prop where
  others : ∀ k < next, .some k ≠ rd → cpu'.x.read k = cpu.x.read k
  frame : cpu' = { cpu with x := cpu'.x, mmu := cpu'.mmu }

/-! ## Values -/

/-- A field shifted to the top of its doubleword and back down. -/
theorem shift_field (d : U64) {k n w : Nat} (hw : w = 8 * n) (hin : k + n ≤ 8) :
    (d <<< (8 * (8 - n - k))) >>> (64 - 8 * n) = ((d >>> (8 * k)).setWidth w).setWidth 64 := by
  refine BitVec.eq_of_getLsbD_eq fun i hi => ?_
  rw [BitVec.getLsbD_ushiftRight, BitVec.getLsbD_shiftLeft, BitVec.getLsbD_setWidth,
    BitVec.getLsbD_setWidth, BitVec.getLsbD_ushiftRight]
  by_cases hlow : i < w
  · have hge : ¬ 64 - 8 * n + i < 8 * (8 - n - k) := by omega
    have hlt : 64 - 8 * n + i < 64 := by omega
    simp only [hlow, hge, hlt, hi, decide_true, decide_false, Bool.not_false, Bool.true_and]
    rw [show 64 - 8 * n + i - 8 * (8 - n - k) = 8 * k + i by omega]
  · have hge : ¬ 64 - 8 * n + i < 64 := by omega
    simp [hlow, hge]

/-- The same shifts, the way back arithmetic. -/
theorem sshift_field (d : U64) {k n w : Nat} (hw : w = 8 * n) (hn : 0 < n) (hin : k + n ≤ 8) :
    (d <<< (8 * (8 - n - k))).sshiftRight (64 - 8 * n) =
      ((d >>> (8 * k)).setWidth w).signExtend 64 := by
  have hmsb : (d <<< (8 * (8 - n - k))).msb = ((d >>> (8 * k)).setWidth w).msb := by
    rw [BitVec.msb_eq_getLsbD_last, BitVec.msb_eq_getLsbD_last, BitVec.getLsbD_shiftLeft,
      BitVec.getLsbD_setWidth, BitVec.getLsbD_ushiftRight]
    have hlt : w - 1 < w := by omega
    have hge : ¬ 64 - 1 < 8 * (8 - n - k) := by omega
    simp only [hge, hlt, decide_true, decide_false, Bool.not_false, Bool.true_and,
      show 64 - 1 < 64 by omega]
    rw [show 64 - 1 - 8 * (8 - n - k) = 8 * k + (w - 1) by omega]
  have hlogical := shift_field d hw hin
  refine BitVec.eq_of_getLsbD_eq fun i hi => ?_
  have hbit := congrArg (fun x => x.getLsbD i) hlogical
  simp only [BitVec.getLsbD_ushiftRight, BitVec.getLsbD_setWidth, hi, decide_true,
    Bool.true_and] at hbit
  rw [BitVec.getLsbD_sshiftRight, BitVec.getLsbD_signExtend, hmsb]
  by_cases hlow : i < w
  · have hlt : 64 - 8 * n + i < 64 := by omega
    rw [if_pos hlt, if_pos hlow, hbit]
    simp [hi, hlow, show ¬ 64 ≤ i by omega]
  · have hge : ¬ 64 - 8 * n + i < 64 := by omega
    rw [if_neg hge, if_neg hlow]
    simp [hi, show ¬ 64 ≤ i by omega]

/-- Exclusive-or turns the offset of a field into its distance from the top. -/
theorem flip_distance {n : Nat} {flip : U64} (a : U64)
    (h : n = 1 ∧ flip = 7 ∨ n = 2 ∧ flip = 6 ∨ n = 4 ∧ flip = 4) (ha : a.toNat % n = 0) :
    (a ^^^ flip).toNat % 8 = 8 - n - a.toNat % 8 := by
  have hmod : (a ^^^ flip).toNat % 2 ^ 3 = a.toNat % 2 ^ 3 ^^^ flip.toNat % 2 ^ 3 := by
    rw [BitVec.toNat_xor, Nat.xor_mod_two_pow]
  rw [show (8 : Nat) = 2 ^ 3 from rfl, hmod]
  have hlt : a.toNat % 2 ^ 3 < 8 := Nat.mod_lt _ (by decide)
  have hn : a.toNat % 2 ^ 3 % n = 0 := by
    rcases h with ⟨rfl, -⟩ | ⟨rfl, -⟩ | ⟨rfl, -⟩ <;> omega
  generalize a.toNat % 2 ^ 3 = k at hlt hn
  rcases h with ⟨rfl, rfl⟩ | ⟨rfl, rfl⟩ | ⟨rfl, rfl⟩ <;> revert hn <;> revert k <;> decide


/-- The blend of the sequences, by exclusive-ors and a shifted mask. -/
theorem xor_blend_byte (d v : U64) {k n i : Nat} (hk : k + n ≤ 8) (hi : i < 8) :
    leByte (d ^^^ ((d ^^^ (v <<< (8 * k))) &&& (Mmu.fieldMask n <<< (8 * k)))) i =
      if k ≤ i ∧ i < k + n then leByte v (i - k) else leByte d i := by
  refine BitVec.eq_of_getLsbD_eq fun b hb => ?_
  rw [getLsbD_leByte _ _ hb, BitVec.getLsbD_xor, BitVec.getLsbD_and,
    Mmu.getLsbD_shiftedMask hk hi hb, BitVec.getLsbD_xor]
  by_cases hin : k ≤ i ∧ i < k + n
  · have hlt : 8 * i + b < 64 := by omega
    have hge : ¬ 8 * i + b < 8 * k := by omega
    rw [if_pos hin, getLsbD_leByte _ _ hb, BitVec.getLsbD_shiftLeft,
      show 8 * i + b - 8 * k = 8 * (i - k) + b by omega]
    simp [hin, hlt, hge]
  · rw [if_neg hin, getLsbD_leByte _ _ hb]
    simp [hin]

/-- What the sequences store is the doubleword with the field replaced. -/
theorem Mmu.blended_xor (m : Mmu) {n ea : Nat} (v : U64) (hin : ea % 8 + n ≤ 8) :
    m.Blended n ea v (m.dword (ea / 8 * 8) ^^^
      ((m.dword (ea / 8 * 8) ^^^ (v <<< (8 * (ea % 8)))) &&&
        (Mmu.fieldMask n <<< (8 * (ea % 8))))) := by
  intro i hi
  rw [xor_blend_byte _ _ hin hi, Mmu.leByte_dword _ _ hi]

/-- `m'` is `m` after a store of the doubleword around `ea` with the `n` bytes
of `v` blended in. -/
def Mmu.BlendStored (m : Mmu) (n ea : Nat) (v : U64) (m' : Mmu) : Prop :=
  m.FieldStorable 8 (ea / 8 * 8) ∧
    ∃ w, m.Blended n ea v w ∧ m.storedField 8 (ea / 8 * 8) w ≈ m'

/-- A store rule for the sequences: the doubleword goes to `d` and its blend is
stored, after the memory was read from, which is no change. -/
theorem Mmu.blendStored {m mmu m' : Mmu} {n ea : Nat} {v : U64} (hin : ea % 8 + n ≤ 8)
    (hsame : m ≈ mmu) (hst : mmu.FieldStorable 8 (ea / 8 * 8))
    (h : mmu.storedField 8 (ea / 8 * 8) (m.dword (ea / 8 * 8) ^^^
      ((m.dword (ea / 8 * 8) ^^^ (v <<< (8 * (ea % 8)))) &&&
        (Mmu.fieldMask n <<< (8 * (ea % 8))))) ≈ m') : m.BlendStored n ea v m' := by
  have hst' := (Mmu.fieldStorable_congr hsame).mpr hst
  exact ⟨hst', _, m.blended_xor v hin, Setoid.trans
    (Mmu.storedField_congr hsame fun hram => Mmu.deviceStorable_of_field hst' hram) h⟩

/-- Of the value only the field's own bytes count. -/
theorem Mmu.BlendStored.truncate {m m' : Mmu} {n k ea : Nat} {v : U64} (hk : k = 8 * n) (hn : n ≤ 8)
    (h : m.BlendStored n ea v m') : m.BlendStored n ea ((v.setWidth k).setWidth 64) m' := by
  obtain ⟨hst, x, hx, hsame⟩ := h
  refine ⟨hst, x, fun i hi => ?_, hsame⟩
  rw [hx i hi]
  by_cases hin : ea % 8 ≤ i ∧ i < ea % 8 + n
  · rw [if_pos hin, if_pos hin, leByte_truncate v hk hn (by omega)]
  · rw [if_neg hin, if_neg hin]

/-- The store of the field itself leaves the same memory, the tail of the
panic doubleword apart. -/
theorem Mmu.BlendStored.equiv_iff {m m' mmu : Mmu} {n ea : Nat} {v : U64} (hn : 0 < n)
    (hin : ea % 8 + n ≤ 8) (h : m.BlendStored n ea v m') (hmmu : m.storedField n ea v ≈ mmu) :
    m' ≈ mmu ↔ ¬ m.PanicTail ea := by
  obtain ⟨hst, w, hw, hsame⟩ := h
  rw [← Mmu.storedField_blended hn hin hst hw]
  exact ⟨fun h => Setoid.trans hsame (Setoid.trans h (Setoid.symm hmmu)),
    fun h => Setoid.trans (Setoid.symm hsame) (Setoid.trans h hmmu)⟩

/-- The bytes it leaves. -/
theorem Mmu.BlendStored.byte {m m' : Mmu} {n ea : Nat} {v : U64} (hin : ea % 8 + n ≤ 8)
    (h : m.BlendStored n ea v m') (hplain : m.Plain ea) (b : Nat) :
    m'.byte b = if ea ≤ b ∧ b < ea + n then leByte v (b - ea) else m.byte b := by
  obtain ⟨hst, w, hw, hsame⟩ := h
  rw [← Mmu.byte_congr hsame, Mmu.byte_blended hin hst hplain hw]

/-- The store of a doubleword is one of all its bytes. -/
theorem Mmu.BlendStored.dword {m m' : Mmu} {ea : Nat} {v : U64} (h8 : ea % 8 = 0)
    (hst : m.FieldStorable 8 ea) (h : m.storedField 8 ea v ≈ m') : m.BlendStored 8 ea v m' := by
  have hea : ea / 8 * 8 = ea := by omega
  rw [← hea] at hst h
  exact ⟨hst, v, fun i hi => by rw [if_pos (by omega), h8, Nat.sub_zero], h⟩

/-! ## Loads and stores -/

section Accesses

variable {address : U64} {cpu cpu' : Cpu} {next : Nat}

/-- The loads by two shifts, the second one being `shift`. -/
theorem run_loadSequence (extend : U64 → U64) {flip amount : U64} {shift : FormatI → List BasicOp}
    (hshift : ∀ o cpu, o.imm = amount →
      runOps address (shift o) cpu = .some (cpu.writeRegister o.rd (extend (cpu.x.read o.rs1))))
    {o : FormatLoad} (hd : o.rd < next) (h0 : o.rd ≠ 0)
    (h : runOps address (loadSequence flip shift amount o next) cpu = .some cpu') :
    let ea := cpu.x.read o.rs1 + o.imm
    cpu.mmu ≈ cpu'.mmu ∧
      cpu'.x.read o.rd = extend (cpu.mmu.dword (ea.toNat / 8 * 8) <<< (8 * ((ea ^^^ flip).toNat % 8))) ∧
      Framed next (.some o.rd) cpu cpu' := by
  intro ea
  simp only [loadSequence, loadDword, SLLI.inlineSequence, SLL.inlineSequence,
    List.flatten_cons, List.flatten_nil, List.cons_append, List.nil_append, List.append_nil] at h
  simp (disch := omega) only [runOps_i, Cpu.writeRegister_x, Registers.read_write_self] at h
  obtain ⟨-, mmu, hsame, h⟩ := runOps_LD h
  simp (disch := omega) only [runOps_i, runOps_r, Cpu.writeRegister_x, Registers.read_write_self,
    Registers.read_write_ne, eval_sll] at h
  rw [hshift _ _ rfl, Option.some.injEq] at h
  subst h
  refine ⟨hsame, ?_, fun k hk hne => ?_, rfl⟩
  · simp (disch := omega) only [Cpu.writeRegister_x, Cpu.writeRegister_mmu,
      Registers.read_write_self, ld_address, word_distance]
    rfl
  · have hrd : k ≠ o.rd := fun h => hne (congrArg _ h)
    simp (disch := omega) only [Cpu.writeRegister_x, Registers.read_write_ne]

/-- `LW`, whose one shift leaves the word at the bottom. -/
theorem run_loadWord {o : FormatLoad} (hd : o.rd < next) (h0 : o.rd ≠ 0)
    (h : runOps address (LW.inlineSequence o next) cpu = .some cpu') :
    cpu.mmu ≈ cpu'.mmu ∧
      cpu'.x.read o.rd =
        (cpu.mmu.field 32 (cpu.x.read o.rs1 + o.imm).toNat).signExtend 64 ∧
      Framed next (.some o.rd) cpu cpu' := by
  obtain ⟨-, hsame, hvalue, hothers⟩ := run_LW hd h0 h
  refine ⟨hsame, hvalue, fun k hk hne => hothers k hk fun h => hne (congrArg _ h), ?_⟩
  simp only [LW.inlineSequence, loadDword, SLLI.inlineSequence, SRL.inlineSequence,
    rightShiftSequence, List.flatten_cons, List.flatten_nil, List.cons_append, List.nil_append,
    runOps_align] at h
  split_ifs at h
  simp only [runOps_i] at h
  obtain ⟨-, mmu, -, h⟩ := runOps_LD h
  simp only [runOps_i, runOps_shiftR, runOps_nil, Option.some.injEq] at h
  subst h
  rfl

/-- The stores of a byte and of a halfword. -/
theorem run_storeSequence (n : Nat) {o : FormatS} (h2 : o.rs2 < next) (hnext : 0 < next)
    (hin : (cpu.x.read o.rs1 + o.imm).toNat % 8 + n ≤ 8)
    (h : runOps address (storeSequence (Mmu.fieldMask n) o next) cpu = .some cpu') :
    cpu.mmu.BlendStored n (cpu.x.read o.rs1 + o.imm).toNat (cpu.x.read o.rs2) cpu'.mmu ∧
      Framed next .none cpu cpu' := by
  simp only [storeSequence, loadDword, SLLI.inlineSequence, SLL.inlineSequence,
    List.flatten_cons, List.flatten_nil, List.cons_append, List.nil_append, List.append_nil] at h
  simp (disch := omega) only [runOps_i, Cpu.writeRegister_x, Registers.read_write_self] at h
  obtain ⟨-, mmu, hsame, h⟩ := runOps_LD h
  simp (disch := omega) only [runOps_i, runOps_r, runOps_u, Cpu.writeRegister_x,
    Registers.read_write_self, Registers.read_write_ne] at h
  obtain ⟨h8, hst, mmu', hsame', h⟩ := runOps_SD h
  simp (disch := omega) only [Cpu.writeRegister_x, Cpu.writeRegister_mmu, eval_xor, eval_sll,
    Registers.read_write_self, Registers.read_write_ne, dword_address, ld_address,
    word_distance] at h8 hst hsame' hsame
  simp only [runOps_nil, Option.some.injEq] at h
  subst h
  refine ⟨Mmu.blendStored hin hsame hst hsame', fun k hk _ => ?_, rfl⟩
  simp (disch := omega) only [Cpu.writeRegister_x, Registers.read_write_ne]

theorem run_storeWord {o : FormatS} (h2 : o.rs2 < next) (hnext : 0 < next)
    (h : runOps address (SW.inlineSequence o next) cpu = .some cpu') :
    (cpu.x.read o.rs1 + o.imm).toNat % 4 = 0 ∧
      cpu.mmu.BlendStored 4 (cpu.x.read o.rs1 + o.imm).toNat (cpu.x.read o.rs2) cpu'.mmu ∧
      Framed next .none cpu cpu' := by
  have hmask : (-1 : U64) >>> 32 = Mmu.fieldMask 4 := by decide
  simp only [SW.inlineSequence, loadDword, SLLI.inlineSequence, SRLI.inlineSequence,
    SLL.inlineSequence, rightShiftISequence, List.flatten_cons, List.flatten_nil, List.cons_append,
    List.nil_append, runOps_align] at h
  split_ifs at h with halign
  simp (disch := omega) only [runOps_i, Cpu.writeRegister_x, Registers.read_write_self] at h
  obtain ⟨-, mmu, hsame, h⟩ := runOps_LD h
  simp (disch := omega) only [runOps_i, runOps_r, runOps_shiftI, Cpu.writeRegister_x,
    Registers.read_write_self, Registers.read_write_ne] at h
  obtain ⟨h8, hst, mmu', hsame', h⟩ := runOps_SD h
  simp (disch := omega) only [Cpu.writeRegister_x, Cpu.writeRegister_mmu, eval_xor,
    Registers.read_write_self, Registers.read_write_ne, eval_sll, word_mask, Registers.read_zero,
    dword_address, ld_address, word_distance, hmask] at h8 hst hsame' hsame
  simp only [runOps_nil, Option.some.injEq] at h
  subst h
  have h4 := word_aligned halign
  refine ⟨h4, Mmu.blendStored (by omega) hsame hst hsame', fun k hk _ => ?_, rfl⟩
  simp (disch := omega) only [Cpu.writeRegister_x, Registers.read_write_ne]

/-- The bytes a load takes. -/
def LoadOp.numBytes : LoadOp → Nat
  | .LB | .LBU => 1
  | .LH | .LHU => 2
  | .LW | .LWU => 4

/-- What a load writes to `rd`. -/
def LoadOp.value (op : LoadOp) (m : Mmu) (ea : Nat) : U64 :=
  match op with
  | .LB => (m.field 8 ea).signExtend 64
  | .LBU => (m.field 8 ea).setWidth 64
  | .LH => (m.field 16 ea).signExtend 64
  | .LHU => (m.field 16 ea).setWidth 64
  | .LW => (m.field 32 ea).signExtend 64
  | .LWU => (m.field 32 ea).setWidth 64

def StoreOp.numBytes : StoreOp → Nat
  | .SB => 1
  | .SH => 2
  | .SW => 4

theorem run_SRLI {amount : U64} {s : Nat} (hs : (amount &&& 0x3f).toNat = s) (o : FormatI) (cpu : Cpu)
    (ho : o.imm = amount) :
    runOps address (SRLI.inlineSequence o) cpu =
      .some (cpu.writeRegister o.rd (cpu.x.read o.rs1 >>> s)) := by
  have himm := and_0x3f_lt amount
  rw [hs] at himm
  simp only [SRLI.inlineSequence, rightShiftISequence, runOps_shiftI, runOps_nil, ho, hs,
    eval_srli _ himm]

theorem run_SRAI {amount : U64} {s : Nat} (hs : (amount &&& 0x3f).toNat = s) (o : FormatI) (cpu : Cpu)
    (ho : o.imm = amount) :
    runOps address (SRAI.inlineSequence o) cpu =
      .some (cpu.writeRegister o.rd ((cpu.x.read o.rs1).sshiftRight s)) := by
  have himm := and_0x3f_lt amount
  rw [hs] at himm
  simp only [SRAI.inlineSequence, rightShiftISequence, runOps_shiftI, runOps_nil, ho, hs,
    eval_srai _ himm]

/-- Every load: the field at an address that is a multiple of its size. -/
theorem run_load {op : LoadOp} {o : FormatLoad} (hd : o.rd < next) (h0 : o.rd ≠ 0)
    (haligned : (cpu.x.read o.rs1 + o.imm).toNat % op.numBytes = 0)
    (h : runOps address (op.inlineSequence o next) cpu = .some cpu') :
    cpu.mmu ≈ cpu'.mmu ∧
      cpu'.x.read o.rd = op.value cpu.mmu (cpu.x.read o.rs1 + o.imm).toNat ∧
      Framed next (.some o.rd) cpu cpu' := by
  cases op with
  | LB =>
    obtain ⟨hsame, hvalue, hframe⟩ := run_loadSequence (·.sshiftRight 56) (run_SRAI rfl) hd h0 h
    rw [flip_distance (n := 1) _ (by simp) haligned] at hvalue
    exact ⟨hsame, hvalue.trans (sshift_field _ (n := 1) rfl (by decide) (by omega)), hframe⟩
  | LBU =>
    obtain ⟨hsame, hvalue, hframe⟩ := run_loadSequence (·.ushiftRight 56) (run_SRLI rfl) hd h0 h
    rw [flip_distance (n := 1) _ (by simp) haligned] at hvalue
    exact ⟨hsame, hvalue.trans (shift_field _ (n := 1) rfl (by omega)), hframe⟩
  | LH =>
    rw [LoadOp.numBytes] at haligned
    simp only [LoadOp.inlineSequence, LH.inlineSequence, runOps_align] at h
    split_ifs at h
    obtain ⟨hsame, hvalue, hframe⟩ := run_loadSequence (·.sshiftRight 48) (run_SRAI rfl) hd h0 h
    rw [flip_distance (n := 2) _ (by simp) haligned] at hvalue
    exact ⟨hsame, hvalue.trans (sshift_field _ (n := 2) rfl (by decide) (by omega)), hframe⟩
  | LHU =>
    rw [LoadOp.numBytes] at haligned
    simp only [LoadOp.inlineSequence, LHU.inlineSequence, runOps_align] at h
    split_ifs at h
    obtain ⟨hsame, hvalue, hframe⟩ := run_loadSequence (·.ushiftRight 48) (run_SRLI rfl) hd h0 h
    rw [flip_distance (n := 2) _ (by simp) haligned] at hvalue
    exact ⟨hsame, hvalue.trans (shift_field _ (n := 2) rfl (by omega)), hframe⟩
  | LW => exact run_loadWord hd h0 h
  | LWU =>
    rw [LoadOp.numBytes] at haligned
    simp only [LoadOp.inlineSequence, LWU.inlineSequence, runOps_align] at h
    split_ifs at h
    obtain ⟨hsame, hvalue, hframe⟩ := run_loadSequence (·.ushiftRight 32) (run_SRLI rfl) hd h0 h
    rw [flip_distance (n := 4) _ (by simp) haligned] at hvalue
    exact ⟨hsame, hvalue.trans (shift_field _ (n := 4) rfl (by omega)), hframe⟩

/-- Every store. -/
theorem run_store {op : StoreOp} {o : FormatS} (h2 : o.rs2 < next) (hnext : 0 < next)
    (haligned : (cpu.x.read o.rs1 + o.imm).toNat % op.numBytes = 0)
    (h : runOps address (op.inlineSequence o next) cpu = .some cpu') :
    cpu.mmu.BlendStored op.numBytes (cpu.x.read o.rs1 + o.imm).toNat (cpu.x.read o.rs2) cpu'.mmu ∧
      Framed next .none cpu cpu' := by
  cases op with
  | SB =>
    have hmask : (0xff : U64) = Mmu.fieldMask 1 := by decide
    simp only [StoreOp.inlineSequence, SB.inlineSequence, hmask] at h
    exact run_storeSequence 1 h2 hnext (by omega) h
  | SH =>
    have hmask : (0xffff : U64) = Mmu.fieldMask 2 := by decide
    rw [StoreOp.numBytes] at haligned
    simp only [StoreOp.inlineSequence, SH.inlineSequence, runOps_align, hmask] at h
    split_ifs at h
    exact run_storeSequence 2 h2 hnext (by omega) h
  | SW => exact (run_storeWord h2 hnext h).2

/-! ## Atomics -/

theorem Framed.trans {first : Nat} {rd : Option Nat} {cpu1 : Cpu} (h : Framed first .none cpu cpu1)
    (h' : Framed first rd cpu1 cpu') : Framed first rd cpu cpu' := by
  refine ⟨fun k hk hne => ?_, ?_⟩
  · rw [h'.others k hk hne, h.others k hk (by simp)]
  · rw [h'.frame, h.frame]

/-- The word atomics between their two halves: the doubleword is in `dword`,
the word at the bottom of `rd`, its distance in bits in `shift`. -/
structure AmoRead (rs1 rd dword shift next : Nat) (cpu cpu1 : Cpu) : Prop where
  aligned : (cpu.x.read rs1).toNat % 4 = 0
  memory : cpu.mmu ≈ cpu1.mmu
  old : cpu1.x.read rd =
    cpu.mmu.dword ((cpu.x.read rs1).toNat / 8 * 8) >>> (8 * ((cpu.x.read rs1).toNat % 8))
  dword : cpu1.x.read dword = cpu.mmu.dword ((cpu.x.read rs1).toNat / 8 * 8)
  distance : (cpu1.x.read shift).toNat % 64 = 8 * ((cpu.x.read rs1).toNat % 8)
  framed : Framed next .none cpu cpu1

theorem run_amoPre64 {ops : List BasicOp} {first rs1 rd dword shift : Nat} (h1 : rs1 < first)
    (hrd : first ≤ rd) (hdword : first ≤ dword) (hshift : first ≤ shift) (hnext : first ≤ next)
    (hds : dword ≠ shift) (hrds : rd ≠ shift) (hrdd : rd ≠ dword) (hns : next ≠ shift)
    (hnd : next ≠ dword)
    (h : runOps address (amoPre64 rs1 rd dword shift next ++ ops) cpu = .some cpu') :
    ∃ cpu1, AmoRead rs1 rd dword shift first cpu cpu1 ∧ runOps address ops cpu1 = .some cpu' := by
  simp only [amoPre64, SLLI.inlineSequence, SRL.inlineSequence, rightShiftSequence,
    List.flatten_cons, List.flatten_nil, List.cons_append, List.nil_append, runOps_align] at h
  split_ifs at h with halign
  rw [runOps_i] at h
  obtain ⟨-, mmu, hsame, h⟩ := runOps_LD h
  simp (disch := omega) only [runOps_i, runOps_shiftR, Cpu.writeRegister_x,
    Registers.read_write_self, Registers.read_write_ne, eval_srl] at h
  have h4 : (cpu.x.read rs1).toNat % 4 = 0 := by
    have hword := word_aligned halign
    rwa [show cpu.x.read rs1 + 0 = cpu.x.read rs1 from add_zero _] at hword
  have haddress : (IOp.eval .ANDI (cpu.x.read rs1) dwordMask +
      BitVec.signExtend 64 (BitVec.setWidth 32 (0 : U64))).toNat =
        (cpu.x.read rs1).toNat / 8 * 8 :=
    (congrArg BitVec.toNat (add_zero _)).trans (and_dwordMask _)
  refine ⟨_, ⟨h4, ?_, ?_, ?_, ?_, ⟨fun k hk _ => ?_, ?_⟩⟩, h⟩
  · exact hsame
  · simp (disch := omega) only [Cpu.writeRegister_x, Cpu.writeRegister_mmu,
      Registers.read_write_self, haddress, word_distance]
  · simp (disch := omega) only [Cpu.writeRegister_x, Cpu.writeRegister_mmu,
      Registers.read_write_self, Registers.read_write_ne, haddress]
  · simp (disch := omega) only [Cpu.writeRegister_x, Registers.read_write_self,
      Registers.read_write_ne]
    exact word_distance _
  · simp (disch := omega) only [Cpu.writeRegister_x, Registers.read_write_ne]
  · rfl

/-- The operations between the halves write other registers. -/
theorem AmoRead.write {rs1 rd dword shift k : Nat} {cpu1 : Cpu} {v : U64}
    (h : AmoRead rs1 rd dword shift next cpu cpu1) (hk : next ≤ k) (hrd : k ≠ rd) (hd : k ≠ dword)
    (hs : k ≠ shift) : AmoRead rs1 rd dword shift next cpu (cpu1.writeRegister k v) where
  aligned := h.aligned
  memory := h.memory
  old := by rw [Cpu.writeRegister_x, Registers.read_write_ne _ _ (Ne.symm hrd), h.old]
  dword := by rw [Cpu.writeRegister_x, Registers.read_write_ne _ _ (Ne.symm hd), h.dword]
  distance := by rw [Cpu.writeRegister_x, Registers.read_write_ne _ _ (Ne.symm hs), h.distance]
  framed := by
    refine ⟨fun j hj hne => ?_, ?_⟩
    · rw [Cpu.writeRegister_x, Registers.read_write_ne _ _ (by omega), h.framed.others j hj hne]
    · rw [h.framed.frame]
      rfl

theorem Mmu.dword_congr {m m' : Mmu} (h : m ≈ m') (ea : Nat) : m.dword ea = m'.dword ea := by
  rw [Mmu.dword, Mmu.dword, Mmu.byte_congr h]

theorem Mmu.BlendStored.congr {m mmu m' : Mmu} {n ea : Nat} {v : U64} (h : m ≈ mmu)
    (hst : mmu.BlendStored n ea v m') : m.BlendStored n ea v m' := by
  obtain ⟨hst, x, hx, hsame⟩ := hst
  have hst' := (Mmu.fieldStorable_congr h).mpr hst
  refine ⟨hst', x, fun i hi => ?_, Setoid.trans
    (Mmu.storedField_congr h fun hram => Mmu.deviceStorable_of_field hst' hram) hsame⟩
  rw [hx i hi, Mmu.byte_congr h]

/-- What a word atomic leaves. -/
structure AmoWord (op : AmoOp) (o : FormatR) (next : Nat) (cpu cpu' : Cpu) : Prop where
  aligned : (cpu.x.read o.rs1).toNat % 4 = 0
  memory : cpu.mmu.BlendStored 4 (cpu.x.read o.rs1).toNat
    ((op.eval (cpu.mmu.field 32 (cpu.x.read o.rs1).toNat)
      (lowWord (cpu.x.read o.rs2))).setWidth 64) cpu'.mmu
  rd : cpu'.x.read o.rd = (cpu.mmu.field 32 (cpu.x.read o.rs1).toNat).signExtend 64
  framed : Framed next (.some o.rd) cpu cpu'

variable {o : FormatR}

/-- The second half: the word of `rs2` stored, and the old one in `rd`. -/
theorem run_amoPost64 {op : AmoOp} {rs2 dword shift mask vRd first : Nat} {cpu1 : Cpu}
    (hr : AmoRead o.rs1 vRd dword shift first cpu cpu1) (hrd : o.rd < first) (h0 : o.rd ≠ 0)
    (h1 : o.rs1 < first) (hdword : first ≤ dword) (hshift : first ≤ shift) (hmask : first ≤ mask)
    (hnext : first ≤ next) (hds : dword ≠ shift) (hdm : dword ≠ mask) (hdn : dword ≠ next)
    (hsm : shift ≠ mask) (hsn : shift ≠ next) (hmn : mask ≠ next) (h2m : rs2 ≠ mask)
    (h2n : rs2 ≠ next) (hvd : vRd ≠ dword) (hvs : vRd ≠ shift) (hvm : vRd ≠ mask) (hvn : vRd ≠ next)
    (hvalue : lowWord (cpu1.x.read rs2) =
      op.eval (lowWord (cpu1.x.read vRd)) (lowWord (cpu.x.read o.rs2)))
    (h : runOps address (amoPost64 o.rs1 rs2 dword shift mask o.rd vRd next) cpu1 = .some cpu') :
    AmoWord op o first cpu cpu' := by
  have hones : (-1 : U64) >>> 32 = Mmu.fieldMask 4 := by decide
  have hs1 := hr.framed.others o.rs1 h1 (by simp)
  have hd := hr.dword.trans (Mmu.dword_congr hr.memory _)
  have h4 := hr.aligned
  simp only [amoPost64, SRLI.inlineSequence, SLL.inlineSequence, rightShiftISequence,
    List.flatten_cons, List.flatten_nil, List.cons_append, List.nil_append] at h
  simp (disch := omega) only [runOps_i, runOps_r, runOps_shiftI, Cpu.writeRegister_x,
    Registers.read_write_self, Registers.read_write_ne] at h
  obtain ⟨h8, hst, mmu', hsame, h⟩ := runOps_SD h
  have haddress : (IOp.eval .ANDI (cpu.x.read o.rs1) dwordMask + 0).toNat =
      (cpu.x.read o.rs1).toNat / 8 * 8 :=
    (congrArg BitVec.toNat (add_zero _)).trans (and_dwordMask _)
  simp (disch := omega) only [Cpu.writeRegister_x, Cpu.writeRegister_mmu, eval_xor,
    Registers.read_write_self, Registers.read_write_ne, eval_sll, word_mask, Registers.read_zero,
    hs1, haddress, hr.distance, hd, hones] at h8 hst hsame
  simp (disch := omega) only [runOps_i, runOps_nil, Cpu.writeRegister_x, Registers.read_write_ne,
    Option.some.injEq] at h
  subst h
  have hold : lowWord (cpu1.x.read vRd) = cpu.mmu.field 32 (cpu.x.read o.rs1).toNat := by
    rw [hr.old]
    rfl
  rw [hold] at hvalue
  have hmem := ((Mmu.blendStored (by omega) (Setoid.refl _) hst hsame).congr hr.memory).truncate
    rfl (by decide)
  refine ⟨h4, ?_, ?_, hr.framed.trans ⟨fun k hk hne => ?_, rfl⟩⟩
  · rw [← hvalue]
    exact hmem
  · simp (disch := omega) only [Cpu.writeRegister_x, Registers.read_write_self,
      eval_signExtendWord]
    rw [signExtendWord_eq, hold]
  · have hne' : k ≠ o.rd := fun h => hne (congrArg _ h)
    simp (disch := omega) only [Cpu.writeRegister_x, Registers.read_write_ne]

theorem run_amoArithW {op : AmoOp} (rop : ROp) (hd : o.rd < next) (h0 : o.rd ≠ 0)
    (h1 : o.rs1 < next) (h2 : o.rs2 < next)
    (heval : ∀ a b : U64, lowWord (rop.eval a b) = op.eval (lowWord a) (lowWord b))
    (h : runOps address (amoArithW rop o next) cpu = .some cpu') : AmoWord op o next cpu cpu' := by
  simp only [amoArithW, List.flatten_cons, List.flatten_nil, List.append_nil] at h
  obtain ⟨cpu1, hr, h⟩ := run_amoPre64 h1 (by omega) (by omega) (by omega) (by omega) (by omega)
    (by omega) (by omega) (by omega) (by omega) h
  rw [List.cons_append, List.nil_append, runOps_r] at h
  refine run_amoPost64 (hr.write (k := next + 1) (by omega) (by omega) (by omega) (by omega)) hd h0 h1
    (by omega)
    (by omega) (by omega) (by omega) (by omega) (by omega) (by omega) (by omega) (by omega)
    (by omega) (by omega) (by omega) (by omega) (by omega) (by omega) (by omega) ?_ h
  simp (disch := omega) only [Cpu.writeRegister_x, Registers.read_write_self,
    Registers.read_write_ne, heval, hr.framed.others o.rs2 h2 (by simp)]

theorem run_AMOSWAPW (hd : o.rd < next) (h0 : o.rd ≠ 0) (h1 : o.rs1 < next) (h2 : o.rs2 < next)
    (h : runOps address (AMOSWAPW.inlineSequence o next) cpu = .some cpu') :
    AmoWord .SWAP o next cpu cpu' := by
  simp only [AMOSWAPW.inlineSequence, List.flatten_cons, List.flatten_nil, List.append_nil] at h
  obtain ⟨cpu1, hr, h⟩ := run_amoPre64 h1 (by omega) (by omega) (by omega) (by omega) (by omega)
    (by omega) (by omega) (by omega) (by omega) h
  refine run_amoPost64 hr hd h0 h1 (by omega) (by omega) (by omega) (by omega) (by omega) (by omega)
    (by omega) (by omega) (by omega) (by omega) (by omega) (by omega) (by omega) (by omega)
    (by omega) (by omega) ?_ h
  rw [hr.framed.others o.rs2 h2 (by simp)]
  rfl

/-- The value the selecting sequences store. -/
theorem lowWord_select {a b s : U64} (hs : s = 0 ∨ s = 1) :
    lowWord ((b - a) * s + a) = if s = 1 then lowWord b else lowWord a := by
  rw [add_comm, blend_flag a b hs, apply_ite lowWord]

theorem run_amoSelectW {op : AmoOp} {extend : IOp} {compare : ROp} {exchange : Bool}
    (hd : o.rd < next) (h0 : o.rd ≠ 0) (h1 : o.rs1 < next) (h2 : o.rs2 < next)
    (heval : ∀ a b : U64,
      let s := if exchange then compare.eval (extend.eval b 0) (extend.eval a 0)
        else compare.eval (extend.eval a 0) (extend.eval b 0)
      (s = 0 ∨ s = 1) ∧ op.eval (lowWord a) (lowWord b) = if s = 1 then lowWord b else lowWord a)
    (h : runOps address (amoSelectW extend compare exchange o next) cpu = .some cpu') :
    AmoWord op o next cpu cpu' := by
  simp only [amoSelectW, List.flatten_cons, List.flatten_nil, List.append_nil] at h
  obtain ⟨cpu1, hr, h⟩ := run_amoPre64 h1 (by omega) (by omega) (by omega) (by omega) (by omega)
    (by omega) (by omega) (by omega) (by omega) h
  have hs2 := hr.framed.others o.rs2 h2 (by simp)
  obtain ⟨hbit, hselect⟩ := heval (cpu1.x.read next) (cpu.x.read o.rs2)
  rw [← lowWord_select hbit] at hselect
  rw [List.cons_append, List.cons_append, List.cons_append, List.cons_append, List.cons_append,
    List.cons_append, List.nil_append] at h
  cases exchange with
  | false =>
    simp (disch := omega) only [runOps_i, runOps_r, Cpu.writeRegister_x, Bool.false_eq_true,
      if_false, Registers.read_write_self, Registers.read_write_ne, eval_sub, eval_mul, eval_add,
      hs2] at h hselect
    refine run_amoPost64 ?_ hd h0 h1 (by omega) (by omega) (by omega) (by omega) (by omega)
      (by omega) (by omega) (by omega) (by omega) (by omega) (by omega) (by omega) (by omega)
      (by omega) (by omega) (by omega) ?_ h
    · iterate 6 refine AmoRead.write ?_ (by omega) (by omega) (by omega) (by omega)
      exact hr
    · simp (disch := omega) only [Cpu.writeRegister_x, Registers.read_write_self,
        Registers.read_write_ne, hselect]
  | true =>
    simp (disch := omega) only [runOps_i, runOps_r, Cpu.writeRegister_x, if_true,
      Registers.read_write_self, Registers.read_write_ne, eval_sub, eval_mul, eval_add,
      hs2] at h hselect
    refine run_amoPost64 ?_ hd h0 h1 (by omega) (by omega) (by omega) (by omega) (by omega)
      (by omega) (by omega) (by omega) (by omega) (by omega) (by omega) (by omega) (by omega)
      (by omega) (by omega) (by omega) ?_ h
    · iterate 6 refine AmoRead.write ?_ (by omega) (by omega) (by omega) (by omega)
      exact hr
    · simp (disch := omega) only [Cpu.writeRegister_x, Registers.read_write_self,
        Registers.read_write_ne, hselect]

/-- What a doubleword atomic leaves. -/
structure AmoDword (op : AmoOp) (o : FormatR) (next : Nat) (cpu cpu' : Cpu) : Prop where
  aligned : (cpu.x.read o.rs1).toNat % 8 = 0
  memory : cpu.mmu.storedField 8 (cpu.x.read o.rs1).toNat
    (op.eval (cpu.mmu.dword (cpu.x.read o.rs1).toNat) (cpu.x.read o.rs2)) ≈ cpu'.mmu
  rd : cpu'.x.read o.rd = cpu.mmu.dword (cpu.x.read o.rs1).toNat
  framed : Framed next (.some o.rd) cpu cpu'

/-- Their ending: the new value is in `new`, the old one in `old`. -/
theorem run_amoStoreD {op : AmoOp} {new old : Nat} {cpu1 : Cpu} (h0 : o.rd ≠ 0)
    (h1 : o.rs1 < next) (hmmu : cpu.mmu ≈ cpu1.mmu) (hframe : Framed next .none cpu cpu1)
    (hold : cpu1.x.read old = cpu.mmu.dword (cpu.x.read o.rs1).toNat)
    (hnew : cpu1.x.read new =
      op.eval (cpu.mmu.dword (cpu.x.read o.rs1).toNat) (cpu.x.read o.rs2))
    (h : runOps address [.SD ⟨o.rs1, new, 0⟩, .i .ADDI ⟨o.rd, old, 0⟩] cpu1 = .some cpu') :
    AmoDword op o next cpu cpu' := by
  have hs1 := hframe.others o.rs1 h1 (by simp)
  obtain ⟨h8, hst, mmu', hsame, h⟩ := runOps_SD h
  simp only [hs1, add_zero, hnew] at h8 hst hsame
  simp only [runOps_i, runOps_nil, eval_addi, add_zero, Option.some.injEq] at h
  subst h
  have hst' := (Mmu.fieldStorable_congr hmmu).mpr hst
  refine ⟨h8, Setoid.trans (Mmu.storedField_congr hmmu fun hram =>
    Mmu.deviceStorable_of_field hst' hram) hsame, ?_, hframe.trans ⟨fun k hk hne => ?_, rfl⟩⟩
  · rw [Cpu.writeRegister_x, Registers.read_write_self _ _ h0, hold]
  · rw [Cpu.writeRegister_x, Registers.read_write_ne _ _ fun h => hne (congrArg _ h)]

theorem run_amoArithD {op : AmoOp} (rop : ROp) (h0 : o.rd ≠ 0)
    (h1 : o.rs1 < next) (h2 : o.rs2 < next) (heval : ∀ a b : U64, rop.eval a b = op.eval a b)
    (h : runOps address (amoArithD rop o next) cpu = .some cpu') : AmoDword op o next cpu cpu' := by
  simp only [amoArithD] at h
  obtain ⟨-, mmu, hsame, h⟩ := runOps_LD h
  simp (disch := omega) only [runOps_r, Cpu.writeRegister_x, Registers.read_write_self,
    Registers.read_write_ne, ld_zero, heval] at h
  refine run_amoStoreD h0 h1 ?_ ⟨fun k hk _ => ?_, ?_⟩ ?_ ?_ h
  · exact hsame
  · simp (disch := omega) only [Cpu.writeRegister_x, Registers.read_write_ne]
  · rfl
  · simp (disch := omega) only [Cpu.writeRegister_x, Registers.read_write_self,
      Registers.read_write_ne]
  · simp (disch := omega) only [Cpu.writeRegister_x, Registers.read_write_self]

theorem run_AMOSWAPD (h0 : o.rd ≠ 0) (h1 : o.rs1 < next) (h2 : o.rs2 < next)
    (h : runOps address (AMOSWAPD.inlineSequence o next) cpu = .some cpu') :
    AmoDword .SWAP o next cpu cpu' := by
  simp only [AMOSWAPD.inlineSequence] at h
  obtain ⟨-, mmu, hsame, h⟩ := runOps_LD h
  rw [ld_zero] at h
  refine run_amoStoreD h0 h1 ?_ ⟨fun k hk _ => ?_, ?_⟩ ?_ ?_ h
  · exact hsame
  · simp (disch := omega) only [Cpu.writeRegister_x, Registers.read_write_ne]
  · rfl
  · simp (disch := omega) only [Cpu.writeRegister_x, Registers.read_write_self]
  · simp (disch := omega) only [Cpu.writeRegister_x, Registers.read_write_ne]
    rfl

theorem run_amoSelectD {op : AmoOp} {compare : ROp} {exchange : Bool} (h0 : o.rd ≠ 0)
    (h1 : o.rs1 < next) (h2 : o.rs2 < next)
    (heval : ∀ a b : U64, let s := if exchange then compare.eval b a else compare.eval a b
      (s = 0 ∨ s = 1) ∧ op.eval a b = if s = 1 then b else a)
    (h : runOps address (amoSelectD compare exchange o next) cpu = .some cpu') :
    AmoDword op o next cpu cpu' := by
  simp only [amoSelectD] at h
  obtain ⟨-, mmu, hsame, h⟩ := runOps_LD h
  obtain ⟨hbit, hselect⟩ := heval (cpu.mmu.dword (cpu.x.read o.rs1).toNat) (cpu.x.read o.rs2)
  rw [← blend_flag _ _ hbit] at hselect
  rw [ld_zero] at h
  cases exchange with
  | false =>
    simp (disch := omega) only [runOps_r, Cpu.writeRegister_x, Bool.false_eq_true, if_false,
      Registers.read_write_self, Registers.read_write_ne, eval_sub, eval_mul, eval_add] at h hselect
    refine run_amoStoreD h0 h1 ?_ ⟨fun k hk _ => ?_, ?_⟩ ?_ ?_ h
    · exact hsame
    · simp (disch := omega) only [Cpu.writeRegister_x, Registers.read_write_ne]
    · rfl
    · simp (disch := omega) only [Cpu.writeRegister_x, Registers.read_write_self,
        Registers.read_write_ne]
    · simp (disch := omega) only [Cpu.writeRegister_x, Registers.read_write_self, hselect]
  | true =>
    simp (disch := omega) only [runOps_r, Cpu.writeRegister_x, if_true,
      Registers.read_write_self, Registers.read_write_ne, eval_sub, eval_mul, eval_add] at h hselect
    refine run_amoStoreD h0 h1 ?_ ⟨fun k hk _ => ?_, ?_⟩ ?_ ?_ h
    · exact hsame
    · simp (disch := omega) only [Cpu.writeRegister_x, Registers.read_write_ne]
    · rfl
    · simp (disch := omega) only [Cpu.writeRegister_x, Registers.read_write_self,
        Registers.read_write_ne]
    · simp (disch := omega) only [Cpu.writeRegister_x, Registers.read_write_self, hselect]

/-! ## All of them -/

theorem slt_signExtend (a b : U32) : (a.signExtend 64).slt (b.signExtend 64) = a.slt b := by
  rw [BitVec.slt_eq_decide, BitVec.slt_eq_decide, BitVec.toInt_signExtend_of_le (by decide),
    BitVec.toInt_signExtend_of_le (by decide)]

theorem lt_zeroExtendWord (a b : U64) : zeroExtendWord a < zeroExtendWord b ↔ lowWord a < lowWord b := by
  rw [zeroExtendWord, zeroExtendWord, BitVec.lt_def, BitVec.lt_def, BitVec.toNat_setWidth,
    BitVec.toNat_setWidth, Nat.mod_eq_of_lt (by omega), Nat.mod_eq_of_lt (by omega)]

/-- A selection by a comparison's bit. -/
theorem select_bit {α : Type} {p : Prop} [Decidable p] {x a b : α} (hp : p → x = b)
    (hnot : ¬ p → x = a) :
    ((if p then 1 else 0 : U64) = 0 ∨ (if p then 1 else 0 : U64) = 1) ∧
      x = if (if p then 1 else 0 : U64) = 1 then b else a := by
  by_cases h : p
  · simp [h, hp h]
  · simp [h, hnot h]

/-- The word atomics. -/
theorem run_amoW {op : AmoOp} (hd : o.rd < next) (h0 : o.rd ≠ 0) (h1 : o.rs1 < next)
    (h2 : o.rs2 < next)
    (h : runOps address (op.inlineSequence .word o next) cpu = .some cpu') :
    AmoWord op o next cpu cpu' := by
  cases op with
  | ADD => exact run_amoArithW .ADD hd h0 h1 h2 (fun a b => BitVec.setWidth_add a b (by decide)) h
  | AND => exact run_amoArithW .AND hd h0 h1 h2 (fun a b => BitVec.setWidth_and) h
  | OR => exact run_amoArithW .OR hd h0 h1 h2 (fun a b => BitVec.setWidth_or) h
  | XOR => exact run_amoArithW .XOR hd h0 h1 h2 (fun a b => BitVec.setWidth_xor) h
  | SWAP => exact run_AMOSWAPW hd h0 h1 h2 h
  | MAX =>
    refine run_amoSelectW hd h0 h1 h2 (fun a b => ?_) h
    simp only [Bool.false_eq_true, if_false, ROp.eval, eval_signExtendWord, signExtendWord_eq,
      slt_signExtend]
    refine select_bit (fun hlt => ?_) fun hlt => ?_ <;>
      simp only [AmoOp.eval, BitVec.sle_eq_not_slt, hlt] <;> rfl
  | MIN =>
    refine run_amoSelectW hd h0 h1 h2 (fun a b => ?_) h
    simp only [if_true, ROp.eval, eval_signExtendWord, signExtendWord_eq, slt_signExtend]
    refine select_bit (fun hlt => ?_) fun hlt => ?_ <;>
      simp only [AmoOp.eval, BitVec.sle_eq_not_slt, hlt] <;> rfl
  | MAXU =>
    refine run_amoSelectW hd h0 h1 h2 (fun a b => ?_) h
    simp only [Bool.false_eq_true, if_false, ROp.eval, eval_zeroExtendWord, lt_zeroExtendWord]
    refine select_bit (fun hlt => if_neg ?_) fun hlt => if_pos ?_
    · exact BitVec.not_le.mpr hlt
    · exact BitVec.not_lt.mp hlt
  | MINU =>
    refine run_amoSelectW hd h0 h1 h2 (fun a b => ?_) h
    simp only [if_true, ROp.eval, eval_zeroExtendWord, lt_zeroExtendWord]
    refine select_bit (fun hlt => if_neg ?_) fun hlt => if_pos ?_
    · exact BitVec.not_le.mpr hlt
    · exact BitVec.not_lt.mp hlt

/-- The doubleword atomics. -/
theorem run_amoD {op : AmoOp} (h0 : o.rd ≠ 0) (h1 : o.rs1 < next) (h2 : o.rs2 < next)
    (h : runOps address (op.inlineSequence .doubleword o next) cpu = .some cpu') :
    AmoDword op o next cpu cpu' := by
  cases op with
  | ADD => exact run_amoArithD .ADD h0 h1 h2 (fun _ _ => rfl) h
  | AND => exact run_amoArithD .AND h0 h1 h2 (fun _ _ => rfl) h
  | OR => exact run_amoArithD .OR h0 h1 h2 (fun _ _ => rfl) h
  | XOR => exact run_amoArithD .XOR h0 h1 h2 (fun _ _ => rfl) h
  | SWAP => exact run_AMOSWAPD h0 h1 h2 h
  | MAX =>
    refine run_amoSelectD h0 h1 h2 (fun a b => ?_) h
    simp only [Bool.false_eq_true, if_false, ROp.eval]
    refine select_bit (fun hlt => ?_) fun hlt => ?_ <;>
      simp only [AmoOp.eval, BitVec.sle_eq_not_slt, hlt] <;> rfl
  | MIN =>
    refine run_amoSelectD h0 h1 h2 (fun a b => ?_) h
    simp only [if_true, ROp.eval]
    refine select_bit (fun hlt => ?_) fun hlt => ?_ <;>
      simp only [AmoOp.eval, BitVec.sle_eq_not_slt, hlt] <;> rfl
  | MAXU =>
    refine run_amoSelectD h0 h1 h2 (fun a b => ?_) h
    simp only [Bool.false_eq_true, if_false, ROp.eval]
    refine select_bit (fun hlt => if_neg ?_) fun hlt => if_pos ?_
    · exact BitVec.not_le.mpr hlt
    · exact BitVec.not_lt.mp hlt
  | MINU =>
    refine run_amoSelectD h0 h1 h2 (fun a b => ?_) h
    simp only [if_true, ROp.eval]
    refine select_bit (fun hlt => if_neg ?_) fun hlt => if_pos ?_
    · exact BitVec.not_le.mpr hlt
    · exact BitVec.not_lt.mp hlt

end Accesses

end LightningJolt
