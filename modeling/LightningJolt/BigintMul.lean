/-
The inline that multiplies two numbers of four limbs
(`jolt-inlines/bigint/src/multiplication/sequence_builder.rs`): it loads the
factors into virtual registers, adds the products of their limbs with the carries
into eight limbs, and stores these.
-/
import LightningJolt.R1csTraces

namespace LightningJolt

namespace BigIntMulSequenceBuilder

def inputLimbs : Nat := 4

def outputLimbs : Nat := 2 * inputLimbs

/-- `NEEDED_REGISTERS`. -/
def neededRegisters : Nat := 20

/-- The register that `allocate_for_inline` returns at that place, above those of `allocate`. -/
def vr (i : Nat) : Nat := 48 + i

def a (i : Nat) : Nat := vr i

def b (i : Nat) : Nat := vr (inputLimbs + i)

def s (i : Nat) : Nat := vr (inputLimbs + inputLimbs + i)

def t (i : Nat) : Nat := vr (inputLimbs + inputLimbs + outputLimbs + i)

/-- The ripple of the carry through the limbs from `m` on. -/
def rippleCarry (m : Nat) : List BasicOp :=
  [.r .ADD ⟨s m, s m, t 2⟩] ++ if m + 1 < outputLimbs then [.r .SLTU ⟨t 2, s m, t 2⟩] else []

/-- `mul_and_accumulate`. -/
def mulAndAccumulate (i j : Nat) : List BasicOp :=
  let k := i + j
  [.r .MULHU ⟨t 1, a i, b j⟩, .r .MUL ⟨t 0, a i, b j⟩, .r .ADD ⟨s k, s k, t 0⟩] ++
    if k = 0 then [.r .ADD ⟨s (k + 1), s (k + 1), t 1⟩]
    else
      [.r .SLTU ⟨t 2, s k, t 0⟩, .r .ADD ⟨t 1, t 1, t 2⟩, .r .ADD ⟨s (k + 1), s (k + 1), t 1⟩] ++
        if k + 2 < outputLimbs then
          [.r .SLTU ⟨t 2, s (k + 1), t 1⟩] ++ (List.range' (k + 2) (outputLimbs - (k + 2))).flatMap rippleCarry
        else []

/-- `build`, and the zeroing of the registers by `finalize_inline`. -/
def build (operands : FormatInline) : List BasicOp :=
  ((List.range inputLimbs).map fun i => .LD ⟨a i, operands.rs1, BitVec.ofNat 64 (8 * i)⟩) ++
  ((List.range inputLimbs).map fun i => .LD ⟨b i, operands.rs2, BitVec.ofNat 64 (8 * i)⟩) ++
  ((List.range outputLimbs).map fun i => .r .ADD ⟨s i, 0, 0⟩) ++
  ((List.range inputLimbs).flatMap fun i => (List.range inputLimbs).flatMap fun j => mulAndAccumulate i j) ++
  ((List.range outputLimbs).map fun i => .SD ⟨operands.rs3, s i, BitVec.ofNat 64 (8 * i)⟩) ++
  ((List.range neededRegisters).map fun i => .i .ADDI ⟨vr i, 0, 0⟩)

/-- What the builder emits: arithmetic and loads into the registers it allocated, and stores. -/
def Plain : BasicOp → Prop
  | .r op o => (op = .ADD ∨ op = .MUL ∨ op = .MULHU ∨ op = .SLTU) ∧ 48 ≤ o.rd
  | .i op o => op = .ADDI ∧ 48 ≤ o.rd
  | .LD o => 48 ≤ o.rd
  | .SD _ => True
  | _ => False

theorem le_vr (i : Nat) : 48 ≤ vr i := Nat.le_add_right 48 i

theorem rippleCarry_plain (m : Nat) : ∀ op ∈ rippleCarry m, Plain op := by
  intro op hop
  rcases List.mem_append.mp hop with hop | hop
  · rw [List.mem_singleton.mp hop]
    exact ⟨.inl rfl, le_vr _⟩
  · split_ifs at hop
    · rw [List.mem_singleton.mp hop]
      exact ⟨.inr (.inr (.inr rfl)), le_vr _⟩
    · cases hop

theorem mulAndAccumulate_plain (i j : Nat) : ∀ op ∈ mulAndAccumulate i j, Plain op := by
  have hr {op : ROp} (hop : op = .ADD ∨ op = .MUL ∨ op = .MULHU ∨ op = .SLTU) (i rs1 rs2 : Nat) :
      Plain (.r op ⟨vr i, rs1, rs2⟩) := ⟨hop, le_vr i⟩
  unfold mulAndAccumulate
  simp only [List.forall_mem_append, List.forall_mem_cons]
  refine ⟨⟨hr (by simp) _ _ _, hr (by simp) _ _ _, hr (by simp) _ _ _, nofun⟩, ?_⟩
  split_ifs
  · simp only [List.forall_mem_cons]
    exact ⟨hr (by simp) _ _ _, nofun⟩
  · simp only [List.forall_mem_append, List.forall_mem_cons]
    refine ⟨⟨hr (by simp) _ _ _, hr (by simp) _ _ _, hr (by simp) _ _ _, nofun⟩,
      ⟨hr (by simp) _ _ _, nofun⟩, fun op hop => ?_⟩
    obtain ⟨m, -, hm⟩ := List.mem_flatMap.mp hop
    exact rippleCarry_plain m op hm
  · simp only [List.forall_mem_append, List.forall_mem_cons]
    exact ⟨⟨hr (by simp) _ _ _, hr (by simp) _ _ _, hr (by simp) _ _ _, nofun⟩, nofun⟩

theorem build_plain (operands : FormatInline) : ∀ op ∈ build operands, Plain op := by
  unfold build
  simp only [List.forall_mem_append, List.forall_mem_map]
  refine ⟨⟨⟨⟨⟨fun i _ => le_vr _, fun i _ => le_vr _⟩, fun i _ => ⟨.inl rfl, le_vr _⟩⟩, fun op hop => ?_⟩,
    fun i _ => trivial⟩, fun i _ => ⟨rfl, le_vr _⟩⟩
  obtain ⟨i, -, hop⟩ := List.mem_flatMap.mp hop
  obtain ⟨j, -, hop⟩ := List.mem_flatMap.mp hop
  exact mulAndAccumulate_plain i j op hop

end BigIntMulSequenceBuilder

open BigIntMulSequenceBuilder

theorem Plain.emittedByInlines {op : BasicOp} (h : Plain op) : op.emittedByInlines := by
  have hvalid {rd : Nat} (hrd : 48 ≤ rd) : validVirtualRd (.some rd) = true := by
    have hfirst : firstVirtualRegister = 40 := rfl
    simp only [validVirtualRd, Bool.or_eq_true, decide_eq_true_eq]
    omega
  cases op with
  | r op o =>
    obtain ⟨hop, hrd⟩ := h
    rcases hop with rfl | rfl | rfl | rfl <;> exact Bool.and_eq_true_iff.mpr ⟨hvalid hrd, rfl⟩
  | i op o =>
    obtain ⟨rfl, hrd⟩ := h
    exact Bool.and_eq_true_iff.mpr ⟨hvalid hrd, rfl⟩
  | LD o => exact Bool.and_eq_true_iff.mpr ⟨hvalid h, rfl⟩
  | SD o => rfl
  | _ => exact h.elim

/-- `BigintMul256`, which takes no advice. -/
def bigintMul256 : InlineRegistration where
  buildSequence operands _ := build operands
  buildAdvice _ := .done .none
  emitted operands _ _ op hop := Plain.emittedByInlines (build_plain operands op hop)

/-- The inlines with it alone, at its opcode and functions. -/
def bigintInlines : Inlines := fun opcode funct3 funct7 =>
  if opcode = 0x0B ∧ funct3 = 0x00 ∧ funct7 = 0x04 then .some bigintMul256 else .none

theorem Plain.rd_ne {op : BasicOp} (h : Plain op) : op.rd ≠ .some 0 := by
  have hne {rd : Nat} (hrd : 48 ≤ rd) : (.some rd : Option Nat) ≠ .some 0 := fun heq => by
    cases heq
    omega
  cases op with
  | r op o => exact hne h.2
  | i op o => exact hne h.2
  | LD o => exact hne h
  | SD o => nofun
  | _ => exact h.elim

/-- A plain operation after any other. -/
theorem sequenced_of_plain {ops : List BasicOp} (h : ∀ op ∈ ops, Plain op) (before : Option BasicOp) :
    BasicOp.Sequenced before ops := by
  induction ops generalizing before with
  | nil => trivial
  | cons op ops ih =>
    obtain ⟨hop, hops⟩ := List.forall_mem_cons.mp h
    have hne := Plain.rd_ne hop
    have hrest := ih hops (.some op)
    cases op with
    | r op o => exact ⟨.inl hne, fun _ => trivial, fun _ => rfl, hrest⟩
    | i op o => exact ⟨.inl hne, fun _ => trivial, fun _ => rfl, hrest⟩
    | LD o => exact ⟨.inl hne, fun _ => trivial, fun _ => rfl, hrest⟩
    | SD o => exact ⟨.inl hne, fun _ => trivial, fun _ => rfl, hrest⟩
    | _ => exact hop.elim

theorem bigintInlines_shaped : bigintInlines.Shaped := by
  intro opcode funct3 funct7 reg hreg operands next _
  unfold bigintInlines at hreg
  split_ifs at hreg
  cases hreg
  exact ⟨sequenced_of_plain (build_plain operands) _, fun op hop => Plain.rd_ne (build_plain operands op hop)⟩

set_option maxRecDepth 4000 in
theorem length_build (operands : FormatInline) : (build operands).length = 222 := rfl

end LightningJolt
