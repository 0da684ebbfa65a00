/-
A trace against the bytecode of its program (`jolt-core/src/zkvm/bytecode/mod.rs`,
`tracer/src/instruction/mod.rs`): an instruction is expanded once for the table and
once for the trace, and the entries agree but for the advice.
-/
import LightningJolt.BigintMul
import LightningJolt.BytecodeMapper

namespace LightningJolt

/-! ## The expansion of a program -/

/-- `decode` of the guest: `inline_sequence` of each instruction in turn. -/
def expand (inlines : Inlines) : List Instruction → Option (List BasicInstruction)
  | [] => .some []
  | i :: is => do
    let sequence ← i.inlineSequence inlines
    let rest ← expand inlines is
    .some (sequence ++ rest)

/-- The registered builders emit something, and no more than a `u16` counts. -/
def Inlines.Short (inlines : Inlines) : Prop :=
  ∀ opcode funct3 funct7 reg, inlines opcode funct3 funct7 = .some reg →
    ∀ operands next, firstVirtualRegister ≤ next →
      reg.buildSequence operands next ≠ [] ∧ (reg.buildSequence operands next).length ≤ 2 ^ 16

/-- The instructions whose sequence is a `NoOp`. -/
def Op.namesCsrZero : Op → Bool
  | .seq (.CSRRW o) | .seq (.CSRRS o) => csrAddress o = 0
  | _ => false

/-- Whether an assembler finalizes the expansion; else it is one instruction, the
instruction itself or the no-op in its place. -/
def Instruction.isSequence (i : Instruction) : Bool :=
  match i.op with
  | .basic _ => false
  | op => op.rd ≠ .some 0 || op.handlesX0 || op.hasSideEffects

/-- `virtual_sequence_remaining` counts down to zero, and the first is marked. -/
structure CountsDown (is : List BasicInstruction) : Prop where
  remaining : ∀ k (i : BasicInstruction), is[k]? = .some i → i.virtualSequenceRemaining = .some (is.length - 1 - k)
  first : ∀ k (i : BasicInstruction), is[k]? = .some i → i.isFirstInSequence = (k == 0)

/-- One instruction that carries no counter. -/
def Single (is : List BasicInstruction) : Prop :=
  ∃ i, is = [i] ∧ i.virtualSequenceRemaining = .none ∧ i.isFirstInSequence = false

/-! ## Sequences -/

/-- What an assembler must have emitted for the counter to be right. -/
structure Emitted (ops : List BasicOp) : Prop where
  ne_nil : ops ≠ []
  length_le : ops.length ≤ 2 ^ 16
  op_ne : ∀ op ∈ ops, op ≠ .noOp

section Sequences

variable {next : Nat}

theorem SeqROp.emitted (op : SeqROp) (o : FormatR) : Emitted (op.inlineSequence o next) := by
  cases op <;>
    constructor <;>
    simp [SeqROp.inlineSequence, DIV.inlineSequence, DIVU.inlineSequence, DIVW.inlineSequence,
      DIVUW.inlineSequence, REM.inlineSequence, REMU.inlineSequence, REMW.inlineSequence,
      REMUW.inlineSequence, divRemWSequence, MULH.inlineSequence, MULHSU.inlineSequence,
      MULW.inlineSequence, ADDW.inlineSequence, SUBW.inlineSequence, wordSequence,
      SLL.inlineSequence, SLLW.inlineSequence, SRL.inlineSequence, SRLW.inlineSequence,
      SRA.inlineSequence, SRAW.inlineSequence, rightShiftSequence, SRAI.inlineSequence,
      SLLI.inlineSequence, rightShiftISequence]

theorem SeqIOp.emitted (op : SeqIOp) (o : FormatI) : Emitted (op.inlineSequence o next) := by
  cases op <;>
    constructor <;>
    simp [SeqIOp.inlineSequence, ADDIW.inlineSequence, SLLI.inlineSequence, SLLIW.inlineSequence,
      SRLI.inlineSequence, SRLIW.inlineSequence, SRAI.inlineSequence, SRAIW.inlineSequence,
      rightShiftISequence]

theorem LoadOp.emitted (op : LoadOp) (o : FormatLoad) : Emitted (op.inlineSequence o next) := by
  cases op <;>
    constructor <;>
    simp [LoadOp.inlineSequence, LB.inlineSequence, LBU.inlineSequence, LH.inlineSequence,
      LHU.inlineSequence, LW.inlineSequence, LWU.inlineSequence, loadSequence, loadDword,
      SLLI.inlineSequence, SLL.inlineSequence, SRL.inlineSequence, SRLI.inlineSequence,
      SRAI.inlineSequence, rightShiftSequence, rightShiftISequence]

theorem StoreOp.emitted (op : StoreOp) (o : FormatS) : Emitted (op.inlineSequence o next) := by
  cases op <;>
    constructor <;>
    simp [StoreOp.inlineSequence, SB.inlineSequence, SH.inlineSequence, SW.inlineSequence,
      storeSequence, loadDword, SLLI.inlineSequence, SLL.inlineSequence, SRLI.inlineSequence,
      rightShiftISequence]

theorem AmoOp.emitted (op : AmoOp) (width : ReservationWidth) (o : FormatR) :
    Emitted (op.inlineSequence width o next) := by
  cases width <;> cases op <;>
    constructor <;>
    simp [AmoOp.inlineSequence, AMOADDW.inlineSequence, AMOANDW.inlineSequence,
      AMOORW.inlineSequence, AMOXORW.inlineSequence, AMOSWAPW.inlineSequence,
      AMOMAXW.inlineSequence, AMOMINW.inlineSequence, AMOMAXUW.inlineSequence,
      AMOMINUW.inlineSequence, AMOADDD.inlineSequence, AMOANDD.inlineSequence,
      AMOORD.inlineSequence, AMOXORD.inlineSequence, AMOSWAPD.inlineSequence,
      AMOMAXD.inlineSequence, AMOMIND.inlineSequence, AMOMAXUD.inlineSequence,
      AMOMINUD.inlineSequence, amoArithW, amoSelectW, amoArithD, amoSelectD, amoPre64, amoPost64,
      SLLI.inlineSequence, SLL.inlineSequence, SRL.inlineSequence, SRLI.inlineSequence,
      rightShiftSequence, rightShiftISequence]

/-- The sequences, but the `NoOp` of a control register of address zero. -/
theorem SeqOp.emitted {op : SeqOp} {ops : List BasicOp} (hcsr : (Op.seq op).namesCsrZero = false)
    (h : op.inlineSequence next = .some ops) : Emitted ops := by
  cases op with
  | r op o =>
    cases h
    exact op.emitted o
  | i op o =>
    cases h
    exact op.emitted o
  | load op o =>
    cases h
    exact op.emitted o
  | store op o =>
    cases h
    exact op.emitted o
  | amo op width o =>
    cases h
    exact op.emitted width o
  | lr width o =>
    cases width <;> cases h <;> constructor <;>
      simp [LRW.inlineSequence, LRD.inlineSequence, LW.inlineSequence, loadDword,
        SLLI.inlineSequence, SRL.inlineSequence, rightShiftSequence]
  | sc width o =>
    cases width <;> cases h <;> constructor <;>
      simp [SCW.inlineSequence, SCD.inlineSequence, scPrelude, LW.inlineSequence, SW.inlineSequence,
        loadDword, SLLI.inlineSequence, SLL.inlineSequence, SRL.inlineSequence,
        SRLI.inlineSequence, rightShiftSequence, rightShiftISequence]
  | advice op o =>
    cases op <;> cases h <;> constructor <;>
      simp [AdviceOp.inlineSequence, AdviceLB.inlineSequence, AdviceLH.inlineSequence,
        AdviceLW.inlineSequence, AdviceLD.inlineSequence, adviceLoadSequence, SLLI.inlineSequence,
        SRAI.inlineSequence, rightShiftISequence]
  | CSRRW o =>
    have hne : csrAddress o ≠ 0 := of_decide_eq_false hcsr
    simp only [SeqOp.inlineSequence, CSRRW.inlineSequence, if_neg hne] at h
    obtain ⟨vr, -, h⟩ := Option.bind_eq_some_iff.mp h
    split_ifs at h <;> cases h <;> constructor <;> simp
  | CSRRS o =>
    have hne : csrAddress o ≠ 0 := of_decide_eq_false hcsr
    simp only [SeqOp.inlineSequence, CSRRS.inlineSequence, if_neg hne] at h
    obtain ⟨vr, -, h⟩ := Option.bind_eq_some_iff.mp h
    split_ifs at h <;> cases h <;> constructor <;> simp
  | ECALL o | MRET o =>
    cases h
    constructor <;> simp [ECALL.inlineSequence, MRET.inlineSequence, SLLI.inlineSequence]

end Sequences

namespace BasicInstruction

variable {address : U64} {isCompressed : Bool} {ops : List BasicOp}

theorem getElem?_finalize {k : Nat} {i : BasicInstruction}
    (h : (finalize address isCompressed ops)[k]? = .some i) :
    ∃ op, ops[k]? = .some op ∧ k < ops.length ∧ i = {
      op, address
      virtualSequenceRemaining := .some ((ops.length - k - 1) % 2 ^ 16)
      isFirstInSequence := k == 0
      isCompressed := isCompressed && k + 1 == ops.length } := by
  rw [finalize, List.getElem?_mapIdx] at h
  obtain ⟨op, hop, rfl⟩ := Option.map_eq_some_iff.mp h
  exact ⟨op, hop, (List.getElem?_eq_some_iff.mp hop).1, rfl⟩

theorem length_finalize : (finalize address isCompressed ops).length = ops.length :=
  List.length_mapIdx ..

theorem finalize_countsDown (h : Emitted ops) : CountsDown (finalize address isCompressed ops) := by
  have hlength := h.length_le
  constructor
  · intro k i hi
    obtain ⟨op, -, hk, rfl⟩ := getElem?_finalize hi
    rw [length_finalize]
    change Option.some ((ops.length - k - 1) % 2 ^ 16) = .some (ops.length - 1 - k)
    congr 1
    omega
  · intro k i hi
    obtain ⟨op, -, -, rfl⟩ := getElem?_finalize hi
    rfl

theorem finalize_counted (h : Emitted ops) : Counted address (finalize address isCompressed ops) where
  ne_nil hnil := by
    have hlength := congrArg List.length hnil
    rw [length_finalize, List.length_nil] at hlength
    exact h.ne_nil (List.eq_nil_of_length_eq_zero hlength)
  length_le := by
    rw [length_finalize]
    exact h.length_le
  address_eq := finalize_address
  op_ne i hi := by
    have hmem : i.op ∈ (finalize address isCompressed ops).map (·.op) := List.mem_map_of_mem hi
    rw [finalize_ops] at hmem
    exact h.op_ne i.op hmem
  remaining := by
    refine List.ext_getElem? fun k => ?_
    rw [List.getElem?_map]
    rcases hk : (finalize address isCompressed ops)[k]? with _ | i
    · rw [List.getElem?_eq_none_iff] at hk
      rw [Option.map_none, eq_comm, List.getElem?_eq_none_iff, List.length_reverse, List.length_range]
      exact hk
    · have hremaining := (finalize_countsDown h).remaining k i hk
      obtain ⟨hlt, -⟩ := List.getElem?_eq_some_iff.mp hk
      rw [Option.map_some, hremaining, List.getElem?_reverse (by rwa [List.length_range]),
        List.length_range, List.getElem?_range (by omega)]
      rfl

theorem counted_single {i : BasicInstruction} (haddress : i.address = address) (hop : i.op ≠ .noOp)
    (hremaining : i.virtualSequenceRemaining = .none) : Counted address [i] where
  ne_nil := List.cons_ne_nil _ _
  length_le := by
    rw [List.length_singleton]
    decide
  address_eq j hj := by rwa [List.mem_singleton.mp hj]
  op_ne j hj := by rwa [List.mem_singleton.mp hj]
  remaining := by
    rw [List.map_singleton, hremaining]
    rfl

/-- Sequences that differ in the advice alone are finalized alike. -/
theorem finalize_forget {ops' : List BasicOp} (h : ops'.map BasicOp.forget = ops.map BasicOp.forget) :
    (finalize address isCompressed ops').map forget =
      (finalize address isCompressed ops).map forget := by
  have hlength : ops'.length = ops.length := by
    have heq := congrArg List.length h
    rwa [List.length_map, List.length_map] at heq
  refine List.ext_getElem? fun k => ?_
  have hk := congrArg (fun l : List BasicOp => l[k]?) h
  simp only [List.getElem?_map] at hk
  simp only [finalize, List.getElem?_map, List.getElem?_mapIdx, hlength]
  cases h1 : ops'[k]? with
  | none =>
    cases h2 : ops[k]? with
    | none => rfl
    | some op => simp [h1, h2] at hk
  | some op' =>
    cases h2 : ops[k]? with
    | none => simp [h1, h2] at hk
    | some op =>
      rw [h1, h2] at hk
      have hop : op'.forget = op.forget := Option.some.inj hk
      simp only [Option.map_some, forget, hop]

end BasicInstruction

/-! ## Instructions -/

theorem Op.namesCsrZero_withRd (op : Op) (rd : Nat) : (op.withRd rd).namesCsrZero = op.namesCsrZero := by
  cases op with
  | seq op => cases op <;> rfl
  | _ => rfl

theorem BasicOp.withRd_ne_noOp {op : BasicOp} (h : op ≠ .noOp) (rd : Nat) : op.withRd rd ≠ .noOp := by
  cases op <;> first | exact h | nofun

namespace Instruction

variable {inlines : Inlines} {i : Instruction} {is : List BasicInstruction} {cycles : List Cycle}
  {cpu cpu' : Cpu}

theorem Decodable.first (h : i.Decodable) : i.isFirstInSequence = false := by
  obtain ⟨word, compressed, h⟩ := h
  obtain ⟨op, -, h⟩ := Option.bind_eq_some_iff.mp h
  exact (congrArg Instruction.isFirstInSequence (Option.some.inj h)).symm

theorem Decodable.op_ne (h : i.Decodable) {op : BasicOp} (hop : i.op = .basic op) : op ≠ .noOp := by
  rintro rfl
  have hencodable := h.decoded.encodable .noOp hop
  cases hencodable

/-- What a builder emits is fit for the counter. -/
theorem emitted_inline (hshort : inlines.Short) {op : InlineOp} {reg : InlineRegistration}
    (hreg : inlines op.opcode op.funct3 op.funct7 = .some reg) {next : Nat}
    (hnext : firstVirtualRegister ≤ next) : Emitted (reg.buildSequence op.operands next) := by
  obtain ⟨hne, hlength⟩ := hshort _ _ _ reg hreg op.operands next hnext
  refine ⟨hne, hlength, ?_⟩
  rintro b hb rfl
  have hemitted := reg.emitted op.operands next hnext .noOp hb
  cases hemitted

/-- An expansion: a sequence that counts down, or one instruction without a counter. -/
theorem dispatch_counted (hshort : inlines.Short) (hremaining : i.virtualSequenceRemaining = .none)
    (hfirst : i.isFirstInSequence = false) (hbasic : ∀ op, i.op = .basic op → op ≠ .noOp)
    (hcsr : i.op.namesCsrZero = false) {next : Nat} (hnext : firstVirtualRegister ≤ next)
    (h : i.dispatchInlineSequence inlines next = .some is) :
    Counted i.address is ∧ ((∃ op, i.op = .basic op) ∧ Single is ∨
      (¬ ∃ op, i.op = .basic op) ∧ CountsDown is) := by
  unfold dispatchInlineSequence at h
  split at h
  case h_1 op heq =>
    cases h
    refine ⟨BasicInstruction.counted_single rfl (hbasic op heq) hremaining, .inl ⟨⟨op, heq⟩, ?_⟩⟩
    exact ⟨_, rfl, hremaining, hfirst⟩
  case h_2 op heq =>
    obtain ⟨ops, hops, hpure⟩ := Option.bind_eq_some_iff.mp h
    cases hpure
    have hemitted := SeqOp.emitted (heq ▸ hcsr) hops
    refine ⟨BasicInstruction.finalize_counted hemitted, .inr ⟨?_, ?_⟩⟩
    · rintro ⟨b, hb⟩
      cases heq.symm.trans hb
    · exact BasicInstruction.finalize_countsDown hemitted
  case h_3 op heq =>
    obtain ⟨reg, hreg, hpure⟩ := Option.bind_eq_some_iff.mp h
    cases hpure
    have hemitted := emitted_inline hshort hreg hnext
    refine ⟨BasicInstruction.finalize_counted hemitted, .inr ⟨?_, ?_⟩⟩
    · rintro ⟨b, hb⟩
      cases heq.symm.trans hb
    · exact BasicInstruction.finalize_countsDown hemitted

theorem inlineSequence_counted (hshort : inlines.Short) (hi : i.Decodable)
    (hcsr : i.op.namesCsrZero = false) (h : i.inlineSequence inlines = .some is) :
    Counted i.address is ∧ if i.isSequence then CountsDown is else Single is := by
  have hbasic : ∀ op, i.op = .basic op → op ≠ .noOp := fun op hop => hi.op_ne hop
  have hnot : (¬ ∃ op, i.op = .basic op) →
      i.isSequence = (i.op.rd ≠ .some 0 || i.op.handlesX0 || i.op.hasSideEffects) := by
    intro hne
    unfold isSequence
    split
    case h_1 op heq => exact absurd ⟨op, heq⟩ hne
    case h_2 => rfl
  have hyes : ∀ op, i.op = .basic op → i.isSequence = false := by
    intro op hop
    simp only [isSequence, hop]
  unfold inlineSequence at h
  split_ifs at h with hrd hx0 hside
  · obtain ⟨hcounted, ⟨⟨op, hop⟩, hsingle⟩ | ⟨hne, hcounts⟩⟩ :=
      dispatch_counted hshort hi.remaining hi.first hbasic hcsr (Nat.le_refl _) h
    · refine ⟨hcounted, ?_⟩
      rw [hyes op hop]
      exact hsingle
    · refine ⟨hcounted, ?_⟩
      rw [hnot hne, hx0, Bool.or_true, Bool.true_or]
      exact hcounts
  · have hcsr' : (i.op.withRd firstVirtualRegister).namesCsrZero = false := by
      rw [Op.namesCsrZero_withRd, hcsr]
    have hbasic' : ∀ op, i.op.withRd firstVirtualRegister = .basic op → op ≠ .noOp := by
      intro op hop
      cases hiop : i.op with
      | basic b =>
        rw [hiop] at hop
        cases hop
        exact BasicOp.withRd_ne_noOp (hbasic b hiop) _
      | seq b =>
        rw [hiop] at hop
        cases hop
      | inline b =>
        rw [hiop] at hop
        cases hop
    obtain ⟨hcounted, hshape⟩ := dispatch_counted (i := { i with op := i.op.withRd firstVirtualRegister })
      hshort hi.remaining hi.first hbasic' hcsr' (Nat.le_succ _) h
    refine ⟨hcounted, ?_⟩
    cases hiop : i.op with
    | basic b =>
      rw [hyes b hiop]
      rcases hshape with ⟨-, hsingle⟩ | ⟨hne, -⟩
      · exact hsingle
      · exact absurd ⟨b.withRd firstVirtualRegister, by rw [hiop]; rfl⟩ hne
    | seq b | inline b =>
      rw [hnot (by rintro ⟨op, hop⟩; cases hiop.symm.trans hop), hside, Bool.or_true]
      rcases hshape with ⟨⟨op, hop⟩, -⟩ | ⟨-, hcounts⟩
      · rw [hiop] at hop
        cases hop
      · exact hcounts
  · cases h
    refine ⟨BasicInstruction.counted_single rfl (by rintro ⟨⟩) rfl, ?_⟩
    have hfalse : i.isSequence = false := by
      cases hiop : i.op with
      | basic b => exact hyes b hiop
      | seq b | inline b =>
        rw [hnot (by rintro ⟨op, hop⟩; cases hiop.symm.trans hop)]
        simp only [Bool.not_eq_true] at hx0 hside
        rw [hx0, hside]
        simp [hrd]
    rw [hfalse]
    exact ⟨_, rfl, rfl, rfl⟩
  · obtain ⟨hcounted, ⟨⟨op, hop⟩, hsingle⟩ | ⟨hne, hcounts⟩⟩ :=
      dispatch_counted hshort hi.remaining hi.first hbasic hcsr (Nat.le_refl _) h
    · refine ⟨hcounted, ?_⟩
      rw [hyes op hop]
      exact hsingle
    · refine ⟨hcounted, ?_⟩
      rw [hnot hne]
      simp only [ne_eq, hrd, not_false_eq_true, decide_true, Bool.true_or]
      exact hcounts

/-- A finalized sequence filled with advice and traced: its entries, but for the advice. -/
theorem traceAll_entries {address : U64} {isCompressed : Bool} {ops ops' : List BasicOp}
    (hforget : ops'.map BasicOp.forget = ops.map BasicOp.forget) (hrd : ∀ op ∈ ops, op.rd ≠ .some 0)
    (h : BasicInstruction.traceAll (BasicInstruction.finalize address isCompressed ops') cpu =
      .some (cycles, cpu')) :
    ∀ c ∈ cycles, ∃ j ∈ BasicInstruction.finalize address isCompressed ops,
      c.instruction.forget = j.forget := by
  have hrd' : ∀ j ∈ BasicInstruction.finalize address isCompressed ops', j.op.rd ≠ .some 0 := by
    intro j hj
    have hmem : j.op ∈ (BasicInstruction.finalize address isCompressed ops').map (·.op) :=
      List.mem_map_of_mem hj
    rw [BasicInstruction.finalize_ops] at hmem
    have hforgot : j.op.forget ∈ ops.map BasicOp.forget := hforget ▸ List.mem_map_of_mem hmem
    obtain ⟨b, hb, hbj⟩ := List.mem_map.mp hforgot
    rw [← BasicOp.forget_rd, ← hbj, BasicOp.forget_rd]
    exact hrd b hb
  rw [BasicInstruction.traceAll_eq_raw hrd'] at h
  intro c hc
  obtain ⟨hmem, -⟩ := BasicInstruction.traceAllRaw_traced h c hc
  have hforgot : c.instruction.forget ∈
      (BasicInstruction.finalize address isCompressed ops).map BasicInstruction.forget := by
    rw [← BasicInstruction.finalize_forget hforget]
    exact List.mem_map_of_mem hmem
  obtain ⟨j, hj, hjc⟩ := List.mem_map.mp hforgot
  exact ⟨j, hj, hjc.symm⟩

/-- **Every cycle of an instruction is an entry of its expansion**, but for the advice. -/
theorem trace_entries (hshaped : inlines.Shaped) (h : i.trace inlines cpu = .some (cycles, cpu')) :
    ∃ is, i.inlineSequence inlines = .some is ∧
      ∀ c ∈ cycles, ∃ j ∈ is, c.instruction.forget = j.forget := by
  unfold Instruction.trace at h
  split_ifs at h with hrd
  · obtain ⟨⟨is, cpu1⟩, hseq, hrun⟩ := Option.bind_eq_some_iff.mp h
    obtain ⟨is', his, hpure⟩ := Option.bind_eq_some_iff.mp hseq
    cases hpure
    exact ⟨is, his, fun c hc =>
      ⟨c.instruction, (BasicInstruction.traceAllRaw_traced hrun c hc).1, rfl⟩⟩
  have hexpand : i.inlineSequence inlines = i.dispatchInlineSequence inlines firstVirtualRegister := by
    rw [inlineSequence, if_neg hrd]
  have hnext : firstVirtualRegister ≠ 0 := by decide
  rw [hexpand]
  cases hop : i.op with
  | basic op =>
    simp only [Instruction.traceRaw, hop] at h
    obtain ⟨c, rfl, hc, -⟩ := BasicInstruction.traceRaw_cases h
    refine ⟨_, by simp only [dispatchInlineSequence, hop]; rfl, ?_⟩
    intro d hd
    rw [List.mem_singleton.mp hd]
    exact ⟨_, List.mem_singleton.mpr rfl, congrArg _ hc⟩
  | seq op =>
    rw [Instruction.traceRaw_seq inlines hop] at h
    obtain ⟨ops, hfilled, h⟩ := Option.bind_eq_some_iff.mp h
    obtain ⟨ops', hseq, hfill⟩ := Option.bind_eq_some_iff.mp hfilled
    obtain ⟨⟨cs, cpu2⟩, hrun, hpure⟩ := Option.bind_eq_some_iff.mp h
    cases hpure
    have hrd' : op.rd ≠ .some 0 := by
      rw [hop] at hrd
      exact hrd
    refine ⟨BasicInstruction.finalize i.address i.isCompressed ops', ?_, ?_⟩
    · simp only [dispatchInlineSequence, hop]
      exact Option.bind_eq_some_iff.mpr ⟨ops', hseq, rfl⟩
    · exact traceAll_entries (fillAdvice_forget hfill) (SeqOp.shaped hrd' hnext hseq).rd_ne hrun
  | inline op =>
    simp only [Instruction.traceRaw, hop, Fallible.bind_apply, Fallible.lift_apply,
      Option.bind_eq_bind, Option.bind_assoc, Option.bind_some] at h
    obtain ⟨reg, hreg, h⟩ := Option.bind_eq_some_iff.mp h
    obtain ⟨⟨advice, cpu1⟩, hadvice, h⟩ := Option.bind_eq_some_iff.mp h
    have hne := (hshaped _ _ _ reg hreg op.operands firstVirtualRegister (Nat.le_refl _)).rd_ne
    refine ⟨BasicInstruction.finalize i.address i.isCompressed
      (reg.buildSequence op.operands firstVirtualRegister), ?_, ?_⟩
    · simp only [dispatchInlineSequence, hop]
      exact Option.bind_eq_some_iff.mpr ⟨reg, hreg, rfl⟩
    cases advice with
    | none => exact traceAll_entries rfl hne h
    | some values =>
      obtain ⟨⟨ops, cpu2⟩, hfilled, h⟩ := Option.bind_eq_some_iff.mp h
      obtain ⟨ops', hfill, hpure⟩ := Option.bind_eq_some_iff.mp hfilled
      cases hpure
      exact traceAll_entries (fillInlineAdvice_forget hfill) hne h

end Instruction

/-! ## Programs -/

/-- The decoded instructions of a program at distinct addresses, in any order that ends with the
highest. A word that does not decode expands to nothing and is left out. -/
structure DecodedProgram (program : List Instruction) : Prop where
  decodable : ∀ i ∈ program, i.Decodable
  distinct : program.Pairwise fun i j => i.address ≠ j.address
  last_highest : ∀ last ∈ program.getLast?, ∀ i ∈ program, i.address.toNat ≤ last.address.toNat
  indexed : ∀ i ∈ program, ∃ k, BytecodePCMapper.getIndex i.address = .some k
  reaches : ∀ i ∈ program, BytecodePCMapper.Reaches i.address
  csr : ∀ i ∈ program, i.op.namesCsrZero = false

/-- A trace: one instruction of the program after the other, each from the state that the
emulator has then, and the cycles that pad it. -/
inductive ProgramTrace (inlines : Inlines) (program : List Instruction) : List Cycle → Prop
  | nil : ProgramTrace inlines program []
  | instruction {i : Instruction} {cpu cpu' : Cpu} {cycles rest : List Cycle} (hi : i ∈ program)
      (htrace : i.trace inlines cpu = .some (cycles, cpu'))
      (hrest : ProgramTrace inlines program rest) : ProgramTrace inlines program (cycles ++ rest)
  | noOp {c : Cycle} {rest : List Cycle} (hc : c.instruction = .noOpEntry)
      (hrest : ProgramTrace inlines program rest) : ProgramTrace inlines program (c :: rest)

/-- The table of a program and its traces. -/
structure BytecodeTable.Agrees (t : BytecodeTable) (inlines : Inlines) (program : List Instruction) :
    Prop where
  counted : ∀ i ∈ program, ∃ is, i.inlineSequence inlines = .some is ∧
    if i.isSequence then CountsDown is else Single is
  own_pc : ∀ (n : Nat) (i : BasicInstruction) (c : Cycle), t.bytecode[n]? = .some i → i.op ≠ .noOp → c.instruction = i →
    ∃ pc, t.getPc c = .some pc ∧ pc.toNat = n
  distinct_pc : ∀ (m n : Nat) (i j : BasicInstruction) (c d : Cycle), m ≠ n →
    t.bytecode[m]? = .some i → t.bytecode[n]? = .some j → i.op ≠ .noOp → j.op ≠ .noOp → c.instruction = i → d.instruction = j → t.getPc c ≠ t.getPc d
  noOp_pc : ∀ c, c.instruction.op = .noOp → t.getPc c = .some 0
  traced : ∀ cycles, ProgramTrace inlines program cycles → ∀ c ∈ cycles, ∃ pc i,
    t.getPc c = .some pc ∧ t.bytecode[pc.toNat]? = .some i ∧ i.forget = c.instruction.forget

section Programs

variable {inlines : Inlines} {program : List Instruction} {bytecode : List BasicInstruction}

/-- The expansion of an instruction, with its address. -/
def Instruction.group (inlines : Inlines) (i : Instruction) : U64 × List BasicInstruction :=
  (i.address, (i.inlineSequence inlines).getD [])

theorem expand_groups (h : expand inlines program = .some bytecode) :
    bytecode = BytecodePCMapper.Groups.bytecode (program.map (Instruction.group inlines)) ∧
      ∀ i ∈ program, i.inlineSequence inlines = .some (i.group inlines).2 := by
  induction program generalizing bytecode with
  | nil =>
    cases h
    exact ⟨rfl, nofun⟩
  | cons i program ih =>
    obtain ⟨sequence, hsequence, h⟩ := Option.bind_eq_some_iff.mp h
    obtain ⟨rest, hrest, h⟩ := Option.bind_eq_some_iff.mp h
    cases h
    obtain ⟨hbytecode, hall⟩ := ih hrest
    have hgroup : (i.group inlines).2 = sequence := by
      rw [Instruction.group, hsequence]
      rfl
    refine ⟨?_, List.forall_mem_cons.mpr ⟨by rw [hgroup, hsequence], hall⟩⟩
    rw [List.map_cons, BytecodePCMapper.Groups.bytecode, List.flatMap_cons, hgroup, hbytecode]
    rfl

theorem BasicOp.forget_eq_noOp {op : BasicOp} (h : op.forget = .noOp) : op = .noOp := by
  cases op <;> first | rfl | cases h

/-- The table lists the bytecode behind a first `NoOp`, and finds its entries. -/
structure BytecodeTable.Indexes (t : BytecodeTable) (bytecode : List BasicInstruction) : Prop where
  first : t.bytecode[0]? = .some .noOpEntry
  entry : ∀ (n : Nat) (i : BasicInstruction), bytecode[n]? = .some i → t.bytecode[n + 1]? = .some i
  back : ∀ (n : Nat) (i : BasicInstruction), t.bytecode[n]? = .some i → i.op ≠ .noOp →
    ∃ m, n = m + 1 ∧ bytecode[m]? = .some i
  pc : ∀ (n : Nat) (i : BasicInstruction) (c : Cycle), bytecode[n]? = .some i → i.op ≠ .noOp →
    c.instruction.forget = i.forget → ∃ pc, t.getPc c = .some pc ∧ pc.toNat = n + 1

/-- A cycle has the PC of the entry it agrees with. -/
theorem BytecodeTable.getPc_of_forget {t : BytecodeTable} {n : Nat} {i : BasicInstruction} {c : Cycle}
    (hn : n + 1 < 2 ^ 64) (hop : i.op ≠ .noOp) (hc : c.instruction.forget = i.forget)
    (hpc : t.pcMap.getPc i.address (i.virtualSequenceRemaining.getD 0) =
      .some (BitVec.ofNat 64 (n + 1))) : ∃ pc, t.getPc c = .some pc ∧ pc.toNat = n + 1 := by
  have hforget := congrArg BasicInstruction.op hc
  have haddress := congrArg BasicInstruction.address hc
  have hremaining := congrArg BasicInstruction.virtualSequenceRemaining hc
  simp only [BasicInstruction.forget] at hforget haddress hremaining
  have hcop : c.instruction.op ≠ .noOp := by
    intro hnoOp
    rw [hnoOp] at hforget
    exact hop (BasicOp.forget_eq_noOp hforget.symm)
  refine ⟨BitVec.ofNat 64 (n + 1), ?_, ?_⟩
  · rw [BytecodePreprocessing.getPc, if_neg hcop, haddress, hremaining]
    exact hpc
  · rw [BitVec.toNat_ofNat, Nat.mod_eq_of_lt hn]

theorem BytecodeTable.indexes {t : BytecodeTable} {padding : Nat}
    (hbytecode : t.bytecode = .noOpEntry :: bytecode ++ List.replicate padding .noOpEntry)
    (hlength : bytecode.length < 2 ^ 63)
    (hpcs : ∀ n i, bytecode[n]? = .some i → t.pcMap.getPc i.address
      (i.virtualSequenceRemaining.getD 0) = .some (BitVec.ofNat 64 (n + 1))) : t.Indexes bytecode where
  first := by
    rw [hbytecode]
    rfl
  entry n i hi := by
    obtain ⟨hlt, -⟩ := List.getElem?_eq_some_iff.mp hi
    rw [hbytecode, List.cons_append, List.getElem?_cons_succ, List.getElem?_append_left hlt]
    exact hi
  back n i hi hop := by
    rw [hbytecode, List.cons_append] at hi
    rcases n with _ | n
    · cases hi
      exact absurd rfl hop
    refine ⟨n, rfl, ?_⟩
    rw [List.getElem?_cons_succ] at hi
    rcases Nat.lt_or_ge n bytecode.length with hlt | hge
    · rwa [List.getElem?_append_left hlt] at hi
    · rw [List.getElem?_append_right hge] at hi
      have hpadding := List.eq_of_mem_replicate (List.mem_of_getElem? hi)
      rw [hpadding] at hop
      exact absurd rfl hop
  pc n i c hi hop hc := by
    obtain ⟨hlt, -⟩ := List.getElem?_eq_some_iff.mp hi
    exact BytecodeTable.getPc_of_forget (by omega) hop hc (hpcs n i hi)

theorem BytecodeTable.getPc_noOp (t : BytecodeTable) {c : Cycle} (hc : c.instruction.op = .noOp) :
    t.getPc c = .some 0 :=
  if_pos hc

/-- The cycles of a trace, each found in the table. -/
theorem BytecodeTable.Indexes.traced {t : BytecodeTable} (ht : t.Indexes bytecode)
    (hshaped : inlines.Shaped)
    (hentries : ∀ i ∈ program, ∀ is, i.inlineSequence inlines = .some is →
      ∀ j ∈ is, j ∈ bytecode ∧ j.op ≠ .noOp) {cycles : List Cycle}
    (htrace : ProgramTrace inlines program cycles) : ∀ c ∈ cycles, ∃ pc i,
      t.getPc c = .some pc ∧ t.bytecode[pc.toNat]? = .some i ∧ i.forget = c.instruction.forget := by
  induction htrace with
  | nil => exact fun c hc => absurd hc List.not_mem_nil
  | @instruction i cpu cpu' cycles rest hi htrace _ ih =>
    intro c hc
    rcases List.mem_append.mp hc with hc | hc
    · obtain ⟨is, his, hcycles⟩ := Instruction.trace_entries hshaped htrace
      obtain ⟨j, hj, hforget⟩ := hcycles c hc
      obtain ⟨hmem, hop⟩ := hentries i hi is his j hj
      obtain ⟨n, hn⟩ := List.getElem?_of_mem hmem
      obtain ⟨pc, hpc, htoNat⟩ := ht.pc n j c hn hop hforget
      refine ⟨pc, j, hpc, ?_, hforget.symm⟩
      rw [htoNat]
      exact ht.entry n j hn
    · exact ih c hc
  | @noOp c rest hnoOp _ ih =>
    intro d hd
    rcases List.mem_cons.mp hd with rfl | hd
    · refine ⟨0, .noOpEntry, t.getPc_noOp (by rw [hnoOp]; rfl), ht.first, by rw [hnoOp]⟩
    · exact ih d hd

/-- **The trace and the bytecode agree**: preprocessing succeeds, every entry has the PC of
its own index, and every cycle of a trace that of the entry it was traced from. -/
theorem preprocess_agrees (hshaped : inlines.Shaped) (hshort : inlines.Short)
    (hprogram : DecodedProgram program) (hne : program ≠ [])
    (hexpand : expand inlines program = .some bytecode) (hlength : bytecode.length < 2 ^ 63)
    (entryAddress : U64) :
    ∃ t, BytecodeTable.preprocess bytecode entryAddress = .some (.ok t) ∧
      t.Agrees inlines program := by
  obtain ⟨hgroups, hsequences⟩ := expand_groups hexpand
  have hcounted : ∀ i ∈ program, Counted i.address (i.group inlines).2 ∧
      if i.isSequence then CountsDown (i.group inlines).2 else Single (i.group inlines).2 :=
    fun i hi => Instruction.inlineSequence_counted hshort (hprogram.decodable i hi)
      (hprogram.csr i hi) (hsequences i hi)
  have hall : ∀ {P : U64 × List BasicInstruction → Prop}, (∀ i ∈ program, P (i.group inlines)) →
      ∀ g ∈ program.map (Instruction.group inlines), P g := by
    intro P hP g hg
    obtain ⟨i, hi, rfl⟩ := List.mem_map.mp hg
    exact hP i hi
  have hgroupsNe : program.map (Instruction.group inlines) ≠ [] := by
    simpa using hne
  have hhighest : ∀ last ∈ (program.map (Instruction.group inlines)).getLast?,
      ∀ g ∈ program.map (Instruction.group inlines), g.1.toNat ≤ last.1.toNat := by
    intro last hlast
    rw [List.getLast?_map] at hlast
    obtain ⟨i, hi, rfl⟩ := Option.map_eq_some_iff.mp hlast
    exact hall (hprogram.last_highest i hi)
  obtain ⟨t, ht, ⟨padding, hbytecode⟩, hpcs⟩ := BytecodeTable.preprocess_groups hgroupsNe
    (hall fun i hi => (hcounted i hi).1) (hall hprogram.indexed) (hall hprogram.reaches)
    (List.pairwise_map.mpr hprogram.distinct) hhighest (hgroups ▸ hlength) entryAddress
  rw [← hgroups] at ht hbytecode hpcs
  have hindexes := BytecodeTable.indexes hbytecode hlength hpcs
  have hown : ∀ (n : Nat) (i : BasicInstruction) (c : Cycle), t.bytecode[n]? = .some i →
      i.op ≠ .noOp → c.instruction = i → ∃ pc, t.getPc c = .some pc ∧ pc.toNat = n := by
    intro n i c hi hop hc
    obtain ⟨m, rfl, hm⟩ := hindexes.back n i hi hop
    exact hindexes.pc m i c hm hop (congrArg _ hc)
  have hentries : ∀ i ∈ program, ∀ is, i.inlineSequence inlines = .some is →
      ∀ j ∈ is, j ∈ bytecode ∧ j.op ≠ .noOp := by
    intro i hi is his j hj
    have heq : is = (i.group inlines).2 := Option.some.inj (his.symm.trans (hsequences i hi))
    rw [heq] at hj
    refine ⟨?_, (hcounted i hi).1.op_ne j hj⟩
    rw [hgroups]
    exact List.mem_flatMap.mpr ⟨_, List.mem_map_of_mem hi, hj⟩
  refine ⟨t, ht, {
    counted := fun i hi => ⟨_, hsequences i hi, (hcounted i hi).2⟩
    own_pc := hown
    distinct_pc := ?_
    noOp_pc := fun c hc => t.getPc_noOp hc
    traced := fun cycles htrace => hindexes.traced hshaped hentries htrace }⟩
  intro m n i j c d hmn hi hj hiop hjop hc hd heq
  obtain ⟨a, ha, ham⟩ := hown m i c hi hiop hc
  obtain ⟨b, hb, hbn⟩ := hown n j d hj hjop hd
  have hab : a = b := Option.some.inj (ha.symm.trans (heq.trans hb))
  exact hmn (by rw [← ham, ← hbn, hab])

/-- `addi x1, x0, 1`. -/
def addiAt (address : U64) : Instruction where
  op := .basic (.i .ADDI ⟨1, 0, 1⟩)
  address := address
  virtualSequenceRemaining := .none
  isFirstInSequence := false
  isCompressed := false

theorem addiAt_decodable (address : U64) : (addiAt address).Decodable := ⟨0x00100093, false, rfl⟩

/-- `mulh x3, x1, x2`. -/
def mulhAt (address : U64) : Instruction where
  op := .seq (.r .MULH ⟨3, 1, 2⟩)
  address := address
  virtualSequenceRemaining := .none
  isFirstInSequence := false
  isCompressed := false

theorem mulhAt_decodable (address : U64) : (mulhAt address).Decodable := ⟨0x022091b3, false, rfl⟩

/-- The product of the numbers at `x10` and `x11`, to `x12`. -/
def bigintMulAt (address : U64) : Instruction where
  op := .inline ⟨0x0B, 0x00, 0x04, ⟨10, 11, 12⟩⟩
  address := address
  virtualSequenceRemaining := .none
  isFirstInSequence := false
  isCompressed := false

theorem bigintMulAt_decodable (address : U64) : (bigintMulAt address).Decodable := ⟨0x08b5060b, false, rfl⟩

theorem bigintInlines_short : bigintInlines.Short := by
  intro opcode funct3 funct7 reg hreg operands next _
  unfold bigintInlines at hreg
  split_ifs at hreg
  cases hreg
  have hlength : (bigintMul256.buildSequence operands next).length = 222 := length_build operands
  exact ⟨List.ne_nil_of_length_pos (by omega), by omega⟩

set_option maxRecDepth 4000 in
theorem preprocess_agrees_bigint : ∃ bytecode t, expand bigintInlines
      [mulhAt 0x80000004, addiAt 0x80000000, bigintMulAt 0x80000008] = .some bytecode ∧ bytecode.length = 230 ∧
    BytecodeTable.preprocess bytecode 0x80000000 = .some (.ok t) ∧
      t.Agrees bigintInlines [mulhAt 0x80000004, addiAt 0x80000000, bigintMulAt 0x80000008] := by
  have hprogram : DecodedProgram [mulhAt 0x80000004, addiAt 0x80000000, bigintMulAt 0x80000008] := {
    decodable := by
      simp only [List.forall_mem_cons, List.not_mem_nil, false_implies, implies_true, and_true]
      exact ⟨mulhAt_decodable _, addiAt_decodable _, bigintMulAt_decodable _⟩
    distinct := by decide
    last_highest := by decide
    indexed := by
      simp only [List.forall_mem_cons, List.not_mem_nil, false_implies, implies_true, and_true]
      exact ⟨⟨3, rfl⟩, ⟨1, rfl⟩, ⟨5, rfl⟩⟩
    reaches := by
      simp only [List.forall_mem_cons, List.not_mem_nil, false_implies, implies_true, and_true]
      exact ⟨by unfold BytecodePCMapper.Reaches; decide, by unfold BytecodePCMapper.Reaches; decide,
        by unfold BytecodePCMapper.Reaches; decide⟩
    csr := by decide }
  have hexpand : ∃ bytecode, expand bigintInlines
      [mulhAt 0x80000004, addiAt 0x80000000, bigintMulAt 0x80000008] = .some bytecode ∧ bytecode.length = 230 :=
    ⟨_, rfl, rfl⟩
  obtain ⟨bytecode, hexpand, hlength⟩ := hexpand
  obtain ⟨t, ht, hagrees⟩ := preprocess_agrees bigintInlines_shaped bigintInlines_short hprogram
    (List.cons_ne_nil _ _) hexpand (by rw [hlength]; decide) 0x80000000
  exact ⟨bytecode, t, hexpand, hlength, ht, hagrees⟩

/-- A list that does not end with its highest address: the vector is as long as the last one
needs, and the first one has no place in it. -/
theorem descending_panics : ∃ (program : List Instruction) (bytecode : List BasicInstruction),
    (∀ i ∈ program, i.Decodable) ∧ program.Pairwise (fun i j => i.address ≠ j.address) ∧
      (∀ i ∈ program, ∃ k, BytecodePCMapper.getIndex i.address = .some k) ∧
      expand (fun _ _ _ => .none) program = .some bytecode ∧
      BytecodeTable.preprocess bytecode 0x80000000 = .none := by
  refine ⟨[addiAt 0x80000004, addiAt 0x80000000], _, ?_, by decide, ?_, rfl, rfl⟩
  · simp only [List.forall_mem_cons, List.not_mem_nil, false_implies, implies_true, and_true]
    exact ⟨addiAt_decodable _, addiAt_decodable _⟩
  · simp only [List.forall_mem_cons, List.not_mem_nil, false_implies, implies_true, and_true]
    exact ⟨⟨3, rfl⟩, ⟨1, rfl⟩⟩

end Programs

end LightningJolt
