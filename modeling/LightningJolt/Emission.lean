/-
The cycles a trace consists of: which operations `Instruction::trace` runs, of
which each emits one cycle.
-/
import LightningJolt.Run

namespace LightningJolt

/-! ## Cycles of a list -/

namespace BasicInstruction

variable {is js : List BasicInstruction} {cpu cpu' : Cpu} {cycles : List Cycle}

/-- `c` is the cycle of `i` from some state. -/
def Traced (i : BasicInstruction) (c : Cycle) : Prop :=
  ∃ cpu cpu', i.traceRaw cpu = .some ([c], cpu')

/-- The one cycle of an instruction, of what `exec` did. -/
theorem traceRaw_exec {i : BasicInstruction} (h : i.traceRaw cpu = .some (cycles, cpu')) :
    ∃ access, i.op.exec i.address cpu = .some (access, cpu') ∧
      cycles = [{
        instruction := i
        rs1 := i.op.normalize.rs1.map cpu.x.read
        rs2 := i.op.normalize.rs2.map cpu.x.read
        rd := i.op.normalize.rd.map fun r => (cpu.x.read r, cpu'.x.read r)
        ramAccess := access }] := by
  obtain ⟨⟨access, cpu1⟩, hexec, hpure⟩ := Option.bind_eq_some_iff.mp h
  cases hpure
  exact ⟨access, hexec, rfl⟩

theorem traceRaw_cases {i : BasicInstruction} (h : i.traceRaw cpu = .some (cycles, cpu')) :
    ∃ c, cycles = [c] ∧ c.instruction = i ∧ i.Traced c := by
  obtain ⟨access, -, rfl⟩ := traceRaw_exec h
  exact ⟨_, rfl, rfl, cpu, cpu', h⟩

theorem traceAllRaw_cons {i : BasicInstruction} :
    traceAllRaw (i :: is) cpu = i.traceRaw cpu >>= fun p =>
      traceAllRaw is p.2 >>= fun q => .some (p.1 ++ q.1, q.2) := rfl

theorem traceAllRaw_append :
    traceAllRaw (is ++ js) cpu = traceAllRaw is cpu >>= fun p =>
      traceAllRaw js p.2 >>= fun q => .some (p.1 ++ q.1, q.2) := by
  induction is generalizing cpu with
  | nil => exact (Option.bind_fun_some _).symm
  | cons i is ih =>
    simp only [List.cons_append, traceAllRaw_cons, Option.bind_eq_bind, Option.bind_assoc] at ih ⊢
    congr 1
    funext p
    simp only [ih, Option.bind_assoc, Option.bind_some, List.append_assoc]

/-- A run, taken apart at one of its instructions. -/
theorem traceAllRaw_split {i : BasicInstruction}
    (h : traceAllRaw (is ++ i :: js) cpu = .some (cycles, cpu')) :
    ∃ cs cpu1 c cpu2 ds, traceAllRaw is cpu = .some (cs, cpu1) ∧
      i.traceRaw cpu1 = .some ([c], cpu2) ∧ traceAllRaw js cpu2 = .some (ds, cpu') ∧
      cycles = cs ++ c :: ds := by
  rw [traceAllRaw_append] at h
  obtain ⟨⟨cs, cpu1⟩, hcs, h⟩ := Option.bind_eq_some_iff.mp h
  obtain ⟨⟨es, cpu3⟩, hes, h⟩ := Option.bind_eq_some_iff.mp h
  rw [traceAllRaw_cons] at hes
  obtain ⟨⟨bs, cpu2⟩, hbs, hes⟩ := Option.bind_eq_some_iff.mp hes
  obtain ⟨⟨ds, cpu4⟩, hds, hes⟩ := Option.bind_eq_some_iff.mp hes
  obtain ⟨c, rfl, -, -⟩ := traceRaw_cases hbs
  cases hes
  cases h
  exact ⟨cs, cpu1, c, cpu2, ds, hcs, hbs, hds, rfl⟩

/-- The loop of a `trace` is the raw loop over the rewritten instructions. -/
theorem traceAll_eq_map : traceAll is = traceAllRaw (is.map inlineSequence) := by
  induction is with
  | nil => rfl
  | cons i is ih =>
    rw [List.map_cons, traceAll, traceAllRaw, ih]
    rfl

theorem traceAllRaw_traced (h : traceAllRaw is cpu = .some (cycles, cpu')) :
    ∀ c ∈ cycles, c.instruction ∈ is ∧ c.instruction.Traced c := by
  induction is generalizing cpu cycles with
  | nil =>
    cases h
    simp
  | cons i is ih =>
    rw [traceAllRaw_cons] at h
    obtain ⟨⟨cs, cpu1⟩, hcs, h⟩ := Option.bind_eq_some_iff.mp h
    obtain ⟨⟨ds, cpu2⟩, hds, h⟩ := Option.bind_eq_some_iff.mp h
    obtain ⟨c, rfl, hci, htraced⟩ := traceRaw_cases hcs
    cases h
    intro d hd
    rcases List.mem_cons.mp hd with rfl | hd
    · rw [hci]
      exact ⟨List.mem_cons_self .., htraced⟩
    · obtain ⟨hmem, ht⟩ := ih hds d hd
      exact ⟨List.mem_cons_of_mem _ hmem, ht⟩

/-- A run over operations with `x` among them: the cycle of `x` from the state
the operations before it leave, and the cycles of the others. -/
theorem traceAllRaw_at {address : U64} {pre post : List BasicOp} {x : BasicOp}
    (h : traceAllRaw is cpu = .some (cycles, cpu')) (hops : is.map (·.op) = pre ++ x :: post)
    (haddr : ∀ i ∈ is, i.address = address) :
    ∃ c cpu1, c ∈ cycles ∧ runOps address pre cpu = .some cpu1 ∧ c.instruction.op = x ∧
      c.rs1 = x.normalize.rs1.map cpu1.x.read ∧
      ∀ d ∈ cycles, d = c ∨ d.instruction.op ∈ pre ∨ d.instruction.op ∈ post := by
  obtain ⟨is1, is2, rfl, rfl, hrest⟩ := List.map_eq_append_iff.mp hops
  obtain ⟨i, is3, rfl, rfl, rfl⟩ := List.map_eq_cons_iff.mp hrest
  obtain ⟨cs, cpu1, c, cpu2, ds, h1, hc, h2, rfl⟩ := traceAllRaw_split h
  obtain ⟨access, -, hcycle⟩ := traceRaw_exec hc
  have hfields := List.singleton_inj.mp hcycle
  have hrun := @traceAllRaw_run address is1 cpu fun j hj => haddr j (List.mem_append_left _ hj)
  rw [h1] at hrun
  refine ⟨c, cpu1, List.mem_append_right _ (List.mem_cons_self ..), hrun.symm, by rw [hfields],
    by rw [hfields], ?_⟩
  intro d hd
  rcases List.mem_append.mp hd with hd | hd
  · exact .inr (.inl (List.mem_map_of_mem (traceAllRaw_traced h1 d hd).1))
  rcases List.mem_cons.mp hd with rfl | hd
  · exact .inl rfl
  · exact .inr (.inr (List.mem_map_of_mem (traceAllRaw_traced h2 d hd).1))

theorem inlineSequence_address (i : BasicInstruction) : i.inlineSequence.address = i.address := by
  unfold inlineSequence
  split_ifs
  · split
    · rfl
    · split_ifs <;> rfl
  · rfl

end BasicInstruction

/-! ## Operations an instruction runs -/

/-- A property of operations that the rewriting of `x0` and the filling in of
advice keep. -/
structure Rewritable (P : BasicOp → Prop) : Prop where
  nop : P (.i .ADDI ⟨0, 0, 0⟩)
  withRd : ∀ op, P op → P (op.withRd firstVirtualRegister)
  advice : ∀ o v v', P (.VirtualAdvice o v) → P (.VirtualAdvice o v')

section Rewriting

variable {P : BasicOp → Prop} (hP : Rewritable P) {ops ops' : List BasicOp}

include hP

theorem Rewritable.inlineSequence {i : BasicInstruction} (h : P i.op) : P i.inlineSequence.op := by
  unfold BasicInstruction.inlineSequence
  split_ifs
  · split
    · exact h
    · split_ifs
      · exact hP.withRd _ h
      · exact hP.nop
  · exact h

theorem Rewritable.setAdvice {n : Nat} {v : U64} (h : ∀ op ∈ ops, P op)
    (hset : LightningJolt.setAdvice n v ops = .some ops') : ∀ op ∈ ops', P op := by
  unfold LightningJolt.setAdvice at hset
  split at hset
  case h_1 o v' hget =>
    cases hset
    intro op hop
    rcases List.mem_or_eq_of_mem_set hop with hop | rfl
    · exact h op hop
    · exact hP.advice _ _ _ (h _ (List.mem_of_getElem? hget))
  case h_2 => cases hset

theorem Rewritable.setTwo {m n : Nat} {v w : U64} (h : ∀ op ∈ ops, P op)
    (hset : (LightningJolt.setAdvice m v ops >>= LightningJolt.setAdvice n w) = .some ops') :
    ∀ op ∈ ops', P op := by
  obtain ⟨ops1, h1, h2⟩ := Option.bind_eq_some_iff.mp hset
  exact hP.setAdvice (hP.setAdvice h h1) h2

theorem Rewritable.fillAdvice {op : SeqOp} {cpu : Cpu} (h : ∀ op ∈ ops, P op)
    (hfill : op.fillAdvice cpu ops = .some ops') : ∀ op ∈ ops', P op := by
  unfold SeqOp.fillAdvice at hfill
  split at hfill
  case h_1 | h_2 | h_3 | h_4 => exact hP.setTwo h hfill
  case h_5 | h_6 | h_7 | h_8 | h_9 => exact hP.setAdvice h hfill
  case h_10 =>
    cases hfill
    exact h

theorem Rewritable.fillInlineAdvice {vs : List U64} (h : ∀ op ∈ ops, P op)
    (hfill : LightningJolt.fillInlineAdvice ops vs = .some ops') : ∀ op ∈ ops', P op := by
  fun_induction LightningJolt.fillInlineAdvice ops vs generalizing ops' with
  | case1 =>
    cases hfill
    exact h
  | case2 | case4 => cases hfill
  | case3 o v ops w vs ih =>
    obtain ⟨hop, hops⟩ := List.forall_mem_cons.mp h
    obtain ⟨rest, hrest, hpure⟩ := Option.bind_eq_some_iff.mp hfill
    cases hpure
    exact List.forall_mem_cons.mpr ⟨hP.advice _ _ _ hop, ih hops hrest⟩
  | case5 op ops vs _ _ ih =>
    obtain ⟨hop, hops⟩ := List.forall_mem_cons.mp h
    obtain ⟨rest, hrest, hpure⟩ := Option.bind_eq_some_iff.mp hfill
    cases hpure
    exact List.forall_mem_cons.mpr ⟨hop, ih hops hrest⟩

end Rewriting

/-- The operations an instruction expands to. -/
def Op.operations (inlines : Inlines) (next : Nat) : Op → Option (List BasicOp)
  | .basic op => .some [op]
  | .seq op => op.inlineSequence next
  | .inline op =>
    (inlines op.opcode op.funct3 op.funct7).map fun reg => reg.buildSequence op.operands next

section ControlRegisters

variable {o : FormatI} {next : Nat} {ops : List BasicOp}

theorem CSRRW.sequence_cases (h : CSRRW.inlineSequence o next = .some ops) :
    ops = [.noOp] ∨ ∃ vr, csrToVirtualRegister (csrAddress o) = .some vr ∧
      (o.rd = 0 ∧ ops = [.i .ADDI ⟨vr, o.rs1, 0⟩] ∨
       o.rd ≠ 0 ∧ ops = [.i .ADDI ⟨next, o.rs1, 0⟩, .i .ADDI ⟨o.rd, vr, 0⟩, .i .ADDI ⟨vr, next, 0⟩] ∨
       o.rd ≠ 0 ∧ ops = [.i .ADDI ⟨o.rd, vr, 0⟩, .i .ADDI ⟨vr, o.rs1, 0⟩]) := by
  unfold CSRRW.inlineSequence at h
  split at h
  · exact .inl (Option.some.inj h).symm
  obtain ⟨vr, hvr, h⟩ := Option.bind_eq_some_iff.mp h
  refine .inr ⟨vr, hvr, ?_⟩
  split_ifs at h with hrd hsame
  · exact .inl ⟨hrd, (Option.some.inj h).symm⟩
  · exact .inr (.inl ⟨hrd, (Option.some.inj h).symm⟩)
  · exact .inr (.inr ⟨hrd, (Option.some.inj h).symm⟩)

theorem CSRRS.sequence_cases (h : CSRRS.inlineSequence o next = .some ops) :
    ops = [.noOp] ∨ ∃ vr, csrToVirtualRegister (csrAddress o) = .some vr ∧
      (ops = [.i .ADDI ⟨o.rd, vr, 0⟩] ∨
       o.rd = 0 ∧ ops = [.r .OR ⟨vr, vr, o.rs1⟩] ∨
       o.rd ≠ 0 ∧ ops = [.i .ADDI ⟨next, o.rs1, 0⟩, .i .ADDI ⟨o.rd, vr, 0⟩, .r .OR ⟨vr, vr, next⟩] ∨
       o.rd ≠ 0 ∧ ops = [.i .ADDI ⟨o.rd, vr, 0⟩, .r .OR ⟨vr, vr, o.rs1⟩]) := by
  unfold CSRRS.inlineSequence at h
  split at h
  · exact .inl (Option.some.inj h).symm
  obtain ⟨vr, hvr, h⟩ := Option.bind_eq_some_iff.mp h
  refine .inr ⟨vr, hvr, ?_⟩
  split_ifs at h with hrs1 hrd hsame
  · exact .inl (Option.some.inj h).symm
  · exact .inr (.inl ⟨hrd, (Option.some.inj h).symm⟩)
  · exact .inr (.inr (.inl ⟨hrd, (Option.some.inj h).symm⟩))
  · exact .inr (.inr (.inr ⟨hrd, (Option.some.inj h).symm⟩))

end ControlRegisters

section Emitted

variable {inlines : Inlines} {P : BasicOp → Prop} {i : Instruction} {cpu cpu' : Cpu}
  {cycles : List Cycle}

theorem finalize_all {address : U64} {isCompressed : Bool} {ops : List BasicOp}
    (h : ∀ op ∈ ops, P op) {j : BasicInstruction}
    (hj : j ∈ BasicInstruction.finalize address isCompressed ops) : P j.op ∧ j.address = address := by
  refine ⟨h _ ?_, BasicInstruction.finalize_address j hj⟩
  have hmem := List.mem_map_of_mem (f := (·.op)) hj
  rwa [BasicInstruction.finalize_ops] at hmem

theorem dispatch_all {next : Nat} {is : List BasicInstruction}
    (hops : ∀ ops, i.op.operations inlines next = .some ops → ∀ op ∈ ops, P op)
    (h : i.dispatchInlineSequence inlines next = .some is) :
    ∀ j ∈ is, P j.op ∧ j.address = i.address := by
  unfold Instruction.dispatchInlineSequence at h
  split at h
  case h_1 op heq =>
    cases h
    intro j hj
    cases List.mem_singleton.mp hj
    exact ⟨hops [op] (by rw [heq]; rfl) op (List.mem_singleton.mpr rfl), rfl⟩
  case h_2 op heq =>
    obtain ⟨ops, hseq, hpure⟩ := Option.bind_eq_some_iff.mp h
    cases hpure
    exact fun j hj => finalize_all (hops ops (by rw [heq]; exact hseq)) hj
  case h_3 op heq =>
    obtain ⟨reg, hreg, hpure⟩ := Option.bind_eq_some_iff.mp h
    cases hpure
    have hbuild : i.op.operations inlines next = .some (reg.buildSequence op.operands next) := by
      rw [heq, Op.operations, hreg]
      rfl
    exact fun j hj => finalize_all (hops _ hbuild) hj

/-- A sequence traced in full: its rewritten instructions run raw. -/
theorem traceAll_finalize_all (hP : Rewritable P) {address : U64} {isCompressed : Bool}
    {ops : List BasicOp} (h : ∀ op ∈ ops, P op)
    (htrace : BasicInstruction.traceAll (BasicInstruction.finalize address isCompressed ops) cpu =
      .some (cycles, cpu')) :
    ∃ is, BasicInstruction.traceAllRaw is cpu = .some (cycles, cpu') ∧
      ∀ j ∈ is, P j.op ∧ j.address = address := by
  rw [BasicInstruction.traceAll_eq_map] at htrace
  refine ⟨_, htrace, ?_⟩
  intro j hj
  obtain ⟨k, hk, rfl⟩ := List.mem_map.mp hj
  obtain ⟨hop, haddr⟩ := finalize_all h hk
  exact ⟨hP.inlineSequence hop, k.inlineSequence_address.trans haddr⟩

/-- The rewriting of an `x0` instruction. -/
theorem inlineSequence_all (hP : Rewritable P) {is : List BasicInstruction}
    (hops : ∀ op, op = i.op ∨ op = i.op.withRd firstVirtualRegister → ∀ next,
      firstVirtualRegister ≤ next → ∀ ops, op.operations inlines next = .some ops → ∀ b ∈ ops, P b)
    (h : i.inlineSequence inlines = .some is) : ∀ j ∈ is, P j.op ∧ j.address = i.address := by
  have hle : firstVirtualRegister ≤ firstVirtualRegister + 1 := Nat.le_succ _
  unfold Instruction.inlineSequence at h
  split_ifs at h
  · exact dispatch_all (hops _ (.inl rfl) _ le_rfl) h
  · exact dispatch_all (i := { i with op := i.op.withRd firstVirtualRegister })
      (hops _ (.inr rfl) _ hle) h
  · cases h
    intro j hj
    cases List.mem_singleton.mp hj
    exact ⟨hP.nop, rfl⟩
  · exact dispatch_all (hops _ (.inl rfl) _ le_rfl) h

/-- Every trace is a raw run over instructions that the expansion emits. -/
theorem trace_emitted (hP : Rewritable P)
    (hops : ∀ op, op = i.op ∨ op = i.op.withRd firstVirtualRegister → ∀ next,
      firstVirtualRegister ≤ next → ∀ ops, op.operations inlines next = .some ops → ∀ b ∈ ops, P b)
    (h : i.trace inlines cpu = .some (cycles, cpu')) :
    ∃ is cpu1 cpu2, BasicInstruction.traceAllRaw is cpu1 = .some (cycles, cpu2) ∧
      ∀ j ∈ is, P j.op ∧ j.address = i.address := by
  have hops0 : ∀ ops, i.op.operations inlines firstVirtualRegister = .some ops → ∀ b ∈ ops, P b :=
    hops _ (.inl rfl) _ le_rfl
  unfold Instruction.trace at h
  split_ifs at h
  · obtain ⟨⟨is, cpu1⟩, hseq, hrun⟩ := Option.bind_eq_some_iff.mp h
    obtain ⟨is', his, hpure⟩ := Option.bind_eq_some_iff.mp hseq
    cases hpure
    exact ⟨is, cpu, cpu', hrun, inlineSequence_all hP hops his⟩
  cases hop : i.op with
  | basic op =>
    simp only [Instruction.traceRaw, hop] at h
    have hself : P op := hops0 [op] (by rw [hop]; rfl) op (List.mem_singleton.mpr rfl)
    refine ⟨[⟨op, i.address, i.virtualSequenceRemaining, i.isFirstInSequence, i.isCompressed⟩],
      cpu, cpu', ?_, List.forall_mem_singleton.mpr ⟨hself, rfl⟩⟩
    rw [BasicInstruction.traceAllRaw_cons, h]
    simp [BasicInstruction.traceAllRaw, Fallible.pure_apply]
  | seq op =>
    rw [Instruction.traceRaw_seq inlines hop] at h
    obtain ⟨ops, hfilled, h⟩ := Option.bind_eq_some_iff.mp h
    obtain ⟨ops', hseq, hfill⟩ := Option.bind_eq_some_iff.mp hfilled
    obtain ⟨⟨cs, cpu2⟩, hrun, hpure⟩ := Option.bind_eq_some_iff.mp h
    cases hpure
    have hall := hP.fillAdvice (hops0 ops' (by rw [hop]; exact hseq)) hfill
    obtain ⟨is, hraw, his⟩ := traceAll_finalize_all hP hall hrun
    exact ⟨is, _, _, hraw, his⟩
  | inline op =>
    simp only [Instruction.traceRaw, hop, Fallible.bind_apply, Fallible.lift_apply,
      Option.bind_eq_bind, Option.bind_assoc, Option.bind_some] at h
    obtain ⟨reg, hreg, h⟩ := Option.bind_eq_some_iff.mp h
    obtain ⟨⟨advice, cpu1⟩, hadvice, h⟩ := Option.bind_eq_some_iff.mp h
    have hbuild : ∀ b ∈ reg.buildSequence op.operands firstVirtualRegister, P b :=
      hops0 _ (by rw [hop, Op.operations, hreg]; rfl)
    cases advice with
    | none =>
      obtain ⟨is, hraw, his⟩ := traceAll_finalize_all hP hbuild h
      exact ⟨is, _, _, hraw, his⟩
    | some values =>
      obtain ⟨⟨ops, cpu2⟩, hfilled, h⟩ := Option.bind_eq_some_iff.mp h
      obtain ⟨ops', hfill, hpure⟩ := Option.bind_eq_some_iff.mp hfilled
      cases hpure
      obtain ⟨is, hraw, his⟩ := traceAll_finalize_all hP (hP.fillInlineAdvice hbuild hfill) h
      exact ⟨is, _, _, hraw, his⟩

end Emitted

end LightningJolt
