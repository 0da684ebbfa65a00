/-
Runs of operation lists on the processor alone, without the cycles: what the
tracing of a sequence comes to, one rule for each kind of operation.
-/
import LightningJolt.Decode
import LightningJolt.Fallible

namespace LightningJolt

/-- The processor after the operations of an instruction at `address`. -/
def runOps (address : U64) : List BasicOp → Cpu → Option Cpu
  | [], cpu => .some cpu
  | op :: ops, cpu => do
    let (_, cpu') ← op.exec address cpu
    runOps address ops cpu'

/-! ## The architectural registers -/

namespace Cpu

variable {k : Nat} (cpu : Cpu) (v : U64)

/-- Registers 0 to 31, which a program sees. -/
def architectural : Fin 32 → U64 := fun r => cpu.x.read r

theorem architectural_virtual (hk : 32 ≤ k) :
    (cpu.writeRegister k v).architectural = cpu.architectural := by
  funext r
  have hr := r.isLt
  exact Registers.read_write_ne _ _ (by omega)

theorem architectural_write (h0 : k ≠ 0) (hk : k < 32) :
    (cpu.writeRegister k v).architectural = Function.update cpu.architectural ⟨k, hk⟩ v := by
  funext r
  rcases eq_or_ne r ⟨k, hk⟩ with rfl | hr
  · rw [Function.update_self]
    exact Registers.read_write_self _ _ h0
  · rw [Function.update_of_ne hr]
    exact Registers.read_write_ne _ _ fun h => hr (Fin.ext h)

end Cpu

/-- Operands that a decoded instruction can have. -/
structure FormatR.Architectural (o : FormatR) : Prop where
  rd : o.rd < 32
  rs1 : o.rs1 < 32
  rs2 : o.rs2 < 32

/-! ## Rules -/

section Rules

variable {address : U64} {ops : List BasicOp} {cpu : Cpu}

@[simp] theorem runOps_nil : runOps address [] cpu = .some cpu := rfl

theorem runOps_cons (op : BasicOp) :
    runOps address (op :: ops) cpu = (op.exec address cpu).bind fun out => runOps address ops out.2 := rfl

@[simp] theorem runOps_r (op : ROp) (o : FormatR) :
    runOps address (.r op o :: ops) cpu =
      runOps address ops (cpu.writeRegister o.rd (op.eval (cpu.x.read o.rs1) (cpu.x.read o.rs2))) := by
  rw [runOps_cons]
  rfl

@[simp] theorem runOps_i (op : IOp) (o : FormatI) :
    runOps address (.i op o :: ops) cpu =
      runOps address ops (cpu.writeRegister o.rd (op.eval (cpu.x.read o.rs1) o.imm)) := by
  rw [runOps_cons]
  rfl

@[simp] theorem runOps_u (op : UOp) (o : FormatU) :
    runOps address (.u op o :: ops) cpu =
      runOps address ops (cpu.writeRegister o.rd (op.eval address o.imm)) := by
  rw [runOps_cons]
  rfl

@[simp] theorem runOps_shiftI (op : ShiftIOp) (o : FormatVirtualRightShiftI) :
    runOps address (.shiftI op o :: ops) cpu =
      runOps address ops (cpu.writeRegister o.rd (op.eval (cpu.x.read o.rs1) o.imm)) := by
  rw [runOps_cons]
  rfl

@[simp] theorem runOps_shiftR (op : ShiftROp) (o : FormatVirtualRightShiftR) :
    runOps address (.shiftR op o :: ops) cpu =
      runOps address ops (cpu.writeRegister o.rd (op.eval (cpu.x.read o.rs1) (cpu.x.read o.rs2))) := by
  rw [runOps_cons]
  rfl

@[simp] theorem runOps_advice (o : FormatJ) (advice : U64) :
    runOps address (.VirtualAdvice o advice :: ops) cpu =
      runOps address ops (cpu.writeRegister o.rd advice) := by
  rw [runOps_cons]
  rfl

@[simp] theorem runOps_assert (op : AssertOp) (o : FormatB) :
    runOps address (.assert op o :: ops) cpu =
      if op.holds (cpu.x.read o.rs1) (cpu.x.read o.rs2) o.imm then runOps address ops cpu
      else .none := by
  simp only [runOps_cons, BasicOp.exec]
  split <;> rfl

@[simp] theorem runOps_align (op : AlignOp) (o : FormatAssert) :
    runOps address (.align op o :: ops) cpu =
      if op.holds (cpu.x.read o.rs1 + o.imm) then runOps address ops cpu else .none := by
  simp only [runOps_cons, BasicOp.exec]
  split <;> rfl

end Rules

/-! ## Tracing as running -/

namespace BasicInstruction

variable {address : U64} {isCompressed : Bool} {ops : List BasicOp} {is : List BasicInstruction}
  {cpu : Cpu}

theorem finalize_ops : (finalize address isCompressed ops).map (·.op) = ops := by
  refine List.ext_getElem? fun i => ?_
  simp only [finalize, List.getElem?_map, List.getElem?_mapIdx]
  cases ops[i]? <;> rfl

theorem finalize_address : ∀ i ∈ finalize address isCompressed ops, i.address = address := by
  intro i hi
  obtain ⟨n, hn, rfl⟩ := List.mem_mapIdx.mp hi
  rfl

theorem trace_of_rd_ne {i : BasicInstruction} (h : i.op.rd ≠ .some 0) : i.trace = i.traceRaw := by
  rw [trace, inlineSequence, if_neg h]

/-- Where no instruction writes `x0`, the two loops agree. -/
theorem traceAll_eq_raw (h : ∀ i ∈ is, i.op.rd ≠ .some 0) : traceAll is = traceAllRaw is := by
  induction is with
  | nil => rfl
  | cons i is ih =>
    have hi := h i (List.mem_cons_self ..)
    have his := ih fun j hj => h j (List.mem_cons_of_mem _ hj)
    rw [traceAll, traceAllRaw, trace_of_rd_ne hi, his]

theorem traceAllRaw_run (h : ∀ i ∈ is, i.address = address) :
    (traceAllRaw is cpu).map Prod.snd = runOps address (is.map (·.op)) cpu := by
  induction is generalizing cpu with
  | nil => rfl
  | cons i is ih =>
    have hi := h i (List.mem_cons_self ..)
    have his : ∀ cpu, (traceAllRaw is cpu).map Prod.snd = runOps address (is.map (·.op)) cpu :=
      fun _ => ih fun j hj => h j (List.mem_cons_of_mem _ hj)
    simp only [traceAllRaw, List.map_cons, runOps_cons]
    change Option.map Prod.snd ((i.traceRaw cpu).bind fun p =>
      (traceAllRaw is p.2).bind fun q => .some (p.1 ++ q.1, q.2)) = _
    simp only [traceRaw, hi, Option.bind_eq_bind, Option.pure_def]
    cases hexec : i.op.exec address cpu with
    | none => rfl
    | some p =>
      simp only [Option.bind_some, ← his]
      cases traceAllRaw is p.2 <;> rfl

/-- The processor a finalized sequence leaves, `x0` rewriting aside. -/
theorem traceAllRaw_finalize :
    (traceAllRaw (finalize address isCompressed ops) cpu).map Prod.snd = runOps address ops cpu := by
  rw [traceAllRaw_run finalize_address, finalize_ops]

theorem traceAll_finalize (h : ∀ op ∈ ops, op.rd ≠ .some 0) :
    (traceAll (finalize address isCompressed ops) cpu).map Prod.snd = runOps address ops cpu := by
  rw [traceAll_eq_raw, traceAllRaw_finalize]
  intro i hi
  have hmem : i.op ∈ (finalize address isCompressed ops).map (·.op) := List.mem_map_of_mem hi
  rw [finalize_ops] at hmem
  exact h i.op hmem

end BasicInstruction

/-! ## Instructions with a sequence -/

/-- What `trace` does to the emulator's reservation before the sequence runs. -/
def SeqOp.reserve (op : SeqOp) (cpu : Cpu) : Cpu :=
  match op with
  | .lr width o => cpu.setReservation (cpu.x.read o.rs1) width
  | _ => cpu

/-- What it does to it after. -/
def SeqOp.release (op : SeqOp) (cpu : Cpu) : Cpu :=
  match op with
  | .sc .. => cpu.clearReservation
  | _ => cpu

theorem Instruction.traceRaw_seq (inlines : Inlines) {i : Instruction} {op : SeqOp}
    (hi : i.op = .seq op) (cpu : Cpu) :
    i.traceRaw inlines cpu =
      (op.inlineSequence firstVirtualRegister >>= op.fillAdvice (op.reserve cpu)) >>= fun ops =>
        BasicInstruction.traceAll (BasicInstruction.finalize i.address i.isCompressed ops)
          (op.reserve cpu) >>= fun p => .some (p.1, op.release p.2) := by
  simp only [traceRaw, hi]
  cases op <;> simp only [Fallible.bind_apply, Fallible.lift_apply, Fallible.get_apply,
    Fallible.pure_apply, Fallible.modify_apply, Option.bind_eq_bind, Option.bind_some,
    Option.bind_assoc, SeqOp.reserve, SeqOp.release]

end LightningJolt
