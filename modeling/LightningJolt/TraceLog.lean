/-
The trace as a log of accesses: to the registers, by the values a cycle holds
for `rs1`, `rs2` and `rd`, and to memory, by its RAM access. Each step of the
emulator makes the registers and memory what its cycles say.
-/
import LightningJolt.AccessLog
import LightningJolt.StoreSequences
import LightningJolt.Tick

namespace LightningJolt

open Fallible CellAccess

/-! ## The doublewords of memory -/

namespace Mmu

variable {m m' : Mmu} {ea : Nat} {v : U64}

/-- The memory layout of the device. -/
def layout (m : Mmu) : Option MemoryLayout := m.joltDevice.map (·.memoryLayout)

/-- The doublewords a guest sees, by their index. -/
def dwords (m : Mmu) (i : Nat) : U64 := m.dword (8 * i)

/-- What a doubleword that held `held` holds after a store of `value`: each
byte of the panic doubleword is the flag, and the termination doubleword drops
what is stored. -/
def settled (layout : Option MemoryLayout) (ea : Nat) (held value : U64) : U64 :=
  match layout with
  | .none => value
  | .some l =>
    if ea = l.panic then 0x0101010101010101
    else if ea = l.termination then held
    else value

/-- A store elsewhere stays as it is. -/
theorem settled_plain (h : m.Plain ea) (held : U64) : settled m.layout ea held v = v := by
  unfold settled layout
  cases hd : m.joltDevice with
  | none => rfl
  | some d =>
    have hl := d.wellFormed
    have h1 := hl.termination_eq
    have h2 := hl.ioEnd_eq
    have hnot := h d hd
    rw [Option.map_some]
    dsimp only
    rw [if_neg (by omega), if_neg (by omega)]

theorem layout_congr (h : m ≈ m') : m'.layout = m.layout := by
  rcases (equiv_cases h).2 with ⟨hd, hd'⟩ | ⟨d, d', hd, hd', hlayout, -, -⟩
  · rw [layout, layout, hd, hd']
  · rw [layout, layout, hd, hd', Option.map_some, Option.map_some, hlayout]

theorem dwords_congr (h : m ≈ m') : m'.dwords = m.dwords := by
  funext i
  rw [dwords, dwords, dword, dword, byte_congr h]

theorem layout_storedField : (m.storedField 8 ea v).layout = m.layout := by
  unfold storedField
  split_ifs with hram
  · rfl
  · rw [layout, layout, Option.map_map]
    refine congrArg (fun f => m.joltDevice.map f) ?_
    funext d
    exact JoltDevice.storedBytes_memoryLayout ..

theorem leByte_ones : ∀ k < 8, leByte 0x0101010101010101 k = 1 := by decide

theorem dword_eq_of_bytes {w : U64} (h : ∀ i < 8, m.byte (ea + i) = leByte w i) : m.dword ea = w :=
  eq_of_leByte fun i hi => by rw [leByte_dword m ea hi, h i hi]

theorem writable_of_storable {d : JoltDevice} (hd : m.joltDevice = .some d) (hram : ¬ ramStartAddress ≤ ea)
    (hst : m.FieldStorable 8 ea) : ∀ i < 8, d.Writable (ea + i) := by
  intro i hi
  rw [FieldStorable, if_neg hram] at hst
  obtain ⟨-, d', hd', hw⟩ := hst i hi
  rw [hd] at hd'
  cases hd'
  exact hw

/-- The bytes of the device after a store into it. -/
theorem deviceByte_storedField {d : JoltDevice} (hd : m.joltDevice = .some d) (hram : ¬ ramStartAddress ≤ ea)
    (hw : ∀ i < 8, d.Writable (ea + i)) (b : Nat) :
    (m.storedField 8 ea v).deviceByte b =
      if d.isPanic b then .some (if (d.storedBytes ea v 8).panic then 1 else 0)
      else if ea ≤ b ∧ b < ea + 8 ∧ b < d.memoryLayout.panic then .some (leByte v (b - ea))
      else d.load b := by
  rw [← JoltDevice.storedBytes_load hw, deviceByte, storedField, if_neg hram, hd, Option.map_some,
    Option.bind_some]

/-- The doublewords after one is stored. -/
theorem dwords_storedField (h8 : ea % 8 = 0) (hst : m.FieldStorable 8 ea) :
    (m.storedField 8 ea v).dwords =
      Function.update m.dwords (ea / 8) (settled m.layout ea (m.dword ea) v) := by
  funext i
  rw [Function.update_apply]
  by_cases hplain : m.Plain ea
  · have hbytes := byte_storedField h8 hst hplain v
    by_cases hi : i = ea / 8
    · have hea : 8 * i = ea := by omega
      rw [if_pos hi, dwords, hea]
      rw [settled_plain hplain]
      refine dword_eq_of_bytes fun k hk => ?_
      rw [hbytes, if_pos (by omega), Nat.add_sub_cancel_left]
    · rw [if_neg hi, dwords, dwords]
      refine dword_eq_of_bytes fun k hk => ?_
      rw [hbytes, if_neg (by omega), leByte_dword m _ hk]
  · -- The store is into the panic or the termination doubleword.
    simp only [Plain, not_forall, not_not] at hplain
    obtain ⟨d, hd, hlo, hhi⟩ := hplain
    have hl := d.wellFormed
    have h1 := hl.outputEnd_aligned
    have h2 := hl.panic_eq
    have h3 := hl.termination_eq
    have h4 := hl.ioEnd_eq
    have h5 := hl.ioEnd_le
    have hram8 := ramStart_mod
    have hram : ¬ ramStartAddress ≤ ea := by omega
    have hw := writable_of_storable hd hram hst
    have hpanic : (d.storedBytes ea v 8).panic = (d.panic || decide (ea = d.memoryLayout.panic)) := by
      rw [JoltDevice.storedBytes_panic hw]
      congr 1
      rw [decide_eq_decide]
      omega
    have hsame {b : Nat} (hb : ¬ ramStartAddress ≤ b) : m.byte b = (d.load b).getD 0 := by
      rw [byte, if_neg hb, deviceByte, hd]
      rfl
    have hkeeps {b : Nat} (hb : d.isPanic b → ea ≠ d.memoryLayout.panic) :
        (m.storedField 8 ea v).byte b = m.byte b := by
      by_cases hbram : ramStartAddress ≤ b
      · rw [byte, byte, if_pos hbram, if_pos hbram, storedField, if_neg hram]
      · rw [byte, if_neg hbram, deviceByte_storedField hd hram hw, hsame hbram]
        by_cases hp : d.isPanic b
        · rw [if_pos hp, JoltDevice.load_panic hp, hpanic, decide_eq_false (hb hp), Bool.or_false]
        · rw [if_neg hp, if_neg (by omega)]
    have hlayout : m.layout = .some d.memoryLayout := by
      rw [layout, hd]
      rfl
    rw [hlayout]
    rcases (by omega : ea = d.memoryLayout.panic ∨ ea = d.memoryLayout.termination) with hea | hea
    · rw [settled, if_pos hea]
      by_cases hi : i = ea / 8
      · rw [if_pos hi, dwords, show 8 * i = ea by omega]
        refine dword_eq_of_bytes fun k hk => ?_
        have hp : d.isPanic (ea + k) = true := by
          simp only [JoltDevice.isPanic, Bool.and_eq_true, decide_eq_true_eq]
          omega
        rw [byte, if_neg (by omega), deviceByte_storedField hd hram hw, if_pos hp, hpanic, decide_eq_true hea,
          Bool.or_true, leByte_ones k hk]
        rfl
      · rw [if_neg hi, dwords, dwords]
        refine dword_eq_of_bytes fun k hk => ?_
        rw [leByte_dword m _ hk]
        refine hkeeps fun hp => absurd hp ?_
        simp only [JoltDevice.isPanic, Bool.and_eq_true, decide_eq_true_eq]
        omega
    · have hne : ea ≠ d.memoryLayout.panic := by omega
      rw [settled, if_neg hne, if_pos hea]
      have hbyte : (m.storedField 8 ea v).byte = m.byte := by
        funext b
        exact hkeeps fun _ => hne
      have hdwords : (m.storedField 8 ea v).dwords i = m.dwords i := by
        rw [dwords, dwords, dword, dword, hbyte]
      rw [hdwords]
      split_ifs with hi
      · rw [dwords, show 8 * i = ea by omega]
      · rfl

end Mmu

/-! ## Cycles as accesses -/

/-- The reads of a cycle of `rs1` and `rs2`. -/
def Cycle.sourceLog (c : Cycle) : List (CellAccess Nat U64) :=
  (c.instruction.op.normalize.rs1.bind fun r => c.rs1.map (read r)).toList ++
    (c.instruction.op.normalize.rs2.bind fun r => c.rs2.map (read r)).toList

/-- The access of a cycle to `rd`: it finds what it held before and leaves what it holds after. -/
def Cycle.rdLog (c : Cycle) : List (CellAccess Nat U64) :=
  (c.instruction.op.rd.bind fun r => c.rd.map fun values => ⟨r, values.1, values.2⟩).toList

/-- The accesses of a cycle to the registers. -/
def Cycle.registerLog (c : Cycle) : List (CellAccess Nat U64) := c.sourceLog ++ c.rdLog

/-- The access of a cycle to memory, as one to a doubleword. A store leaves what
the doubleword then holds. -/
def Cycle.ramLog (layout : Option MemoryLayout) (c : Cycle) : List (CellAccess Nat U64) :=
  match c.ramAccess with
  | .read r => [read (r.address / 8) r.value]
  | .write w => [⟨w.address / 8, w.preValue, Mmu.settled layout w.address w.preValue w.postValue⟩]
  | .noOp => []

/-- A RAM access is to a doubleword at its own address. -/
def RamAccess.dwordAligned : RamAccess → Prop
  | .read r => r.address % 8 = 0
  | .write w => w.address % 8 = 0
  | .noOp => True

/-- A cycle holds a value of each register its operation names. -/
def Cycle.named (c : Cycle) : Prop :=
  c.rs1.isSome = c.instruction.op.normalize.rs1.isSome ∧ c.rs2.isSome = c.instruction.op.normalize.rs2.isSome ∧
    c.rd.isSome = c.instruction.op.normalize.rd.isSome

/-- The cycles say what happened between two states: their logs are consistent
and lead from the registers and the memory of the first to those of the second. -/
structure Records (cpu : Cpu) (cycles : List Cycle) (cpu' : Cpu) : Prop where
  layout : cpu'.mmu.layout = cpu.mmu.layout
  registers : Consistent cpu.x.read (cycles.flatMap Cycle.registerLog)
  registersAfter : replay cpu.x.read (cycles.flatMap Cycle.registerLog) = cpu'.x.read
  ram : Consistent cpu.mmu.dwords (cycles.flatMap (Cycle.ramLog cpu.mmu.layout))
  ramAfter : replay cpu.mmu.dwords (cycles.flatMap (Cycle.ramLog cpu.mmu.layout)) = cpu'.mmu.dwords
  aligned : ∀ c ∈ cycles, c.ramAccess.dwordAligned
  named : ∀ c ∈ cycles, c.named

namespace Records

variable {cpu cpu1 cpu' : Cpu} {cycles cycles' : List Cycle}

/-- A step that changes neither the registers nor what memory shows records nothing. -/
theorem silent (hx : cpu'.x = cpu.x) (hm : cpu.mmu ≈ cpu'.mmu) : Records cpu [] cpu' where
  layout := Mmu.layout_congr hm
  registers := trivial
  registersAfter := by
    rw [hx]
    rfl
  ram := trivial
  ramAfter := (Mmu.dwords_congr hm).symm
  aligned := by simp
  named := by simp

theorem append (h : Records cpu cycles cpu1) (h' : Records cpu1 cycles' cpu') :
    Records cpu (cycles ++ cycles') cpu' where
  layout := h'.layout.trans h.layout
  registers := by
    rw [List.flatMap_append, consistent_append, h.registersAfter]
    exact ⟨h.registers, h'.registers⟩
  registersAfter := by
    rw [List.flatMap_append, replay_append, h.registersAfter, h'.registersAfter]
  ram := by
    rw [List.flatMap_append, consistent_append, h.ramAfter, ← h.layout]
    exact ⟨h.layout ▸ h.ram, h'.ram⟩
  ramAfter := by
    rw [List.flatMap_append, replay_append, h.ramAfter, ← h.layout, h'.ramAfter]
  aligned c hc := (List.mem_append.mp hc).elim (h.aligned c) (h'.aligned c)
  named c hc := (List.mem_append.mp hc).elim (h.named c) (h'.named c)

theorem then_silent (h : Records cpu cycles cpu1) (hx : cpu'.x = cpu1.x) (hm : cpu1.mmu ≈ cpu'.mmu) :
    Records cpu cycles cpu' := by
  have hstep := h.append (silent hx hm)
  rwa [List.append_nil] at hstep

theorem after_silent (hx : cpu1.x = cpu.x) (hm : cpu.mmu ≈ cpu1.mmu) (h : Records cpu1 cycles cpu') :
    Records cpu cycles cpu' := (silent hx hm).append h

end Records

end LightningJolt
