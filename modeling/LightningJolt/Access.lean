/-
Memory accesses as functions of what memory can be seen to hold: for each
load and store of the memory management unit where it succeeds, what it
returns and what it leaves, up to the recorded first accesses and to the
zeros at the end of the device's output.
-/
import LightningJolt.Mmu
import LightningJolt.Bytes
import LightningJolt.Layout

namespace LightningJolt

open Fallible

/-! ## The device -/

namespace JoltDevice

/-- What a guest can see of a device. -/
def view (d : JoltDevice) : MemoryLayout × Bool × (Nat → Option U8) :=
  (d.memoryLayout, d.panic, d.load)

/-- The addresses a guest may write: the outputs, and the panic and the
termination doubleword behind them. -/
def Writable (d : JoltDevice) (address : Nat) : Prop :=
  d.memoryLayout.outputStart ≤ address ∧ address < d.memoryLayout.ioEnd

/-- The device after a store, where there is one. -/
def stored (d : JoltDevice) (address : Nat) (value : U8) : JoltDevice :=
  (d.store address value).getD d

section Stored

variable {d d' : JoltDevice} {address b : Nat} {value : U8}

theorem writable_iff :
    d.Writable address ↔ (d.isOutput address || d.isPanic address || d.isTermination address) = true := by
  have hl := d.wellFormed
  have h1 := hl.outputStart_eq
  have h2 := hl.panic_eq
  have h3 := hl.termination_eq
  have h4 := hl.ioEnd_eq
  have h5 := hl.output_le
  simp only [Writable, isOutput, isPanic, isTermination, Bool.or_eq_true, Bool.and_eq_true,
    decide_eq_true_eq]
  omega

theorem load_panic (h : d.isPanic b) : d.load b = .some (if d.panic then 1 else 0) := if_pos h

theorem isSome_load (h : Mmu.deviceReadable d address = true) : (d.load address).isSome := by
  unfold Mmu.deviceReadable at h
  unfold load
  split_ifs <;> first | rfl | simp_all

theorem readable_of_writable (h : d.Writable address) : Mmu.deviceReadable d address = true := by
  have hregion := writable_iff.mp h
  simp only [Bool.or_eq_true] at hregion
  simp only [Mmu.deviceReadable, Bool.or_eq_true]
  tauto

/-- A store by the region it goes to. -/
theorem store_writable (h : d.Writable address) (value : U8) :
    d.store address value = .some
      (if address = d.memoryLayout.panic then { d with panic := true }
       else if d.memoryLayout.panic ≤ address then d
       else { d with
        outputs := setOutput d.outputs (address - d.memoryLayout.outputStart) value }) := by
  have hl := d.wellFormed
  have h2 := hl.panic_eq
  have h3 := hl.termination_eq
  have h4 := hl.ioEnd_eq
  have h5 := hl.output_le
  have h6 := hl.ioEnd_le
  have hram : ramStartAddress < 2 ^ 63 := by decide
  obtain ⟨hlo, hhi⟩ := h
  unfold store
  by_cases hpanic : address = d.memoryLayout.panic
  · rw [if_pos hpanic, if_pos hpanic]
  rw [if_neg hpanic, if_neg hpanic]
  by_cases hbehind : d.memoryLayout.panic ≤ address
  · have hdrop : (d.isPanic address || d.isTermination address) = true := by
      simp only [isPanic, isTermination, Bool.or_eq_true, Bool.and_eq_true, decide_eq_true_eq]
      omega
    rw [if_pos hdrop, if_pos hbehind]
  · have hdrop : ¬ (d.isPanic address || d.isTermination address) = true := by
      simp only [isPanic, isTermination, Bool.or_eq_true, Bool.and_eq_true, decide_eq_true_eq]
      omega
    have hoffset : wrappingSub address d.memoryLayout.outputStart =
        address - d.memoryLayout.outputStart := by
      simp only [wrappingSub]
      omega
    have hsize : wrappingSub d.memoryLayout.outputEnd d.memoryLayout.outputStart =
        d.memoryLayout.outputEnd - d.memoryLayout.outputStart := by
      simp only [wrappingSub]
      omega
    rw [if_neg hdrop, if_neg hbehind]
    simp only [hoffset, hsize]
    rw [if_pos (by omega)]

theorem stored_eq (h : d.Writable address) (value : U8) :
    d.stored address value =
      if address = d.memoryLayout.panic then { d with panic := true }
      else if d.memoryLayout.panic ≤ address then d
      else { d with outputs := setOutput d.outputs (address - d.memoryLayout.outputStart) value } := by
  rw [stored, store_writable h, Option.getD_some]

theorem stored_memoryLayout (d : JoltDevice) (address : Nat) (value : U8) :
    (d.stored address value).memoryLayout = d.memoryLayout := by
  unfold stored store
  split_ifs
  · rfl
  · rfl
  · simp only
    split_ifs <;> rfl

theorem stored_panic (h : d.Writable address) :
    (d.stored address value).panic = (d.panic || address = d.memoryLayout.panic) := by
  rw [stored_eq h]
  split_ifs with h1 h2 <;> simp [h1]

theorem setOutput_getD (outputs : List U8) (i j : Nat) (value : U8) :
    (setOutput outputs i value).getD j 0 = if j = i then value else outputs.getD j 0 := by
  have hlen : i < (outputs ++ List.replicate (i + 1 - outputs.length) (0 : U8)).length := by
    rw [List.length_append, List.length_replicate]
    omega
  simp only [setOutput, List.getD_eq_getElem?_getD, List.getElem?_set]
  by_cases hij : i = j
  · subst hij
    rw [if_pos rfl, if_pos hlen, if_pos rfl]
    rfl
  · rw [if_neg hij, if_neg (Ne.symm hij), List.getElem?_append]
    split
    · rfl
    · next hge =>
      rw [List.getElem?_eq_none (l := outputs) (by omega), List.getElem?_replicate]
      split <;> rfl

/-- The bytes of a device after a store. -/
theorem stored_load (h : d.Writable address) :
    (d.stored address value).load b =
      if d.isPanic b then .some (if d.panic || address = d.memoryLayout.panic then 1 else 0)
      else if b = address ∧ b < d.memoryLayout.panic then .some value
      else d.load b := by
  have hl := d.wellFormed
  have h2 := hl.panic_eq
  have h3 := hl.termination_eq
  have h5 := hl.output_le
  have h6 := hl.trusted_le_input
  have h7 := hl.untrusted_le_input
  have h8 := hl.input_le
  have h9 := hl.outputStart_eq
  have hlo := h.1
  by_cases hpanic : d.isPanic b
  · have hpanic' : (d.stored address value).isPanic b = true := by
      rwa [isPanic, stored_memoryLayout]
    rw [if_pos hpanic, load_panic hpanic', stored_panic h]
  rw [if_neg hpanic, stored_eq h]
  simp only [isPanic, Bool.and_eq_true, decide_eq_true_eq] at hpanic
  split_ifs with hat hbehind hb hb hb
  · omega
  · unfold load isPanic isTermination isInput isTrustedAdvice isUntrustedAdvice isOutput
    simp [hpanic]
  · omega
  · rfl
  · obtain ⟨rfl, hlt⟩ := hb
    simp only [load, isPanic, isTermination, isInput, isTrustedAdvice, isUntrustedAdvice, isOutput,
      Bool.and_eq_true, decide_eq_true_eq, setOutput_getD, if_true]
    rw [if_neg (by omega), if_neg (by omega), if_neg (by omega), if_neg (by omega),
      if_neg (by omega), if_pos (by omega)]
  · have hother : d.memoryLayout.outputStart ≤ b →
        ¬ b - d.memoryLayout.outputStart = address - d.memoryLayout.outputStart := by omega
    simp only [load, isPanic, isTermination, isInput, isTrustedAdvice, isUntrustedAdvice, isOutput,
      Bool.and_eq_true, decide_eq_true_eq, setOutput_getD]
    split_ifs <;> first | rfl | omega

/-- The device after the `n` low bytes of a value are stored one by one. -/
def storedBytes (d : JoltDevice) (address : Nat) (value : U64) (n : Nat) : JoltDevice :=
  (List.range n).foldl (fun d i => d.stored (address + i) (leByte value i)) d

variable {v : U64} {n : Nat}

theorem storedBytes_succ (d : JoltDevice) (address : Nat) (v : U64) (n : Nat) :
    d.storedBytes address v (n + 1) = (d.storedBytes address v n).stored (address + n) (leByte v n) := by
  rw [storedBytes, List.range_succ, List.foldl_append]
  rfl

theorem storedBytes_memoryLayout (d : JoltDevice) (address : Nat) (v : U64) (n : Nat) :
    (d.storedBytes address v n).memoryLayout = d.memoryLayout := by
  induction n with
  | zero => rfl
  | succ n ih => rw [storedBytes_succ, stored_memoryLayout, ih]

theorem storedBytes_writable :
    (d.storedBytes address v n).Writable b ↔ d.Writable b := by
  rw [Writable, Writable, storedBytes_memoryLayout]

theorem storedBytes_panic (h : ∀ i < n, d.Writable (address + i)) :
    (d.storedBytes address v n).panic =
      (d.panic || decide (address ≤ d.memoryLayout.panic ∧ d.memoryLayout.panic < address + n)) := by
  induction n with
  | zero =>
    rw [decide_eq_false (by omega), Bool.or_false]
    rfl
  | succ n ih =>
    rw [storedBytes_succ, stored_panic (storedBytes_writable.mpr (h n (by omega))),
      ih fun i hi => h i (by omega), storedBytes_memoryLayout, Bool.or_assoc]
    congr 1
    rw [Bool.eq_iff_iff]
    simp only [Bool.or_eq_true, decide_eq_true_eq]
    omega

/-- The bytes of a device after a store of several. -/
theorem storedBytes_load (h : ∀ i < n, d.Writable (address + i)) :
    (d.storedBytes address v n).load b =
      if d.isPanic b then .some (if (d.storedBytes address v n).panic then 1 else 0)
      else if address ≤ b ∧ b < address + n ∧ b < d.memoryLayout.panic then
        .some (leByte v (b - address))
      else d.load b := by
  induction n with
  | zero =>
    have hnone : ¬ (address ≤ b ∧ b < address + 0 ∧ b < d.memoryLayout.panic) := by omega
    change d.load b = if d.isPanic b then .some (if d.panic then 1 else 0) else _
    rw [if_neg hnone]
    by_cases hpanic : d.isPanic b
    · rw [if_pos hpanic, load_panic hpanic]
    · rw [if_neg hpanic]
  | succ n ih =>
    have hlast : (d.storedBytes address v n).Writable (address + n) :=
      storedBytes_writable.mpr (h n (by omega))
    have hlayout := storedBytes_memoryLayout d address v n
    have hisPanic : (d.storedBytes address v n).isPanic b = d.isPanic b := by
      rw [isPanic, isPanic, hlayout]
    rw [storedBytes_succ, stored_load hlast, stored_panic hlast, hisPanic, hlayout,
      ih fun i hi => h i (by omega)]
    by_cases hpanic : d.isPanic b
    · rw [if_pos hpanic, if_pos hpanic]
    rw [if_neg hpanic, if_neg hpanic, if_neg hpanic]
    by_cases hb : b = address + n ∧ b < d.memoryLayout.panic
    · rw [if_pos hb, if_pos (by omega), hb.1, Nat.add_sub_cancel_left]
    · rw [if_neg hb]
      by_cases hin : address ≤ b ∧ b < address + n ∧ b < d.memoryLayout.panic
      · rw [if_pos hin, if_pos (by omega)]
      · rw [if_neg hin, if_neg (by omega)]

end Stored

end JoltDevice

/-! ## The unit -/

namespace Mmu

/-- What a guest can see of memory. -/
def view (m : Mmu) : (Nat → U64) × Nat × Option (MemoryLayout × Bool × (Nat → Option U8)) :=
  (m.memory.memory, m.memory.numDoublewords, m.joltDevice.map JoltDevice.view)

instance setoid : Setoid Mmu := Setoid.ker view

variable {m m' : Mmu} {ea : Nat}

/-- Two units that show a guest the same. -/
theorem equiv_cases (h : m ≈ m') :
    m.memory ≈ m'.memory ∧ (m.joltDevice = .none ∧ m'.joltDevice = .none ∨
      ∃ d d', m.joltDevice = .some d ∧ m'.joltDevice = .some d' ∧ d.memoryLayout = d'.memoryLayout ∧
        d.panic = d'.panic ∧ d.load = d'.load) := by
  have hview : m.view = m'.view := h
  simp only [view, Prod.mk.injEq] at hview
  obtain ⟨hmem, hnum, hdev⟩ := hview
  refine ⟨⟨hmem, hnum⟩, ?_⟩
  cases hd : m.joltDevice with
  | none =>
    cases hd' : m'.joltDevice with
    | none => exact .inl ⟨rfl, rfl⟩
    | some d' =>
      rw [hd, hd'] at hdev
      cases hdev
  | some d =>
    cases hd' : m'.joltDevice with
    | none =>
      rw [hd, hd'] at hdev
      cases hdev
    | some d' =>
      rw [hd, hd'] at hdev
      simp only [Option.map_some, Option.some.injEq, JoltDevice.view, Prod.mk.injEq] at hdev
      exact .inr ⟨d, d', rfl, rfl, hdev.1, hdev.2.1, hdev.2.2⟩

theorem equiv_of_device {d d' : JoltDevice} (hmem : m.memory ≈ m'.memory) (hd : m.joltDevice = .some d)
    (hd' : m'.joltDevice = .some d') (hlayout : d.memoryLayout = d'.memoryLayout)
    (hpanic : d.panic = d'.panic) (hload : d.load = d'.load) : m ≈ m' := by
  change m.view = m'.view
  obtain ⟨hmemory, hnum⟩ := hmem
  simp only [view, hmemory, hnum, hd, hd', Option.map_some, JoltDevice.view, hlayout, hpanic, hload]

theorem validAddress_congr (h : m ≈ m') (ea : Nat) (isWrite : Bool) :
    m.validAddress ea isWrite = m'.validAddress ea isWrite := by
  rcases (equiv_cases h).2 with ⟨hd, hd'⟩ | ⟨d, d', hd, hd', hlayout, -, -⟩
  · rw [validAddress, validAddress, hd, hd']
  · rw [validAddress, validAddress, hd, hd']
    simp only [JoltDevice.isInput, JoltDevice.isTrustedAdvice, JoltDevice.isUntrustedAdvice,
      JoltDevice.isOutput, JoltDevice.isPanic, JoltDevice.isTermination, hlayout]

/-! ### Single steps -/

theorem onMemory_acts {α : Type} {x : MemM α} {ok : MemoryData → Prop} {val : MemoryData → α}
    {upd : MemoryData → MemoryData} (h : Acts x ok val upd) :
    Acts (onMemory x) (fun m => ok m.memory) (fun m => val m.memory)
      fun m => { m with memory := upd m.memory } where
  run m hm := by
    obtain ⟨m1, hrun, hsame⟩ := h.run m.memory hm
    refine ⟨{ m with memory := m1 }, ?_, ?_⟩
    · rw [onMemory, hrun]
      rfl
    · change view _ = view _
      rw [view, view, hsame.1, hsame.2]
  fail m hm := by
    rw [onMemory, h.fail m.memory hm]
    rfl
  ok_congr m m' hss := h.ok_congr _ _ (equiv_cases hss).1
  val_congr m m' hss hm := h.val_congr _ _ (equiv_cases hss).1 hm
  upd_congr m m' hss hm := by
    obtain ⟨hmemory, hnum⟩ := h.upd_congr _ _ (equiv_cases hss).1 hm
    have hview : m.view = m'.view := hss
    simp only [view, Prod.mk.injEq] at hview
    change view _ = view _
    simp only [view, hmemory, hnum, hview.2.2]

/-- The byte of the device at an address. -/
def deviceByte (m : Mmu) (address : Nat) : Option U8 := m.joltDevice.bind (·.load address)

theorem deviceByte_congr (h : m ≈ m') : m.deviceByte = m'.deviceByte := by
  funext address
  rcases (equiv_cases h).2 with ⟨hd, hd'⟩ | ⟨d, d', hd, hd', -, -, hload⟩
  · rw [deviceByte, deviceByte, hd, hd']
  · rw [deviceByte, deviceByte, hd, hd', Option.bind_some, Option.bind_some, hload]

theorem deviceLoad_reads (address : Nat) :
    Reads (deviceLoad address) (fun m => (m.deviceByte address).isSome)
      fun m => (m.deviceByte address).getD 0 where
  run m hm := by
    obtain ⟨b, hb⟩ := Option.isSome_iff_exists.mp hm
    obtain ⟨d, hd, hload⟩ := Option.bind_eq_some_iff.mp hb
    refine ⟨m, ?_, Setoid.refl m⟩
    simp [deviceLoad, hd, hload, hb]
  fail m hm := by
    have hb := Option.not_isSome_iff_eq_none.mp hm
    cases hd : m.joltDevice with
    | none => simp [deviceLoad, hd]
    | some d =>
      rw [deviceByte, hd, Option.bind_some] at hb
      simp [deviceLoad, hd, hb]
  ok_congr m m' h := by rw [deviceByte_congr h]
  val_congr m m' h _ := by rw [deviceByte_congr h]
  upd_congr _ _ h _ := h

theorem check_reads (isWrite : Bool) {x : MmuM Unit}
    (hx : ∀ m, x m = if m.validAddress ea isWrite then .some ((), m) else .none) :
    Reads x (fun m => m.validAddress ea isWrite = true) fun _ => () where
  run m hm := ⟨m, by rw [hx, if_pos hm], Setoid.refl m⟩
  fail m hm := by rw [hx, if_neg hm]
  ok_congr m m' h := by rw [validAddress_congr h]
  val_congr _ _ _ _ := rfl
  upd_congr _ _ h _ := h

theorem assertLoad_reads (ea : Nat) :
    Reads (assertEffectiveLoadAddress ea) (fun m => m.validAddress ea false = true) fun _ => () :=
  check_reads false fun _ => rfl

theorem assertStore_reads (ea : Nat) :
    Reads (assertEffectiveStoreAddress ea) (fun m => m.validAddress ea true = true) fun _ => () :=
  check_reads true fun _ => rfl

/-! ### Loads -/

/-- The byte of memory at an address. -/
def byte (m : Mmu) (ea : Nat) : U8 :=
  if ramStartAddress ≤ ea then m.memory.byte (ea - ramStartAddress) else (m.deviceByte ea).getD 0

/-- A byte below RAM that the device lets a guest load. -/
def DeviceLoadable (m : Mmu) (ea : Nat) : Prop :=
  m.validAddress ea false = true ∧ unsupportedLoad ea = false ∧
    ∃ d, m.joltDevice = .some d ∧ deviceReadable d ea = true

theorem isSome_deviceByte (h : m.DeviceLoadable ea) : (m.deviceByte ea).isSome := by
  obtain ⟨-, -, d, hd, hreadable⟩ := h
  rw [deviceByte, hd]
  exact JoltDevice.isSome_load hreadable

theorem deviceReadable_congr {d d' : JoltDevice} (h : d.memoryLayout = d'.memoryLayout) (ea : Nat) :
    deviceReadable d ea = deviceReadable d' ea := by
  simp only [deviceReadable, JoltDevice.isInput, JoltDevice.isTrustedAdvice,
    JoltDevice.isUntrustedAdvice, JoltDevice.isOutput, JoltDevice.isPanic, JoltDevice.isTermination, h]

theorem loadRawDevice_reads (ea : Nat) :
    Reads (loadRawDevice ea) (fun m => ∃ d, m.joltDevice = .some d ∧ deviceReadable d ea = true)
      fun m => (m.deviceByte ea).getD 0 where
  run m hm := by
    obtain ⟨d, hd, hreadable⟩ := hm
    obtain ⟨b, hb⟩ := Option.isSome_iff_exists.mp (JoltDevice.isSome_load hreadable)
    refine ⟨m, ?_, Setoid.refl m⟩
    simp [loadRawDevice, deviceByte, hd, hreadable, hb]
  fail m hm := by
    cases hd : m.joltDevice with
    | none => simp [loadRawDevice, hd]
    | some d =>
      have hnot : ¬ deviceReadable d ea = true := fun h => hm ⟨d, hd, h⟩
      simp [loadRawDevice, hd, hnot]
  ok_congr m m' h := by
    rcases (equiv_cases h).2 with ⟨hd, hd'⟩ | ⟨d, d', hd, hd', hlayout, -, -⟩
    · rw [hd, hd']
    · simp [hd, hd', deviceReadable_congr hlayout]
  val_congr m m' h _ := by rw [deviceByte_congr h]
  upd_congr _ _ h _ := h

/-- The byte can be loaded. -/
def ByteLoadable (m : Mmu) (ea : Nat) : Prop :=
  if ramStartAddress ≤ ea then
    m.validAddress ea false = true ∧ m.memory.Covers (ea - ramStartAddress)
  else m.DeviceLoadable ea

theorem loadRaw_reads (ea : Nat) : Reads (loadRaw ea) (·.ByteLoadable ea) (·.byte ea) := by
  unfold loadRaw ByteLoadable byte
  by_cases hram : ramStartAddress ≤ ea
  · simp only [if_pos hram]
    generalize ea - ramStartAddress = offset
    exact (assertLoad_reads ea).bind fun _ => onMemory_acts (Memory.readByte_reads offset)
  simp only [if_neg hram]
  by_cases hrange : unsupportedLoad ea
  · simp only [hrange, if_true]
    have hfail : Reads (failure : MmuM U8) (fun _ => False) fun m => (m.deviceByte ea).getD 0 :=
      Acts.failure
    refine ((assertLoad_reads ea).bind fun _ => hfail).congr (fun m => ?_) (fun _ _ => rfl)
      fun _ _ => Setoid.refl _
    simp [DeviceLoadable, hrange]
  · simp only [hrange]
    refine ((assertLoad_reads ea).bind fun _ => loadRawDevice_reads ea).congr
      (fun m => ?_) (fun _ _ => rfl) fun _ _ => Setoid.refl _
    simp [DeviceLoadable, hrange]

/-- The doubleword at an aligned address. -/
def dword (m : Mmu) (ea : Nat) : U64 := fromLeBytes ((List.range 8).map fun i => m.byte (ea + i))

/-- The field of `w` bits at an address that is a multiple of its size. -/
def field (m : Mmu) (w ea : Nat) : BitVec w := (m.dword (ea / 8 * 8) >>> (8 * (ea % 8))).setWidth w

/-- The field of `n` bytes can be loaded. -/
def FieldLoadable (m : Mmu) (n ea : Nat) : Prop :=
  if ramStartAddress ≤ ea then
    m.validAddress ea false = true ∧ m.memory.Covers (ea - ramStartAddress)
  else ∀ i < n, m.DeviceLoadable (ea + i)

theorem leByte_bytes (m : Mmu) (ea : Nat) {n i : Nat} (hi : i < n) (h8 : i < 8) :
    leByte (fromLeBytes ((List.range n).map fun i => m.byte (ea + i))) i = m.byte (ea + i) := by
  rw [leByte_fromLeBytes _ h8, List.getD_eq_getElem?_getD, List.getElem?_map,
    List.getElem?_range hi]
  rfl

theorem leByte_dword (m : Mmu) (ea : Nat) {i : Nat} (hi : i < 8) :
    leByte (m.dword ea) i = m.byte (ea + i) := leByte_bytes m ea hi hi

theorem ramStart_mod : ramStartAddress % 8 = 0 := rfl

theorem dword_ram (m : Mmu) (h : ramStartAddress ≤ ea) :
    m.dword (ea / 8 * 8) = m.memory.dword (ea - ramStartAddress) := by
  have hram := ramStart_mod
  generalize hstart : ramStartAddress = start at h hram
  refine eq_of_leByte fun i hi => ?_
  rw [leByte_dword _ _ hi, byte, hstart, if_pos (by omega), MemoryData.byte, MemoryData.dword,
    MemoryData.dword, show (ea / 8 * 8 + i - start) / 8 = (ea - start) / 8 by omega,
    show (ea / 8 * 8 + i - start) % 8 = i by omega]

theorem field_ram (m : Mmu) {w : Nat} (h : ramStartAddress ≤ ea) :
    (m.memory.dword (ea - ramStartAddress) >>> (8 * ((ea - ramStartAddress) % 8))).setWidth w =
      m.field w ea := by
  have hram := ramStart_mod
  rw [field, dword_ram m h, show (ea - ramStartAddress) % 8 = ea % 8 by omega]

/-- Loaded byte by byte, a field is the same. -/
theorem field_bytes (m : Mmu) {n w : Nat} (hw : w = 8 * n) (hin : ea % 8 + n ≤ 8) :
    (fromLeBytes ((List.range n).map fun i => m.byte (ea + i))).setWidth w = m.field w ea := by
  refine eq_field hw hin fun i hi => ?_
  have hlow := leByte_field (d := fromLeBytes ((List.range n).map fun i => m.byte (ea + i)))
    (k := 0) hw hi (by omega)
  rw [Nat.mul_zero, BitVec.ushiftRight_zero, Nat.zero_add] at hlow
  rw [hlow, leByte_bytes _ _ hi (by omega), leByte_dword _ _ (by omega),
    show ea / 8 * 8 + (ea % 8 + i) = ea + i by omega]

theorem loadRawBytes_reads {n : Nat} (h : ea + n ≤ 2 ^ 64) :
    Reads (loadRawBytes ea n) (fun m => ∀ i < n, m.ByteLoadable (ea + i))
      fun m => fromLeBytes ((List.range n).map fun i => m.byte (ea + i)) := by
  have haddress : ∀ i ∈ List.range n, (ea + i) % 2 ^ 64 = ea + i := fun i hi =>
    Nat.mod_eq_of_lt (by have := List.mem_range.mp hi; omega)
  unfold loadRawBytes
  refine ((Acts.mapM (fun i => loadRaw_reads ((ea + i) % 2 ^ 64)) (List.range n)).bind fun bytes =>
    Acts.pure (fromLeBytes bytes)).congr (fun m => ?_) (fun m _ => ?_) fun _ _ => Setoid.refl _
  · rw [and_iff_left trivial]
    constructor
    · intro hm i hi
      rw [← haddress i (List.mem_range.mpr hi)]
      exact hm i (List.mem_range.mpr hi)
    · intro hm i hi
      rw [haddress i hi]
      exact hm i (List.mem_range.mp hi)
  · exact congrArg fromLeBytes (List.map_congr_left fun i hi => by rw [haddress i hi])

theorem fastPath_eq {n : Nat} (h : ea + n ≤ 2 ^ 64) (hn : 2 ≤ n) :
    fastPath ea n = decide (ramStartAddress ≤ ea) := by
  have hlt : ea < (ea + (n - 1)) % 2 ^ 64 := by
    rw [Nat.mod_eq_of_lt (by omega)]
    omega
  rw [fastPath, decide_eq_true hlt, Bool.and_true]

/-- The raw loads of a field, by the path in RAM and byte by byte. -/
theorem loadRaw_field {n w : Nat} (hw : w = 8 * n) (hn : 2 ≤ n) (hin : ea % 8 + n ≤ 8)
    (hlt : ea < 2 ^ 64) {mem : MemM (BitVec w)}
    (hmem : Reads mem (·.Covers (ea - ramStartAddress)) fun m =>
      (m.dword (ea - ramStartAddress) >>> (8 * ((ea - ramStartAddress) % 8))).setWidth w) :
    Reads (if fastPath ea n then do assertEffectiveLoadAddress ea; onMemory mem
      else do let d ← loadRawBytes ea n; pure (d.setWidth w))
      (·.FieldLoadable n ea) (·.field w ea) := by
  have hend : ea + n ≤ 2 ^ 64 := by omega
  have hram8 := ramStart_mod
  rw [fastPath_eq hend hn]
  by_cases hram : ramStartAddress ≤ ea
  · rw [decide_eq_true hram, if_pos rfl]
    refine ((assertLoad_reads ea).bind fun _ => onMemory_acts hmem).congr (fun m => ?_)
      (fun m _ => field_ram m hram) fun _ _ => Setoid.refl _
    rw [FieldLoadable, if_pos hram]
    exact Iff.rfl
  · rw [decide_eq_false hram, if_neg Bool.false_ne_true]
    refine ((loadRawBytes_reads hend).bind fun d => Acts.pure (d.setWidth w)).congr (fun m => ?_)
      (fun m _ => field_bytes m hw hin) fun _ _ => Setoid.refl _
    rw [FieldLoadable, if_neg hram, and_iff_left trivial]
    refine forall_congr' fun i => forall_congr' fun hi => ?_
    rw [ByteLoadable, if_neg (by omega)]

/-! ### The recorded loads -/

/-- The eight bytes that the record of an access takes in are there. -/
def Recordable (m : Mmu) (ea address : Nat) : Prop :=
  ∀ i < 8, if ea < ramStartAddress then (m.deviceByte (address + i)).isSome = true
    else m.memory.Covers (address + i - ramStartAddress)

/-- The value the record of an access takes in. -/
def recorded (m : Mmu) (ea address : Nat) : U64 :=
  fromLeBytes ((List.range 8).map fun i => if ea < ramStartAddress then
    (m.deviceByte (address + i)).getD 0 else m.memory.byte (address + i - ramStartAddress))

theorem traceBytes_reads (ea address : Nat) :
    Reads (traceBytes ea address) (·.Recordable ea address) (·.recorded ea address) := by
  have hbyte : ∀ i, Reads
      (if ea < ramStartAddress then deviceLoad (address + i)
        else onMemory (Memory.readByte (address + i - ramStartAddress)))
      (fun m => if ea < ramStartAddress then (m.deviceByte (address + i)).isSome = true
        else m.memory.Covers (address + i - ramStartAddress))
      fun m => if ea < ramStartAddress then (m.deviceByte (address + i)).getD 0
        else m.memory.byte (address + i - ramStartAddress) := by
    intro i
    by_cases hram : ea < ramStartAddress
    · simp only [if_pos hram]
      exact deviceLoad_reads _
    · simp only [if_neg hram]
      generalize address + i - ramStartAddress = offset
      exact onMemory_acts (Memory.readByte_reads offset)
  refine ((Acts.mapM hbyte (List.range 8)).bind fun bytes => Acts.pure (fromLeBytes bytes)).congr
    (fun m => ?_) (fun _ _ => rfl) fun _ _ => Setoid.refl _
  simp only [and_iff_left, List.mem_range]
  exact Iff.rfl

/-- The record of an aligned access is of the doubleword it goes to. -/
theorem recorded_eq (m : Mmu) (h : ea % 8 = 0) : m.recorded ea ea = m.dword ea := by
  have hram8 := ramStart_mod
  refine congrArg fromLeBytes (List.map_congr_left fun i hi => ?_)
  have hi8 := List.mem_range.mp hi
  by_cases hram : ea < ramStartAddress
  · rw [if_pos hram, byte, if_neg (by omega)]
  · rw [if_neg hram, byte, if_pos (by omega)]

theorem covers_iff (m : Mmu) (h : ramStartAddress ≤ ea) (h8 : ea % 8 = 0) {i : Nat} (hi : i < 8) :
    m.memory.Covers (ea + i - ramStartAddress) ↔ m.memory.Covers (ea - ramStartAddress) := by
  have hram8 := ramStart_mod
  rw [MemoryData.Covers, MemoryData.Covers,
    show (ea + i - ramStartAddress) / 8 = (ea - ramStartAddress) / 8 by omega]

theorem recordable_of_loadable (h8 : ea % 8 = 0) (h : m.FieldLoadable 8 ea) : m.Recordable ea ea := by
  unfold FieldLoadable at h
  intro i hi
  by_cases hram : ramStartAddress ≤ ea
  · rw [if_pos hram] at h
    rw [if_neg (by omega), covers_iff m hram h8 hi]
    exact h.2
  · rw [if_neg hram] at h
    rw [if_pos (by omega)]
    exact isSome_deviceByte (h i hi)

theorem load_reads (ea : Nat) :
    Reads (load ea) (fun m => m.Recordable (ea / 4 * 4) (ea / 4 * 4) ∧ m.ByteLoadable ea)
      fun m => (m.byte ea, ⟨ea / 4 * 4, m.recorded (ea / 4 * 4) (ea / 4 * 4)⟩) :=
  (((traceBytes_reads _ _).bind fun v => Acts.pure (RamRead.mk (ea / 4 * 4) v)).bind fun r =>
    (loadRaw_reads ea).bind fun b => Acts.pure (b, r)).congr
    (fun _ => by rw [and_iff_left trivial, and_iff_left trivial]; rfl) (fun _ _ => rfl)
    fun _ _ => Setoid.refl _

/-- The recorded loads of a field. -/
theorem load_field {n w : Nat} {raw : MmuM (BitVec w)}
    (hraw : Reads raw (·.FieldLoadable n ea) (·.field w ea)) :
    Reads (do guard (ea % n = 0); let r ← traceLoad ea; let d ← raw; pure (d, r))
      (fun m => ea % n = 0 ∧ m.Recordable (ea / 4 * 4) (ea / 4 * 4) ∧ m.FieldLoadable n ea)
      fun m => (m.field w ea, (⟨ea / 4 * 4, m.recorded (ea / 4 * 4) (ea / 4 * 4)⟩ : RamRead)) :=
  Acts.guard_bind _ ((((traceBytes_reads _ _).bind fun v => Acts.pure (RamRead.mk (ea / 4 * 4) v)).bind
    fun r => hraw.bind fun d => Acts.pure (d, r)).congr
    (fun _ => by rw [and_iff_left trivial, and_iff_left trivial]; rfl) (fun _ _ => rfl)
    fun _ _ => Setoid.refl _)

theorem loadHalfword_reads (hlt : ea < 2 ^ 64) (h2 : ea % 2 = 0) :
    Reads (loadHalfword ea)
      (fun m => ea % 2 = 0 ∧ m.Recordable (ea / 4 * 4) (ea / 4 * 4) ∧ m.FieldLoadable 2 ea)
      fun m => (m.field 16 ea, ⟨ea / 4 * 4, m.recorded (ea / 4 * 4) (ea / 4 * 4)⟩) := by
  have hram8 := ramStart_mod
  exact load_field (loadRaw_field rfl (by decide) (by omega) hlt
    (Memory.readHalfword_reads (by omega)))

theorem loadWord_reads (hlt : ea < 2 ^ 64) (h4 : ea % 4 = 0) :
    Reads (loadWord ea)
      (fun m => ea % 4 = 0 ∧ m.Recordable (ea / 4 * 4) (ea / 4 * 4) ∧ m.FieldLoadable 4 ea)
      fun m => (m.field 32 ea, ⟨ea / 4 * 4, m.recorded (ea / 4 * 4) (ea / 4 * 4)⟩) := by
  have hram8 := ramStart_mod
  exact load_field (loadRaw_field rfl (by decide) (by omega) hlt (Memory.readWord_reads (by omega)))

theorem field_doubleword (m : Mmu) (h : ea % 8 = 0) : m.field 64 ea = m.dword ea := by
  rw [field, h, Nat.mul_zero, BitVec.ushiftRight_zero, BitVec.setWidth_eq,
    show ea / 8 * 8 = ea by omega]

/-- A doubleword load, of which the record is the value itself. -/
theorem loadDoubleword_reads (hlt : ea < 2 ^ 64) :
    Reads (loadDoubleword ea) (fun m => ea % 8 = 0 ∧ m.FieldLoadable 8 ea)
      fun m => (m.dword ea, ⟨ea, m.dword ea⟩) := by
  have hram8 := ramStart_mod
  by_cases h8 : ea % 8 = 0
  · have hword : ea / 4 * 4 = ea := by omega
    have hraw : Reads (loadDoublewordRaw ea) (·.FieldLoadable 8 ea) (·.field 64 ea) := by
      have hmem : Reads (Memory.readDoubleword (ea - ramStartAddress))
          (·.Covers (ea - ramStartAddress)) fun m =>
          (m.dword (ea - ramStartAddress) >>> (8 * ((ea - ramStartAddress) % 8))).setWidth 64 := by
        refine (Memory.readDoubleword_reads (by omega)).congr (fun _ => Iff.rfl) (fun m _ => ?_)
          fun _ _ => Setoid.refl _
        rw [show (ea - ramStartAddress) % 8 = 0 by omega, Nat.mul_zero, BitVec.ushiftRight_zero,
          BitVec.setWidth_eq]
      have hpath := loadRaw_field (n := 8) (w := 64) rfl (by decide) (by omega) hlt hmem
      unfold loadDoublewordRaw
      simpa only [BitVec.setWidth_eq, bind_pure] using hpath
    refine (load_field hraw).congr (fun m => ?_) (fun m hm => ?_) fun _ _ => Setoid.refl _
    · rw [hword]
      exact ⟨fun h => ⟨h.1, h.2.2⟩, fun h => ⟨h.1, recordable_of_loadable h8 h.2, h.2⟩⟩
    · rw [hword, field_doubleword m h8, recorded_eq m h8]
  · have hfail : ∀ m, loadDoubleword ea m = .none := by
      intro m
      rw [loadDoubleword, guard, if_neg h8]
      rfl
    exact {
      run := fun m hm => absurd hm.1 h8
      fail := fun m _ => hfail m
      ok_congr := fun m m' _ => by simp [h8]
      val_congr := fun m m' _ hm => absurd hm.1 h8
      upd_congr := fun m m' h _ => h }

end Mmu

end LightningJolt
