/-
The accesses of the emulator's RAM by their width (`tracer/src/emulator/memory.rs`):
aligned or not, each reads and writes the bytes that accesses of one byte do.
-/
import LightningJolt.Bytes

namespace LightningJolt

open Fallible

/-! ## The widths -/

namespace Memory

open MemoryData

inductive Width
  | byte | halfword | word | doubleword
deriving DecidableEq

def Width.bytes : Width → Nat
  | .byte => 1
  | .halfword => 2
  | .word => 4
  | .doubleword => 8

/-- `read_byte`, `read_halfword`, `read_word` and `read_doubleword`, zero-extended. -/
def read (width : Width) (address : Nat) : MemM U64 :=
  match width with
  | .byte => do pure ((← readByte address).setWidth 64)
  | .halfword => do pure ((← readHalfword address).setWidth 64)
  | .word => do pure ((← readWord address).setWidth 64)
  | .doubleword => readDoubleword address

/-- `write_byte`, `write_halfword`, `write_word` and `write_doubleword`, of the low bytes. -/
def write (width : Width) (address : Nat) (value : U64) : MemM Unit :=
  match width with
  | .byte => writeByte address (value.setWidth 8)
  | .halfword => writeHalfword address (value.setWidth 16)
  | .word => writeWord address (value.setWidth 32)
  | .doubleword => writeDoubleword address value

/-- What a read of one byte returns. -/
def byteAt (m : MemoryData) (address : Nat) : Option U8 := (readByte address m).map Prod.fst

end Memory

/-! ## The accesses that do not record -/

namespace MemoryData

/-- `get_u64`. -/
def getU64 (m : MemoryData) (index : Nat) : Option U64 :=
  if index < m.numDoublewords then .some (m.memory index) else .none

def getByte (m : MemoryData) (address : Nat) : Option U8 := do
  let d ← m.getU64 (address / 8)
  .some ((d >>> (8 * (address % 8))).setWidth 8)

def getBytes (m : MemoryData) (address width : Nat) : Option U64 := do
  let bytes ← (List.range width).mapM fun i => m.getByte (address + i)
  .some (fromLeBytes bytes)

def getWord (m : MemoryData) (address : Nat) : Option U32 := do
  if address % 4 = 0 then
    let d ← m.getU64 (address / 8)
    .some ((d >>> (8 * (address % 8))).setWidth 32)
  else
    let d ← m.getBytes address 4
    .some (d.setWidth 32)

def getDoubleword (m : MemoryData) (address : Nat) : Option U64 := do
  if address % 8 = 0 then
    m.getU64 (address / 8)
  else if address % 4 = 0 then
    let lo ← m.getWord address
    let hi ← m.getWord (address + 4)
    .some (lo.setWidth 64 ||| hi.setWidth 64 <<< 32)
  else
    m.getBytes address 8

end MemoryData

/-! ## Bytes -/

namespace MemoryData

variable {m m' : MemoryData} {address n : Nat}

instance (m : MemoryData) (address : Nat) : Decidable (m.Covers address) :=
  inferInstanceAs (Decidable (address / 8 < m.numDoublewords))

/-- The bytes from an address up. -/
def bytes (m : MemoryData) (address n : Nat) : List U8 := (List.range n).map fun i => m.byte (address + i)

@[simp] theorem length_bytes (m : MemoryData) (address n : Nat) : (m.bytes address n).length = n := by
  rw [bytes, List.length_map, List.length_range]

theorem getD_bytes (m : MemoryData) (address : Nat) {i : Nat} (hi : i < n) :
    (m.bytes address n).getD i 0 = m.byte (address + i) := by
  rw [List.getD_eq_getElem?_getD, bytes, List.getElem?_map, List.getElem?_range hi]
  rfl

/-- Every byte lies within the memory. -/
def CoversAll (m : MemoryData) (address n : Nat) : Prop := ∀ i < n, m.Covers (address + i)

theorem coversAll_iff (hn : 0 < n) : m.CoversAll address n ↔ address + n ≤ 8 * m.numDoublewords := by
  constructor
  · intro h
    have hlast := h (n - 1) (by omega)
    unfold Covers at hlast
    omega
  · intro h i hi
    unfold Covers
    omega

/-- The bytes of one doubleword are all within the memory or none is. -/
theorem coversAll_of_field (hn : 0 < n) (hin : address % 8 + n ≤ 8) :
    m.Covers address ↔ m.CoversAll address n := by
  rw [coversAll_iff hn, Covers]
  omega

/-- An aligned field lies in one doubleword. -/
theorem aligned_field (h8 : n ∣ 8) (haligned : address % n = 0) : address % 8 + n ≤ 8 := by
  obtain ⟨q, hq⟩ := h8
  have hmod : address % 8 % n = 0 := by rw [Nat.mod_mod_of_dvd _ ⟨q, hq⟩, haligned]
  obtain ⟨r, hr⟩ := Nat.dvd_of_mod_eq_zero hmod
  have hlt := Nat.mod_lt address (show 0 < 8 by decide)
  rw [hr, hq] at hlt
  have hrq := lt_of_mul_lt_mul_left hlt (Nat.zero_le n)
  rw [hr, hq, ← Nat.mul_succ]
  exact Nat.mul_le_mul_left n hrq

/-- Memories of the same bytes hold the same doublewords. -/
theorem memory_eq_of_byte (h : ∀ a, m.byte a = m'.byte a) : m.memory = m'.memory := by
  funext index
  refine eq_of_leByte fun i hi => ?_
  have hbyte := h (8 * index + i)
  simp only [byte, dword] at hbyte
  rwa [show (8 * index + i) / 8 = index by omega, show (8 * index + i) % 8 = i by omega] at hbyte

/-- A field of a doubleword is its bytes. -/
theorem field_bytes {w : Nat} (hw : w = 8 * n) (hin : address % 8 + n ≤ 8) :
    ((m.dword address >>> (8 * (address % 8))).setWidth w).setWidth 64 = fromLeBytes (m.bytes address n) := by
  refine eq_of_leByte fun i hi => ?_
  rw [leByte_fromLeBytes _ hi]
  by_cases hlt : i < n
  · rw [leByte_field hw hlt hin, getD_bytes m address hlt, byte, dword, dword,
      show (address + i) / 8 = address / 8 by omega, show (address + i) % 8 = address % 8 + i by omega]
  · rw [List.getD_eq_getElem?_getD, List.getElem?_eq_none (by rw [length_bytes]; omega)]
    refine BitVec.eq_of_getLsbD_eq fun b hb => ?_
    rw [getLsbD_leByte _ _ hb, BitVec.getLsbD_setWidth, BitVec.getLsbD_setWidth,
      decide_eq_false (show ¬ 8 * i + b < w by omega), Bool.false_and, Bool.and_false]
    simp

/-- A value of `n` bytes is one of `8 * n` bits. -/
theorem setWidth_fromLeBytes {w : Nat} (hw : w = 8 * n) {bs : List U8} (hlen : bs.length = n) :
    ((fromLeBytes bs).setWidth w).setWidth 64 = fromLeBytes bs := by
  refine eq_of_leByte fun i hi => ?_
  refine BitVec.eq_of_getLsbD_eq fun b hb => ?_
  rw [getLsbD_leByte _ _ hb, BitVec.getLsbD_setWidth, BitVec.getLsbD_setWidth,
    decide_eq_true (show 8 * i + b < 64 by omega), Bool.true_and]
  by_cases hlt : 8 * i + b < w
  · rw [decide_eq_true hlt, Bool.true_and, getLsbD_leByte _ _ hb]
  · have hbyte := leByte_fromLeBytes bs hi
    rw [List.getD_eq_getElem?_getD, List.getElem?_eq_none (by omega)] at hbyte
    rw [decide_eq_false hlt, Bool.false_and, hbyte]
    simp

theorem bytes_add (m : MemoryData) (address k n : Nat) :
    m.bytes address (k + n) = m.bytes address k ++ m.bytes (address + k) n := by
  simp only [bytes, List.range_add, List.map_append, List.map_map]
  congr 1
  refine List.map_congr_left fun i _ => ?_
  rw [Function.comp_apply, Nat.add_assoc]

/-- Two words are a doubleword. -/
theorem fromLeBytes_words {lo hi : List U8} (hlo : lo.length = 4) (hhi : hi.length = 4) :
    ((fromLeBytes lo).setWidth 32).setWidth 64 ||| ((fromLeBytes hi).setWidth 32).setWidth 64 <<< 32 =
      fromLeBytes (lo ++ hi) := by
  rw [setWidth_fromLeBytes (n := 4) rfl hlo, setWidth_fromLeBytes (n := 4) rfl hhi]
  refine eq_of_leByte fun i hi8 => ?_
  have hbytes := leByte_fromLeBytes (lo ++ hi) hi8
  rw [hbytes]
  refine BitVec.eq_of_getLsbD_eq fun b hb => ?_
  rw [getLsbD_leByte _ _ hb, BitVec.getLsbD_or, BitVec.getLsbD_shiftLeft,
    decide_eq_true (show 8 * i + b < 64 by omega), Bool.true_and, ← getLsbD_leByte _ _ hb,
    leByte_fromLeBytes lo hi8]
  by_cases hlt : i < 4
  · rw [decide_eq_true (show 8 * i + b < 32 by omega), Bool.not_true, Bool.false_and, Bool.or_false,
      List.getD_append _ _ _ _ (by omega)]
  · rw [decide_eq_false (show ¬ 8 * i + b < 32 by omega), Bool.not_false, Bool.true_and,
      show 8 * i + b - 32 = 8 * (i - 4) + b by omega, ← getLsbD_leByte _ _ hb,
      leByte_fromLeBytes hi (by omega), List.getD_append_right _ _ _ _ (by omega), hlo,
      List.getD_eq_getElem?_getD, List.getElem?_eq_none (l := lo) (by omega)]
    simp

end MemoryData

/-! ## Reads -/

namespace Memory

open MemoryData

variable {address n w : Nat}

theorem readBytes_reads (address n : Nat) : Reads (readBytes address n) (·.CoversAll address n)
    fun m => fromLeBytes (m.bytes address n) := by
  refine ((Acts.mapM (fun i => readByte_reads (address + i)) (List.range n)).bind fun bs =>
    Acts.pure (fromLeBytes bs)).congr (fun m => ?_) (fun _ _ => rfl) fun _ _ => Setoid.refl _
  rw [and_iff_left trivial]
  exact forall_congr' fun i => by rw [List.mem_range]

/-- A read of a field: of one doubleword where it is aligned, byte by byte where it is not. -/
theorem readField_reads (hw : w = 8 * n) (hn : 0 < n) (h8 : n ∣ 8) (address : Nat) :
    Reads (if address % n = 0 then do
        let d ← accessU64 (address / 8)
        pure ((d >>> (8 * (address % 8))).setWidth w)
      else do
        let d ← readBytes address n
        pure (d.setWidth w))
      (·.CoversAll address n) fun m => (fromLeBytes (m.bytes address n)).setWidth w := by
  have hn8 := Nat.le_of_dvd (by decide) h8
  by_cases haligned : address % n = 0
  · have hin := aligned_field h8 haligned
    rw [if_pos haligned]
    refine ((accessU64_reads address).bind fun d => Acts.pure _).congr (fun m => ?_) (fun m _ => ?_)
      fun _ _ => Setoid.refl _
    · rw [and_iff_left trivial]
      exact coversAll_of_field hn hin
    · have hfield := congrArg (BitVec.setWidth w) (field_bytes (m := m) hw hin)
      rw [BitVec.setWidth_setWidth_of_le _ (by omega), BitVec.setWidth_eq] at hfield
      exact hfield
  · rw [if_neg haligned]
    exact ((readBytes_reads address n).bind fun d => Acts.pure _).congr (fun _ => and_iff_left trivial)
      (fun _ _ => rfl) fun _ _ => Setoid.refl _

/-- Every width reads the bytes it covers. -/
theorem read_reads (width : Width) (address : Nat) :
    Reads (read width address) (·.CoversAll address width.bytes)
      fun m => fromLeBytes (m.bytes address width.bytes) := by
  have hextend {w n : Nat} (hw : w = 8 * n) {x : MemM (BitVec w)}
      (h : Reads x (·.CoversAll address n) fun m => (fromLeBytes (m.bytes address n)).setWidth w) :
      Reads (do pure ((← x).setWidth 64)) (·.CoversAll address n)
        fun m => fromLeBytes (m.bytes address n) :=
    (h.bind fun v => Acts.pure (v.setWidth 64)).congr (fun _ => and_iff_left trivial)
      (fun _ _ => setWidth_fromLeBytes hw (length_bytes ..)) fun _ _ => Setoid.refl _
  have hword (a : Nat) := readField_reads (n := 4) (w := 32) rfl (by decide) (by decide) a
  cases width with
  | byte =>
    refine hextend (w := 8) (n := 1) rfl ((readByte_reads address).congr (fun m => ?_) (fun m _ => ?_)
      fun _ _ => Setoid.refl _)
    · exact coversAll_of_field (by decide) (by omega)
    · have hfield := congrArg (BitVec.setWidth 8)
        (@field_bytes m address 1 _ rfl (by omega))
      rw [BitVec.setWidth_setWidth_of_le _ (by decide), BitVec.setWidth_eq] at hfield
      exact hfield
  | halfword => exact hextend (w := 16) (n := 2) rfl (readField_reads rfl (by decide) (by decide) address)
  | word => exact hextend (w := 32) (n := 4) rfl (hword address)
  | doubleword =>
    by_cases h8 : address % 8 = 0
    · refine (readDoubleword_reads h8).congr (fun m => ?_) (fun m _ => ?_) fun _ _ => Setoid.refl _
      · exact coversAll_of_field (n := 8) (by decide) (by omega)
      · have hfield := @field_bytes m address 8 _ rfl (by omega)
        rw [h8, Nat.mul_zero, BitVec.ushiftRight_zero, BitVec.setWidth_eq, BitVec.setWidth_eq] at hfield
        exact hfield
    · change Reads (readDoubleword address) _ _
      rw [readDoubleword, if_neg h8]
      by_cases h4 : address % 4 = 0
      · rw [if_pos h4]
        refine ((hword address).bind fun lo => (hword (address + 4)).bind fun hi =>
          Acts.pure (lo.setWidth 64 ||| hi.setWidth 64 <<< 32)).congr (fun m => ?_) (fun m _ => ?_)
            fun _ _ => Setoid.refl _
        · rw [and_iff_left trivial]
          change m.CoversAll address 4 ∧ m.CoversAll (address + 4) 4 ↔ m.CoversAll address 8
          rw [coversAll_iff (by decide), coversAll_iff (by decide), coversAll_iff (by decide)]
          omega
        · change _ = fromLeBytes (m.bytes address (4 + 4))
          rw [bytes_add]
          exact fromLeBytes_words (length_bytes ..) (length_bytes ..)
      · rw [if_neg h4]
        exact readBytes_reads address 8

end Memory

/-! ## Writes -/

namespace MemoryData

variable {m m' : MemoryData} {address n : Nat} {v w : U64}

/-- The bytes of a doubleword with a field of `n` bytes replaced. -/
theorem leByte_blend {mask d : U64} {k i : Nat} (hmask : ∀ b < 64, mask.getLsbD b = decide (b < 8 * n))
    (hv : ∀ b, 8 * n ≤ b → v.getLsbD b = false) (hi : i < 8) :
    leByte (Memory.blend d mask v (8 * k)) i =
      if k ≤ i ∧ i < k + n then leByte v (i - k) else leByte d i := by
  refine BitVec.eq_of_getLsbD_eq fun b hb => ?_
  have hlt : 8 * i + b < 64 := by omega
  rw [getLsbD_leByte _ _ hb, Memory.blend, BitVec.getLsbD_or, BitVec.getLsbD_and, BitVec.getLsbD_not,
    BitVec.getLsbD_shiftLeft, BitVec.getLsbD_shiftLeft, decide_eq_true hlt, Bool.true_and,
    Bool.true_and]
  by_cases hin : k ≤ i ∧ i < k + n
  · rw [if_pos hin, getLsbD_leByte _ _ hb, show 8 * i + b - 8 * k = 8 * (i - k) + b by omega,
      hmask _ (by omega), decide_eq_false (show ¬ 8 * i + b < 8 * k by omega),
      decide_eq_true (show 8 * (i - k) + b < 8 * n by omega)]
    simp
  · rw [if_neg hin, getLsbD_leByte _ _ hb]
    by_cases hbelow : 8 * i + b < 8 * k
    · rw [decide_eq_true hbelow]
      simp
    · rw [hmask _ (by omega), decide_eq_false (show ¬ 8 * i + b - 8 * k < 8 * n by omega),
        hv _ (show 8 * n ≤ 8 * i + b - 8 * k by omega)]
      simp

/-- A field within one doubleword changes its bytes and no others. -/
theorem byte_put_blend {mask : U64} (hmask : ∀ b < 64, mask.getLsbD b = decide (b < 8 * n))
    (hv : ∀ b, 8 * n ≤ b → v.getLsbD b = false) (hin : address % 8 + n ≤ 8) (a : Nat) :
    (m.put address (Memory.blend (m.dword address) mask v (8 * (address % 8)))).byte a =
      if address ≤ a ∧ a < address + n then leByte v (a - address) else m.byte a := by
  change leByte (Function.update m.memory (address / 8) _ (a / 8)) (a % 8) =
    if address ≤ a ∧ a < address + n then leByte v (a - address) else leByte (m.memory (a / 8)) (a % 8)
  by_cases hsame : a / 8 = address / 8
  · rw [hsame, Function.update_self, leByte_blend hmask hv (Nat.mod_lt _ (by decide)), dword]
    by_cases hfield : address % 8 ≤ a % 8 ∧ a % 8 < address % 8 + n
    · rw [if_pos hfield, if_pos (by omega), show a % 8 - address % 8 = a - address by omega]
    · rw [if_neg hfield, if_neg (by omega)]
  · rw [Function.update_of_ne hsame, if_neg (by omega)]

theorem getLsbD_byteMask : ∀ b < 64, (0xff : U64).getLsbD b = decide (b < 8 * 1) := by decide

theorem getLsbD_extended {k : Nat} (value : BitVec k) {b : Nat} (hb : k ≤ b) :
    (value.setWidth 64).getLsbD b = false := by
  rw [BitVec.getLsbD_setWidth, BitVec.getLsbD_of_ge value b hb, Bool.and_false]

/-- The memory after one byte is written. -/
def putByte (m : MemoryData) (address : Nat) (value : U8) : MemoryData :=
  m.put address (Memory.blend (m.dword address) 0xff (value.setWidth 64) (8 * (address % 8)))

theorem byte_putByte (m : MemoryData) (address : Nat) (value : U8) (a : Nat) :
    (m.putByte address value).byte a = if a = address then value else m.byte a := by
  rw [putByte, byte_put_blend (n := 1) getLsbD_byteMask (fun b hb => getLsbD_extended value (by omega))
    (by omega)]
  by_cases ha : a = address
  · rw [if_pos (by omega), if_pos ha, ha, Nat.sub_self]
    refine BitVec.eq_of_getLsbD_eq fun b hb => ?_
    rw [getLsbD_leByte _ _ hb, BitVec.getLsbD_setWidth]
    simp [show b < 64 by omega]
  · rw [if_neg (by omega), if_neg ha]

/-- The memory after the `n` low bytes of a value are written one by one. -/
def putBytes (m : MemoryData) (address : Nat) (v : U64) (n : Nat) : MemoryData :=
  (List.range n).foldl (fun m i => m.putByte (address + i) (leByte v i)) m

theorem byte_putBytes (m : MemoryData) (address : Nat) (v : U64) (n a : Nat) :
    (m.putBytes address v n).byte a =
      if address ≤ a ∧ a < address + n then leByte v (a - address) else m.byte a := by
  induction n with
  | zero => rw [if_neg (by omega), putBytes, List.range_zero, List.foldl_nil]
  | succ n ih =>
    have hlast : m.putBytes address v (n + 1) = (m.putBytes address v n).putByte (address + n) (leByte v n) := by
      rw [putBytes, List.range_succ, List.foldl_append]
      rfl
    rw [hlast, byte_putByte, ih]
    by_cases ha : a = address + n
    · rw [if_pos ha, if_pos (by omega), ha, Nat.add_sub_cancel_left]
    · rw [if_neg ha]
      by_cases hin : address ≤ a ∧ a < address + n
      · rw [if_pos hin, if_pos (by omega)]
      · rw [if_neg hin, if_neg (by omega)]

theorem numDoublewords_putBytes (m : MemoryData) (address : Nat) (v : U64) (n : Nat) :
    (m.putBytes address v n).numDoublewords = m.numDoublewords := by
  induction n with
  | zero => rfl
  | succ n ih =>
    rw [putBytes, List.range_succ, List.foldl_append]
    exact ih

/-- What changes the bytes as `putBytes` does is equivalent to it. -/
theorem equiv_putBytes (hnum : m'.numDoublewords = m.numDoublewords)
    (h : ∀ a, m'.byte a = if address ≤ a ∧ a < address + n then leByte v (a - address) else m.byte a) :
    m' ≈ m.putBytes address v n :=
  ⟨memory_eq_of_byte fun a => by rw [h a, byte_putBytes], by rw [hnum, numDoublewords_putBytes]⟩

end MemoryData

namespace Memory

open MemoryData

variable {address n w : Nat}

theorem writeBytes_acts (address : Nat) (v : U64) (n : Nat) :
    Acts (writeBytes address v n) (·.CoversAll address n) (fun _ => ⟨⟩) (·.putBytes address v n) := by
  refine (Acts.forM (fun i => writeByte_acts (address + i) (leByte v i)) (fun _ _ _ _ => Iff.rfl)
    (List.range n)).congr (fun m => ?_) (fun _ _ => rfl) fun _ _ => Setoid.refl _
  exact forall_congr' fun i => by rw [List.mem_range]

/-- A write of a field: of one doubleword where it is aligned, byte by byte where it is not. -/
theorem writeField_acts {mask : U64} (hw : w = 8 * n) (hn : 0 < n) (h8 : n ∣ 8)
    (hmask : ∀ b < 64, mask.getLsbD b = decide (b < 8 * n)) (address : Nat) (value : BitVec w) :
    Acts (if address % n = 0 then do
        let d ← accessU64 (address / 8)
        assignU64 (address / 8) (blend d mask (value.setWidth 64) (8 * (address % 8)))
      else writeBytes address (value.setWidth 64) n)
      (·.CoversAll address n) (fun _ => ⟨⟩) (·.putBytes address (value.setWidth 64) n) := by
  by_cases haligned : address % n = 0
  · have hin := aligned_field h8 haligned
    rw [if_pos haligned]
    refine (modify_acts address fun d => blend d mask (value.setWidth 64) (8 * (address % 8))).congr
      (fun m => coversAll_of_field hn hin) (fun _ _ => rfl) fun m _ => ?_
    exact equiv_putBytes rfl fun a =>
      byte_put_blend hmask (fun b hb => getLsbD_extended value (by omega)) hin a
  · rw [if_neg haligned]
    exact writeBytes_acts address _ n

/-- The low bytes of a value are those of the narrower value. -/
theorem leByte_low (v : U64) {i : Nat} (hw : w = 8 * n) (hn : n ≤ 8) (hi : i < n) :
    leByte ((v.setWidth w).setWidth 64) i = leByte v i := by
  have hfield := leByte_field (d := v) (k := 0) hw hi (by omega)
  rwa [Nat.mul_zero, BitVec.ushiftRight_zero, Nat.zero_add] at hfield

theorem putBytes_low (m : MemoryData) (address : Nat) (v : U64) (hw : w = 8 * n) (hn : n ≤ 8) :
    m.putBytes address ((v.setWidth w).setWidth 64) n ≈ m.putBytes address v n := by
  refine equiv_putBytes (numDoublewords_putBytes ..) fun a => ?_
  rw [byte_putBytes]
  by_cases hin : address ≤ a ∧ a < address + n
  · rw [if_pos hin, if_pos hin, leByte_low v hw hn (by omega)]
  · rw [if_neg hin, if_neg hin]

/-- Every width writes the bytes it covers and no others. -/
theorem write_acts (width : Width) (address : Nat) (value : U64) :
    Acts (write width address value) (·.CoversAll address width.bytes) (fun _ => ⟨⟩)
      (·.putBytes address value width.bytes) := by
  have hlow {w n : Nat} (hw : w = 8 * n) (hn : n ≤ 8) {x : MemM Unit}
      (h : Acts x (·.CoversAll address n) (fun _ => ⟨⟩)
        (·.putBytes address ((value.setWidth w).setWidth 64) n)) :
      Acts x (·.CoversAll address n) (fun _ => ⟨⟩) (·.putBytes address value n) :=
    h.congr (fun _ => Iff.rfl) (fun _ _ => rfl) fun m _ => putBytes_low m address value hw hn
  have hmask2 : ∀ b < 64, (0xffff : U64).getLsbD b = decide (b < 8 * 2) := by decide
  have hmask4 : ∀ b < 64, (0xffffffff : U64).getLsbD b = decide (b < 8 * 4) := by decide
  have hword (a : Nat) (v : U32) :=
    writeField_acts (n := 4) (w := 32) rfl (by decide) (by decide) hmask4 a v
  cases width with
  | byte =>
    refine hlow (w := 8) (n := 1) rfl (by decide) ((writeByte_acts address (value.setWidth 8)).congr
      (fun m => ?_) (fun _ _ => rfl) fun m _ => ?_)
    · exact coversAll_of_field (by decide) (by omega)
    · exact equiv_putBytes rfl fun a => byte_put_blend getLsbD_byteMask
        (fun b hb => getLsbD_extended (value.setWidth 8) (by omega)) (by omega) a
  | halfword =>
    exact hlow (w := 16) (n := 2) rfl (by decide)
      (writeField_acts rfl (by decide) (by decide) hmask2 address (value.setWidth 16))
  | word => exact hlow (w := 32) (n := 4) rfl (by decide) (hword address (value.setWidth 32))
  | doubleword =>
    change Acts (writeDoubleword address value) (·.CoversAll address 8) _ (·.putBytes address value 8)
    by_cases h8 : address % 8 = 0
    · refine (writeDoubleword_acts h8 value).congr (fun m => ?_) (fun _ _ => rfl) fun m _ => ?_
      · exact coversAll_of_field (n := 8) (by decide) (by omega)
      · have hones : ∀ b < 64, (-1 : U64).getLsbD b = decide (b < 8 * 8) := by decide
        refine equiv_putBytes rfl fun a => ?_
        have hbyte := byte_put_blend (m := m) (v := value) hones
          (fun b hb => BitVec.getLsbD_of_ge value b (by omega)) (show address % 8 + 8 ≤ 8 by omega) a
        rw [h8, Nat.mul_zero, blend_doubleword] at hbyte
        exact hbyte
    · rw [writeDoubleword, if_neg h8]
      by_cases h4 : address % 4 = 0
      · rw [if_pos h4]
        refine ((hword address (value.setWidth 32)).bind fun _ =>
          hword (address + 4) ((value >>> 32).setWidth 32)).congr (fun m => ?_) (fun _ _ => rfl)
            fun m _ => ?_
        · have hnum := numDoublewords_putBytes m address ((value.setWidth 32).setWidth 64) 4
          rw [coversAll_iff (by decide), coversAll_iff (by decide), coversAll_iff (by decide), hnum]
          omega
        · refine equiv_putBytes (by rw [numDoublewords_putBytes, numDoublewords_putBytes]) fun a => ?_
          rw [byte_putBytes, byte_putBytes]
          by_cases hhi : address + 4 ≤ a ∧ a < address + 4 + 4
          · have hbyte := leByte_field (d := value) (k := 4) (i := a - (address + 4)) (n := 4) rfl
              (by omega) (by decide)
            rw [if_pos hhi, if_pos (by omega), hbyte]
            congr 1
            omega
          · rw [if_neg hhi]
            by_cases hlo : address ≤ a ∧ a < address + 4
            · rw [if_pos hlo, if_pos (by omega), leByte_low (w := 32) (n := 4) value rfl (by decide)
                (by omega)]
            · rw [if_neg hlo, if_neg (by omega)]
      · rw [if_neg h4]
        exact writeBytes_acts address value 8

/-! ## The bytes that reads and writes of one byte see -/

theorem byteAt_eq (m : MemoryData) (address : Nat) :
    byteAt m address = if m.Covers address then .some (m.byte address) else .none := by
  have hread := readByte_reads address
  by_cases hc : m.Covers address
  · obtain ⟨m', hrun, -⟩ := hread.run m hc
    rw [if_pos hc, byteAt, hrun]
    rfl
  · rw [if_neg hc, byteAt, hread.fail m hc]
    rfl

theorem byteAt_congr {m m' : MemoryData} (h : m ≈ m') (address : Nat) :
    byteAt m address = byteAt m' address := by
  have hbyte : m.byte address = m'.byte address := by
    rw [byte, byte, dword, dword, h.1]
  have hcovers : m.Covers address ↔ m'.Covers address := by
    rw [Covers, Covers, h.2]
  rw [byteAt_eq, byteAt_eq, hbyte]
  exact if_congr hcovers rfl rfl

theorem getU64_eq (m : MemoryData) (address : Nat) :
    m.getU64 (address / 8) = if m.Covers address then .some (m.dword address) else .none := rfl

theorem getByte_eq (m : MemoryData) (address : Nat) : m.getByte address = byteAt m address := by
  rw [getByte, getU64_eq, byteAt_eq]
  split_ifs <;> rfl

theorem mapM_some {α β : Type} {f : α → Option β} {g : α → β} (l : List α)
    (h : ∀ a ∈ l, f a = .some (g a)) : l.mapM f = .some (l.map g) := by
  induction l with
  | nil => rfl
  | cons a l ih =>
    rw [List.mapM_cons, h a (List.mem_cons_self ..), ih fun b hb => h b (List.mem_cons_of_mem _ hb)]
    rfl

theorem getBytes_eq {m : MemoryData} (h : m.CoversAll address n) :
    m.getBytes address n = .some (fromLeBytes (m.bytes address n)) := by
  have hbytes : ∀ i ∈ List.range n, m.getByte (address + i) = .some (m.byte (address + i)) := by
    intro i hi
    rw [getByte_eq, byteAt_eq, if_pos (h i (List.mem_range.mp hi))]
  rw [getBytes, mapM_some _ hbytes]
  rfl

theorem getWord_eq {m : MemoryData} (h : m.CoversAll address 4) :
    m.getWord address = .some ((fromLeBytes (m.bytes address 4)).setWidth 32) := by
  rw [getWord]
  by_cases h4 : address % 4 = 0
  · have hin := aligned_field (n := 4) (by decide) h4
    have hfield := congrArg (BitVec.setWidth 32) (field_bytes (m := m) (n := 4) rfl hin)
    rw [BitVec.setWidth_setWidth_of_le _ (by decide), BitVec.setWidth_eq] at hfield
    rw [if_pos h4, getU64_eq, if_pos ((coversAll_of_field (by decide) hin).mpr h), ← hfield]
    rfl
  · rw [if_neg h4, getBytes_eq h]
    rfl

theorem getDoubleword_eq {m : MemoryData} (h : m.CoversAll address 8) :
    m.getDoubleword address = .some (fromLeBytes (m.bytes address 8)) := by
  rw [getDoubleword]
  by_cases h8 : address % 8 = 0
  · have hfield := @field_bytes m address 8 _ rfl (by omega)
    rw [h8, Nat.mul_zero, BitVec.ushiftRight_zero, BitVec.setWidth_eq, BitVec.setWidth_eq] at hfield
    rw [if_pos h8, getU64_eq, if_pos ((coversAll_of_field (by decide) (by omega)).mpr h), hfield]
  · rw [if_neg h8]
    by_cases h4 : address % 4 = 0
    · have hlo : m.CoversAll address 4 := fun i hi => h i (by omega)
      have hhi : m.CoversAll (address + 4) 4 := fun i hi => by
        rw [Nat.add_assoc]
        exact h (4 + i) (by omega)
      rw [if_pos h4, getWord_eq hlo, getWord_eq hhi]
      change Option.some _ = .some (fromLeBytes (m.bytes address (4 + 4)))
      rw [bytes_add]
      exact congrArg _ (fromLeBytes_words (length_bytes ..) (length_bytes ..))
    · rw [if_neg h4]
      exact getBytes_eq h

end Memory

open Memory in
/-- **Every access is one of bytes**: within the capacity a read, recording or not, gives
the little-endian value of the bytes that reads of one byte give, a write changes those
bytes and no others, and what a checkpoint records changes none of it. -/
theorem MemoryData.word_paths (m : MemoryData) (width : Width) (address : Nat)
    (h : address + width.bytes ≤ 8 * m.numDoublewords) :
    (∃ bytes : List U8, bytes.length = width.bytes ∧
      (∀ i < width.bytes, byteAt m (address + i) = .some (bytes.getD i 0)) ∧
      (∃ m', read width address m = .some (fromLeBytes bytes, m') ∧ ∀ a, byteAt m' a = byteAt m a) ∧
      (width = .byte → (m.getByte address).map (·.setWidth 64) = .some (fromLeBytes bytes)) ∧
      (width = .word → (m.getWord address).map (·.setWidth 64) = .some (fromLeBytes bytes)) ∧
      (width = .doubleword → m.getDoubleword address = .some (fromLeBytes bytes))) ∧
    (∀ value, ∃ m', write width address value m = .some (⟨⟩, m') ∧ ∀ a, byteAt m' a =
      if address ≤ a ∧ a < address + width.bytes then .some (leByte value (a - address))
      else byteAt m a) ∧
    ∀ c a, byteAt { m with checkpoint := c } a = byteAt m a := by
  have hpos : 0 < width.bytes := by cases width <;> decide
  have hcovers : m.CoversAll address width.bytes := (coversAll_iff hpos).mpr h
  refine ⟨⟨m.bytes address width.bytes, length_bytes .., fun i hi => ?_, ?_, ?_, ?_, ?_⟩, fun value => ?_,
    fun c a => @byteAt_congr { m with checkpoint := c } m ⟨rfl, rfl⟩ a⟩
  · rw [byteAt_eq, if_pos (hcovers i hi), getD_bytes m address hi]
  · obtain ⟨m', hrun, hsame⟩ := (read_reads width address).run m hcovers
    exact ⟨m', hrun, fun a => byteAt_congr (Setoid.symm hsame) a⟩
  · rintro rfl
    have hfield := @field_bytes m address 1 _ rfl (by omega)
    rw [getByte_eq, byteAt_eq, if_pos (show m.Covers address from hcovers 0 (by decide))]
    exact congrArg _ hfield
  · rintro rfl
    rw [getWord_eq hcovers]
    exact congrArg _ (setWidth_fromLeBytes (n := 4) rfl (length_bytes ..))
  · rintro rfl
    exact getDoubleword_eq hcovers
  · obtain ⟨m', hrun, hsame⟩ := (write_acts width address value).run m hcovers
    refine ⟨m', hrun, fun a => ?_⟩
    have hnum : (m.putBytes address value width.bytes).Covers a ↔ m.Covers a := by
      rw [Covers, Covers, numDoublewords_putBytes]
    rw [byteAt_congr (Setoid.symm hsame), byteAt_eq, byteAt_eq, byte_putBytes, if_congr hnum rfl rfl]
    by_cases hin : address ≤ a ∧ a < address + width.bytes
    · have hcovered : m.Covers a := by
        rw [Covers]
        omega
      rw [if_pos hin, if_pos hin, if_pos hcovered]
    · rw [if_neg hin, if_neg hin]

open Memory in
theorem MemoryData.word_paths_unaligned :
    ∃ m', Memory.write .word 6 0x11223344 (MemoryData.empty.initWithCapacity 16) = .some (⟨⟩, m') ∧
      ∀ a, byteAt m' a = if 6 ≤ a ∧ a < 6 + 4 then .some (leByte 0x11223344 (a - 6))
        else byteAt (MemoryData.empty.initWithCapacity 16) a :=
  (word_paths (MemoryData.empty.initWithCapacity 16) .word 6 (by decide)).2.1 0x11223344

end LightningJolt
