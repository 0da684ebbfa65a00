/-
The public I/O as both sides see it (`jolt-core/src/zkvm/ram/mod.rs`): the verifier
adds up the evaluation of each block of the I/O region, with a factor for each
coordinate of RAM above the region.
-/
import LightningJolt.RamInit

namespace LightningJolt

open Finset

/-! ## The evaluation -/

section Eval

variable {F C : Type} [JoltField F] [Challenge C F]

/-- The words of the bytes at a remapped address, where there is any byte. -/
def evalBytes (programIo : JoltDevice) (address : Nat) (bytes : List U8) (acc : F) (r : List C) :
    Option F :=
  if bytes.isEmpty then .some acc
  else do
    let start ← remapped address programIo.memoryLayout
    let block ← sparseEvalU64Block start (byteWords bytes) r
    .some (acc + block)

/-- `eval_io_mle`. -/
def evalIoMle (programIo : JoltDevice) (rAddress : List C) : Option F := do
  let layout := programIo.memoryLayout
  let rangeEndWords ← remapped ramStartAddress layout
  let numIoVars ← log2 (max (nextPowerOfTwo rangeEndWords) 1)
  let numHiVars ← checkedSub rAddress.length numIoVars
  let rLo := rAddress.drop numHiVars
  let hiScale := (rAddress.take numHiVars).foldl (fun scale c => scale * (1 - Challenge.into c)) (1 : F)
  let acc ← evalBytes programIo layout.inputStart programIo.inputs 0 rLo
  let acc ← evalBytes programIo layout.outputStart programIo.outputs acc rLo
  let panicIndex ← remapped layout.panic layout
  let panicBit ← sparseEvalU64Block panicIndex [if programIo.panic then 1 else 0] rLo
  let acc := acc + panicBit
  let acc ← if programIo.panic then .some acc else do
    let terminationIndex ← remapped layout.termination layout
    let terminationBit ← sparseEvalU64Block terminationIndex [1] rLo
    .some (acc + terminationBit)
  .some (hiScale * acc)

end Eval

/-! ## Blocks of words -/

/-- Words and the index of the first one. -/
abbrev WordBlock := Nat × List U64

namespace WordBlock

def Has (b : WordBlock) (i : Nat) : Prop := b.1 ≤ i ∧ i < b.1 + b.2.length

instance (b : WordBlock) (i : Nat) : Decidable (b.Has i) :=
  inferInstanceAs (Decidable (b.1 ≤ i ∧ i < b.1 + b.2.length))

/-- The state has the words of the blocks, and zero elsewhere. -/
structure Holds (blocks : List WordBlock) (state : List U64) : Prop where
  word : ∀ b ∈ blocks, ∀ j < b.2.length, state.getD (b.1 + j) 0 = b.2.getD j 0
  zero : ∀ i, (∀ b ∈ blocks, ¬ b.Has i) → state.getD i 0 = 0

/-- No two of them have an index in common. -/
def Disjoint (blocks : List WordBlock) : Prop :=
  blocks.Pairwise fun b c => ∀ i, b.Has i → ¬ c.Has i

/-- A write puts the words, and leaves the others. -/
theorem getD_writeWords {words state state' : List U64} {index : Nat}
    (h : writeWords state index words = .some state') (i : Nat) :
    state'.getD i 0 = if Has (index, words) i then words.getD (i - index) 0 else state.getD i 0 := by
  induction words generalizing state index with
  | nil =>
    cases h
    rw [if_neg fun h => absurd h.2 (Nat.not_lt.mpr h.1)]
  | cons word words ih =>
    obtain ⟨mid, hset, h⟩ := Option.bind_eq_some_iff.mp h
    obtain ⟨hlt, rfl⟩ := setWord_eq_some hset
    rw [ih h, getD_set _ _ _ hlt]
    by_cases hi : Has (index + 1, words) i
    · obtain ⟨hlow, hhigh⟩ := id hi
      have hhas : Has (index, word :: words) i :=
        ⟨by simp only at hlow ⊢; omega, by simp only [List.length_cons] at hhigh ⊢; omega⟩
      rw [if_pos hi, if_pos hhas, show i - index = i - (index + 1) + 1 by simp only at hlow; omega,
        List.getD_cons_succ]
    · rw [if_neg hi]
      by_cases hfirst : i = index
      · have hhas : Has (index, word :: words) i := by
          rw [hfirst]
          exact ⟨Nat.le_refl _, by simp⟩
        rw [if_pos hfirst, if_pos hhas, hfirst, Nat.sub_self, List.getD_cons_zero]
      · have hnot : ¬ Has (index, word :: words) i := fun h => hi
          ⟨by have := h.1; simp only at this ⊢; omega,
            by have := h.2; simp only [List.length_cons] at this ⊢; omega⟩
        rw [if_neg hfirst, if_neg hnot]

/-- The state has the words of the blocks, and zero at the other indices of a kind. -/
structure HoldsIn (p : Nat → Prop) (blocks : List WordBlock) (state : List U64) : Prop where
  word : ∀ b ∈ blocks, ∀ j < b.2.length, state.getD (b.1 + j) 0 = b.2.getD j 0
  zero : ∀ i, p i → (∀ b ∈ blocks, ¬ b.Has i) → state.getD i 0 = 0

/-- A write apart from the blocks adds a block. -/
theorem HoldsIn.write {p : Nat → Prop} {blocks blocks' : List WordBlock} {state state' : List U64} {b : WordBlock}
    (h : HoldsIn p blocks state) (hmem : ∀ c, c ∈ blocks' ↔ c = b ∨ c ∈ blocks)
    (hwrite : writeWords state b.1 b.2 = .some state') (hapart : ∀ c ∈ blocks, ∀ i, b.Has i → ¬ c.Has i) :
    HoldsIn p blocks' state' := by
  have hgetD := getD_writeWords hwrite
  refine ⟨fun c hc j hj => ?_, fun i hi hnone => ?_⟩
  · rcases (hmem c).mp hc with rfl | hc
    · have hhas : Has c (c.1 + j) := ⟨by omega, by omega⟩
      rw [hgetD, if_pos hhas, Nat.add_sub_cancel_left]
    · have hhas : Has c (c.1 + j) := ⟨by omega, by omega⟩
      rw [hgetD, if_neg fun hb => hapart c hc _ hb hhas, h.word c hc j hj]
  · rw [hgetD, if_neg (hnone b ((hmem b).mpr (.inl rfl))),
      h.zero i hi fun c hc => hnone c ((hmem c).mpr (.inr hc))]

/-- A block above the others, at the end of the list. -/
theorem HoldsIn.append {p : Nat → Prop} {blocks : List WordBlock} {state state' : List U64} {b : WordBlock}
    (h : HoldsIn p blocks state) (hwrite : writeWords state b.1 b.2 = .some state')
    (hbelow : ∀ c ∈ blocks, c.1 + c.2.length ≤ b.1) : HoldsIn p (blocks ++ [b]) state' := by
  refine h.write (fun c => by rw [List.mem_append, List.mem_singleton, or_comm]) hwrite fun c hc i hb hhas => ?_
  have hlow := hb.1
  have hhigh := hhas.2
  have hend := hbelow c hc
  omega

/-- A word that is zero is a block. -/
theorem HoldsIn.append_zero {p : Nat → Prop} {blocks : List WordBlock} {state : List U64} {i : Nat}
    (h : HoldsIn p blocks state) (hi : p i) (hnone : ∀ b ∈ blocks, ¬ b.Has i) : HoldsIn p (blocks ++ [(i, [0])]) state := by
  refine ⟨fun c hc j hj => ?_, fun k hk hk' => h.zero k hk fun c hc => hk' c (List.mem_append_left _ hc)⟩
  rcases List.mem_append.mp hc with hc | hc
  · exact h.word c hc j hj
  · obtain rfl := List.mem_singleton.mp hc
    obtain rfl : j = 0 := Nat.lt_one_iff.mp hj
    exact h.zero i hi hnone

variable {F C : Type} [JoltField F] [Challenge C F]

/-- Blocks apart from each other: a state that has them, and its MLE. -/
theorem exists_holds {n : Nat} {blocks : List WordBlock} (hdisjoint : Disjoint blocks)
    (hend : ∀ b ∈ blocks, b.1 + b.2.length ≤ 2 ^ n) :
    ∃ state : List U64, state.length = 2 ^ n ∧ Holds blocks state ∧ ∀ r : List C, r.length = n →
      (wordsMle state r : F) = (blocks.map fun b => sliceEval (intoPoint r) b.1 b.2).sum := by
  induction blocks with
  | nil =>
    refine ⟨List.replicate (2 ^ n) 0, List.length_replicate, ⟨by simp, fun i _ => ?_⟩, fun r _ => ?_⟩
    · exact clear_replicate _ i (i + 1) i (Nat.le_refl i) (Nat.lt_succ_self i)
    · exact wordsMle_replicate _ r
  | cons b blocks ih =>
    obtain ⟨hb, hblocks⟩ := List.pairwise_cons.mp hdisjoint
    obtain ⟨hbend, hends⟩ := List.forall_mem_cons.mp hend
    obtain ⟨state, hlength, hholds, hmle⟩ := ih hblocks hends
    obtain ⟨state', hwrite⟩ := writeWords_isSome b.2 state b.1 (by rw [hlength]; exact hbend)
    have hin : HoldsIn (fun _ => True) blocks state := ⟨hholds.word, fun i _ => hholds.zero i⟩
    have hin' := hin.write (fun _ => List.mem_cons) hwrite hb
    refine ⟨state', (writeWords_frame hwrite).1.trans hlength, ⟨hin'.word, fun i => hin'.zero i trivial⟩, fun r hr => ?_⟩
    have hclear : Clear state b.1 (b.1 + b.2.length) := fun i hlow hhigh =>
      hholds.zero i fun c hc => hb c hc i ⟨hlow, hhigh⟩
    rw [writeWords_mle hwrite (by rw [hlength, hr]) hclear, hmle r hr, List.map_cons, List.sum_cons]
    ring

end WordBlock

/-! ## The public I/O -/

/-- The index of the word at an address. -/
def MemoryLayout.wordIndex (l : MemoryLayout) (address : Nat) : Nat := (address - l.getLowestAddress) / 8

/-- The words of the public I/O and their places in RAM. -/
def JoltDevice.ioBlocks (d : JoltDevice) : List WordBlock :=
  [(d.memoryLayout.wordIndex d.memoryLayout.inputStart, byteWords d.inputs),
    (d.memoryLayout.wordIndex d.memoryLayout.outputStart, byteWords d.outputs),
    (d.memoryLayout.wordIndex d.memoryLayout.panic, [if d.panic then 1 else 0]),
    (d.memoryLayout.wordIndex d.memoryLayout.termination, [if d.panic then 0 else 1])]

/-- Where bytes start at address zero, which `remap_address` takes for no access. -/
def JoltDevice.IoAddressed (d : JoltDevice) : Prop :=
  (d.inputs = [] ∨ d.memoryLayout.inputStart ≠ 0) ∧ (d.outputs = [] ∨ d.memoryLayout.outputStart ≠ 0)

theorem remapped_of_le {address : Nat} {l : MemoryLayout} (h : l.getLowestAddress ≤ address)
    (hne : address ≠ 0) : remapped address l = .some (l.wordIndex address) := by
  rw [remapped, remapAddress, if_neg hne]
  exact congrArg Option.join (if_pos h)

theorem remapped_zero (l : MemoryLayout) : remapped 0 l = .none := rfl

theorem exists_nextPowerOfTwo (n : Nat) : ∃ k, nextPowerOfTwo n = 2 ^ k := by
  unfold nextPowerOfTwo
  split_ifs
  · exact ⟨0, rfl⟩
  · exact ⟨_, rfl⟩

theorem nextPowerOfTwo_le {n k : Nat} (h : n ≤ 2 ^ k) : nextPowerOfTwo n ≤ 2 ^ k := by
  unfold nextPowerOfTwo
  split_ifs with hone
  · exact Nat.one_le_two_pow
  · refine Nat.pow_le_pow_right (by decide) ?_
    exact (Nat.log2_lt (by omega)).mpr (by omega)

/-- The I/O takes the number of doublewords up to a power of two. -/
theorem MemoryLayout.new_advice {config : MemoryConfig} {l : MemoryLayout}
    (h : MemoryLayout.new config = .some l) :
    adviceRegions (nextPowerOfTwo ((l.maxInputSize + l.maxTrustedAdviceSize + l.maxUntrustedAdviceSize +
      l.maxOutputSize + 16) / 8) * 8) l.maxTrustedAdviceSize l.maxUntrustedAdviceSize = .some
        (l.trustedAdviceStart, l.trustedAdviceEnd, l.untrustedAdviceStart, l.untrustedAdviceEnd) := by
  unfold MemoryLayout.new at h
  obtain ⟨program, -, h⟩ := Option.bind_eq_some_iff.mp h
  obtain ⟨trusted, -, h⟩ := Option.bind_eq_some_iff.mp h
  obtain ⟨untrusted, -, h⟩ := Option.bind_eq_some_iff.mp h
  obtain ⟨input, -, h⟩ := Option.bind_eq_some_iff.mp h
  obtain ⟨output, -, h⟩ := Option.bind_eq_some_iff.mp h
  obtain ⟨stack, -, h⟩ := Option.bind_eq_some_iff.mp h
  obtain ⟨heap, -, h⟩ := Option.bind_eq_some_iff.mp h
  obtain ⟨_, -, h⟩ := Option.bind_eq_some_iff.mp h
  obtain ⟨_, -, h⟩ := Option.bind_eq_some_iff.mp h
  obtain ⟨s1, hs1, h⟩ := Option.bind_eq_some_iff.mp h
  obtain ⟨s2, hs2, h⟩ := Option.bind_eq_some_iff.mp h
  obtain ⟨s3, hs3, h⟩ := Option.bind_eq_some_iff.mp h
  obtain ⟨region, hregion, h⟩ := Option.bind_eq_some_iff.mp h
  obtain ⟨ioBytes, hioBytes, h⟩ := Option.bind_eq_some_iff.mp h
  obtain ⟨⟨ts, te, us, ue⟩, hadvice, h⟩ := Option.bind_eq_some_iff.mp h
  obtain ⟨inputEnd, -, h⟩ := Option.bind_eq_some_iff.mp h
  obtain ⟨outputEnd, -, h⟩ := Option.bind_eq_some_iff.mp h
  obtain ⟨termination, -, h⟩ := Option.bind_eq_some_iff.mp h
  obtain ⟨ioEnd, -, h⟩ := Option.bind_eq_some_iff.mp h
  obtain ⟨stackEnd, -, h⟩ := Option.bind_eq_some_iff.mp h
  obtain ⟨start1, -, h⟩ := Option.bind_eq_some_iff.mp h
  obtain ⟨start2, -, h⟩ := Option.bind_eq_some_iff.mp h
  obtain ⟨heapEnd, -, h⟩ := Option.bind_eq_some_iff.mp h
  cases h
  obtain ⟨-, rfl⟩ := checkedAdd_eq_some.mp hs1
  obtain ⟨-, rfl⟩ := checkedAdd_eq_some.mp hs2
  obtain ⟨-, rfl⟩ := checkedAdd_eq_some.mp hs3
  obtain ⟨-, rfl⟩ := checkedAdd_eq_some.mp hregion
  obtain ⟨-, rfl⟩ := checkedMul_eq_some.mp hioBytes
  exact hadvice

/-- The panic word is not at address zero: without inputs, outputs and advice the I/O is
two doublewords below RAM. -/
theorem JoltDevice.panic_ne_zero (d : JoltDevice) : d.memoryLayout.panic ≠ 0 := by
  intro hzero
  obtain ⟨config, hnew⟩ := d.laidOut
  have hplaced := MemoryLayout.new_placed hnew
  have hadvice := MemoryLayout.new_advice hnew
  have hwf := hplaced.wellFormed
  obtain ⟨hio, hregions⟩ := adviceRegions_cases hadvice
  have h1 := hplaced.inputEnd_eq
  have h2 := hplaced.outputEnd_eq
  have h3 := hplaced.panic_eq
  have h4 := hplaced.outputStart_eq
  have h5 := hplaced.inputStart_eq
  obtain ⟨hinput, houtput, htrusted, huntrusted⟩ : d.memoryLayout.maxInputSize = 0 ∧
      d.memoryLayout.maxOutputSize = 0 ∧ d.memoryLayout.maxTrustedAdviceSize = 0 ∧
        d.memoryLayout.maxUntrustedAdviceSize = 0 := by
    omega
  have hnext : nextPowerOfTwo ((0 + 0 + 0 + 0 + 16) / 8) = 2 := nextPowerOfTwo_pow 1
  rw [hinput, houtput, htrusted, huntrusted, hnext] at hregions
  have hram : ramStartAddress = 0x80000000 := rfl
  omega

section Main

variable {F C : Type} [JoltField F] [Challenge C F]

/-- A block of bytes where its address is one. -/
theorem evalBytes_eq {d : JoltDevice} {address : Nat} {bytes : List U8} {r : List C} (acc : F)
    (hlow : d.memoryLayout.getLowestAddress ≤ address) (haddress : bytes = [] ∨ address ≠ 0)
    (hend : d.memoryLayout.wordIndex address + (byteWords bytes).length ≤ 2 ^ r.length) :
    evalBytes d address bytes acc r = .some
      (acc + sliceEval (intoPoint r) (d.memoryLayout.wordIndex address) (byteWords bytes)) := by
  rcases bytes with _ | ⟨b, bytes⟩
  · rw [evalBytes, show byteWords [] = [] from rfl, sliceEval, add_zero]
    rfl
  · have hne : address ≠ 0 := haddress.resolve_left (List.cons_ne_nil _ _)
    rw [evalBytes, remapped_of_le hlow hne]
    simp only [List.isEmpty_cons, Bool.false_eq_true, if_false, Option.bind_eq_bind, Option.bind_some,
      sparseEvalU64Block_eq _ _ _ hend]
    rfl

/-- The blocks of a device lie in order below the first word of RAM. -/
structure IoOrdered (d : JoltDevice) (dram : Nat) : Prop where
  inputs : d.memoryLayout.wordIndex d.memoryLayout.inputStart + (byteWords d.inputs).length ≤
    d.memoryLayout.wordIndex d.memoryLayout.outputStart
  outputs : d.memoryLayout.wordIndex d.memoryLayout.outputStart + (byteWords d.outputs).length ≤
    d.memoryLayout.wordIndex d.memoryLayout.panic
  panic : d.memoryLayout.wordIndex d.memoryLayout.panic + 1 =
    d.memoryLayout.wordIndex d.memoryLayout.termination
  termination : d.memoryLayout.wordIndex d.memoryLayout.termination + 1 ≤ dram

theorem ioOrdered {d : JoltDevice} (hinputs : d.inputs.length ≤ d.memoryLayout.maxInputSize)
    (houtputs : d.outputs.length ≤ d.memoryLayout.maxOutputSize) :
    IoOrdered d (d.memoryLayout.wordIndex ramStartAddress) := by
  obtain ⟨config, hnew⟩ := d.laidOut
  have hplaced := MemoryLayout.new_placed hnew
  have hwf := hplaced.wellFormed
  have h1 := hplaced.inputEnd_eq
  have h2 := hplaced.outputEnd_eq
  have h3 := hplaced.input_aligned
  have h4 := hplaced.output_aligned
  obtain ⟨hlow, -, -, -, -, his, -, ho, -, hp, htm, hio, hli, -, -, -, -, -, hle, -, -, -⟩ := hwf
  constructor <;> simp only [MemoryLayout.wordIndex, length_byteWords] <;> omega

/-- The blocks have no word in common. -/
theorem ioBlocks_disjoint {d : JoltDevice} (hinputs : d.inputs.length ≤ d.memoryLayout.maxInputSize)
    (houtputs : d.outputs.length ≤ d.memoryLayout.maxOutputSize) : WordBlock.Disjoint d.ioBlocks := by
  obtain ⟨hin, hout, hpanic, hterm⟩ := ioOrdered hinputs houtputs
  simp only [WordBlock.Disjoint, JoltDevice.ioBlocks, List.pairwise_cons, List.forall_mem_cons,
    WordBlock.Has, List.length_singleton]
  refine ⟨⟨?_, ?_, ?_, by simp⟩, ⟨?_, ?_, by simp⟩, ⟨?_, by simp⟩, by simp⟩ <;>
  · intro i _
    omega

/-- The blocks end below RAM. -/
theorem ioBlocks_end {d : JoltDevice} (hinputs : d.inputs.length ≤ d.memoryLayout.maxInputSize)
    (houtputs : d.outputs.length ≤ d.memoryLayout.maxOutputSize) :
    ∀ b ∈ d.ioBlocks, b.1 + b.2.length ≤ d.memoryLayout.wordIndex ramStartAddress := by
  obtain ⟨hin, hout, hpanic, hterm⟩ := ioOrdered hinputs houtputs
  simp only [JoltDevice.ioBlocks, List.forall_mem_cons, List.length_singleton]
  refine ⟨?_, ?_, ?_, ?_, by simp⟩ <;> omega

theorem foldl_scale (rs : List C) (k : F) :
    rs.foldl (fun scale c => scale * (1 - Challenge.into c)) k =
      k * ((intoPoint rs : List F).map fun r => 1 - r).prod := by
  induction rs generalizing k with
  | nil => exact (mul_one k).symm
  | cons r rs ih =>
    rw [List.foldl_cons, ih, intoPoint, intoPoint, List.map_cons, List.map_cons, List.prod_cons, mul_assoc]

/-- The coordinates above the region are a factor. -/
theorem sliceEval_low (hi lo : List C) {i : Nat} (words : List U64)
    (h : i + words.length ≤ 2 ^ lo.length) :
    (sliceEval (intoPoint (hi ++ lo)) i words : F) =
      ((intoPoint hi : List F).map fun r => 1 - r).prod * sliceEval (intoPoint lo) i words := by
  have hblock := sliceEval_block (F := F) hi lo 0 words h
  rwa [Nat.zero_mul, Nat.zero_add, eqAt_zero] at hblock

theorem evalIoMle_eq {d : JoltDevice} {n : Nat} {r : List C} (hr : r.length = n)
    (hram : d.memoryLayout.wordIndex ramStartAddress ≤ 2 ^ n) (haddressed : d.IoAddressed)
    (hinputs : d.inputs.length ≤ d.memoryLayout.maxInputSize)
    (houtputs : d.outputs.length ≤ d.memoryLayout.maxOutputSize) :
    (evalIoMle d r : Option F) =
      .some ((d.ioBlocks.map fun b => sliceEval (intoPoint r) b.1 b.2).sum) := by
  obtain ⟨hin, hout, hpanic, hterm⟩ := ioOrdered hinputs houtputs
  have hwf := d.wellFormed
  have hle := le_nextPowerOfTwo (d.memoryLayout.wordIndex ramStartAddress)
  obtain ⟨k, hk⟩ := exists_nextPowerOfTwo (d.memoryLayout.wordIndex ramStartAddress)
  rw [hk] at hle
  have hkn : k ≤ r.length := by
    rw [hr, ← Nat.pow_le_pow_iff_right (by decide : 1 < 2), ← hk]
    exact nextPowerOfTwo_le hram
  have hdram := @remapped_of_le ramStartAddress d.memoryLayout
    (by have := hwf.lowest_add_le; omega) (by decide)
  have hvars : log2 (max (2 ^ k) 1) = .some k := by
    rw [max_eq_left Nat.one_le_two_pow, EqPolynomial.log2_pow]
  have hsub : checkedSub r.length k = .some (r.length - k) := if_pos hkn
  have hlo : (r.drop (r.length - k)).length = k := by
    rw [List.length_drop]
    omega
  have hlow1 := hwf.lowest_le_input
  have hlow2 : d.memoryLayout.getLowestAddress ≤ d.memoryLayout.outputStart := by
    rw [hwf.outputStart_eq]
    exact hlow1.trans hwf.input_le
  have hlow3 : d.memoryLayout.getLowestAddress ≤ d.memoryLayout.panic := by
    rw [hwf.panic_eq]
    exact hlow2.trans hwf.output_le
  have hlow4 : d.memoryLayout.getLowestAddress ≤ d.memoryLayout.termination := by
    rw [hwf.termination_eq]
    exact hlow3.trans (Nat.le_add_right _ _)
  have hpanicAt := remapped_of_le hlow3 d.panic_ne_zero
  have htermAt := remapped_of_le hlow4 (by have := hwf.termination_eq; omega)
  have hregion : d.memoryLayout.wordIndex ramStartAddress ≤ 2 ^ (r.drop (r.length - k)).length := by
    rwa [hlo]
  have hinputBlock := evalBytes_eq (F := F) 0 hlow1 haddressed.1 (r := r.drop (r.length - k)) (by omega)
  have houtputBlock acc := evalBytes_eq (F := F) acc hlow2 haddressed.2 (r := r.drop (r.length - k))
    (by omega)
  have hword {address : Nat} (word : U64)
      (h : d.memoryLayout.wordIndex address + 1 ≤ d.memoryLayout.wordIndex ramStartAddress) :
      sparseEvalU64Block (d.memoryLayout.wordIndex address) [word] (r.drop (r.length - k)) = .some
        (sliceEval (intoPoint (r.drop (r.length - k)) : List F) (d.memoryLayout.wordIndex address) [word]) :=
    sparseEvalU64Block_eq _ _ _ (by simp only [List.length_singleton]; omega)
  have hpanicBlock (word : U64) := @hword d.memoryLayout.panic word (by omega)
  have htermBlock (word : U64) := @hword d.memoryLayout.termination word hterm
  have hblocks : (d.ioBlocks.map fun b => sliceEval (intoPoint r : List F) b.1 b.2).sum =
      ((intoPoint (r.take (r.length - k)) : List F).map fun r => 1 - r).prod *
        (d.ioBlocks.map fun b => sliceEval (intoPoint (r.drop (r.length - k))) b.1 b.2).sum := by
    have hsplit {i : Nat} {words : List U64}
        (h : i + words.length ≤ 2 ^ (r.drop (r.length - k)).length) :=
      sliceEval_low (F := F) (r.take (r.length - k)) _ words h
    rw [List.take_append_drop] at hsplit
    simp only [JoltDevice.ioBlocks, List.map_cons, List.map_nil, List.sum_cons, List.sum_nil]
    rw [hsplit (by omega), hsplit (by omega), hsplit (by simp only [List.length_singleton]; omega),
      hsplit (by simp only [List.length_singleton]; omega)]
    ring
  rw [hblocks]
  simp only [evalIoMle, hdram, hk, hvars, hsub, hinputBlock, houtputBlock, hpanicAt, hpanicBlock,
    htermAt, htermBlock, Option.bind_eq_bind, Option.bind_some, foldl_scale, JoltDevice.ioBlocks,
    List.map_cons, List.map_nil, List.sum_cons, List.sum_nil]
  rcases d.panic with _ | _
  · simp only [Bool.false_eq_true, if_false]
    refine congrArg _ ?_
    ring
  · have hnone (w : List F) (i : Nat) : sliceEval w i [(0 : U64)] = 0 := by
      simp [sliceEval]
    simp only [if_true, hnone]
    refine congrArg _ ?_
    ring

/-- Bytes at address zero are a panic. -/
theorem evalIoMle_unaddressed {d : JoltDevice} {r : List C} (h : ¬ d.IoAddressed) :
    (evalIoMle d r : Option F) = .none := by
  have hbytes {address : Nat} {bytes : List U8} (hbytes : bytes ≠ []) (hzero : address = 0) (acc : F)
      (r : List C) : evalBytes d address bytes acc r = .none := by
    have hempty : bytes.isEmpty = false := List.isEmpty_eq_false_iff.mpr hbytes
    simp only [evalBytes, hempty, Bool.false_eq_true, if_false, hzero, remapped_zero,
      Option.bind_eq_bind, Option.bind_none]
  refine Option.eq_none_iff_forall_ne_some.mpr fun v hv => ?_
  obtain ⟨_, -, hv⟩ := Option.bind_eq_some_iff.mp hv
  obtain ⟨_, -, hv⟩ := Option.bind_eq_some_iff.mp hv
  obtain ⟨_, -, hv⟩ := Option.bind_eq_some_iff.mp hv
  obtain ⟨_, hinputs, hv⟩ := Option.bind_eq_some_iff.mp hv
  obtain ⟨_, houtputs, -⟩ := Option.bind_eq_some_iff.mp hv
  rw [JoltDevice.IoAddressed, not_and_or, not_or, not_or, not_not, not_not] at h
  rcases h with ⟨hne, hzero⟩ | ⟨hne, hzero⟩
  · rw [hbytes hne hzero] at hinputs
    cases hinputs
  · rw [hbytes hne hzero] at houtputs
    cases houtputs

theorem sliceEval_eq_sum (w : List F) (start : Nat) (values : List U64) :
    sliceEval w start values =
      ∑ j ∈ range values.length, ((values.getD j 0).toNat : F) * eqAt w (start + j) := by
  induction values generalizing start with
  | nil => rfl
  | cons v values ih =>
    rw [sliceEval, ih, List.length_cons, sum_range_succ', List.getD_cons_zero, Nat.add_zero, add_comm]
    refine congrArg₂ _ (sum_congr rfl fun j _ => ?_) (mul_comm _ _)
    rw [List.getD_cons_succ, show start + 1 + j = start + (j + 1) by omega]

/-- **The verifier evaluates the public I/O exactly where none of it is at address zero**,
and the loop over aligned blocks gives the sum over any slice. -/
theorem evalIoMle_iff (d : JoltDevice) (n : Nat)
    (hinputs : d.inputs.length ≤ d.memoryLayout.maxInputSize)
    (houtputs : d.outputs.length ≤ d.memoryLayout.maxOutputSize)
    (hram : d.memoryLayout.wordIndex ramStartAddress ≤ 2 ^ n) :
    (∃ state : List U64, state.length = 2 ^ n ∧ WordBlock.Holds d.ioBlocks state ∧
      ∀ r : List C, r.length = n →
        (evalIoMle d r = .some (wordsMle state r : F) ↔ d.IoAddressed)) ∧
      ∀ (start : Nat) (values : List U64) (r : List C), start + values.length ≤ 2 ^ r.length →
        sparseEvalU64Block start values r = .some
          (∑ j ∈ range values.length, ((values.getD j 0).toNat : F) * eqAt (intoPoint r) (start + j)) := by
  obtain ⟨state, hlength, hholds, hmle⟩ := WordBlock.exists_holds (F := F) (C := C)
    (ioBlocks_disjoint hinputs houtputs) fun b hb => (ioBlocks_end hinputs houtputs b hb).trans hram
  refine ⟨⟨state, hlength, hholds, fun r hr => ⟨fun h => ?_, fun h => ?_⟩⟩, fun start values r hr => ?_⟩
  · by_contra hnot
    rw [evalIoMle_unaddressed hnot] at h
    cases h
  · rw [evalIoMle_eq hr hram h hinputs houtputs, hmle r hr]
  · rw [sparseEvalU64Block_eq _ _ _ hr, sliceEval_eq_sum]
    rfl

end Main

/-- Inputs of almost two gigabytes: the I/O starts at address zero. -/
def largeConfig : MemoryConfig where
  maxInputSize := 0x7ffffff0
  maxTrustedAdviceSize := 0
  maxUntrustedAdviceSize := 0
  maxOutputSize := 0
  stackSize := 8
  heapSize := 8
  programSize := .some 8

theorem evalIoMle_large : ∃ d : JoltDevice, MemoryLayout.new largeConfig = .some d.memoryLayout ∧
    d.inputs.length ≤ d.memoryLayout.maxInputSize ∧ d.outputs.length ≤ d.memoryLayout.maxOutputSize ∧
      d.memoryLayout.wordIndex ramStartAddress ≤ 2 ^ 28 ∧
        ∀ r : List Fr, (evalIoMle d r : Option Fr) = .none := by
  obtain ⟨l, hl⟩ : ∃ l, MemoryLayout.new largeConfig = .some l := ⟨_, rfl⟩
  have hstart : (MemoryLayout.new largeConfig).map (·.inputStart) = .some 0 := rfl
  have hsize : (MemoryLayout.new largeConfig).map (·.maxInputSize) = .some 0x7ffffff0 := rfl
  have hdram : (MemoryLayout.new largeConfig).map (·.wordIndex ramStartAddress) = .some (2 ^ 28) := rfl
  rw [hl] at hstart hsize hdram
  refine ⟨⟨[1], [], [], [], false, l, largeConfig, hl⟩, hl, ?_, Nat.zero_le _, ?_, fun r => ?_⟩
  · rw [show l.maxInputSize = _ from Option.some.inj hsize]
    exact Nat.succ_le_of_lt (by decide)
  · exact (Option.some.inj hdram).le
  · refine evalIoMle_unaddressed fun h => ?_
    exact h.1.elim (List.cons_ne_nil _ _) fun h => h (Option.some.inj hstart)

theorem evalIoMle_iff_small : ∃ d : JoltDevice, (∃ state : List U64, state.length = 2 ^ 3 ∧
    WordBlock.Holds d.ioBlocks state ∧ ∀ r : List Fr, r.length = 3 →
      (evalIoMle d r = .some (wordsMle state r : Fr) ↔ d.IoAddressed)) ∧
    sparseEvalU64Block 1 [5, 7] ([2, 3] : List Fr) = .some
      (∑ j ∈ range 2, (((([5, 7] : List U64)).getD j 0).toNat : Fr) *
        eqAt (intoPoint ([2, 3] : List Fr)) (1 + j)) := by
  have hlayout : MemoryLayout.new (JoltVerifier.smallConfig 8) = .some (JoltVerifier.smallLayout 8) := rfl
  have hiff := evalIoMle_iff (F := Fr) (C := Fr) (JoltVerifier.smallDevice 8 hlayout) 3
    (show 1 ≤ 8 by decide) (show 1 ≤ 8 by decide) (show (ramStartAddress - 0x7fffffe0) / 8 ≤ 2 ^ 3 by decide)
  exact ⟨JoltVerifier.smallDevice 8 hlayout, hiff.1, hiff.2 1 [5, 7] [2, 3] (by decide)⟩

/-! ## The state at the end of a run -/

theorem getD_copyFinalMemory_low {ramK dramStart words k : Nat} {finalMemory : MemoryData} (hk : k < dramStart) :
    (copyFinalMemory ramK dramStart words finalMemory).getD k 0 = 0 := by
  have hnot : ¬ dramStart ≤ k := Nat.not_le.mpr hk
  rw [copyFinalMemory, List.getD_eq_getElem?_getD, List.getElem?_map]
  by_cases hlt : k < ramK
  · simp [List.getElem?_range hlt, hnot]
  · rw [List.getElem?_eq_none (by simpa using hlt)]
    rfl

theorem writeWords_singleton (state : List U64) (index : Nat) (word : U64) :
    writeWords state index [word] = setWord state index word := by
  simp [writeWords]

namespace FinalWrites

open WordBlock

variable {ramK : Nat} {d : JoltDevice} {finalMemory : MemoryData} {final : List U64}

theorem length_final (w : FinalWrites ramK d finalMemory final) : final.length = ramK := by
  have hpanic : w.afterPanic.length = ramK := by
    rw [(setWord_eq_some w.writesPanic).2, List.length_set, (writeWords_frame w.writesOutputs).1,
      (writeWords_frame w.writesInputs).1, (writeWords_frame w.writesUntrusted).1,
      (writeWords_frame w.writesTrusted).1, copyFinalMemory, List.length_map, List.length_range]
  have hfinal := w.writesTermination
  split_ifs at hfinal
  · rw [hfinal, hpanic]
  · obtain ⟨index, -, hset⟩ := hfinal
    rw [congrArg List.length (setWord_eq_some hset).2, List.length_set, hpanic]

/-- Below RAM the state starts as zeros, and the advice lies below the inputs. -/
theorem holdsIn_advice (w : FinalWrites ramK d finalMemory final)
    (htrusted : d.trustedAdvice.length ≤ d.memoryLayout.maxTrustedAdviceSize)
    (huntrusted : d.untrustedAdvice.length ≤ d.memoryLayout.maxUntrustedAdviceSize) :
    HoldsIn (fun k => w.inputs ≤ k ∧ k < w.dramStart) [] w.afterUntrusted := by
  refine ⟨nofun, fun k ⟨hlow, hhigh⟩ _ => ?_⟩
  obtain ⟨config, hnew⟩ := d.laidOut
  have hplaced := MemoryLayout.new_placed hnew
  obtain ⟨-, htle, hule, -⟩ := hplaced.wordRegions
  rw [← (remapped_eq_some w.trusted_eq).2, ← (remapped_eq_some w.inputs_eq).2] at htle
  rw [← (remapped_eq_some w.untrusted_eq).2, ← (remapped_eq_some w.inputs_eq).2] at hule
  have ht8 := hplaced.trusted_aligned
  have hu8 := hplaced.untrusted_aligned
  have hlenT := length_byteWords d.trustedAdvice
  have hlenU := length_byteWords d.untrustedAdvice
  have hnotT : ¬ Has (w.trusted, byteWords d.trustedAdvice) k := fun ⟨_, hend⟩ => by
    simp only at hend
    omega
  have hnotU : ¬ Has (w.untrusted, byteWords d.untrustedAdvice) k := fun ⟨_, hend⟩ => by
    simp only at hend
    omega
  rw [getD_writeWords w.writesUntrusted, if_neg hnotU, getD_writeWords w.writesTrusted, if_neg hnotT,
    getD_copyFinalMemory_low hhigh]

/-- The words of the I/O are in order in the state, the panic bit after the bytes. -/
theorem ordered (w : FinalWrites ramK d finalMemory final)
    (hinputs : d.inputs.length ≤ d.memoryLayout.maxInputSize)
    (houtputs : d.outputs.length ≤ d.memoryLayout.maxOutputSize) :
    w.inputs + (byteWords d.inputs).length ≤ w.outputs ∧ w.outputs + (byteWords d.outputs).length ≤ w.panic ∧
      w.panic + 1 = d.memoryLayout.wordIndex d.memoryLayout.termination ∧
        d.memoryLayout.wordIndex d.memoryLayout.termination + 1 ≤ w.dramStart := by
  obtain ⟨hin, hout, hpanic, hterm⟩ := ioOrdered hinputs houtputs
  rw [(remapped_eq_some w.inputs_eq).2, (remapped_eq_some w.outputs_eq).2, (remapped_eq_some w.panic_eq).2,
    (remapped_eq_some w.dramStart_eq).2]
  exact ⟨hin, hout, hpanic, hterm⟩

/-- Each block is written above the ones before it. -/
theorem holdsIn_panic (w : FinalWrites ramK d finalMemory final)
    (htrusted : d.trustedAdvice.length ≤ d.memoryLayout.maxTrustedAdviceSize)
    (huntrusted : d.untrustedAdvice.length ≤ d.memoryLayout.maxUntrustedAdviceSize)
    (hinputs : d.inputs.length ≤ d.memoryLayout.maxInputSize)
    (houtputs : d.outputs.length ≤ d.memoryLayout.maxOutputSize) :
    HoldsIn (fun k => w.inputs ≤ k ∧ k < w.dramStart) [(w.inputs, byteWords d.inputs), (w.outputs, byteWords d.outputs),
      (w.panic, [if d.panic then 1 else 0])] w.afterPanic := by
  obtain ⟨hin, hout, -⟩ := w.ordered hinputs houtputs
  have h0 := w.holdsIn_advice htrusted huntrusted
  have h1 := h0.append (b := (w.inputs, byteWords d.inputs)) w.writesInputs nofun
  have h2 := h1.append (b := (w.outputs, byteWords d.outputs)) w.writesOutputs
    (List.forall_mem_cons.mpr ⟨hin, nofun⟩)
  refine h2.append (b := (w.panic, [if d.panic then 1 else 0])) (by rw [writeWords_singleton, w.writesPanic]) ?_
  exact List.forall_mem_cons.mpr ⟨hin.trans ((Nat.le_add_right _ _).trans hout), List.forall_mem_cons.mpr ⟨hout, nofun⟩⟩

end FinalWrites

/-- The state at the end of a run has the public I/O, and zero at the other words from the inputs up to RAM. -/
theorem genRamMemoryStates_final {ramK : Nat} {ram : RAMPreprocessing} {d : JoltDevice} {finalMemory : MemoryData}
    {initial final : List U64} (hgen : genRamMemoryStates ramK ram d finalMemory = .some (initial, final))
    (htrusted : d.trustedAdvice.length ≤ d.memoryLayout.maxTrustedAdviceSize)
    (huntrusted : d.untrustedAdvice.length ≤ d.memoryLayout.maxUntrustedAdviceSize)
    (hinputs : d.inputs.length ≤ d.memoryLayout.maxInputSize)
    (houtputs : d.outputs.length ≤ d.memoryLayout.maxOutputSize) :
    final.length = ramK ∧ WordBlock.HoldsIn (fun k => d.memoryLayout.wordIndex d.memoryLayout.inputStart ≤ k ∧
      k < d.memoryLayout.wordIndex ramStartAddress) d.ioBlocks final := by
  obtain ⟨w⟩ := (genRamMemoryStates_writes hgen).2
  refine ⟨w.length_final, ?_⟩
  obtain ⟨hin, hout, hpanic, hterm⟩ := w.ordered hinputs houtputs
  have hholds := w.holdsIn_panic htrusted huntrusted hinputs houtputs
  have hbelow : ∀ c ∈ [(w.inputs, byteWords d.inputs), (w.outputs, byteWords d.outputs),
      (w.panic, [if d.panic then (1 : U64) else 0])],
      c.1 + c.2.length ≤ d.memoryLayout.wordIndex d.memoryLayout.termination := by
    simp only [List.forall_mem_cons, List.length_singleton]
    exact ⟨by omega, by omega, hpanic.le, nofun⟩
  have hblocks : d.ioBlocks = [(w.inputs, byteWords d.inputs), (w.outputs, byteWords d.outputs),
      (w.panic, [if d.panic then 1 else 0])] ++
        [(d.memoryLayout.wordIndex d.memoryLayout.termination, [if d.panic then 0 else 1])] := by
    rw [(remapped_eq_some w.inputs_eq).2, (remapped_eq_some w.outputs_eq).2, (remapped_eq_some w.panic_eq).2]
    rfl
  have hregion : d.memoryLayout.wordIndex d.memoryLayout.inputStart = w.inputs ∧
      d.memoryLayout.wordIndex ramStartAddress = w.dramStart :=
    ⟨(remapped_eq_some w.inputs_eq).2.symm, (remapped_eq_some w.dramStart_eq).2.symm⟩
  rw [hblocks, hregion.1, hregion.2]
  have hfinal := w.writesTermination
  split_ifs at hfinal with hbit
  · -- nothing is written to the termination word, which is zero
    rw [← hfinal] at hholds
    rw [if_pos hbit, if_pos hbit]
    rw [if_pos hbit] at hholds hbelow
    refine hholds.append_zero ⟨by omega, by omega⟩ fun c hc hhas => ?_
    exact absurd hhas.2 (Nat.not_lt.mpr (hbelow c hc))
  · obtain ⟨index, hindex, hset⟩ := hfinal
    rw [(remapped_eq_some hindex).2] at hset
    rw [if_neg hbit, if_neg hbit]
    rw [if_neg hbit] at hholds hbelow
    exact hholds.append (b := (_, [1])) (by rw [writeWords_singleton]; exact hset) hbelow

end LightningJolt
