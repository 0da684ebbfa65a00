/-
The initial memory as both sides see it (`jolt-core/src/zkvm/ram/mod.rs`): the
prover writes the words of the program, the advice and the inputs into a dense
state; the verifier adds up the evaluation of each region, with a selector before
each advice polynomial.
-/
import LightningJolt.OnChainSumcheck
import LightningJolt.Preamble
import LightningJolt.SparseEval

namespace LightningJolt

open Finset

/-! ## The prover's state -/

/-- The little-endian words of the bytes, the last one padded. -/
def byteWords (bytes : List U8) : List U64 :=
  (OneHotParams.chunks 8 bytes).map fun chunk =>
    fromLeBytes ((List.range 8).map fun i => chunk.getD i 0)

/-- `remap_address(..).unwrap()`. -/
def remapped (address : Nat) (layout : MemoryLayout) : Option Nat :=
  (remapAddress address layout).join

/-- `state[index] = word`. -/
def setWord (state : List U64) (index : Nat) (word : U64) : Option (List U64) :=
  if index < state.length then .some (state.set index word) else .none

/-- The loop that writes each word at an index one higher. -/
def writeWords (state : List U64) : Nat → List U64 → Option (List U64)
  | _, [] => .some state
  | index, word :: words => do
    let state ← setWord state index word
    writeWords state (index + 1) words

/-- `populate_memory_states`, of one of the states it is given. -/
def populateMemoryStates (index : Nat) (bytes : List U8) (state : List U64) : Option (List U64) :=
  writeWords state index (byteWords bytes)

/-- `check_memory_fits`. -/
def checkMemoryFits (index dataLen stateLen : Nat) : Option Unit :=
  guard (index + divCeil dataLen 8 ≤ stateLen)

/-- The final memory at the first index of RAM, no longer than the state. -/
def copyFinalMemory (ramK dramStart words : Nat) (finalMemory : MemoryData) : List U64 :=
  (List.range ramK).map fun i =>
    if dramStart ≤ i ∧ i < dramStart + words then finalMemory.memory (i - dramStart) else 0

/-- `gen_ram_memory_states`: the initial state and the final one. -/
def genRamMemoryStates (ramK : Nat) (ram : RAMPreprocessing) (programIo : JoltDevice)
    (finalMemory : MemoryData) : Option (List U64 × List U64) := do
  let layout := programIo.memoryLayout
  let index ← remapped ram.minBytecodeAddress.toNat layout
  let initial ← writeWords (List.replicate ramK 0) index ram.bytecodeWords
  let dramStart ← remapped ramStartAddress layout
  let room ← checkedSub ramK dramStart
  let final := copyFinalMemory ramK dramStart (min finalMemory.numDoublewords room) finalMemory
  let index ← remapped layout.trustedAdviceStart layout
  checkMemoryFits index programIo.trustedAdvice.length ramK
  let initial ← populateMemoryStates index programIo.trustedAdvice initial
  let final ← populateMemoryStates index programIo.trustedAdvice final
  let index ← remapped layout.untrustedAdviceStart layout
  checkMemoryFits index programIo.untrustedAdvice.length ramK
  let initial ← populateMemoryStates index programIo.untrustedAdvice initial
  let final ← populateMemoryStates index programIo.untrustedAdvice final
  let index ← remapped layout.inputStart layout
  checkMemoryFits index programIo.inputs.length ramK
  let initial ← populateMemoryStates index programIo.inputs initial
  let final ← populateMemoryStates index programIo.inputs final
  let index ← remapped layout.outputStart layout
  checkMemoryFits index programIo.outputs.length ramK
  let final ← populateMemoryStates index programIo.outputs final
  let panicIndex ← remapped layout.panic layout
  let final ← setWord final panicIndex (if programIo.panic then 1 else 0)
  let final ← if programIo.panic then .some final else do
    let terminationIndex ← remapped layout.termination layout
    setWord final terminationIndex 1
  .some (initial, final)

/-! ## The verifier's sum -/

section Sum

variable {F C : Type} [JoltField F] [Challenge C F]

/-- The MLE of a state. -/
def wordsMle (state : List U64) (r : List C) : F :=
  ∑ i ∈ range (2 ^ r.length), ((state.getD i 0).toNat : F) * eqAt (intoPoint r) i

/-- `eval_initial_ram_mle`. -/
def evalInitialRamMle (ram : RAMPreprocessing) (programIo : JoltDevice) (rAddress : List C) :
    Option F := do
  let bytecodeStart ← remapped ram.minBytecodeAddress.toNat programIo.memoryLayout
  let acc ← sparseEvalU64Block bytecodeStart ram.bytecodeWords rAddress
  if programIo.inputs.isEmpty then .some acc
  else
    let inputStart ← remapped programIo.memoryLayout.inputStart programIo.memoryLayout
    let inputs ← sparseEvalU64Block inputStart (byteWords programIo.inputs) rAddress
    .some (acc + inputs)

/-- `compute_advice_selector`. -/
def computeAdviceSelector (adviceNumVars adviceStart : Nat) (layout : MemoryLayout)
    (rAddress : List C) (totalMemoryVars : Nat) : Option F := do
  let numMissingVars ← checkedSub totalMemoryVars adviceNumVars
  let index ← remapped adviceStart layout
  guard (numMissingVars ≤ rAddress.length)
  .some (scaleByBits ((indexBits totalMemoryVars index).take numMissingVars) rAddress)

/-- The bytes of an advice, the size its region has, and where the region starts. -/
def JoltDevice.adviceRegion (programIo : JoltDevice) : AdviceKind → List U8 × Nat × Nat
  | .Trusted => (programIo.trustedAdvice, programIo.memoryLayout.maxTrustedAdviceSize,
      programIo.memoryLayout.trustedAdviceStart)
  | .Untrusted => (programIo.untrustedAdvice, programIo.memoryLayout.maxUntrustedAdviceSize,
      programIo.memoryLayout.untrustedAdviceStart)

/-- The words of the advice polynomial that the prover commits to: all of the region. -/
def advicePolynomial (maxSize : Nat) (bytes : List U8) : Option (List U64) :=
  populateMemoryStates 0 bytes (List.replicate (maxSize / 8) 0)

/-- What an advice adds: the evaluation of its polynomial at the low-order
coordinates, behind the selector of the others; nothing where it is empty. -/
def adviceContribution (programIo : JoltDevice) (kind : AdviceKind) (rAddress : List C) : Option F :=
  let (bytes, maxSize, start) := programIo.adviceRegion kind
  if bytes.isEmpty then .some 0
  else do
    let adviceNumVars ← log2 (nextPowerOfTwo (maxSize / 8))
    let selector ← computeAdviceSelector adviceNumVars start programIo.memoryLayout rAddress
      rAddress.length
    let words ← advicePolynomial maxSize bytes
    .some (selector * wordsMle words (rAddress.drop (rAddress.length - adviceNumVars)))

end Sum

/-! ## Writes -/

@[simp] theorem length_byteWords (bytes : List U8) :
    (byteWords bytes).length = (bytes.length + 7) / 8 := by
  simp [byteWords, OneHotParams.chunks, divCeil]

/-- Nothing is written from `a` up to `b`. -/
def Clear (state : List U64) (a b : Nat) : Prop := ∀ i, a ≤ i → i < b → state.getD i 0 = 0

theorem clear_replicate (n a b : Nat) : Clear (List.replicate n 0) a b := by
  intro i _ _
  rw [List.getD_eq_getElem?_getD, List.getElem?_replicate]
  split_ifs <;> rfl

theorem setWord_eq_some {state state' : List U64} {index : Nat} {word : U64}
    (h : setWord state index word = .some state') :
    index < state.length ∧ state' = state.set index word := by
  unfold setWord at h
  split_ifs at h with hlt
  exact ⟨hlt, (Option.some.inj h).symm⟩

theorem getD_set (state : List U64) {index : Nat} (word : U64) (i : Nat) (h : index < state.length) :
    (state.set index word).getD i 0 = if i = index then word else state.getD i 0 := by
  simp only [List.getD_eq_getElem?_getD, List.getElem?_set]
  split_ifs with h1 h2 h2
  · rfl
  · exact absurd h1.symm h2
  · exact absurd h2.symm h1
  · rfl

/-- A write leaves the length, and what was clear where it does not reach. -/
theorem writeWords_frame {words state state' : List U64} {index : Nat}
    (h : writeWords state index words = .some state') :
    state'.length = state.length ∧ ∀ a b, b ≤ index ∨ index + words.length ≤ a →
      Clear state a b → Clear state' a b := by
  induction words generalizing state index with
  | nil =>
    cases h
    exact ⟨rfl, fun _ _ _ hclear => hclear⟩
  | cons word words ih =>
    obtain ⟨mid, hset, h⟩ := Option.bind_eq_some_iff.mp h
    obtain ⟨hlt, rfl⟩ := setWord_eq_some hset
    obtain ⟨hlength, hframe⟩ := ih h
    rw [List.length_set] at hlength
    refine ⟨hlength, fun a b hout hclear => ?_⟩
    rw [List.length_cons] at hout
    refine hframe a b (by omega) fun i ha hb => ?_
    rw [getD_set state word i hlt, if_neg (by omega)]
    exact hclear i ha hb

theorem writeWords_isSome (words state : List U64) (index : Nat)
    (h : index + words.length ≤ state.length) : ∃ state', writeWords state index words = .some state' := by
  induction words generalizing state index with
  | nil => exact ⟨state, rfl⟩
  | cons word words ih =>
    rw [List.length_cons] at h
    have hset : setWord state index word = .some (state.set index word) := if_pos (by omega)
    obtain ⟨state', hstate'⟩ := ih (state.set index word) (index + 1)
      (by rw [List.length_set]; omega)
    exact ⟨state', Option.bind_eq_some_iff.mpr ⟨_, hset, hstate'⟩⟩

section Sums

variable {F C : Type} [JoltField F] [Challenge C F]

theorem wordsMle_replicate (n : Nat) (r : List C) : (wordsMle (List.replicate n 0) r : F) = 0 := by
  refine sum_eq_zero fun i _ => ?_
  rw [clear_replicate n i (i + 1) i (Nat.le_refl i) (Nat.lt_succ_self i)]
  simp

/-- A write over clear words adds the evaluation of what is written. -/
theorem writeWords_mle {words state state' : List U64} {index : Nat} {r : List C}
    (h : writeWords state index words = .some state') (hlength : state.length = 2 ^ r.length)
    (hclear : Clear state index (index + words.length)) :
    wordsMle state' r = (wordsMle state r : F) + sliceEval (intoPoint r) index words := by
  induction words generalizing state index with
  | nil =>
    cases h
    rw [sliceEval, add_zero]
  | cons word words ih =>
    obtain ⟨mid, hset, h⟩ := Option.bind_eq_some_iff.mp h
    obtain ⟨hlt, rfl⟩ := setWord_eq_some hset
    rw [List.length_cons] at hclear
    have hzero := hclear index (Nat.le_refl _) (by omega)
    have hrest : Clear (state.set index word) (index + 1) (index + 1 + words.length) := by
      intro i ha hb
      rw [getD_set state word i hlt, if_neg (by omega)]
      exact hclear i (by omega) (by omega)
    have hone : wordsMle (state.set index word) r =
        (wordsMle state r : F) + eqAt (intoPoint r) index * (word.toNat : F) := by
      have hterm : ∀ i ∈ range (2 ^ r.length),
          (((state.set index word).getD i 0).toNat : F) * eqAt (intoPoint r) i =
            ((state.getD i 0).toNat : F) * eqAt (intoPoint r) i +
              if i = index then eqAt (intoPoint r) index * (word.toNat : F) else 0 := by
        intro i _
        rw [getD_set state word i hlt]
        split_ifs with hi
        · rw [hi, hzero]
          simp [mul_comm]
        · rw [add_zero]
      rw [wordsMle, sum_congr rfl hterm, sum_add_distrib, sum_ite_eq', if_pos
        (mem_range.mpr (hlength ▸ hlt)), wordsMle]
    rw [ih h (by rw [List.length_set, hlength]) hrest, hone, sliceEval, add_assoc]

/-- Words inside an aligned block: those of the block's own table, behind the weight of
the block. -/
theorem sliceEval_block (xs ys : List C) (q : Nat) {j : Nat} (words : List U64)
    (h : j + words.length ≤ 2 ^ ys.length) :
    sliceEval (intoPoint (xs ++ ys) : List F) (q * 2 ^ ys.length + j) words =
      eqAt (intoPoint xs) q * sliceEval (intoPoint ys) j words := by
  induction words generalizing j with
  | nil => rw [sliceEval, sliceEval, mul_zero]
  | cons word words ih =>
    rw [List.length_cons] at h
    rw [sliceEval, sliceEval, eqAt_split xs ys q (by omega), Nat.add_assoc, ih (by omega)]
    ring

end Sums

/-! ## Advice blocks -/

theorem nextPowerOfTwo_pow (k : Nat) : nextPowerOfTwo (2 ^ k) = 2 ^ k := by
  rcases k with _ | k
  · rfl
  have hpos : 0 < 2 ^ k := Nat.two_pow_pos k
  rw [nextPowerOfTwo, if_neg (by rw [Nat.pow_succ]; omega)]
  have hlog : (2 ^ (k + 1) - 1).log2 = k := by
    rw [Nat.log2_eq_iff (by rw [Nat.pow_succ]; omega), Nat.pow_succ]
    omega
  rw [hlog]

theorem remapped_eq_some {address index : Nat} {l : MemoryLayout}
    (h : remapped address l = .some index) :
    l.getLowestAddress ≤ address ∧ index = (address - l.getLowestAddress) / 8 := by
  unfold remapped remapAddress at h
  dsimp only at h
  split_ifs at h with hzero hle
  · cases h
  · exact ⟨hle, (Option.some.inj h).symm⟩
  · cases h

section Advice

variable {F C : Type} [JoltField F] [Challenge C F]

/-- **An advice polynomial behind its selector is the advice in its place.** -/
theorem adviceContribution_of_block {programIo : JoltDevice} {kind : AdviceKind} {bytes : List U8}
    {start a q : Nat} {r : List C}
    (hregion : programIo.adviceRegion kind = (bytes, 8 * 2 ^ a, start))
    (hindex : remapped start programIo.memoryLayout = .some (q * 2 ^ a))
    (hend : q * 2 ^ a + 2 ^ a ≤ 2 ^ r.length) (hlength : bytes.length ≤ 8 * 2 ^ a)
    (hne : bytes ≠ []) :
    adviceContribution programIo kind r =
      .some (sliceEval (intoPoint r : List F) (q * 2 ^ a) (byteWords bytes)) := by
  have hpos : 0 < 2 ^ a := Nat.two_pow_pos a
  have ha : a ≤ r.length := by
    refine (Nat.pow_le_pow_iff_right (by decide : 1 < 2)).mp ?_
    exact (Nat.le_add_left _ _).trans hend
  have hq : q < 2 ^ (r.length - a) := by
    rw [← Nat.succ_mul, show 2 ^ r.length = 2 ^ (r.length - a) * 2 ^ a by
      rw [← Nat.pow_add, Nat.sub_add_cancel ha]] at hend
    exact Nat.le_of_mul_le_mul_right hend hpos
  have hvars : log2 (nextPowerOfTwo (8 * 2 ^ a / 8)) = .some a := by
    rw [Nat.mul_div_cancel_left _ (by decide), nextPowerOfTwo_pow, EqPolynomial.log2_pow]
  -- The selector is the weight of the block among the blocks of its length.
  have hselector : computeAdviceSelector a start programIo.memoryLayout r r.length =
      .some (eqAt (intoPoint (r.take (r.length - a)) : List F) q) := by
    have hsub : checkedSub r.length a = .some (r.length - a) := if_pos ha
    have hguard : (guard (r.length - a ≤ r.length) : Option Unit) = .some () :=
      (Option.guard_eq_some' ()).mpr (Nat.sub_le _ _)
    have hshift : (q * 2 ^ a) >>> (r.length - (r.length - a)) = q := by
      rw [Nat.sub_sub_self ha, Nat.shiftRight_eq_div_pow, Nat.mul_div_cancel _ hpos]
    simp only [computeAdviceSelector, hsub, hindex, hguard, Option.bind_eq_bind, Option.bind_some,
      take_indexBits (Nat.sub_le r.length a), hshift]
    rw [scaleByBits_eq r (Nat.sub_le _ _) hq]
    rfl
  have hwords : (byteWords bytes).length ≤ 2 ^ a := by
    rw [length_byteWords]
    omega
  have hdrop : (r.drop (r.length - a)).length = a := by
    rw [List.length_drop]
    omega
  obtain ⟨words, hadvice⟩ := writeWords_isSome (byteWords bytes)
    (List.replicate (8 * 2 ^ a / 8) 0) 0 (by rw [List.length_replicate]; omega)
  have hmle := writeWords_mle (F := F) (r := r.drop (r.length - a)) hadvice
    (by rw [List.length_replicate, hdrop]; omega) (clear_replicate _ _ _)
  rw [wordsMle_replicate, zero_add] at hmle
  have hblock := sliceEval_block (F := F) (r.take (r.length - a)) (r.drop (r.length - a)) q (j := 0)
    (byteWords bytes) (by rw [hdrop]; omega)
  rw [List.take_append_drop, hdrop, Nat.add_zero] at hblock
  have hempty : bytes.isEmpty = false := by
    rw [List.isEmpty_eq_false_iff]
    exact hne
  simp only [adviceContribution, hregion, hempty, Bool.false_eq_true, if_false, hvars, hselector,
    advicePolynomial, populateMemoryStates, hadvice, Option.bind_eq_bind, Option.bind_some, hmle,
    hblock]

theorem adviceContribution_of_empty {programIo : JoltDevice} {kind : AdviceKind} {index : Nat}
    {r : List C} (hempty : (programIo.adviceRegion kind).1 = []) :
    adviceContribution programIo kind r =
      .some (sliceEval (intoPoint r : List F) index (byteWords (programIo.adviceRegion kind).1)) := by
  simp only [adviceContribution, hempty, List.isEmpty_nil, if_true]
  rfl

end Advice

/-! ## The initial state -/

/-- What `gen_ram_memory_states` wrote to the initial state, and where. -/
structure InitialWrites (ramK : Nat) (ram : RAMPreprocessing) (programIo : JoltDevice)
    (initial : List U64) where
  bytecode : Nat
  trusted : Nat
  untrusted : Nat
  inputs : Nat
  afterBytecode : List U64
  afterTrusted : List U64
  afterUntrusted : List U64
  bytecode_eq : remapped ram.minBytecodeAddress.toNat programIo.memoryLayout = .some bytecode
  trusted_eq : remapped programIo.memoryLayout.trustedAdviceStart programIo.memoryLayout =
    .some trusted
  untrusted_eq : remapped programIo.memoryLayout.untrustedAdviceStart programIo.memoryLayout =
    .some untrusted
  inputs_eq : remapped programIo.memoryLayout.inputStart programIo.memoryLayout = .some inputs
  inputs_fit : inputs + divCeil programIo.inputs.length 8 ≤ ramK
  writesBytecode : writeWords (List.replicate ramK 0) bytecode ram.bytecodeWords = .some afterBytecode
  writesTrusted : writeWords afterBytecode trusted (byteWords programIo.trustedAdvice) =
    .some afterTrusted
  writesUntrusted : writeWords afterTrusted untrusted (byteWords programIo.untrustedAdvice) =
    .some afterUntrusted
  writesInputs : writeWords afterUntrusted inputs (byteWords programIo.inputs) = .some initial

/-- What it wrote to the final state. -/
structure FinalWrites (ramK : Nat) (programIo : JoltDevice) (finalMemory : MemoryData) (final : List U64) where
  dramStart : Nat
  words : Nat
  trusted : Nat
  untrusted : Nat
  inputs : Nat
  outputs : Nat
  panic : Nat
  afterTrusted : List U64
  afterUntrusted : List U64
  afterInputs : List U64
  afterOutputs : List U64
  afterPanic : List U64
  dramStart_eq : remapped ramStartAddress programIo.memoryLayout = .some dramStart
  trusted_eq : remapped programIo.memoryLayout.trustedAdviceStart programIo.memoryLayout =
    .some trusted
  untrusted_eq : remapped programIo.memoryLayout.untrustedAdviceStart programIo.memoryLayout =
    .some untrusted
  inputs_eq : remapped programIo.memoryLayout.inputStart programIo.memoryLayout = .some inputs
  outputs_eq : remapped programIo.memoryLayout.outputStart programIo.memoryLayout = .some outputs
  panic_eq : remapped programIo.memoryLayout.panic programIo.memoryLayout = .some panic
  writesTrusted : writeWords (copyFinalMemory ramK dramStart words finalMemory) trusted
    (byteWords programIo.trustedAdvice) = .some afterTrusted
  writesUntrusted : writeWords afterTrusted untrusted (byteWords programIo.untrustedAdvice) =
    .some afterUntrusted
  writesInputs : writeWords afterUntrusted inputs (byteWords programIo.inputs) = .some afterInputs
  writesOutputs : writeWords afterInputs outputs (byteWords programIo.outputs) = .some afterOutputs
  writesPanic : setWord afterOutputs panic (if programIo.panic then 1 else 0) = .some afterPanic
  writesTermination : if programIo.panic then final = afterPanic else
    ∃ termination, remapped programIo.memoryLayout.termination programIo.memoryLayout = .some termination ∧
      setWord afterPanic termination 1 = .some final

theorem genRamMemoryStates_writes {ramK : Nat} {ram : RAMPreprocessing} {programIo : JoltDevice}
    {finalMemory : MemoryData} {initial final : List U64}
    (h : genRamMemoryStates ramK ram programIo finalMemory = .some (initial, final)) :
    Nonempty (InitialWrites ramK ram programIo initial) ∧
      Nonempty (FinalWrites ramK programIo finalMemory final) := by
  unfold genRamMemoryStates at h
  obtain ⟨bytecode, hbytecode, h⟩ := Option.bind_eq_some_iff.mp h
  obtain ⟨s0, hs0, h⟩ := Option.bind_eq_some_iff.mp h
  obtain ⟨dramStart, hdram, h⟩ := Option.bind_eq_some_iff.mp h
  obtain ⟨room, -, h⟩ := Option.bind_eq_some_iff.mp h
  obtain ⟨trusted, htrusted, h⟩ := Option.bind_eq_some_iff.mp h
  obtain ⟨_, -, h⟩ := Option.bind_eq_some_iff.mp h
  obtain ⟨s1, hs1, h⟩ := Option.bind_eq_some_iff.mp h
  obtain ⟨f1, hf1, h⟩ := Option.bind_eq_some_iff.mp h
  obtain ⟨untrusted, huntrusted, h⟩ := Option.bind_eq_some_iff.mp h
  obtain ⟨_, -, h⟩ := Option.bind_eq_some_iff.mp h
  obtain ⟨s2, hs2, h⟩ := Option.bind_eq_some_iff.mp h
  obtain ⟨f2, hf2, h⟩ := Option.bind_eq_some_iff.mp h
  obtain ⟨inputs, hinputs, h⟩ := Option.bind_eq_some_iff.mp h
  obtain ⟨_, hfit, h⟩ := Option.bind_eq_some_iff.mp h
  obtain ⟨s3, hs3, h⟩ := Option.bind_eq_some_iff.mp h
  obtain ⟨f3, hf3, h⟩ := Option.bind_eq_some_iff.mp h
  obtain ⟨outputs, houtputs, h⟩ := Option.bind_eq_some_iff.mp h
  obtain ⟨_, -, h⟩ := Option.bind_eq_some_iff.mp h
  obtain ⟨f4, hf4, h⟩ := Option.bind_eq_some_iff.mp h
  obtain ⟨panic, hpanic, h⟩ := Option.bind_eq_some_iff.mp h
  obtain ⟨f5, hf5, h⟩ := Option.bind_eq_some_iff.mp h
  obtain ⟨rfl, hfinal⟩ : s3 = initial ∧ if programIo.panic then final = f5 else
      ∃ termination, remapped programIo.memoryLayout.termination programIo.memoryLayout = .some termination ∧
        setWord f5 termination 1 = .some final := by
    dsimp only at h
    split_ifs at h ⊢ with hbit
    · cases h
      exact ⟨rfl, rfl⟩
    · obtain ⟨termination, htermination, h⟩ := Option.bind_eq_some_iff.mp h
      obtain ⟨f6, hf6, h⟩ := Option.bind_eq_some_iff.mp h
      cases h
      exact ⟨rfl, termination, htermination, hf6⟩
  exact ⟨⟨{
    bytecode, trusted, untrusted, inputs
    afterBytecode := s0
    afterTrusted := s1
    afterUntrusted := s2
    bytecode_eq := hbytecode
    trusted_eq := htrusted
    untrusted_eq := huntrusted
    inputs_eq := hinputs
    inputs_fit := (Option.guard_eq_some' _).mp hfit
    writesBytecode := hs0
    writesTrusted := hs1
    writesUntrusted := hs2
    writesInputs := hs3 }⟩, ⟨{
    dramStart, trusted, untrusted, inputs, outputs, panic
    words := min finalMemory.numDoublewords room
    afterTrusted := f1
    afterUntrusted := f2
    afterInputs := f3
    afterOutputs := f4
    afterPanic := f5
    dramStart_eq := hdram
    trusted_eq := htrusted
    untrusted_eq := huntrusted
    inputs_eq := hinputs
    outputs_eq := houtputs
    panic_eq := hpanic
    writesTrusted := hf1
    writesUntrusted := hf2
    writesInputs := hf3
    writesOutputs := hf4
    writesPanic := hf5
    writesTermination := hfinal }⟩⟩

/-- Where the regions lie, in words from the lowest address. -/
structure WordRegions (l : MemoryLayout) (trusted untrusted inputs dram : Nat) : Prop where
  advice_disjoint : trusted + l.maxTrustedAdviceSize / 8 ≤ untrusted ∨
    untrusted + l.maxUntrustedAdviceSize / 8 ≤ trusted
  trusted_le : trusted + l.maxTrustedAdviceSize / 8 ≤ inputs
  untrusted_le : untrusted + l.maxUntrustedAdviceSize / 8 ≤ inputs
  inputs_le : inputs + l.maxInputSize / 8 ≤ dram

theorem MemoryLayout.Placed.wordRegions {l : MemoryLayout} (h : l.Placed) :
    WordRegions l ((l.trustedAdviceStart - l.getLowestAddress) / 8)
      ((l.untrustedAdviceStart - l.getLowestAddress) / 8)
      ((l.inputStart - l.getLowestAddress) / 8)
      ((ramStartAddress - l.getLowestAddress) / 8) := by
  have hwf := h.wellFormed
  have hinputEnd := h.inputEnd_eq
  have ht8 := h.trusted_aligned
  have hu8 := h.untrusted_aligned
  have hi8 := h.input_aligned
  obtain ⟨hlow, hts, -, hus, -, his, -, ho, -, hp, htm, hio, -, hin, hout, hti, hui, hla, hle, -, -,
    -⟩ := hwf
  rcases h.advice_cases with ⟨-, ht, hu⟩ | ⟨-, hu, ht⟩ <;>
  · simp only [trustedAdviceRegion, untrustedAdviceRegion, Region.mk.injEq] at ht hu
    obtain ⟨hts', hte'⟩ := ht
    obtain ⟨hus', hue'⟩ := hu
    constructor <;> omega

section Main

variable {F C : Type} [JoltField F] [Challenge C F]

/-- An advice region in words, and what the advice in it contributes. -/
theorem adviceContribution_eq {programIo : JoltDevice} (kind : AdviceKind) {index : Nat} {r : List C}
    (hlength : (programIo.adviceRegion kind).1.length ≤ (programIo.adviceRegion kind).2.1)
    (hindex : remapped (programIo.adviceRegion kind).2.2 programIo.memoryLayout = .some index)
    (hend : index + (programIo.adviceRegion kind).2.1 / 8 ≤ 2 ^ r.length) :
    adviceContribution programIo kind r =
      .some (sliceEval (intoPoint r : List F) index
        (byteWords (programIo.adviceRegion kind).1)) := by
  by_cases hne : (programIo.adviceRegion kind).1 = []
  · exact adviceContribution_of_empty hne
  have hpos := List.length_pos_iff.mpr hne
  obtain ⟨config, hnew⟩ := programIo.laidOut
  have hplaced := MemoryLayout.new_placed hnew
  obtain ⟨-, hindex'⟩ := remapped_eq_some hindex
  obtain ⟨a, q, hsize, hq⟩ : ∃ a q, (programIo.adviceRegion kind).2.1 = 8 * 2 ^ a ∧
      index = q * 2 ^ a := by
    have haligned : ∀ {start size : Nat} (stop : Nat), (⟨start, stop⟩ : Region) ∈
        [programIo.memoryLayout.trustedAdviceRegion, programIo.memoryLayout.untrustedAdviceRegion] →
        stop = start + size → 0 < size → size % 8 = 0 → (isPowerOfTwo size ∨ size = 0) →
        ∃ a q, size = 8 * 2 ^ a ∧ (start - programIo.memoryLayout.getLowestAddress) / 8 = q * 2 ^ a := by
      intro start size stop hmem hstop hsize h8 hpow
      obtain ⟨a, ha⟩ := advice_size_eq h8 hpow hsize
      obtain ⟨-, hdvd⟩ := hplaced.advice_aligned hmem (by simp only; omega)
      have hdwords : Region.dwords ⟨start, stop⟩ = 2 ^ a := by
        simp only [Region.dwords]
        omega
      rw [hdwords] at hdvd
      obtain ⟨q, hq⟩ := hdvd
      exact ⟨a, q, ha, by rw [hq, Nat.mul_comm]⟩
    rw [hindex']
    rcases kind with _ | _
    · refine haligned programIo.memoryLayout.trustedAdviceEnd (List.mem_cons_self ..) ?_
        (hpos.trans_le hlength) hplaced.trusted_aligned hplaced.trusted_size
      rcases hplaced.advice_cases with ⟨-, ht, -⟩ | ⟨-, -, ht⟩ <;>
      · simp only [MemoryLayout.trustedAdviceRegion, Region.mk.injEq] at ht
        simp only [JoltDevice.adviceRegion]
        omega
    · refine haligned programIo.memoryLayout.untrustedAdviceEnd
        (List.mem_cons_of_mem _ (List.mem_cons_self ..)) ?_
        (hpos.trans_le hlength) hplaced.untrusted_aligned hplaced.untrusted_size
      rcases hplaced.advice_cases with ⟨-, -, hu⟩ | ⟨-, hu, -⟩ <;>
      · simp only [MemoryLayout.untrustedAdviceRegion, Region.mk.injEq] at hu
        simp only [JoltDevice.adviceRegion]
        omega
  subst hq
  refine adviceContribution_of_block ?_ hindex ?_ ?_ hne
  · rw [← hsize]
  · rwa [hsize, Nat.mul_div_cancel_left _ (by decide)] at hend
  · rwa [hsize] at hlength

/-- **The verifier evaluates the memory that the prover starts from**, where the program
lies in RAM. -/
theorem evalInitialRamMle_eq {n ramK minK : Nat} {ram : RAMPreprocessing} {programIo : JoltDevice}
    {finalMemory : MemoryData} {initial final : List U64} {r : List C}
    (hminK : computeMinRamK ram programIo.memoryLayout = .some minK) (hle : minK ≤ ramK)
    (hramK : ramK = 2 ^ n) (hr : r.length = n)
    (hram : ramStartAddress ≤ ram.minBytecodeAddress.toNat)
    (hinputs : programIo.inputs.length ≤ programIo.memoryLayout.maxInputSize)
    (htrusted : programIo.trustedAdvice.length ≤ programIo.memoryLayout.maxTrustedAdviceSize)
    (huntrusted : programIo.untrustedAdvice.length ≤ programIo.memoryLayout.maxUntrustedAdviceSize)
    (hgen : genRamMemoryStates ramK ram programIo finalMemory = .some (initial, final)) :
    ∃ pub trusted untrusted : F, evalInitialRamMle ram programIo r = .some pub ∧
      adviceContribution programIo .Trusted r = .some trusted ∧
      adviceContribution programIo .Untrusted r = .some untrusted ∧
      wordsMle initial r = pub + trusted + untrusted := by
  obtain ⟨w⟩ := (genRamMemoryStates_writes hgen).1
  obtain ⟨config, hnew⟩ := programIo.laidOut
  have hregions := (MemoryLayout.new_placed hnew).wordRegions
  have hwf := programIo.wellFormed
  obtain ⟨hblow, hb⟩ := remapped_eq_some w.bytecode_eq
  obtain ⟨-, ht⟩ := remapped_eq_some w.trusted_eq
  obtain ⟨-, hu⟩ := remapped_eq_some w.untrusted_eq
  obtain ⟨-, hi⟩ := remapped_eq_some w.inputs_eq
  rw [← ht, ← hu, ← hi] at hregions
  obtain ⟨hdisjoint, htle, hule, hile⟩ := hregions
  -- The program starts at the first word of RAM or above, and ends inside the memory.
  have hdram : (ramStartAddress - programIo.memoryLayout.getLowestAddress) / 8 ≤ w.bytecode := by
    rw [hb]
    exact Nat.div_le_div_right (Nat.sub_le_sub_right hram _)
  have hends : w.bytecode + ram.bytecodeWords.length ≤ ramK ∧
      (ramStartAddress - programIo.memoryLayout.getLowestAddress) / 8 ≤ ramK := by
    unfold computeMinRamK at hminK
    obtain ⟨start, hstart, hminK⟩ := Option.bind_eq_some_iff.mp hminK
    obtain ⟨io, hio, hminK⟩ := Option.bind_eq_some_iff.mp hminK
    have hstart' : start = .some w.bytecode := by
      have hjoin := w.bytecode_eq
      rw [remapped, hstart] at hjoin
      exact hjoin
    have hio' : io = .some ((ramStartAddress - programIo.memoryLayout.getLowestAddress) / 8) := by
      have hlow := hwf.lowest_add_le
      rw [remapAddress, if_neg (by decide), if_pos (by
        simp only [MemoryLayout.getLowestAddress] at hlow
        omega)] at hio
      exact (Option.some.inj hio).symm
    rw [hstart', hio'] at hminK
    have hpow := le_nextPowerOfTwo (max (w.bytecode + ram.bytecodeWords.length)
      ((ramStartAddress - programIo.memoryLayout.getLowestAddress) / 8))
    have hminK' := Option.some.inj hminK
    simp only [Option.getD_some] at hminK'
    omega
  obtain ⟨hbend, hdend⟩ := hends
  have htwords := length_byteWords programIo.trustedAdvice
  have huwords := length_byteWords programIo.untrustedAdvice
  have hiwords := length_byteWords programIo.inputs
  have hplaced := MemoryLayout.new_placed hnew
  have ht8 := hplaced.trusted_aligned
  have hu8 := hplaced.untrusted_aligned
  have hi8 := hplaced.input_aligned
  -- What each write leaves clear for the ones after it.
  obtain ⟨hlen0, hframe0⟩ := writeWords_frame w.writesBytecode
  obtain ⟨hlen1, hframe1⟩ := writeWords_frame w.writesTrusted
  obtain ⟨hlen2, hframe2⟩ := writeWords_frame w.writesUntrusted
  rw [List.length_replicate] at hlen0
  have hclear0 : ∀ a b, b ≤ (ramStartAddress - programIo.memoryLayout.getLowestAddress) / 8 →
      Clear w.afterBytecode a b :=
    fun a b hab => hframe0 a b (.inl (hab.trans hdram)) (clear_replicate _ _ _)
  have hclear1 : Clear w.afterTrusted w.untrusted
      (w.untrusted + (byteWords programIo.untrustedAdvice).length) :=
    hframe1 _ _ (by omega) (hclear0 _ _ (by omega))
  have hclear2 : Clear w.afterUntrusted w.inputs
      (w.inputs + (byteWords programIo.inputs).length) :=
    hframe2 _ _ (by omega) (hframe1 _ _ (by omega) (hclear0 _ _ (by omega)))
  have hmle0 := writeWords_mle (F := F) (r := r) w.writesBytecode
    (by rw [List.length_replicate, hramK, hr]) (clear_replicate _ _ _)
  have hmle1 := writeWords_mle (F := F) (r := r) w.writesTrusted (by rw [hlen0, hramK, hr])
    (hclear0 _ _ (by omega))
  have hmle2 := writeWords_mle (F := F) (r := r) w.writesUntrusted (by rw [hlen1, hlen0, hramK, hr])
    hclear1
  have hmle3 := writeWords_mle (F := F) (r := r) w.writesInputs
    (by rw [hlen2, hlen1, hlen0, hramK, hr]) hclear2
  rw [wordsMle_replicate, zero_add] at hmle0
  have hpublic : evalInitialRamMle ram programIo r = .some
      (sliceEval (intoPoint r : List F) w.bytecode ram.bytecodeWords +
        sliceEval (intoPoint r) w.inputs (byteWords programIo.inputs)) := by
    have hbytecode := sparseEvalU64Block_eq (F := F) r w.bytecode
      ram.bytecodeWords (by rw [hr, ← hramK]; exact hbend)
    have hinput := sparseEvalU64Block_eq (F := F) r w.inputs
      (byteWords programIo.inputs) (by rw [hr, ← hramK]; omega)
    by_cases hempty : programIo.inputs = []
    · simp only [evalInitialRamMle, w.bytecode_eq, hbytecode, hempty, List.isEmpty_nil, if_true,
        Option.bind_eq_bind, Option.bind_some]
      refine congrArg _ ?_
      rw [show byteWords [] = [] from rfl, sliceEval, add_zero, intoPoint]
    · have hisEmpty : programIo.inputs.isEmpty = false := by
        rw [List.isEmpty_eq_false_iff]
        exact hempty
      simp only [evalInitialRamMle, w.bytecode_eq, hbytecode, hisEmpty, Bool.false_eq_true,
        if_false, w.inputs_eq, hinput, Option.bind_eq_bind, Option.bind_some, intoPoint]
  refine ⟨_, _, _, hpublic, adviceContribution_eq .Trusted htrusted w.trusted_eq ?_,
    adviceContribution_eq .Untrusted huntrusted w.untrusted_eq ?_, ?_⟩
  · rw [hr, ← hramK]
    exact htle.trans (by omega)
  · rw [hr, ← hramK]
    exact hule.trans (by omega)
  · rw [hmle3, hmle2, hmle1, hmle0]
    simp only [JoltDevice.adviceRegion]
    ring

end Main

/-! ## Two programs -/

section Programs

open JoltVerifier

set_option maxRecDepth 20000 in
theorem evalInitialRamMle_eq_small :
    ∃ (programIo : JoltDevice) (pub trusted untrusted : Fr), evalInitialRamMle
        { minBytecodeAddress := 0x80000000, bytecodeWords := [0x13] } programIo
        ([3, 5, 7] : List Fr) = .some pub ∧
      adviceContribution programIo .Trusted ([3, 5, 7] : List Fr) = .some trusted ∧
      adviceContribution programIo .Untrusted ([3, 5, 7] : List Fr) = .some untrusted ∧
      wordsMle [7, 0, 0, 0, 0x13, 0, 0, 0] ([3, 5, 7] : List Fr) = pub + trusted + untrusted :=
  ⟨smallDevice 8 rfl, @evalInitialRamMle_eq Fr Fr _ _ 3 8 8 _ _ .empty _
    [7, 9, 0, 1, 0, 0, 0, 0] _ (by decide) (by decide) (by decide)
    rfl (by decide) (by decide) (by decide) (by decide) (by decide)⟩

set_option maxRecDepth 20000 in
/-- A program at the address of the inputs: the state holds the word written last, and the
sum holds both. -/
theorem program_over_inputs :
    ∃ (ram : RAMPreprocessing) (programIo : JoltDevice) (final : List U64) (r : List Fr),
      computeMinRamK ram programIo.memoryLayout = .some 4 ∧ r.length = 2 ∧
      programIo.inputs.length ≤ programIo.memoryLayout.maxInputSize ∧
      programIo.trustedAdvice.length ≤ programIo.memoryLayout.maxTrustedAdviceSize ∧
      programIo.untrustedAdvice.length ≤ programIo.memoryLayout.maxUntrustedAdviceSize ∧
      genRamMemoryStates 4 ram programIo .empty = .some ([7, 0, 0, 0], final) ∧
      (evalInitialRamMle ram programIo r : Option Fr) = .some 8 ∧
      (adviceContribution programIo .Trusted r : Option Fr) = .some 0 ∧
      (adviceContribution programIo .Untrusted r : Option Fr) = .some 0 ∧
      (wordsMle [7, 0, 0, 0] r : Fr) ≠ 8 + 0 + 0 :=
  ⟨{ minBytecodeAddress := 0x7fffffe0, bytecodeWords := [1, 0] }, smallDevice 8 rfl, [7, 9, 0, 1],
    [0, 0], by decide, rfl, by decide, by decide, by decide, by decide, by decide, rfl, rfl,
    by decide⟩

end Programs

end LightningJolt
