/-
What the verifier absorbs before its first challenge: the preamble
(`jolt-core/src/zkvm/mod.rs`), then the commitments (`verifier.rs`). The bytes
determine what they were made from; the configurations of the proof are not
among it.
-/
import LightningJolt.KeccakTranscript
import LightningJolt.Layout
import LightningJolt.RlcMatrix
import LightningJolt.StagePoints

namespace LightningJolt

/-! ## The proof -/

/-- `ReadWriteConfig`. -/
structure ReadWriteConfig where
  ramRwPhase1NumRounds : U8
  ramRwPhase2NumRounds : U8
  registersRwPhase1NumRounds : U8
  registersRwPhase2NumRounds : U8
deriving DecidableEq

/-- `validate`; seven is the logarithm of `REGISTER_COUNT`. -/
def ReadWriteConfig.validate (c : ReadWriteConfig) (logT ramLogK : Nat) : Bool :=
  c.ramRwPhase1NumRounds.toNat ≤ logT ∧ c.ramRwPhase2NumRounds.toNat ≤ ramLogK ∧
    c.registersRwPhase1NumRounds.toNat ≤ logT ∧ c.registersRwPhase2NumRounds.toNat ≤ 7

/-- What `JoltVerifier::new` and the absorption read of a proof. -/
structure JoltProof (K : Type) where
  commitments : List K
  untrustedAdviceCommitment : Option K
  traceLength : U64
  ramK : U64
  rwConfig : ReadWriteConfig
  oneHotConfig : OneHotConfig

structure RAMPreprocessing where
  minBytecodeAddress : U64
  bytecodeWords : List U64

/-- What they read of the preprocessing. -/
structure JoltVerifierPreprocessing where
  memoryLayout : MemoryLayout
  ram : RAMPreprocessing
  codeSize : Nat
  entryAddress : U64

/-- `compute_min_ram_K`. -/
def computeMinRamK (ram : RAMPreprocessing) (layout : MemoryLayout) : Option Nat := do
  let bytecodeStart ← remapAddress ram.minBytecodeAddress.toNat layout
  let bytecodeEnd := bytecodeStart.getD 0 + ram.bytecodeWords.length
  let ioEnd ← remapAddress ramStartAddress layout
  .some (nextPowerOfTwo (max bytecodeEnd (ioEnd.getD 0)))

deriving instance DecidableEq for MemoryLayout

structure JoltVerifier (K : Type) where
  trustedAdviceCommitment : Option K
  programIo : JoltDevice
  proof : JoltProof K
  preprocessing : JoltVerifierPreprocessing

namespace JoltVerifier

variable {K : Type}

/-- `JoltVerifier::new`, its errors and panics as none. -/
def new (preprocessing : JoltVerifierPreprocessing) (proof : JoltProof K) (programIo : JoltDevice)
    (trustedAdviceCommitment : Option K) : Option (JoltVerifier K) := do
  guard (programIo.memoryLayout = preprocessing.memoryLayout)
  guard (programIo.inputs.length ≤ preprocessing.memoryLayout.maxInputSize)
  guard (programIo.outputs.length ≤ preprocessing.memoryLayout.maxOutputSize)
  -- Trailing zeros of the outputs are cut off.
  let programIo := { programIo with outputs := programIo.outputs.rdropWhile (· = 0) }
  let logT ← log2 proof.traceLength.toNat
  -- The next power of two is beyond a `usize` otherwise, and the key asserts it.
  guard (proof.traceLength.toNat ≤ 2 ^ 63)
  guard proof.oneHotConfig.validate
  let minRamK ← computeMinRamK preprocessing.ram preprocessing.memoryLayout
  guard (isPowerOfTwo proof.ramK.toNat ∧ minRamK ≤ proof.ramK.toNat)
  let ramLogK ← log2 proof.ramK.toNat
  guard (proof.rwConfig.validate logT ramLogK)
  let _ ← OneHotParams.fromConfig proof.oneHotConfig preprocessing.codeSize proof.ramK.toNat
  .some { trustedAdviceCommitment, programIo, proof, preprocessing }

end JoltVerifier

/-! ## The absorption -/

namespace Labels

/-- `"max_input_size"`. -/
def maxInputSize : List U8 := [109, 97, 120, 95, 105, 110, 112, 117, 116, 95, 115, 105, 122, 101]

/-- `"max_output_size"`. -/
def maxOutputSize : List U8 :=
  [109, 97, 120, 95, 111, 117, 116, 112, 117, 116, 95, 115, 105, 122, 101]

/-- `"heap_size"`. -/
def heapSize : List U8 := [104, 101, 97, 112, 95, 115, 105, 122, 101]

/-- `"inputs"`. -/
def inputs : List U8 := [105, 110, 112, 117, 116, 115]

/-- `"outputs"`. -/
def outputs : List U8 := [111, 117, 116, 112, 117, 116, 115]

/-- `"panic"`. -/
def panic : List U8 := [112, 97, 110, 105, 99]

/-- `"ram_K"`. -/
def ramK : List U8 := [114, 97, 109, 95, 75]

/-- `"trace_length"`. -/
def traceLength : List U8 := [116, 114, 97, 99, 101, 95, 108, 101, 110, 103, 116, 104]

/-- `"entry_address"`. -/
def entryAddress : List U8 := [101, 110, 116, 114, 121, 95, 97, 100, 100, 114, 101, 115, 115]

/-- `"commitment"`. -/
def commitment : List U8 := [99, 111, 109, 109, 105, 116, 109, 101, 110, 116]

/-- `"untrusted_advice"`. -/
def untrustedAdvice : List U8 :=
  [117, 110, 116, 114, 117, 115, 116, 101, 100, 95, 97, 100, 118, 105, 99, 101]

/-- `"trusted_advice"`. -/
def trustedAdvice : List U8 := [116, 114, 117, 115, 116, 101, 100, 95, 97, 100, 118, 105, 99, 101]

end Labels

/-- `serialize_uncompressed` of the commitments, which deserialization undoes; a
vector holds the bytes. -/
structure CommitmentBytes (K : Type) where
  bytes : K → List U8
  bytes_lt : ∀ c, (bytes c).length < 2 ^ 63
  injective : Function.Injective bytes

section Absorption

variable (keccak : Keccak256) {K : Type} (ser : CommitmentBytes K)

/-- `append_serializable`, of the serialized bytes. -/
def KeccakTranscript.appendSerializable (label buf : List U8) (t : KeccakTranscript) :
    Option KeccakTranscript := do
  let t ← t.rawAppendLabelWithLen keccak label buf.length
  pure (t.rawAppendBytes keccak buf.reverse)

/-- `fiat_shamir_preamble`. -/
def fiatShamirPreamble (programIo : JoltDevice) (ramK traceLength entryAddress : U64)
    (t : KeccakTranscript) : Option KeccakTranscript := do
  let layout := programIo.memoryLayout
  let t ← t.appendU64 keccak Labels.maxInputSize (BitVec.ofNat 64 layout.maxInputSize)
  let t ← t.appendU64 keccak Labels.maxOutputSize (BitVec.ofNat 64 layout.maxOutputSize)
  let t ← t.appendU64 keccak Labels.heapSize (BitVec.ofNat 64 layout.heapSize)
  let t ← t.appendBytes keccak Labels.inputs programIo.inputs
  let t ← t.appendBytes keccak Labels.outputs programIo.outputs
  let t ← t.appendU64 keccak Labels.panic (if programIo.panic then 1 else 0)
  let t ← t.appendU64 keccak Labels.ramK ramK
  let t ← t.appendU64 keccak Labels.traceLength traceLength
  t.appendU64 keccak Labels.entryAddress entryAddress

namespace JoltVerifier

/-- `verify`, up to its first challenge. -/
def absorb (v : JoltVerifier K) (t : KeccakTranscript) : Option KeccakTranscript := do
  let t ← fiatShamirPreamble keccak v.programIo v.proof.ramK v.proof.traceLength
    v.preprocessing.entryAddress t
  let t ← v.proof.commitments.foldlM
    (fun t c => t.appendSerializable keccak Labels.commitment (ser.bytes c)) t
  let t ← v.proof.untrustedAdviceCommitment.toList.foldlM
    (fun t c => t.appendSerializable keccak Labels.untrustedAdvice (ser.bytes c)) t
  v.trustedAdviceCommitment.toList.foldlM
    (fun t c => t.appendSerializable keccak Labels.trustedAdvice (ser.bytes c)) t

end JoltVerifier

end Absorption

/-! ## The absorbed bytes -/

section Messages

/-- The two words of `append_u64`. -/
def u64Messages (label : List U8) (x : U64) : List (List U8) :=
  [KeccakTranscript.padded 32 label, List.replicate 24 0 ++ beBytes 8 x.toNat]

/-- The header of a byte string, and the bytes. -/
def bytesMessages (label bytes : List U8) : List (List U8) :=
  [KeccakTranscript.padded 24 label ++ beBytes 8 bytes.length, bytes]

variable {K : Type} (ser : CommitmentBytes K) (v : JoltVerifier K)

namespace JoltVerifier

/-- The labelled byte strings of the commitments. -/
def items : List (List U8 × List U8) :=
  v.proof.commitments.map (fun c => (Labels.commitment, (ser.bytes c).reverse)) ++
    (v.proof.untrustedAdviceCommitment.toList.map
      (fun c => (Labels.untrustedAdvice, (ser.bytes c).reverse)) ++
    v.trustedAdviceCommitment.toList.map
      (fun c => (Labels.trustedAdvice, (ser.bytes c).reverse)))

def preambleMessages : List (List U8) :=
  u64Messages Labels.maxInputSize (BitVec.ofNat 64 v.programIo.memoryLayout.maxInputSize) ++
  (u64Messages Labels.maxOutputSize (BitVec.ofNat 64 v.programIo.memoryLayout.maxOutputSize) ++
  (u64Messages Labels.heapSize (BitVec.ofNat 64 v.programIo.memoryLayout.heapSize) ++
  (bytesMessages Labels.inputs v.programIo.inputs ++
  (bytesMessages Labels.outputs v.programIo.outputs ++
  (u64Messages Labels.panic (if v.programIo.panic then 1 else 0) ++
  (u64Messages Labels.ramK v.proof.ramK ++
  (u64Messages Labels.traceLength v.proof.traceLength ++
  u64Messages Labels.entryAddress v.preprocessing.entryAddress)))))))

/-- What is absorbed, one string a hash. -/
def messages : List (List U8) :=
  v.preambleMessages ++ (v.items ser).flatMap fun item => bytesMessages item.1 item.2

/-- The bytes absorbed before the first challenge. -/
def absorbed : List U8 := (v.messages ser).flatten

end JoltVerifier

end Messages

/-! ## The transcript absorbs them -/

section Absorbs

variable (keccak : Keccak256)

/-- A hash for each string. -/
def absorbAll (messages : List (List U8)) (t : KeccakTranscript) : KeccakTranscript :=
  messages.foldl (fun t bytes => t.rawAppendBytes keccak bytes) t

theorem absorbAll_append (xs ys : List (List U8)) (t : KeccakTranscript) :
    absorbAll keccak (xs ++ ys) t = absorbAll keccak ys (absorbAll keccak xs t) :=
  List.foldl_append

theorem appendU64_eq {l : List U8} (h : l.length < 33) (x : U64) (t : KeccakTranscript) :
    t.appendU64 keccak l x = .some (absorbAll keccak (u64Messages l x) t) := by
  simp only [KeccakTranscript.appendU64, KeccakTranscript.rawAppendLabel, if_pos h]
  rfl

theorem appendBytes_eq {l : List U8} (h : l.length ≤ 24) (bs : List U8) (t : KeccakTranscript) :
    t.appendBytes keccak l bs = .some (absorbAll keccak (bytesMessages l bs) t) := by
  simp only [KeccakTranscript.appendBytes, KeccakTranscript.rawAppendLabelWithLen, if_pos h]
  rfl

/-- Serialized values of one label, one after the other. -/
theorem appendSerializables_eq {K : Type} {l : List U8} (h : l.length ≤ 24) (f : K → List U8)
    (cs : List K) (t : KeccakTranscript) :
    cs.foldlM (fun t c => t.appendSerializable keccak l (f c)) t =
      .some (absorbAll keccak ((cs.map fun c => (l, (f c).reverse)).flatMap fun item =>
        bytesMessages item.1 item.2) t) := by
  induction cs generalizing t with
  | nil => rfl
  | cons c cs ih =>
    have hone : t.appendSerializable keccak l (f c) =
        .some (absorbAll keccak (bytesMessages l (f c).reverse) t) := by
      simp only [KeccakTranscript.appendSerializable, KeccakTranscript.rawAppendLabelWithLen,
        if_pos h, bytesMessages, List.length_reverse]
      rfl
    rw [List.foldlM_cons, hone, List.map_cons, List.flatMap_cons, absorbAll_append]
    exact ih _

end Absorbs

/-! ## Reading them back -/

section Injective

theorem beBytes_inj {n x y : Nat} (hx : x < 256 ^ n) (hy : y < 256 ^ n)
    (h : beBytes n x = beBytes n y) : x = y := by
  rw [← ofBe_beBytes hx, h, ofBe_beBytes hy]

theorem length_paddedLabel {width : Nat} {label : List U8} (h : label.length ≤ width) :
    (KeccakTranscript.padded width label).length = width := by
  rw [KeccakTranscript.padded, List.length_append, List.length_replicate]
  omega

/-- A word of eight bytes, with what follows it. -/
theorem u64Messages_inj {label : List U8} {x y : U64} {rest rest' : List U8}
    (h : (u64Messages label x).flatten ++ rest = (u64Messages label y).flatten ++ rest') :
    x = y ∧ rest = rest' := by
  simp only [u64Messages, List.flatten_cons, List.flatten_nil, List.append_nil, List.append_assoc,
    List.append_cancel_left_eq] at h
  obtain ⟨hword, hrest⟩ := List.append_inj h (by rw [length_beBytes, length_beBytes])
  exact ⟨BitVec.eq_of_toNat_eq (beBytes_inj x.isLt y.isLt hword), hrest⟩

/-- A labelled byte string, with what follows it: its header gives the length. -/
theorem bytesMessages_inj {label label' bs bs' : List U8} {rest rest' : List U8}
    (hlabel : label.length ≤ 24) (hlabel' : label'.length ≤ 24)
    (hlt : bs.length < 2 ^ 64) (hlt' : bs'.length < 2 ^ 64)
    (h : (bytesMessages label bs).flatten ++ rest = (bytesMessages label' bs').flatten ++ rest') :
    KeccakTranscript.padded 24 label = KeccakTranscript.padded 24 label' ∧ bs = bs' ∧
      rest = rest' := by
  simp only [bytesMessages, List.flatten_cons, List.flatten_nil, List.append_nil,
    List.append_assoc] at h
  obtain ⟨hpadded, h⟩ := List.append_inj h (by rw [length_paddedLabel hlabel, length_paddedLabel hlabel'])
  obtain ⟨hlength, h⟩ := List.append_inj h (by rw [length_beBytes, length_beBytes])
  obtain ⟨hbytes, hrest⟩ := List.append_inj h (beBytes_inj hlt hlt' hlength)
  exact ⟨hpadded, hbytes, hrest⟩

/-- A string that a header can announce. -/
def Announced (item : List U8 × List U8) : Prop := item.1.length ≤ 24 ∧ item.2.length < 2 ^ 64

/-- The padded label and the bytes of an item. -/
def announcement (item : List U8 × List U8) : List U8 × List U8 :=
  (KeccakTranscript.padded 24 item.1, item.2)

theorem bytesMessages_ne_nil {label bs rest : List U8} (hlabel : label.length ≤ 24) :
    (bytesMessages label bs).flatten ++ rest ≠ [] := by
  intro h
  have hlength := congrArg List.length h
  simp only [bytesMessages, List.flatten_cons, List.flatten_nil, List.append_nil,
    List.append_assoc, List.length_append, length_paddedLabel hlabel, List.length_nil] at hlength
  omega

/-- Sequences of labelled byte strings are read back one by one. -/
theorem announcements_inj {xs ys : List (List U8 × List U8)} (hxs : ∀ x ∈ xs, Announced x)
    (hys : ∀ y ∈ ys, Announced y)
    (h : (xs.flatMap fun x => bytesMessages x.1 x.2).flatten =
      (ys.flatMap fun y => bytesMessages y.1 y.2).flatten) :
    xs.map announcement = ys.map announcement := by
  induction xs generalizing ys with
  | nil =>
    cases ys with
    | nil => rfl
    | cons y ys =>
      rw [List.flatMap_cons, List.flatten_append] at h
      exact absurd h.symm (bytesMessages_ne_nil (hys y List.mem_cons_self).1)
  | cons x xs ih =>
    cases ys with
    | nil =>
      rw [List.flatMap_cons, List.flatten_append] at h
      exact absurd h (bytesMessages_ne_nil (hxs x List.mem_cons_self).1)
    | cons y ys =>
      rw [List.flatMap_cons, List.flatMap_cons, List.flatten_append, List.flatten_append] at h
      obtain ⟨hx, hxs⟩ := List.forall_mem_cons.mp hxs
      obtain ⟨hy, hys⟩ := List.forall_mem_cons.mp hys
      obtain ⟨hlabel, hbytes, hrest⟩ := bytesMessages_inj hx.1 hy.1 hx.2 hy.2 h
      rw [List.map_cons, List.map_cons, ih hxs hys hrest, announcement, announcement, hlabel, hbytes]

end Injective

/-! ## What the absorption binds -/

section Binding

variable {K : Type} {ser : CommitmentBytes K}

/-- The labels of one label's items. -/
def ofLabel (label : List U8) (item : List U8 × List U8) : Option (List U8) :=
  if item.1 = KeccakTranscript.padded 24 label then .some item.2 else .none

theorem toList_inj {a b : Option K} (h : a.toList = b.toList) : a = b := by
  cases a <;> cases b <;> simp_all

theorem filterMap_ofLabel (label label' : List U8) (cs : List K) (f : K → List U8) :
    ((cs.map fun c => (label', f c)).map announcement).filterMap (ofLabel label) =
      if KeccakTranscript.padded 24 label' = KeccakTranscript.padded 24 label then cs.map f
      else [] := by
  induction cs with
  | nil => simp
  | cons c cs ih =>
    simp only [List.map_cons, List.filterMap_cons, ofLabel, announcement] at ih ⊢
    split_ifs at ih ⊢ with h
    · rw [ih]
    · exact ih

namespace JoltVerifier

/-- The same in what is absorbed. -/
structure SameStatement (v v' : JoltVerifier K) : Prop where
  maxInputSize : v.programIo.memoryLayout.maxInputSize = v'.programIo.memoryLayout.maxInputSize
  maxOutputSize : v.programIo.memoryLayout.maxOutputSize = v'.programIo.memoryLayout.maxOutputSize
  heapSize : v.programIo.memoryLayout.heapSize = v'.programIo.memoryLayout.heapSize
  inputs : v.programIo.inputs = v'.programIo.inputs
  outputs : v.programIo.outputs = v'.programIo.outputs
  panic : v.programIo.panic = v'.programIo.panic
  ramK : v.proof.ramK = v'.proof.ramK
  traceLength : v.proof.traceLength = v'.proof.traceLength
  entryAddress : v.preprocessing.entryAddress = v'.preprocessing.entryAddress
  commitments : v.proof.commitments = v'.proof.commitments
  untrustedAdvice : v.proof.untrustedAdviceCommitment = v'.proof.untrustedAdviceCommitment
  trustedAdvice : v.trustedAdviceCommitment = v'.trustedAdviceCommitment

/-- The lengths that the headers announce fit them. -/
structure Short (v : JoltVerifier K) : Prop where
  maxInputSize : v.programIo.memoryLayout.maxInputSize < 2 ^ 64
  maxOutputSize : v.programIo.memoryLayout.maxOutputSize < 2 ^ 64
  heapSize : v.programIo.memoryLayout.heapSize < 2 ^ 64
  inputs : v.programIo.inputs.length < 2 ^ 64
  outputs : v.programIo.outputs.length < 2 ^ 64

/-- An accepted proof's device keeps to its layout. -/
theorem short_of_new {preprocessing : JoltVerifierPreprocessing} {proof : JoltProof K}
    {programIo : JoltDevice} {trusted : Option K} {v : JoltVerifier K}
    (h : new preprocessing proof programIo trusted = .some v) : v.Short := by
  unfold new at h
  obtain ⟨_, hlayout, h⟩ := Option.bind_eq_some_iff.mp h
  obtain ⟨_, hinputs, h⟩ := Option.bind_eq_some_iff.mp h
  obtain ⟨_, houtputs, h⟩ := Option.bind_eq_some_iff.mp h
  obtain ⟨_, -, h⟩ := Option.bind_eq_some_iff.mp h
  obtain ⟨_, -, h⟩ := Option.bind_eq_some_iff.mp h
  obtain ⟨_, -, h⟩ := Option.bind_eq_some_iff.mp h
  obtain ⟨_, -, h⟩ := Option.bind_eq_some_iff.mp h
  obtain ⟨_, -, h⟩ := Option.bind_eq_some_iff.mp h
  obtain ⟨_, -, h⟩ := Option.bind_eq_some_iff.mp h
  obtain ⟨_, -, h⟩ := Option.bind_eq_some_iff.mp h
  obtain ⟨_, -, h⟩ := Option.bind_eq_some_iff.mp h
  cases h
  simp only [Option.guard_eq_some'] at hlayout hinputs houtputs
  obtain ⟨config, hconfig⟩ := programIo.laidOut
  have hplaced := MemoryLayout.new_placed hconfig
  have hsizes := hplaced.sizes_lt
  have hheap := hplaced.heapSize_le
  have hend := hplaced.heapEnd_lt
  have hcut : (programIo.outputs.rdropWhile (· = 0)).length ≤ programIo.outputs.length :=
    (List.rdropWhile_prefix _ _).length_le
  rw [← hlayout] at hinputs houtputs
  exact {
    maxInputSize := by simp only; omega
    maxOutputSize := by simp only; omega
    heapSize := by simp only; omega
    inputs := by simp only; omega
    outputs := by simp only; omega }

theorem announced_items (v : JoltVerifier K) : ∀ item ∈ v.items ser, Announced item := by
  have hbytes : ∀ c, (ser.bytes c).reverse.length < 2 ^ 64 := by
    intro c
    have hlt := ser.bytes_lt c
    rw [List.length_reverse]
    omega
  intro item hitem
  simp only [items, List.mem_append, List.mem_map] at hitem
  rcases hitem with ⟨c, -, rfl⟩ | ⟨c, -, rfl⟩ | ⟨c, -, rfl⟩ <;>
    exact ⟨Nat.le_of_ble_eq_true rfl, hbytes c⟩

theorem items_inj {v v' : JoltVerifier K}
    (h : (v.items ser).map announcement = (v'.items ser).map announcement) :
    v.proof.commitments = v'.proof.commitments ∧
      v.proof.untrustedAdviceCommitment = v'.proof.untrustedAdviceCommitment ∧
      v.trustedAdviceCommitment = v'.trustedAdviceCommitment := by
  have hinjective : Function.Injective fun c => (ser.bytes c).reverse :=
    List.reverse_injective.comp ser.injective
  have hof := fun label => congrArg (List.filterMap (ofLabel label)) h
  simp only [items, List.map_append, List.filterMap_append, filterMap_ofLabel] at hof
  have hcommitment := hof Labels.commitment
  have huntrusted := hof Labels.untrustedAdvice
  have htrusted := hof Labels.trustedAdvice
  have h1 : KeccakTranscript.padded 24 Labels.untrustedAdvice ≠
      KeccakTranscript.padded 24 Labels.commitment := by decide
  have h2 : KeccakTranscript.padded 24 Labels.trustedAdvice ≠
      KeccakTranscript.padded 24 Labels.commitment := by decide
  have h3 : KeccakTranscript.padded 24 Labels.trustedAdvice ≠
      KeccakTranscript.padded 24 Labels.untrustedAdvice := by decide
  simp only [if_true, if_neg h1, if_neg h2, if_neg h1.symm, if_neg h2.symm, if_neg h3,
    if_neg h3.symm, List.append_nil, List.nil_append] at hcommitment huntrusted htrusted
  refine ⟨List.map_injective_iff.mpr hinjective hcommitment, ?_, ?_⟩
  · exact toList_inj (List.map_injective_iff.mpr hinjective huntrusted)
  · exact toList_inj (List.map_injective_iff.mpr hinjective htrusted)

theorem ofNat_inj {m n : Nat} (hm : m < 2 ^ 64) (hn : n < 2 ^ 64)
    (h : BitVec.ofNat 64 m = BitVec.ofNat 64 n) : m = n := by
  have hvalue := congrArg BitVec.toNat h
  rwa [BitVec.toNat_ofNat, BitVec.toNat_ofNat, Nat.mod_eq_of_lt hm, Nat.mod_eq_of_lt hn] at hvalue

theorem sameStatement_of_absorbed {v v' : JoltVerifier K} (hv : v.Short) (hv' : v'.Short)
    (h : v.absorbed ser = v'.absorbed ser) : v.SameStatement v' := by
  simp only [absorbed, messages, preambleMessages, List.flatten_append, List.append_assoc] at h
  obtain ⟨hinput, h⟩ := u64Messages_inj h
  obtain ⟨houtput, h⟩ := u64Messages_inj h
  obtain ⟨hheap, h⟩ := u64Messages_inj h
  obtain ⟨-, hinputs, h⟩ := bytesMessages_inj (by decide) (by decide) hv.inputs hv'.inputs h
  obtain ⟨-, houtputs, h⟩ := bytesMessages_inj (by decide) (by decide) hv.outputs hv'.outputs h
  obtain ⟨hpanic, h⟩ := u64Messages_inj h
  obtain ⟨hramK, h⟩ := u64Messages_inj h
  obtain ⟨htrace, h⟩ := u64Messages_inj h
  obtain ⟨hentry, h⟩ := u64Messages_inj h
  obtain ⟨hcommitments, huntrusted, htrusted⟩ :=
    items_inj (announcements_inj v.announced_items v'.announced_items h)
  have hflag : v.programIo.panic = v'.programIo.panic := by
    revert hpanic
    cases v.programIo.panic <;> cases v'.programIo.panic <;> decide
  exact {
    maxInputSize := ofNat_inj hv.maxInputSize hv'.maxInputSize hinput
    maxOutputSize := ofNat_inj hv.maxOutputSize hv'.maxOutputSize houtput
    heapSize := ofNat_inj hv.heapSize hv'.heapSize hheap
    inputs := hinputs
    outputs := houtputs
    panic := hflag
    ramK := hramK
    traceLength := htrace
    entryAddress := hentry
    commitments := hcommitments
    untrustedAdvice := huntrusted
    trustedAdvice := htrusted }

theorem SameStatement.absorbed {v v' : JoltVerifier K} (h : v.SameStatement v') :
    v.absorbed ser = v'.absorbed ser := by
  simp only [JoltVerifier.absorbed, messages, preambleMessages, items, h.maxInputSize,
    h.maxOutputSize, h.heapSize, h.inputs, h.outputs, h.panic, h.ramK, h.traceLength,
    h.entryAddress, h.commitments, h.untrustedAdvice, h.trustedAdvice]

/-- `verify` absorbs the messages, in their order. -/
theorem absorb_eq (keccak : Keccak256) (v : JoltVerifier K) (t : KeccakTranscript) :
    v.absorb keccak ser t = .some (absorbAll keccak (v.messages ser) t) := by
  simp only [absorb, fiatShamirPreamble, messages, preambleMessages, items, Option.bind_eq_bind,
    Option.bind_some, absorbAll_append, List.flatMap_append,
    appendU64_eq keccak (show Labels.maxInputSize.length < 33 by decide),
    appendU64_eq keccak (show Labels.maxOutputSize.length < 33 by decide),
    appendU64_eq keccak (show Labels.heapSize.length < 33 by decide),
    appendBytes_eq keccak (show Labels.inputs.length ≤ 24 by decide),
    appendBytes_eq keccak (show Labels.outputs.length ≤ 24 by decide),
    appendU64_eq keccak (show Labels.panic.length < 33 by decide),
    appendU64_eq keccak (show Labels.ramK.length < 33 by decide),
    appendU64_eq keccak (show Labels.traceLength.length < 33 by decide),
    appendU64_eq keccak (show Labels.entryAddress.length < 33 by decide),
    appendSerializables_eq keccak (show Labels.commitment.length ≤ 24 by decide),
    appendSerializables_eq keccak (show Labels.untrustedAdvice.length ≤ 24 by decide),
    appendSerializables_eq keccak (show Labels.trustedAdvice.length ≤ 24 by decide)]

/-- **The absorbed bytes determine the statement, and are determined by it**: of two
accepted proofs, each against its own preprocessing, `verify` absorbs their messages,
and the bytes of these are the same exactly when the sizes that are absorbed, the inputs,
the truncated outputs, the panic flag, the size of the memory, the trace length, the
entry address and the commitments are. -/
theorem absorbed_eq_iff (ser : CommitmentBytes K)
    {preprocessing preprocessing' : JoltVerifierPreprocessing} {proof proof' : JoltProof K}
    {programIo programIo' : JoltDevice} {trusted trusted' : Option K} {v v' : JoltVerifier K}
    (h : new preprocessing proof programIo trusted = .some v)
    (h' : new preprocessing' proof' programIo' trusted' = .some v') :
    (∀ (keccak : Keccak256) (t : KeccakTranscript),
        v.absorb keccak ser t = .some (absorbAll keccak (v.messages ser) t) ∧
          v'.absorb keccak ser t = .some (absorbAll keccak (v'.messages ser) t)) ∧
      (v.absorbed ser = v'.absorbed ser ↔ v.SameStatement v') := by
  refine ⟨fun keccak t => ⟨absorb_eq keccak v t, absorb_eq keccak v' t⟩, ?_⟩
  constructor
  · exact sameStatement_of_absorbed (short_of_new h) (short_of_new h')
  · exact SameStatement.absorbed

/-- A layout with eight bytes of everything but advice and the stack. -/
def smallConfig (stackSize : Nat) : MemoryConfig where
  maxInputSize := 8
  maxTrustedAdviceSize := 0
  maxUntrustedAdviceSize := 0
  maxOutputSize := 8
  stackSize := stackSize
  heapSize := 8
  programSize := .some 8

def smallLayout (stackSize : Nat) : MemoryLayout where
  programSize := 8
  maxTrustedAdviceSize := 0
  trustedAdviceStart := 0x7fffffe0
  trustedAdviceEnd := 0x7fffffe0
  maxUntrustedAdviceSize := 0
  untrustedAdviceStart := 0x7fffffe0
  untrustedAdviceEnd := 0x7fffffe0
  maxInputSize := 8
  maxOutputSize := 8
  inputStart := 0x7fffffe0
  inputEnd := 0x7fffffe8
  outputStart := 0x7fffffe8
  outputEnd := 0x7ffffff0
  stackSize := stackSize
  stackEnd := 0x80000008
  heapSize := 8
  heapEnd := 0x80000090 + stackSize
  panic := 0x7ffffff0
  termination := 0x7ffffff8
  ioEnd := 0x80000000

def smallDevice (stackSize : Nat)
    (h : MemoryLayout.new (smallConfig stackSize) = .some (smallLayout stackSize)) : JoltDevice where
  inputs := [7]
  trustedAdvice := []
  untrustedAdvice := []
  outputs := [9]
  panic := false
  memoryLayout := smallLayout stackSize
  laidOut := ⟨smallConfig stackSize, h⟩

/-- A byte serialized as itself. -/
def byteCommitments : CommitmentBytes U8 where
  bytes c := [c]
  bytes_lt c := by simp
  injective := List.singleton_injective

/-- A proof of two cycles on a device, with a number of rounds and a chunk size of
its own. -/
def smallVerifier (device : JoltDevice) (rounds : U8) (chunk : Nat) : JoltVerifier U8 where
  trustedAdviceCommitment := .none
  programIo := device
  proof := {
    commitments := [3, 5]
    untrustedAdviceCommitment := .none
    traceLength := 2
    ramK := 8
    rwConfig := ⟨rounds, 0, 0, 0⟩
    oneHotConfig := ⟨4, chunk⟩ }
  preprocessing := {
    memoryLayout := device.memoryLayout
    ram := { minBytecodeAddress := 0x80000000, bytecodeWords := [0x13] }
    codeSize := 2
    entryAddress := 0x80000000 }

/-- What `JoltVerifier::new` accepts. -/
def Accepted (v : JoltVerifier K) : Prop :=
  ∃ preprocessing proof programIo trusted, new preprocessing proof programIo trusted = .some v

/-- What `new` checks is enough. -/
theorem new_eq_some {preprocessing : JoltVerifierPreprocessing} {proof : JoltProof K}
    {programIo : JoltDevice} {trusted : Option K} {logT minRamK ramLogK : Nat} {params : OneHotParams}
    (hlayout : programIo.memoryLayout = preprocessing.memoryLayout)
    (hinputs : programIo.inputs.length ≤ preprocessing.memoryLayout.maxInputSize)
    (houtputs : programIo.outputs.length ≤ preprocessing.memoryLayout.maxOutputSize)
    (hlogT : log2 proof.traceLength.toNat = .some logT) (htrace : proof.traceLength.toNat ≤ 2 ^ 63)
    (honeHot : proof.oneHotConfig.validate = true)
    (hmin : computeMinRamK preprocessing.ram preprocessing.memoryLayout = .some minRamK)
    (hramK : isPowerOfTwo proof.ramK.toNat ∧ minRamK ≤ proof.ramK.toNat)
    (hlogK : log2 proof.ramK.toNat = .some ramLogK)
    (hrw : proof.rwConfig.validate logT ramLogK = true)
    (hparams : OneHotParams.fromConfig proof.oneHotConfig preprocessing.codeSize proof.ramK.toNat =
      .some params) :
    new preprocessing proof programIo trusted =
      .some ⟨trusted, { programIo with outputs := programIo.outputs.rdropWhile (· = 0) }, proof,
        preprocessing⟩ := by
  have hguard {p : Prop} [Decidable p] : p → (guard p : Option Unit) = .some () :=
    (Option.guard_eq_some' ()).mpr
  simp only [new, hlogT, hmin, hlogK, hparams, Option.bind_eq_bind, Option.bind_some]
  rw [hguard hlayout, hguard hinputs, hguard houtputs, hguard htrace, hguard honeHot, hguard hramK,
    hguard hrw]
  rfl

theorem new_small {stackSize : Nat}
    (h : MemoryLayout.new (smallConfig stackSize) = .some (smallLayout stackSize))
    {rounds : U8} {chunk : Nat} (hrounds : rounds.toNat ≤ 1)
    (hchunk : OneHotConfig.validate ⟨4, chunk⟩ = true) :
    new (smallVerifier (smallDevice stackSize h) rounds chunk).preprocessing
      (smallVerifier (smallDevice stackSize h) rounds chunk).proof (smallDevice stackSize h) .none =
      .some (smallVerifier (smallDevice stackSize h) rounds chunk) := by
  have hrw : ReadWriteConfig.validate ⟨rounds, 0, 0, 0⟩ 1 3 = true := by
    simp [ReadWriteConfig.validate, hrounds]
  have hmin : computeMinRamK { minBytecodeAddress := 0x80000000, bytecodeWords := [0x13] }
      (smallLayout stackSize) = .some 8 := by
    have hlog4 : Nat.log2 4 = 2 := by decide
    simp [computeMinRamK, remapAddress, smallLayout, ramStartAddress, nextPowerOfTwo, hlog4]
  have hlog : log2 2 = .some 1 := by decide
  have hlog8 : log2 8 = .some 3 := by decide
  have hpow : isPowerOfTwo 8 = true := by decide
  have hparams : OneHotParams.fromConfig ⟨4, chunk⟩ 2 8 = .some ⟨4, chunk, 1, 3⟩ := by
    simp [OneHotParams.fromConfig, hlog, hlog8]
  refine new_eq_some rfl ?_ ?_ hlog ?_ hchunk hmin ⟨hpow, ?_⟩ hlog8 hrw hparams
  · simp [smallVerifier, smallDevice, smallLayout]
  · simp [smallVerifier, smallDevice, smallLayout]
  · simp [smallVerifier]
  · simp [smallVerifier]

/-- The configurations, which the proof chooses, and the rest of the layout are not absorbed. -/
theorem configs_not_absorbed : ∃ (ser : CommitmentBytes U8) (v a b c : JoltVerifier U8),
    Accepted v ∧ Accepted a ∧ Accepted b ∧ Accepted c ∧
      (v.proof.rwConfig ≠ a.proof.rwConfig ∧ v.absorbed ser = a.absorbed ser) ∧
      (v.proof.oneHotConfig ≠ b.proof.oneHotConfig ∧ v.absorbed ser = b.absorbed ser) ∧
      (v.programIo.memoryLayout ≠ c.programIo.memoryLayout ∧ v.absorbed ser = c.absorbed ser) := by
  have hlayout : MemoryLayout.new (smallConfig 8) = .some (smallLayout 8) := rfl
  have hother : MemoryLayout.new (smallConfig 16) = .some (smallLayout 16) := rfl
  have haccepted : ∀ {stackSize rounds chunk}
      (h : MemoryLayout.new (smallConfig stackSize) = .some (smallLayout stackSize)),
      BitVec.toNat rounds ≤ 1 → OneHotConfig.validate ⟨4, chunk⟩ = true →
      Accepted (smallVerifier (smallDevice stackSize h) rounds chunk) :=
    fun h hrounds hchunk => ⟨_, _, _, _, new_small h hrounds hchunk⟩
  refine ⟨byteCommitments, smallVerifier (smallDevice 8 hlayout) 0 16,
    smallVerifier (smallDevice 8 hlayout) 1 16, smallVerifier (smallDevice 8 hlayout) 0 32,
    smallVerifier (smallDevice 16 hother) 0 16, haccepted hlayout (by decide) (by decide),
    haccepted hlayout (by decide) (by decide), haccepted hlayout (by decide) (by decide),
    haccepted hother (by decide) (by decide), ⟨?_, SameStatement.absorbed ?_⟩,
    ⟨?_, SameStatement.absorbed ?_⟩, ⟨?_, SameStatement.absorbed ?_⟩⟩
  · simp [smallVerifier]
  · constructor <;> simp [smallVerifier, smallDevice, smallLayout]
  · simp [smallVerifier]
  · constructor <;> simp [smallVerifier, smallDevice, smallLayout]
  · simp [smallVerifier, smallDevice, smallLayout]
  · constructor <;> simp [smallVerifier, smallDevice, smallLayout]

theorem absorbed_eq_iff_small :
    ∃ h : MemoryLayout.new (smallConfig 8) = .some (smallLayout 8),
      let v := smallVerifier (smallDevice 8 h) 0 16
      let v' := smallVerifier (smallDevice 8 h) 1 16
      (∀ keccak t, v.absorb keccak byteCommitments t =
          .some (absorbAll keccak (v.messages byteCommitments) t) ∧
        v'.absorb keccak byteCommitments t =
          .some (absorbAll keccak (v'.messages byteCommitments) t)) ∧
      (v.absorbed byteCommitments = v'.absorbed byteCommitments ↔ v.SameStatement v') :=
  ⟨rfl, absorbed_eq_iff byteCommitments (new_small _ (by decide) (by decide))
    (new_small _ (by decide) (by decide))⟩

end JoltVerifier

end Binding

end LightningJolt
