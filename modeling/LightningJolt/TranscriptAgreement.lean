/-
The on-chain transcript against the Rust one, operation by operation: what
each hashes, how a challenge is read off the digest, and the counters.
-/
import LightningJolt.JoltTranscript

namespace LightningJolt

/-! ## Bytes hashed -/

section Bytes

open JoltTranscript.Transcript

theorem Word.bytes_ofNat {x : Nat} (hx : x < 256 ^ 32) : Word.bytes (BitVec.ofNat 256 x) = beBytes 32 x := by
  rw [Word.bytes, BitVec.toNat_ofNat, Nat.mod_eq_of_lt (by simpa using hx)]

theorem ofBe_padded {width : Nat} (label : List U8) :
    ofBe (KeccakTranscript.padded width label) = ofBe label * 256 ^ (width - label.length) := by
  rw [KeccakTranscript.padded, ofBe_append, ofBe_replicate, List.length_replicate, add_zero]

theorem length_padded {width : Nat} {label : List U8} (h : label.length ≤ width) :
    (KeccakTranscript.padded width label).length = width := by
  rw [KeccakTranscript.padded, List.length_append, List.length_replicate]
  omega

theorem padded_lt {width : Nat} {label : List U8} (h : label.length ≤ width) :
    ofBe label * 256 ^ (width - label.length) < 256 ^ width := by
  rw [← ofBe_padded]
  have hlt := @ofBe_lt (KeccakTranscript.padded width label)
  rwa [length_padded h] at hlt

theorem bytes_bytes32 {label : List U8} (h : label.length < 33) :
    (bytes32 label).bytes = KeccakTranscript.padded 32 label := by
  have hle : label.length ≤ 32 := by omega
  rw [bytes32, Word.bytes_ofNat (padded_lt hle)]
  exact eq_beBytes (length_padded hle) (ofBe_padded label)

/-- A label and a count share a word without overlap. -/
theorem bytes_packed {label : List U8} (h : label.length ≤ 24) {n : Nat} (hn : n < 2 ^ 64) :
    Word.bytes (bytes24 label ||| BitVec.ofNat 256 n) =
      KeccakTranscript.padded 24 label ++ beBytes 8 n := by
  have hlabel := padded_lt h
  have hcount : n < 256 ^ 8 := by simpa using hn
  have hor : (bytes24 label ||| BitVec.ofNat 256 n).toNat =
      ofBe label * 256 ^ (24 - label.length) * 256 ^ 8 + n := by
    have hhigh : (bytes24 label).toNat = (ofBe label * 256 ^ (24 - label.length)) <<< 64 := by
      rw [bytes24, BitVec.toNat_ofNat, Nat.shiftLeft_eq]
      exact Nat.mod_eq_of_lt (by omega)
    have hlow : (BitVec.ofNat 256 n).toNat = n := by
      rw [BitVec.toNat_ofNat]
      exact Nat.mod_eq_of_lt (by omega)
    have hpow : (256 : Nat) ^ 8 = 2 ^ 64 := by norm_num
    rw [BitVec.toNat_or, hhigh, hlow, ← Nat.shiftLeft_add_eq_or_of_lt hn, Nat.shiftLeft_eq, hpow]
  have hsplit := beBytes_split 24 hlabel hcount
  rw [Word.bytes, hor, hsplit]
  congr 1
  exact eq_beBytes (length_padded h) (ofBe_padded label)

theorem bytes_u64 (x : U64) :
    Word.bytes (x.setWidth 256) = List.replicate 24 0 ++ beBytes 8 x.toNat := by
  have hx : x.toNat < 256 ^ 8 := by simpa using x.isLt
  rw [Word.bytes, BitVec.toNat_setWidth_of_le (by decide)]
  exact beBytes_of_lt 24 hx

theorem bytes_rounds {n : U32} {w : Word} (h : n.toNat = w.toNat) :
    w.bytes = List.replicate 28 0 ++ beBytes 4 n.toNat := by
  have hn : n.toNat < 256 ^ 4 := by simpa using n.isLt
  rw [Word.bytes, ← h]
  exact beBytes_of_lt 28 hn

/-- A scalar's word: its canonical representative. -/
def frWord (x : Fr) : Word := BitVec.ofNat 256 x.val

theorem fr_lt (x : Fr) : x.val < 256 ^ 32 := (ZMod.val_lt x).trans (by decide)

theorem bytes_frWord (x : Fr) : (frWord x).bytes = (leBytes 32 x.val).reverse :=
  Word.bytes_ofNat (fr_lt x)

/-- The word of a new transcript, its garbage masked off. -/
theorem newTranscript_word {label after : List U8} (h : label.length < 32)
    (hafter : 32 ≤ label.length + after.length) :
    (BitVec.ofNat 256 (ofBe ((label ++ after).take 32)) : Word) &&&
        ~~~((-1 : Word) >>> (label.length * 8)) = bytes32 label := by
  have htake : (label ++ after).take 32 = label ++ after.take (32 - label.length) := by
    rw [List.take_append, List.take_of_length_le (by omega)]
  have hlength : (after.take (32 - label.length)).length = 32 - label.length := by
    rw [List.length_take]
    omega
  have hrest := @ofBe_lt (after.take (32 - label.length))
  have hlabel := @padded_lt 32 label (by omega)
  rw [hlength] at hrest
  have hpow : (256 : Nat) ^ (32 - label.length) = 2 ^ (8 * (32 - label.length)) := by
    rw [pow_mul]
    norm_num
  have hvalue : ofBe ((label ++ after).take 32) =
      2 ^ (8 * (32 - label.length)) * ofBe label + ofBe (after.take (32 - label.length)) := by
    rw [htake, ofBe_append, hlength, hpow, mul_comm]
  refine BitVec.eq_of_getLsbD_eq fun i hi => ?_
  have hones : ((-1 : Word) >>> (label.length * 8)).getLsbD i = decide (i < 8 * (32 - label.length)) := by
    rw [BitVec.getLsbD_ushiftRight]
    change (BitVec.allOnes 256).getLsbD (label.length * 8 + i) = _
    rw [BitVec.getLsbD_allOnes]
    exact decide_eq_decide.mpr (by omega)
  rw [BitVec.getLsbD_and, BitVec.getLsbD_not, hones, bytes32, BitVec.getLsbD_ofNat, BitVec.getLsbD_ofNat,
    hvalue, hpow, mul_comm (ofBe label), Nat.testBit_two_pow_mul_add _ (hpow ▸ hrest),
    Nat.testBit_two_pow_mul]
  by_cases hlow : i < 8 * (32 - label.length)
  · simp [hlow, hi]
  · simp [hlow, hi, Nat.le_of_not_lt hlow]

end Bytes

/-! ## The byte reversal -/

section Reversal

open JoltTranscript.Transcript

/-- Where a swap of neighbouring blocks of `k` bits takes a bit from. -/
def swapIndex (k i : Nat) : Nat := if i / k % 2 = 0 then i + k else i - k

/-- A swap moves bits; its masks select the high and the low block of every pair. -/
theorem swapBlocks_bit {k : Nat} {high low : Word} (hk : 0 < k) (hdvd : k * 2 ∣ 128)
    (hhigh : ∀ j, high.getLsbD j = decide (j < 128 ∧ j / k % 2 = 1))
    (hlow : ∀ j, low.getLsbD j = decide (j < 128 ∧ j / k % 2 = 0)) (v : Word) (i : Nat) :
    (swapBlocks k high low v).getLsbD i = (decide (i < 128) && v.getLsbD (swapIndex k i)) := by
  obtain ⟨m, hm⟩ := hdvd
  rw [swapBlocks, BitVec.getLsbD_or, BitVec.getLsbD_ushiftRight, BitVec.getLsbD_shiftLeft,
    BitVec.getLsbD_and, BitVec.getLsbD_and, hhigh, hlow, swapIndex]
  have hup : (k + i) / k = i / k + 1 := Nat.add_div_left i hk
  have hdiv : i < 128 ↔ i / k < 2 * m := by
    rw [Nat.div_lt_iff_lt_mul hk, hm]
    constructor <;> intro h <;> linarith
  have hdivUp : k + i < 128 ↔ i / k + 1 < 2 * m := by
    rw [← hup, Nat.div_lt_iff_lt_mul hk, hm]
    constructor <;> intro h <;> linarith
  by_cases heven : i / k % 2 = 0
  · have hback : ¬ (¬ i < k ∧ (i - k) / k % 2 = 0) := by
      intro h
      have hdown : (i - k) / k + 1 = i / k := by
        rw [← Nat.add_div_right (i - k) hk]
        congr 1
        omega
      omega
    have hsame : (k + i < 128 ∧ (k + i) / k % 2 = 1) ↔ i < 128 := by
      rw [hup, hdivUp, hdiv]
      omega
    have hnot : (decide (i < 256) && !decide (i < k) &&
        (v.getLsbD (i - k) && decide (i - k < 128 ∧ (i - k) / k % 2 = 0))) = false := by
      by_cases hlt : i < k
      · simp [hlt]
      · have hodd : ¬ (i - k) / k % 2 = 0 := fun h => hback ⟨hlt, h⟩
        simp [hodd]
    rw [hnot, Bool.or_false, if_pos heven, decide_eq_decide.mpr hsame, Nat.add_comm k i, Bool.and_comm]
  · have hge : ¬ i < k := by
      intro h
      rw [Nat.div_eq_of_lt h] at heven
      exact heven rfl
    have hdown : (i - k) / k + 1 = i / k := by
      rw [← Nat.add_div_right (i - k) hk]
      congr 1
      omega
    have hnot : ¬ (k + i < 128 ∧ (k + i) / k % 2 = 1) := by
      rw [hup]
      omega
    have hsame : (i - k < 128 ∧ (i - k) / k % 2 = 0) ↔ i < 128 := by
      have hlt : i - k < 128 ↔ (i - k) / k < 2 * m := by
        rw [Nat.div_lt_iff_lt_mul hk, hm]
        constructor <;> intro h <;> linarith
      rw [hlt, hdiv]
      omega
    have hdecide : decide (i - k < 128 ∧ (i - k) / k % 2 = 0) = decide (i < 128) := decide_eq_decide.mpr hsame
    rw [decide_eq_false hnot, Bool.and_false, Bool.false_or, if_neg heven, hdecide]
    by_cases hi : i < 128
    · simp [hi, hge, show i < 256 by omega]
    · simp [hi]

/-- What a mask selects, from its 256 bits. -/
theorem mask_bit {mask : Word} {p : Nat → Bool} (h : ∀ j < 256, mask.getLsbD j = p j)
    (hp : ∀ j, 256 ≤ j → p j = false) (j : Nat) : mask.getLsbD j = p j := by
  by_cases hj : j < 256
  · exact h j hj
  · rw [hp j (by omega)]
    exact BitVec.getLsbD_of_ge _ _ (by omega)

set_option maxRecDepth 4000 in
theorem swapBlocks_8 (v : Word) (i : Nat) :
    (swapBlocks 8 0xFF00FF00FF00FF00FF00FF00FF00FF00 0x00FF00FF00FF00FF00FF00FF00FF00FF v).getLsbD i =
      (decide (i < 128) && v.getLsbD (swapIndex 8 i)) :=
  swapBlocks_bit (by decide) ⟨8, rfl⟩
    (mask_bit (by decide) fun j hj => decide_eq_false (by omega))
    (mask_bit (by decide) fun j hj => decide_eq_false (by omega)) v i

set_option maxRecDepth 4000 in
theorem swapBlocks_16 (v : Word) (i : Nat) :
    (swapBlocks 16 0xFFFF0000FFFF0000FFFF0000FFFF0000 0x0000FFFF0000FFFF0000FFFF0000FFFF v).getLsbD i =
      (decide (i < 128) && v.getLsbD (swapIndex 16 i)) :=
  swapBlocks_bit (by decide) ⟨4, rfl⟩
    (mask_bit (by decide) fun j hj => decide_eq_false (by omega))
    (mask_bit (by decide) fun j hj => decide_eq_false (by omega)) v i

set_option maxRecDepth 4000 in
theorem swapBlocks_32 (v : Word) (i : Nat) :
    (swapBlocks 32 0xFFFFFFFF00000000FFFFFFFF00000000 0x00000000FFFFFFFF00000000FFFFFFFF v).getLsbD i =
      (decide (i < 128) && v.getLsbD (swapIndex 32 i)) :=
  swapBlocks_bit (by decide) ⟨2, rfl⟩
    (mask_bit (by decide) fun j hj => decide_eq_false (by omega))
    (mask_bit (by decide) fun j hj => decide_eq_false (by omega)) v i

set_option maxRecDepth 4000 in
/-- The last step is one more swap, of the two halves. -/
theorem swapHalves_bit (v : Word) (hv : ∀ i, 128 ≤ i → v.getLsbD i = false) (i : Nat) :
    ((v >>> 64) ||| ((v <<< 64) &&& 0xFFFFFFFFFFFFFFFFFFFFFFFFFFFFFFFF)).getLsbD i =
      (decide (i < 128) && v.getLsbD (swapIndex 64 i)) := by
  have hmask : (0xFFFFFFFFFFFFFFFFFFFFFFFFFFFFFFFF : Word).getLsbD i = decide (i < 128) :=
    mask_bit (p := fun j => decide (j < 128)) (by decide) (fun j hj => decide_eq_false (by omega)) i
  rw [BitVec.getLsbD_or, BitVec.getLsbD_ushiftRight, BitVec.getLsbD_and, BitVec.getLsbD_shiftLeft, hmask,
    swapIndex]
  by_cases hlow : i < 64
  · have heven : i / 64 % 2 = 0 := by omega
    simp [hlow, heven, show i < 128 by omega, Nat.add_comm]
  · by_cases hi : i < 128
    · have hodd : ¬ i / 64 % 2 = 0 := by omega
      have hhigh : v.getLsbD (64 + i) = false := hv _ (by omega)
      simp [hlow, hodd, hi, hhigh, show i < 256 by omega]
    · have hhigh : v.getLsbD (64 + i) = false := hv _ (by omega)
      simp [hi, hhigh]

/-- The bits of the reversed bytes of a number. -/
theorem ofLe_beBytes_bit {x : Nat} (hx : x < 256 ^ 16) (i : Nat) :
    (ofLe (beBytes 16 x)).testBit i = (decide (i < 128) && x.testBit (8 * (15 - i / 8) + i % 8)) := by
  have hk : i % 8 < 8 := Nat.mod_lt _ (by decide)
  have hindex : i = 8 * (i / 8) + i % 8 := by omega
  have hvalue := ofLe_leBytes hx
  conv_lhs => rw [hindex]
  conv_rhs => rw [← hvalue]
  rw [testBit_ofLe hk, testBit_ofLe hk, beBytes]
  by_cases hi : i < 128
  · have hget : (leBytes 16 x).reverse.getD (i / 8) 0 = (leBytes 16 x).getD (15 - i / 8) 0 := by
      rw [List.getD_eq_getElem?_getD, List.getD_eq_getElem?_getD, List.getElem?_reverse (by simp; omega),
        length_leBytes]
    rw [hget, decide_eq_true hi, Bool.true_and]
  · have hget : (leBytes 16 x).reverse.getD (i / 8) 0 = 0 := by
      rw [List.getD_eq_getElem?_getD, List.getElem?_eq_none (by simp; omega)]
      rfl
    rw [hget, decide_eq_false hi, Bool.false_and]
    exact BitVec.getLsbD_zero

/-- **The assembly's swaps reverse the sixteen bytes.** -/
theorem reverseBytes_eq {x : Nat} (hx : x < 256 ^ 16) :
    reverseBytes (BitVec.ofNat 256 x) = BitVec.ofNat 256 (ofLe (beBytes 16 x)) := by
  have hindex : ∀ i < 128, swapIndex 8 (swapIndex 16 (swapIndex 32 (swapIndex 64 i))) = 8 * (15 - i / 8) + i % 8 ∧
      swapIndex 64 i < 128 ∧ swapIndex 32 (swapIndex 64 i) < 128 ∧
      swapIndex 16 (swapIndex 32 (swapIndex 64 i)) < 128 := by decide
  refine BitVec.eq_of_getLsbD_eq fun i hi => ?_
  rw [BitVec.getLsbD_ofNat, ofLe_beBytes_bit hx, decide_eq_true hi, Bool.true_and, reverseBytes]
  rw [swapHalves_bit _ (fun j hj => by rw [swapBlocks_32, decide_eq_false (by omega), Bool.false_and])]
  by_cases hlt : i < 128
  · obtain ⟨hall, h64, h32, h16⟩ := hindex i hlt
    rw [swapBlocks_32, swapBlocks_16, swapBlocks_8, hall, BitVec.getLsbD_ofNat, decide_eq_true h64,
      decide_eq_true h32, decide_eq_true h16, decide_eq_true (show 8 * (15 - i / 8) + i % 8 < 256 by omega)]
    simp
  · rw [decide_eq_false hlt, Bool.false_and, Bool.false_and]

end Reversal

/-! ## Operations -/

/-- What a prover or verifier does with its transcript. -/
inductive TranscriptOp where
  | appendLabel (label : List U8)
  | appendBytes (label data : List U8)
  | appendU64 (label : List U8) (x : U64)
  | appendScalar (label : List U8) (scalar : Fr)
  | appendScalars (label : List U8) (scalars : List Fr)
  | challengeScalar
  | challengeScalarOptimized
  | challengeVector (len : Nat)
  | challengeVectorOptimized (len : Nat)
  | challengeScalarPowers (len : Nat)
  | challengeScalarPowersOptimized (len : Nat)

namespace TranscriptOp

/-- A label fits the word, or the part of it, that both implementations give it; a length is
a `u64`. -/
def Fits : TranscriptOp → Prop
  | appendLabel label => label.length ≤ 32
  | appendBytes label data => label.length ≤ 24 ∧ data.length < 2 ^ 64
  | appendU64 label _ => label.length ≤ 32
  | appendScalar label _ => label.length ≤ 32
  | appendScalars label scalars => label.length ≤ 24 ∧ scalars.length < 2 ^ 64
  | challengeScalar => True
  | challengeScalarOptimized => True
  | challengeVector len => len < 2 ^ 64
  | challengeVectorOptimized len => len < 2 ^ 64
  | challengeScalarPowers len => len < 2 ^ 64
  | challengeScalarPowersOptimized len => len < 2 ^ 64

/-- The powers, where they are asked for, are at least one. -/
def AsksPower : TranscriptOp → Prop
  | challengeScalarPowers len => 0 < len
  | challengeScalarPowersOptimized len => 0 < len
  | _ => True

/-- How often the operation hashes. -/
def rounds : TranscriptOp → Nat
  | appendLabel _ => 1
  | appendBytes _ _ => 2
  | appendU64 _ _ => 2
  | appendScalar _ _ => 2
  | appendScalars _ scalars => 1 + scalars.length
  | challengeScalar => 1
  | challengeScalarOptimized => 1
  | challengeVector len => len
  | challengeVectorOptimized len => len
  | challengeScalarPowers _ => 1
  | challengeScalarPowersOptimized _ => 1

variable (keccak : Keccak256)

/-- What the operation returns in Rust, as field elements. -/
def runRust (t : KeccakTranscript) : TranscriptOp → Option (List Fr × KeccakTranscript)
  | appendLabel label => (t.rawAppendLabel keccak label).map ([], ·)
  | appendBytes label data => (t.appendBytes keccak label data).map ([], ·)
  | appendU64 label x => (t.appendU64 keccak label x).map ([], ·)
  | appendScalar label scalar => (t.appendScalar keccak label scalar).map ([], ·)
  | appendScalars label scalars => (t.appendScalars keccak label scalars).map ([], ·)
  | challengeScalar =>
    let (c, t) := t.challengeScalar keccak
    .some ([c], t)
  | challengeScalarOptimized =>
    let (c, t) := t.challengeScalarOptimized keccak
    .some ([c.into], t)
  | challengeVector len => .some (KeccakTranscript.challengeVector keccak len t)
  | challengeVectorOptimized len =>
    let (cs, t) := KeccakTranscript.challengeVectorOptimized keccak len t
    .some (cs.map MontU128Challenge.into, t)
  | challengeScalarPowers len => .some (t.challengeScalarPowers keccak len)
  | challengeScalarPowersOptimized len => .some (t.challengeScalarPowersOptimized keccak len)

/-- What it returns on chain, as words. -/
def runSolidity (t : JoltTranscript.Transcript) : TranscriptOp → Option (List Word × JoltTranscript.Transcript)
  | appendLabel label => .some ([], t.appendLabel keccak (JoltTranscript.Transcript.bytes32 label))
  | appendBytes label data =>
    .some ([], t.appendLabeledBytes keccak (JoltTranscript.Transcript.bytes24 label)
      (BitVec.ofNat 64 data.length) data)
  | appendU64 label x => .some ([], t.appendLabeledU64 keccak (JoltTranscript.Transcript.bytes32 label) x)
  | appendScalar label scalar =>
    .some ([], t.appendLabeledScalar keccak (JoltTranscript.Transcript.bytes32 label) (frWord scalar))
  | appendScalars label scalars =>
    .some ([], t.appendLabeledScalars keccak (JoltTranscript.Transcript.bytes24 label) (scalars.map frWord))
  | challengeScalar =>
    let (c, t) := t.challengeScalar keccak
    .some ([c], t)
  | challengeScalarOptimized =>
    let (c, t) := t.challengeScalarMont keccak
    .some ([c], t)
  | challengeVector len => .some (JoltTranscript.Transcript.challengeVector keccak len t)
  | challengeVectorOptimized len => .some (JoltTranscript.Transcript.challengeVectorMont keccak len t)
  | challengeScalarPowers len => JoltTranscript.Transcript.challengeScalarPowers keccak len t
  | challengeScalarPowersOptimized len => JoltTranscript.Transcript.challengeScalarPowersMont keccak len t

end TranscriptOp

/-! ## One round -/

section Rounds

variable (keccak : Keccak256) {n : Nat} {r : KeccakTranscript} {s : JoltTranscript.Transcript}

/-- The same state, as bytes and as a word, after `n` rounds on either side. -/
structure MatchesAt (n : Nat) (r : KeccakTranscript) (s : JoltTranscript.Transcript) : Prop where
  state : r.state = s.state.bytes
  rust : r.nRounds.toNat = n
  solidity : s.nRounds.toNat = n

/-- Equal state and equal counter. -/
structure Matches (r : KeccakTranscript) (s : JoltTranscript.Transcript) : Prop where
  state : r.state = s.state.bytes
  nRounds : r.nRounds.toNat = s.nRounds.toNat

theorem MatchesAt.matches (h : MatchesAt n r s) : Matches r s := ⟨h.state, h.rust.trans h.solidity.symm⟩

theorem Matches.at (h : Matches r s) : MatchesAt r.nRounds.toNat r s := ⟨h.state, rfl, h.nRounds.symm⟩

theorem MatchesAt.hasher (h : MatchesAt n r s) : r.hasher = s.state.bytes ++ s.nRounds.bytes := by
  rw [KeccakTranscript.hasher, h.state, bytes_rounds (h.rust.trans h.solidity.symm)]

/-- A round on both sides, of the same bytes hashed. -/
theorem MatchesAt.round (h : MatchesAt n r s) (hn : n + 1 < 2 ^ 32) {bytes : List U8} {w : Word}
    (hstate : bytes = w.bytes) :
    MatchesAt (n + 1) (r.updateState bytes) { state := w, nRounds := s.nRounds + 1 } where
  state := hstate
  rust := by
    rw [KeccakTranscript.updateState, BitVec.toNat_add, h.rust]
    exact Nat.mod_eq_of_lt hn
  solidity := by
    rw [BitVec.toNat_add, h.solidity]
    exact Nat.mod_eq_of_lt (show n + 1 < 2 ^ 256 by omega)

theorem MatchesAt.appendRaw (h : MatchesAt n r s) (hn : n + 1 < 2 ^ 32) (bytes : List U8) :
    MatchesAt (n + 1) (r.rawAppendBytes keccak bytes) (s.appendRaw keccak bytes) := by
  refine h.round hn ?_
  rw [h.hasher]
  rfl

theorem MatchesAt.appendWord (h : MatchesAt n r s) (hn : n + 1 < 2 ^ 32) {bytes : List U8} {w : Word}
    (hw : w.bytes = bytes) :
    MatchesAt (n + 1) (r.rawAppendBytes keccak bytes) (s.appendWord keccak w) := by
  refine h.round hn ?_
  rw [h.hasher, hw]
  rfl

theorem MatchesAt.appendScalars (h : MatchesAt n r s) (scalars : List Fr) (hn : n + scalars.length < 2 ^ 32) :
    MatchesAt (n + scalars.length) (scalars.foldl (fun t x => t.rawAppendScalar keccak x) r)
      ((scalars.map frWord).foldl (fun t w => t.appendWord keccak w) s) := by
  induction scalars generalizing n r s with
  | nil => exact h
  | cons x xs ih =>
    rw [List.length_cons] at hn
    have hhead := h.appendWord keccak (by omega) (bytes_frWord x)
    have htail := ih hhead (by omega)
    rw [List.length_cons, show n + (xs.length + 1) = n + 1 + xs.length by omega]
    exact htail

end Rounds

/-! ## One challenge -/

section Challenges

open JoltTranscript.Transcript

variable (keccak : Keccak256) {n : Nat} {r : KeccakTranscript} {s : JoltTranscript.Transcript}

/-- The residue that a word stands for. -/
def Word.residue (w : Word) : Fr := (w.toNat : Fr)

theorem residue_mulmod (a b : Word) : (a.mulmod b scalarModulus).residue = a.residue * b.residue := by
  have hpos : 0 < scalarModulus := by decide
  have hlt : a.toNat * b.toNat % scalarModulus < 2 ^ 256 :=
    (Nat.mod_lt _ hpos).trans (by decide)
  rw [Word.residue, Word.mulmod, BitVec.toNat_ofNat, Nat.mod_eq_of_lt hlt, ZMod.natCast_mod, Nat.cast_mul]
  rfl

theorem frWord_toNat (x : Fr) : (frWord x).toNat = x.val := by
  rw [frWord, BitVec.toNat_ofNat]
  exact Nat.mod_eq_of_lt ((ZMod.val_lt x).trans (by decide))

theorem residue_frWord (x : Fr) : (frWord x).residue = x := by
  rw [Word.residue, frWord_toNat]
  exact ZMod.natCast_zmod_val x

theorem eq_frWord {w : Word} {x : Fr} (hlt : w.toNat < scalarModulus) (hx : w.residue = x) : w = frWord x := by
  refine BitVec.eq_of_toNat_eq ?_
  rw [frWord_toNat, ← hx, Word.residue]
  exact (ZMod.val_cast_of_lt hlt).symm

theorem reduced_lt (k : Nat) : (BitVec.ofNat 256 (k % scalarModulus)).toNat < scalarModulus := by
  have hlt : k % scalarModulus < scalarModulus := Nat.mod_lt _ (by decide)
  rw [BitVec.toNat_ofNat]
  exact (Nat.mod_le _ _).trans_lt hlt

theorem addmod_lt (a b : Word) : (a.addmod b scalarModulus).toNat < scalarModulus := reduced_lt _

theorem mulmod_lt (a b : Word) : (a.mulmod b scalarModulus).toNat < scalarModulus := reduced_lt _

/-- The high half of a digest. -/
theorem high_lt (w : Word) : w.toNat / 2 ^ 128 < 256 ^ 16 := by
  have hw := w.isLt
  omega

theorem ushiftRight_high (w : Word) : w >>> 128 = BitVec.ofNat 256 (w.toNat / 2 ^ 128) := by
  refine BitVec.eq_of_toNat_eq ?_
  have hw := high_lt w
  rw [BitVec.toNat_ushiftRight, BitVec.toNat_ofNat, Nat.shiftRight_eq_div_pow]
  exact (Nat.mod_eq_of_lt (by omega)).symm

/-- The sixteen bytes of a challenge are the high half of the digest, on either side. -/
theorem MatchesAt.challengeBytes (h : MatchesAt n r s) (hn : n + 1 < 2 ^ 32) :
    (r.challengeBytes keccak 16).1 = beBytes 16 ((s.challengeHash keccak).1.toNat / 2 ^ 128) ∧
      MatchesAt (n + 1) (r.challengeBytes keccak 16).2 (s.challengeHash keccak).2 := by
  have hdigest : keccak.digest r.hasher = (s.challengeHash keccak).1.bytes := by
    rw [h.hasher]
    rfl
  have hround := h.round hn hdigest
  rw [KeccakTranscript.challengeBytes, if_neg (by decide)]
  refine ⟨?_, hround⟩
  have hlt : (s.challengeHash keccak).1.toNat < 256 ^ (16 + 16) := (s.challengeHash keccak).1.isLt
  have htake := take_beBytes 16 hlt
  change (keccak.digest r.hasher).take 16 = _
  rw [hdigest]
  exact htake

theorem MatchesAt.challengeScalar (h : MatchesAt n r s) (hn : n + 1 < 2 ^ 32) :
    (s.challengeScalar keccak).1.residue = (r.challengeScalar keccak).1 ∧
      MatchesAt (n + 1) (r.challengeScalar keccak).2 (s.challengeScalar keccak).2 := by
  obtain ⟨hbytes, hround⟩ := h.challengeBytes keccak hn
  refine ⟨?_, hround⟩
  have hhigh := high_lt (s.challengeHash keccak).1
  change Word.residue ((s.challengeHash keccak).1 >>> 128) =
    frFromBytes (r.challengeBytes keccak 16).1.reverse
  rw [hbytes, frFromBytes, beBytes, List.reverse_reverse, ofLe_leBytes hhigh, Word.residue,
    BitVec.toNat_ushiftRight, Nat.shiftRight_eq_div_pow]

/-- The two limbs of the challenge, with its three top bits masked off. -/
theorem MontU128Challenge.limbs (x : Nat) :
    (new (BitVec.ofNat 128 x)).low.toNat = x % 2 ^ 64 ∧
      (new (BitVec.ofNat 128 x)).high.toNat = x / 2 ^ 64 % 2 ^ 61 := by
  have hmask : ((-1 : U64) >>> 3).toNat = 2 ^ 61 - 1 := by decide
  refine ⟨?_, ?_⟩
  · rw [new, BitVec.toNat_setWidth, BitVec.toNat_ofNat]
    omega
  · rw [new, BitVec.toNat_and, hmask, Nat.and_two_pow_sub_one_eq_mod, BitVec.toNat_setWidth,
      BitVec.toNat_ushiftRight, BitVec.toNat_ofNat, Nat.shiftRight_eq_div_pow]
    omega

set_option maxRecDepth 20000 in
/-- The Montgomery form divides by `2 ^ 128`, as multiplying by `INV_TWO_128` does. -/
theorem MontU128Challenge.into_eq (c : MontU128Challenge) :
    c.into = ((c.low.toNat + c.high.toNat * 2 ^ 64 : Nat) : Fr) * invTwo128.residue := by
  have hinv : invTwo128.residue * 2 ^ 128 = (1 : Fr) := by decide
  have hne : (2 : Fr) ^ 128 ≠ 0 := right_ne_zero_of_mul_eq_one hinv
  have hshift : (2 : Fr) ^ 128 * (2 ^ 256)⁻¹ = invTwo128.residue := by
    rw [show (2 : Fr) ^ 256 = 2 ^ 128 * 2 ^ 128 by ring, mul_inv, ← mul_assoc, mul_inv_cancel₀ hne, one_mul]
    exact (eq_inv_of_mul_eq_one_left hinv).symm
  have hlimbs : c.into = ((c.low.toNat + c.high.toNat * 2 ^ 64 : Nat) : Fr) * (2 ^ 128 * (2 ^ 256)⁻¹) := by
    simp only [into, fromBigintUnchecked, toBigintArray, List.foldr_cons, List.foldr_nil]
    push_cast
    ring
  rw [hlimbs, hshift]

/-- The combination of the two masked limbs. -/
theorem rawU128_eq {x : Nat} (hx : x < 256 ^ 16) :
    ((BitVec.ofNat 256 x &&& (0xFFFFFFFFFFFFFFFF : Word)) |||
        (((BitVec.ofNat 256 x >>> 64) &&& (((1 : Word) <<< 61) - 1)) <<< 64)).toNat =
      x % 2 ^ 64 + x / 2 ^ 64 % 2 ^ 61 * 2 ^ 64 := by
  have hlow : (0xFFFFFFFFFFFFFFFF : Word).toNat = 2 ^ 64 - 1 := by decide
  have hhigh : (((1 : Word) <<< 61) - 1).toNat = 2 ^ 61 - 1 := by decide
  have hvalue : (BitVec.ofNat 256 x).toNat = x := by
    rw [BitVec.toNat_ofNat]
    exact Nat.mod_eq_of_lt (by omega)
  have hlowLt : x % 2 ^ 64 < 2 ^ 64 := Nat.mod_lt _ (by decide)
  have hshift : (x / 2 ^ 64 % 2 ^ 61) <<< 64 % 2 ^ 256 = (x / 2 ^ 64 % 2 ^ 61) <<< 64 := by
    rw [Nat.shiftLeft_eq]
    exact Nat.mod_eq_of_lt (by omega)
  rw [BitVec.toNat_or, BitVec.toNat_and, BitVec.toNat_shiftLeft, BitVec.toNat_and, BitVec.toNat_ushiftRight,
    hvalue, hlow, hhigh, Nat.and_two_pow_sub_one_eq_mod, Nat.and_two_pow_sub_one_eq_mod,
    Nat.shiftRight_eq_div_pow, hshift, Nat.or_comm, ← Nat.shiftLeft_add_eq_or_of_lt hlowLt, Nat.shiftLeft_eq,
    Nat.add_comm]

theorem MatchesAt.challengeScalarMont (h : MatchesAt n r s) (hn : n + 1 < 2 ^ 32) :
    (s.challengeScalarMont keccak).1.residue = (r.challengeScalarOptimized keccak).1.into ∧
      MatchesAt (n + 1) (r.challengeScalarOptimized keccak).2 (s.challengeScalarMont keccak).2 := by
  obtain ⟨hbytes, hround⟩ := h.challengeBytes keccak hn
  refine ⟨?_, hround⟩
  have hhigh := high_lt (s.challengeHash keccak).1
  have hrev : ofLe (beBytes 16 ((s.challengeHash keccak).1.toNat / 2 ^ 128)) < 256 ^ 16 := by
    have hlt := @ofLe_lt (beBytes 16 ((s.challengeHash keccak).1.toNat / 2 ^ 128))
    rwa [length_beBytes] at hlt
  obtain ⟨hlow, htop⟩ :=
    MontU128Challenge.limbs (ofLe (beBytes 16 ((s.challengeHash keccak).1.toNat / 2 ^ 128)))
  have hrust : (r.challengeScalarOptimized keccak).1 =
      .new (BitVec.ofNat 128 (ofLe (beBytes 16 ((s.challengeHash keccak).1.toNat / 2 ^ 128)))) := by
    change MontU128Challenge.new (BitVec.ofNat 128 (ofBe (r.challengeBytes keccak 16).1.reverse)) = _
    rw [hbytes, ofBe, List.reverse_reverse]
  rw [hrust, MontU128Challenge.into_eq, hlow, htop, JoltTranscript.Transcript.challengeScalarMont]
  simp only
  rw [residue_mulmod, ushiftRight_high, reverseBytes_eq hhigh, Word.residue, rawU128_eq hrev]

/-- Powers of equal challenges are equal. -/
theorem residue_powersFrom {q : Word} {c : Fr} (hq : q.residue = c) (len : Nat) {w : Word} {x : Fr}
    (hw : w.residue = x) :
    (JoltTranscript.Transcript.powersFrom q len w).map Word.residue = KeccakTranscript.powersFrom c len x := by
  induction len generalizing w x with
  | zero => rfl
  | succ len ih =>
    rw [JoltTranscript.Transcript.powersFrom, KeccakTranscript.powersFrom, List.map_cons, hw]
    rw [ih (by rw [residue_mulmod, hw, hq])]

/-- A row of draws that agree one by one agrees as a whole. -/
theorem MatchesAt.drawn {α β : Type} {drawRust : KeccakTranscript → α × KeccakTranscript}
    {drawSolidity : JoltTranscript.Transcript → β × JoltTranscript.Transcript} {f : β → Fr} {g : α → Fr}
    (hdraw : ∀ {n : Nat} {r : KeccakTranscript} {s : JoltTranscript.Transcript}, MatchesAt n r s →
      n + 1 < 2 ^ 32 → f (drawSolidity s).1 = g (drawRust r).1 ∧
        MatchesAt (n + 1) (drawRust r).2 (drawSolidity s).2)
    (h : MatchesAt n r s) {len : Nat} (hn : n + len < 2 ^ 32) :
    (LightningJolt.drawn drawSolidity len s).1.map f = (LightningJolt.drawn drawRust len r).1.map g ∧
      MatchesAt (n + len) (LightningJolt.drawn drawRust len r).2 (LightningJolt.drawn drawSolidity len s).2 := by
  induction len generalizing n r s with
  | zero => exact ⟨rfl, h⟩
  | succ len ih =>
    obtain ⟨hhead, hround⟩ := hdraw h (by omega)
    obtain ⟨htail, hrest⟩ := ih hround (by omega)
    refine ⟨congrArg₂ List.cons hhead htail, ?_⟩
    rw [show n + (len + 1) = n + 1 + len by omega]
    exact hrest

end Challenges

end LightningJolt
