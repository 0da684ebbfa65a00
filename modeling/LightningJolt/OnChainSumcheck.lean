/-
The on-chain verification of a sumcheck (`onchain-verifier/contracts/SumcheckVerifier.sol`)
on coefficients that are any words, against the Rust verification of the same
coefficients reduced.
-/
import LightningJolt.SumcheckProof
import LightningJolt.TranscriptAgreement

namespace LightningJolt

/-! ## The contract -/

/-- A `uint256[] memory`: its words, and the word that follows them in memory. -/
structure MemoryArray where
  words : List Word
  next : Word
deriving DecidableEq

/-- What is loaded in the place of the first element. -/
def MemoryArray.first (a : MemoryArray) : Word := a.words.headD a.next

namespace SumcheckVerifier

variable (keccak : Keccak256)

/-- `sub(r, x)`, on words. -/
def subFromR (x : Word) : Word := BitVec.ofNat 256 scalarModulus - x

/-- The loop over the linear term. -/
def linearTerm (coeffs : List Word) (term : Word) : Word :=
  coeffs.foldl (fun term c => term.addmod (subFromR c) scalarModulus) term

/-- The loop over the result, with the power of the point so far. -/
def evalLoop (x : Word) : Word → Word → List Word → Word
  | _, result, [] => result
  | runPow, result, c :: coeffs =>
    let runPow := runPow.mulmod x scalarModulus
    evalLoop x runPow (result.addmod (c.mulmod runPow scalarModulus) scalarModulus) coeffs

def evalFromHint (coeffs : MemoryArray) (hint x : Word) : Word :=
  let c0 := coeffs.first
  let linear := hint.addmod (subFromR (c0.addmod c0 scalarModulus)) scalarModulus
  let linear := linearTerm coeffs.words.tail linear
  evalLoop x x (c0.addmod (x.mulmod linear scalarModulus) scalarModulus) coeffs.words.tail

/-- `"sumcheck_poly"`. -/
def sumcheckPoly : List U8 := [115, 117, 109, 99, 104, 101, 99, 107, 95, 112, 111, 108, 121]

/-- The rounds of `verify`. -/
def verifyRounds (degreeBound : Nat) : Word → JoltTranscript.Transcript → List MemoryArray →
    Option (Word × List Word × JoltTranscript.Transcript)
  | e, t, [] => .some (e, [], t)
  | e, t, poly :: polys =>
    if poly.words.length ≤ degreeBound then
      let t := t.appendLabeledScalars keccak (JoltTranscript.Transcript.bytes24 sumcheckPoly) poly.words
      let (rI, t) := t.challengeScalarMont keccak
      match verifyRounds degreeBound (evalFromHint poly e rI) t polys with
      | .none => .none
      | .some (finalClaim, challenges, t) => .some (finalClaim, rI :: challenges, t)
    else .none

/-- `verify`: the final claim and the challenges. -/
def verify (compressedPolys : List MemoryArray) (claim : Word) (numRounds degreeBound : Nat)
    (t : JoltTranscript.Transcript) : Option (Word × List Word × JoltTranscript.Transcript) :=
  if compressedPolys.length = numRounds then verifyRounds keccak degreeBound claim t compressedPolys
  else .none

end SumcheckVerifier

/-! ## What it should establish -/

instance : Challenge Fr Fr := ⟨id⟩

/-- The round polynomials that have the given coefficients: each sums over zero and one to the
claim before it, and its value at the challenge is the claim after it. -/
def RoundsSound (degreeBound : Nat) : List (List Fr) → List Fr → Fr → Fr → Prop
  | [], [], claim, final => final = claim
  | coeffs :: polys, r :: rs, claim, final =>
    ∃ p : UniPoly Fr, p.compress = .some ⟨coeffs⟩ ∧ p.coeffs.length ≤ degreeBound + 1 ∧
      p.sumOverBit = claim ∧ ∃ e, p.evaluate r = .some e ∧ RoundsSound degreeBound polys rs e final
  | _, _, _, _ => False

/-- A transcript that hands out given challenges. -/
def givenChallenges : Transcript (List Fr) Fr Fr where
  rawAppendLabel t _ := t
  rawAppendLabelWithLen t _ _ := t
  rawAppendScalar t _ := t
  challengeScalar t := (t.headD 0, t.tail)
  challengeScalarOptimized t := (t.headD 0, t.tail)

namespace SumcheckVerifier

/-- The coefficients, reduced. -/
def reduced (polys : List MemoryArray) : List (List Fr) := polys.map fun p => p.words.map Word.residue

/-- **What an accepted sumcheck means**: sound rounds, and the answer that the Rust verification
gives on the reduced coefficients and the same challenges. -/
structure Established (polys : List MemoryArray) (claim : Word) (numRounds degreeBound : Nat)
    (finalClaim : Word) (challenges : List Word) : Prop where
  rounds : RoundsSound degreeBound (reduced polys) (challenges.map Word.residue) claim.residue finalClaim.residue
  rust : ClearSumcheckProof.verify givenChallenges ⟨(reduced polys).map .mk⟩ claim.residue numRounds degreeBound
    (challenges.map Word.residue) = .some (.ok (finalClaim.residue, challenges.map Word.residue), [])

/-! ## Where it falls short -/

/-- The coefficients from which `sub(r, x)` wraps. -/
def wraps (coeffs : List Word) : Nat := coeffs.countP fun c => decide (scalarModulus < c.toNat)

/-- What the wrapped subtractions add to the final claim, in units of `2 ^ 256`: each shifts the
linear term of its round, and later rounds multiply a shift by their challenges. -/
def excess (keccak : Keccak256) : JoltTranscript.Transcript → Fr → List MemoryArray → Fr
  | _, acc, [] => acc
  | t, acc, poly :: polys =>
    let t := t.appendLabeledScalars keccak (JoltTranscript.Transcript.bytes24 sumcheckPoly) poly.words
    let (rI, t) := t.challengeScalarMont keccak
    excess keccak t (rI.residue * (acc + wraps poly.words.tail)) polys

/-! ## One round -/

section Round

theorem residue_addmod (a b : Word) : (a.addmod b scalarModulus).residue = a.residue + b.residue := by
  have hpos : 0 < scalarModulus := by decide
  have hlt : (a.toNat + b.toNat) % scalarModulus < 2 ^ 256 :=
    (Nat.mod_lt _ hpos).trans (by decide)
  rw [Word.residue, Word.addmod, BitVec.toNat_ofNat, Nat.mod_eq_of_lt hlt, ZMod.natCast_mod, Nat.cast_add]
  rfl

/-- A subtraction from the modulus is a negation, and `2 ^ 256` too much where it wraps. -/
theorem residue_subFromR (x : Word) :
    (subFromR x).residue = (if scalarModulus < x.toNat then 2 ^ 256 else 0) - x.residue := by
  have hmod : scalarModulus < 2 ^ 256 := by decide
  have hzero : (scalarModulus : Fr) = 0 := ZMod.natCast_self scalarModulus
  have hx := x.isLt
  have hvalue : (subFromR x).toNat + x.toNat =
      scalarModulus + if scalarModulus < x.toNat then 2 ^ 256 else 0 := by
    rw [subFromR, BitVec.toNat_sub, BitVec.toNat_ofNat, Nat.mod_eq_of_lt hmod]
    by_cases hwrap : scalarModulus < x.toNat
    · rw [if_pos hwrap, Nat.mod_eq_of_lt (by omega)]
      omega
    · rw [if_neg hwrap, show 2 ^ 256 - x.toNat + scalarModulus = scalarModulus - x.toNat + 2 ^ 256 by omega,
        Nat.add_mod_right, Nat.mod_eq_of_lt (by omega)]
      omega
  have hcast := congrArg (fun k : Nat => (k : Fr)) hvalue
  simp only [Nat.cast_add, hzero, zero_add, Nat.cast_ite, Nat.cast_zero, Nat.cast_pow, Nat.cast_ofNat] at hcast
  rw [← hcast]
  simp only [Word.residue]
  ring

theorem residue_subFromR_addmod (a b : Word) :
    (subFromR (a.addmod b scalarModulus)).residue = -(a.residue + b.residue) := by
  have hpos : 0 < scalarModulus := by decide
  have hlt : (a.toNat + b.toNat) % scalarModulus < scalarModulus := Nat.mod_lt _ hpos
  have hle : ¬ scalarModulus < (a.addmod b scalarModulus).toNat := by
    rw [Word.addmod, BitVec.toNat_ofNat]
    exact Nat.not_lt.mpr ((Nat.mod_le _ _).trans hlt.le)
  rw [residue_subFromR, if_neg hle, residue_addmod]
  ring

theorem wraps_nil : wraps [] = 0 := rfl

theorem wraps_cons (c : Word) (coeffs : List Word) :
    wraps (c :: coeffs) = wraps coeffs + if scalarModulus < c.toNat then 1 else 0 := by
  simp only [wraps, List.countP_cons, decide_eq_true_eq]

theorem residue_linearTerm (coeffs : List Word) (term : Word) :
    (linearTerm coeffs term).residue =
      term.residue - (coeffs.map Word.residue).sum + 2 ^ 256 * (wraps coeffs : Fr) := by
  rw [linearTerm]
  induction coeffs generalizing term with
  | nil =>
    rw [List.foldl_nil, wraps_nil, List.map_nil, List.sum_nil, Nat.cast_zero, mul_zero, sub_zero, add_zero]
  | cons c coeffs ih =>
    rw [List.foldl_cons, ih, residue_addmod, residue_subFromR, wraps_cons, List.map_cons, List.sum_cons, Nat.cast_add]
    by_cases hwrap : scalarModulus < c.toNat
    · rw [if_pos hwrap, if_pos hwrap, Nat.cast_one]
      ring
    · rw [if_neg hwrap, if_neg hwrap, Nat.cast_zero]
      ring

theorem residue_evalLoop (x : Word) (coeffs : List Word) (runPow result : Word) :
    (evalLoop x runPow result coeffs).residue =
      CompressedUniPoly.evalLoop x.residue (coeffs.map Word.residue) result.residue runPow.residue := by
  induction coeffs generalizing runPow result with
  | nil => rfl
  | cons c coeffs ih =>
    simp only [evalLoop]
    rw [ih, residue_addmod, residue_mulmod, residue_mulmod]
    rfl

/-- One round on chain: the value that the reduced coefficients have from the hint, and the
point times what wrapped. -/
theorem residue_evalFromHint {coeffs : MemoryArray} (hne : coeffs.words ≠ []) (hint x : Word) {e : Fr}
    {shift : Fr} (hhint : hint.residue = e + 2 ^ 256 * shift) :
    ∃ e', (CompressedUniPoly.mk (coeffs.words.map Word.residue)).evalFromHint e x.residue = .some e' ∧
      (evalFromHint coeffs hint x).residue =
        e' + 2 ^ 256 * (x.residue * (shift + wraps coeffs.words.tail)) := by
  obtain ⟨words, next⟩ := coeffs
  cases words with
  | nil => exact absurd rfl hne
  | cons c0 rest =>
    refine ⟨_, rfl, ?_⟩
    simp only [evalFromHint, MemoryArray.first, List.headD_cons, List.tail_cons]
    rw [residue_evalLoop, residue_addmod, residue_mulmod, residue_linearTerm, residue_addmod,
      residue_subFromR_addmod, hhint, CompressedUniPoly.evalLoop_eq, CompressedUniPoly.evalLoop_eq,
      CompressedUniPoly.linearTerm_eq]
    simp only [Challenge.into, id]
    ring

/-- A round polynomial is given by its coefficients and its sum. -/
theorem exists_compress (coeffs : List Fr) (hne : coeffs ≠ []) (claim : Fr) :
    ∃ p : UniPoly Fr, p.compress = .some ⟨coeffs⟩ ∧ p.coeffs.length = coeffs.length + 1 ∧
      p.sumOverBit = claim := by
  cases coeffs with
  | nil => exact absurd rfl hne
  | cons c rest =>
    refine ⟨⟨c :: (claim - c - c - rest.sum) :: rest⟩, rfl, rfl, ?_⟩
    rw [UniPoly.sumOverBit, horner_one]
    simp only [horner, List.foldr_cons, List.sum_cons]
    ring

end Round

/-! ## The whole verification -/

section Verify

variable {keccak : Keccak256} {degreeBound : Nat}

theorem appendScalars_given (t : List Fr) (label : String) (scalars : List Fr) :
    givenChallenges.appendScalars t label scalars = t := by
  rw [Transcript.appendScalars]
  induction scalars with
  | nil => rfl
  | cons x xs ih => exact ih

/-- One round of the Rust verification on a given challenge. -/
theorem verifyRounds_given {coeffs : List Fr} {polys : List (CompressedUniPoly Fr)} {e e' r : Fr}
    (hlen : coeffs.length ≤ degreeBound) (heval : (CompressedUniPoly.mk coeffs).evalFromHint e r = .some e')
    (before rs : List Fr) :
    ClearSumcheckProof.verifyRounds givenChallenges degreeBound (⟨coeffs⟩ :: polys) e before (r :: rs) =
      ClearSumcheckProof.verifyRounds givenChallenges degreeBound polys e' (before ++ [r]) rs := by
  have hdegree : ¬ (CompressedUniPoly.mk coeffs).degree > degreeBound := Nat.not_lt.mpr hlen
  rw [ClearSumcheckProof.verifyRounds, if_neg hdegree]
  simp only [appendScalars_given]
  simp only [givenChallenges, List.headD_cons, List.tail_cons]
  rw [heval]

/-- What an accepting run gives: the final claim of sound rounds, which the Rust verification
returns as well, and the excess. -/
theorem verifyRounds_spec {polys : List MemoryArray} {e finalClaim : Word} {challenges : List Word}
    {t t' : JoltTranscript.Transcript}
    (h : verifyRounds keccak degreeBound e t polys = .some (finalClaim, challenges, t'))
    (hne : ∀ poly ∈ polys, poly.words ≠ []) {claim shift : Fr} (he : e.residue = claim + 2 ^ 256 * shift)
    (before : List Fr) :
    ∃ final, RoundsSound degreeBound (reduced polys) (challenges.map Word.residue) claim final ∧
      ClearSumcheckProof.verifyRounds givenChallenges degreeBound ((reduced polys).map .mk) claim before
        (challenges.map Word.residue) = .some (.ok (final, before ++ challenges.map Word.residue), []) ∧
      finalClaim.residue = final + 2 ^ 256 * excess keccak t shift polys := by
  induction polys generalizing e t challenges claim shift before with
  | nil =>
    cases h
    refine ⟨claim, rfl, ?_, he⟩
    rw [List.map_nil, List.append_nil]
    rfl
  | cons poly polys ih =>
    obtain ⟨hhead, htail⟩ := List.forall_mem_cons.mp hne
    rw [verifyRounds] at h
    by_cases hlen : poly.words.length ≤ degreeBound
    · simp only [if_pos hlen] at h
      split at h
      · cases h
      · rename_i final rs t'' hrest
        cases h
        obtain ⟨claim', heval, hclaim'⟩ := residue_evalFromHint hhead e
          ((t.appendLabeledScalars keccak (JoltTranscript.Transcript.bytes24 sumcheckPoly)
            poly.words).challengeScalarMont keccak).1 he
        obtain ⟨final', hsound, hrust, hfinal⟩ := ih hrest htail hclaim' (before ++ [Word.residue
          ((t.appendLabeledScalars keccak (JoltTranscript.Transcript.bytes24 sumcheckPoly)
            poly.words).challengeScalarMont keccak).1])
        obtain ⟨p, hcompress, hlength, hsum⟩ := exists_compress (poly.words.map Word.residue)
          (by simpa using hhead) claim
        refine ⟨final', ⟨p, hcompress, ?_, hsum, claim', ?_, hsound⟩, ?_, hfinal⟩
        · rw [hlength, List.length_map]
          omega
        · rw [← CompressedUniPoly.evalFromHint_compress hcompress, hsum]
          exact heval
        · rw [reduced, List.map_cons, List.map_cons, List.map_cons,
            verifyRounds_given (by rw [List.length_map]; exact hlen) heval]
          rw [List.append_assoc] at hrust
          exact hrust
    · simp only [if_neg hlen] at h
      cases h

/-- Sound rounds have at least a constant term each. -/
theorem RoundsSound.nonempty {polys : List MemoryArray} {rs : List Fr} {claim final : Fr}
    (h : RoundsSound degreeBound (reduced polys) rs claim final) : ∀ poly ∈ polys, poly.words ≠ [] := by
  induction polys generalizing rs claim with
  | nil => exact nofun
  | cons poly polys ih =>
    cases rs with
    | nil => exact h.elim
    | cons r rs =>
      obtain ⟨p, hcompress, -, -, e, -, hrest⟩ := h
      refine List.forall_mem_cons.mpr ⟨?_, ih hrest⟩
      intro hempty
      have hcompress : p.compress = .some ⟨poly.words.map Word.residue⟩ := hcompress
      rw [hempty] at hcompress
      obtain ⟨coeffs⟩ := p
      match coeffs, hcompress with
      | c :: l :: rest, hcompress => cases hcompress

section Iff

variable {polys : List MemoryArray} {claim finalClaim : Word} {numRounds : Nat} {challenges : List Word}
  {t t' : JoltTranscript.Transcript}

theorem verify_rounds
    (h : verify keccak polys claim numRounds degreeBound t = .some (finalClaim, challenges, t')) :
    polys.length = numRounds ∧
      verifyRounds keccak degreeBound claim t polys = .some (finalClaim, challenges, t') := by
  rw [verify] at h
  by_cases hlen : polys.length = numRounds
  · rw [if_pos hlen] at h
    exact ⟨hlen, h⟩
  · rw [if_neg hlen] at h
    cases h

theorem verify_given (hlen : polys.length = numRounds) (e : Fr) (rs : List Fr) :
    ClearSumcheckProof.verify givenChallenges ⟨(reduced polys).map .mk⟩ e numRounds degreeBound rs =
      ClearSumcheckProof.verifyRounds givenChallenges degreeBound ((reduced polys).map .mk) e [] rs := by
  rw [ClearSumcheckProof.verify, if_neg]
  rw [not_not, List.length_map, reduced, List.length_map, hlen]

theorem Established.excess_eq_zero
    (h : verify keccak polys claim numRounds degreeBound t = .some (finalClaim, challenges, t'))
    (hest : Established polys claim numRounds degreeBound finalClaim challenges) :
    excess keccak t 0 polys = 0 := by
  obtain ⟨hlen, hrun⟩ := verify_rounds h
  have hpow : (2 : Fr) ^ 256 ≠ 0 := pow_ne_zero _ JoltField.two_ne_zero
  have hstart : claim.residue = claim.residue + 2 ^ 256 * 0 := by rw [mul_zero, add_zero]
  obtain ⟨final, -, hverify, hfinal⟩ := verifyRounds_spec hrun (RoundsSound.nonempty hest.rounds) hstart []
  have heq := hest.rust
  rw [verify_given hlen, hverify] at heq
  have hsame : final = finalClaim.residue := by
    injection heq with heq
    injection heq with heq
    injection heq with heq
    injection heq
  rw [← hsame] at hfinal
  have hzero : 2 ^ 256 * excess keccak t 0 polys = 0 := by linear_combination -hfinal
  exact (mul_eq_zero.mp hzero).resolve_left hpow

/-- **The on-chain verification establishes what it should exactly when no array is empty and the
wrapped subtractions cancel**, as they do where there is none. -/
theorem established_iff
    (h : verify keccak polys claim numRounds degreeBound t = .some (finalClaim, challenges, t')) :
    Established polys claim numRounds degreeBound finalClaim challenges ↔
      (∀ poly ∈ polys, poly.words ≠ []) ∧ excess keccak t 0 polys = 0 := by
  constructor
  · intro hest
    exact ⟨RoundsSound.nonempty hest.rounds, hest.excess_eq_zero h⟩
  · intro hcond
    obtain ⟨hne, hexcess⟩ := hcond
    obtain ⟨hlen, hrun⟩ := verify_rounds h
    have hstart : claim.residue = claim.residue + 2 ^ 256 * 0 := by rw [mul_zero, add_zero]
    obtain ⟨final, hsound, hverify, hfinal⟩ := verifyRounds_spec hrun hne hstart []
    rw [hexcess, mul_zero, add_zero] at hfinal
    rw [← hfinal] at hsound hverify
    exact ⟨hsound, (verify_given hlen _ _).trans hverify⟩

set_option maxRecDepth 20000 in
theorem established_canonical :
    Established [⟨[3, 1], 0⟩] 7 1 2
      9915499612839321149637521777990102151350674507940716049588462388200839649617
      [8680525429001239497728366687280168587232520577698044359798894838135247199343] := by
  have hverify : verify (fun _ => 2 ^ 248) [⟨[3, 1], 0⟩] 7 1 2 ⟨5, 0⟩ =
      .some (9915499612839321149637521777990102151350674507940716049588462388200839649617,
        [8680525429001239497728366687280168587232520577698044359798894838135247199343], ⟨2 ^ 248, 4⟩) := by
    decide
  exact (established_iff hverify).mpr ⟨by decide, by decide⟩

set_option maxRecDepth 20000 in
/-- A quadratic coefficient past the modulus: the contract accepts and its final claim is not the
value of a round polynomial. -/
theorem wrapped_coefficient_accepted :
    verify (fun _ => 2 ^ 248) [⟨[3, -1], 0⟩] 7 1 2 ⟨5, 0⟩ =
        .some (7445551245163157845819211596570235023114366647455372670009327288069654749076,
          [8680525429001239497728366687280168587232520577698044359798894838135247199343], ⟨2 ^ 248, 4⟩) ∧
      ¬ Established [⟨[3, -1], 0⟩] 7 1 2
        7445551245163157845819211596570235023114366647455372670009327288069654749076
        [8680525429001239497728366687280168587232520577698044359798894838135247199343] := by
  have hverify : verify (fun _ => 2 ^ 248) [⟨[3, -1], 0⟩] 7 1 2 ⟨5, 0⟩ =
      .some (7445551245163157845819211596570235023114366647455372670009327288069654749076,
        [8680525429001239497728366687280168587232520577698044359798894838135247199343], ⟨2 ^ 248, 4⟩) := by
    decide
  refine ⟨hverify, ?_⟩
  intro hest
  have hexcess := hest.excess_eq_zero hverify
  revert hexcess
  decide

end Iff

end Verify

end SumcheckVerifier

end LightningJolt
