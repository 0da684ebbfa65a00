/-
The serialization of proofs (`jolt-core/src/zkvm/proof_serialization.rs`), without
the `zk` feature: tags of a byte for the openings and the polynomials, and the
fields of a proof in their order.
-/
import LightningJolt.Codec
import LightningJolt.Openings
import LightningJolt.Preamble

namespace LightningJolt

/-! ## Enumerations -/

/-- The values in the order of their discriminants. -/
def SumcheckId.all : List SumcheckId := [
  .SpartanOuter, .SpartanProductVirtualization, .SpartanShift, .InstructionClaimReduction,
  .InstructionInputVirtualization, .InstructionReadRaf, .InstructionRaVirtualization,
  .RamReadWriteChecking, .RamRafEvaluation, .RamOutputCheck, .RamValCheck, .RamRaClaimReduction,
  .RamHammingBooleanity, .RamRaVirtualization, .RegistersClaimReduction,
  .RegistersReadWriteChecking, .RegistersValEvaluation, .BytecodeReadRaf, .Booleanity,
  .AdviceClaimReductionCyclePhase, .AdviceClaimReduction, .IncClaimReduction,
  .HammingWeightClaimReduction]

/-- `as u8`. -/
def SumcheckId.discriminant (s : SumcheckId) : Nat := SumcheckId.all.idxOf s

/-- `from_u8`. -/
def SumcheckId.fromU8 (n : Nat) : Option SumcheckId := SumcheckId.all[n]?

def CircuitFlags.all : List CircuitFlags := [
  .AddOperands, .SubtractOperands, .MultiplyOperands, .Load, .Store, .Jump,
  .WriteLookupOutputToRD, .VirtualInstruction, .Assert, .DoNotUpdateUnexpandedPC, .Advice,
  .IsCompressed, .IsFirstInSequence, .IsLastInSequence]

def CircuitFlags.discriminant (f : CircuitFlags) : Nat := CircuitFlags.all.idxOf f

/-- `from_repr`. -/
def CircuitFlags.fromRepr (n : Nat) : Option CircuitFlags := CircuitFlags.all[n]?

def InstructionFlags.all : List InstructionFlags := [
  .LeftOperandIsPC, .RightOperandIsImm, .LeftOperandIsRs1Value, .RightOperandIsRs2Value, .Branch,
  .IsNoop]

def InstructionFlags.discriminant (f : InstructionFlags) : Nat := InstructionFlags.all.idxOf f

/-- `from_repr`. -/
def InstructionFlags.fromRepr (n : Nat) : Option InstructionFlags := InstructionFlags.all[n]?

/-- A tag alone. -/
def tag (t : Nat) : Option (List U8) := .some [BitVec.ofNat 8 t]

/-- A tag and a number, which `u8::try_from` takes. -/
def tagWith (t i : Nat) : Option (List U8) := do
  .some (BitVec.ofNat 8 t :: (← Codec.byte.encode i))

/-! ## Polynomials -/

namespace CommittedPolynomial

/-- `serialize_with_mode`. -/
def serialize : CommittedPolynomial → Option (List U8)
  | .RdInc => tag 0
  | .RamInc => tag 1
  | .InstructionRa i => tagWith 2 i
  | .BytecodeRa i => tagWith 3 i
  | .RamRa i => tagWith 4 i
  | .TrustedAdvice => tag 5
  | .UntrustedAdvice => tag 6

def serializedSize : CommittedPolynomial → Nat
  | .RdInc | .RamInc | .TrustedAdvice | .UntrustedAdvice => 1
  | .InstructionRa _ | .BytecodeRa _ | .RamRa _ => 2

/-- `deserialize_with_mode`. -/
def deserialize (bs : List U8) : Option (CommittedPolynomial × List U8) := do
  let (t, bs) ← Codec.byte.decode bs
  match t with
  | 0 => .some (.RdInc, bs)
  | 1 => .some (.RamInc, bs)
  | 2 => (Codec.byte.decode bs).map fun p => (.InstructionRa p.1, p.2)
  | 3 => (Codec.byte.decode bs).map fun p => (.BytecodeRa p.1, p.2)
  | 4 => (Codec.byte.decode bs).map fun p => (.RamRa p.1, p.2)
  | 5 => .some (.TrustedAdvice, bs)
  | 6 => .some (.UntrustedAdvice, bs)
  | _ => .none

def codec : Codec CommittedPolynomial := ⟨serialize, deserialize, serializedSize⟩

end CommittedPolynomial

namespace VirtualPolynomial

/-- `serialize_with_mode`. -/
def serialize : VirtualPolynomial → Option (List U8)
  | .PC => tag 0
  | .UnexpandedPC => tag 1
  | .NextPC => tag 2
  | .NextUnexpandedPC => tag 3
  | .NextIsNoop => tag 4
  | .NextIsVirtual => tag 5
  | .NextIsFirstInSequence => tag 6
  | .LeftLookupOperand => tag 7
  | .RightLookupOperand => tag 8
  | .LeftInstructionInput => tag 9
  | .RightInstructionInput => tag 10
  | .Product => tag 11
  | .ShouldJump => tag 12
  | .ShouldBranch => tag 13
  | .Rd => tag 14
  | .Imm => tag 15
  | .Rs1Value => tag 16
  | .Rs2Value => tag 17
  | .RdWriteValue => tag 18
  | .Rs1Ra => tag 19
  | .Rs2Ra => tag 20
  | .RdWa => tag 21
  | .LookupOutput => tag 22
  | .InstructionRaf => tag 23
  | .InstructionRafFlag => tag 24
  | .InstructionRa i => tagWith 25 i
  | .RegistersVal => tag 26
  | .RamAddress => tag 27
  | .RamRa => tag 28
  | .RamReadValue => tag 29
  | .RamWriteValue => tag 30
  | .RamVal => tag 31
  | .RamValInit => tag 32
  | .RamValFinal => tag 33
  | .RamHammingWeight => tag 34
  | .UnivariateSkip => tag 35
  | .OpFlags flag => tagWith 36 flag.discriminant
  | .InstructionFlags flag => tagWith 37 flag.discriminant
  | .LookupTableFlag flag => tagWith 38 flag

def serializedSize : VirtualPolynomial → Nat
  | .InstructionRa _ | .OpFlags _ | .InstructionFlags _ | .LookupTableFlag _ => 2
  | _ => 1

/-- `deserialize_with_mode`. -/
def deserialize (bs : List U8) : Option (VirtualPolynomial × List U8) := do
  let (t, bs) ← Codec.byte.decode bs
  match t with
  | 0 => .some (.PC, bs)
  | 1 => .some (.UnexpandedPC, bs)
  | 2 => .some (.NextPC, bs)
  | 3 => .some (.NextUnexpandedPC, bs)
  | 4 => .some (.NextIsNoop, bs)
  | 5 => .some (.NextIsVirtual, bs)
  | 6 => .some (.NextIsFirstInSequence, bs)
  | 7 => .some (.LeftLookupOperand, bs)
  | 8 => .some (.RightLookupOperand, bs)
  | 9 => .some (.LeftInstructionInput, bs)
  | 10 => .some (.RightInstructionInput, bs)
  | 11 => .some (.Product, bs)
  | 12 => .some (.ShouldJump, bs)
  | 13 => .some (.ShouldBranch, bs)
  | 14 => .some (.Rd, bs)
  | 15 => .some (.Imm, bs)
  | 16 => .some (.Rs1Value, bs)
  | 17 => .some (.Rs2Value, bs)
  | 18 => .some (.RdWriteValue, bs)
  | 19 => .some (.Rs1Ra, bs)
  | 20 => .some (.Rs2Ra, bs)
  | 21 => .some (.RdWa, bs)
  | 22 => .some (.LookupOutput, bs)
  | 23 => .some (.InstructionRaf, bs)
  | 24 => .some (.InstructionRafFlag, bs)
  | 25 => (Codec.byte.decode bs).map fun p => (.InstructionRa p.1, p.2)
  | 26 => .some (.RegistersVal, bs)
  | 27 => .some (.RamAddress, bs)
  | 28 => .some (.RamRa, bs)
  | 29 => .some (.RamReadValue, bs)
  | 30 => .some (.RamWriteValue, bs)
  | 31 => .some (.RamVal, bs)
  | 32 => .some (.RamValInit, bs)
  | 33 => .some (.RamValFinal, bs)
  | 34 => .some (.RamHammingWeight, bs)
  | 35 => .some (.UnivariateSkip, bs)
  | 36 => do
    let (i, bs) ← Codec.byte.decode bs
    .some (.OpFlags (← CircuitFlags.fromRepr i), bs)
  | 37 => do
    let (i, bs) ← Codec.byte.decode bs
    .some (.InstructionFlags (← InstructionFlags.fromRepr i), bs)
  | 38 => (Codec.byte.decode bs).map fun p => (.LookupTableFlag p.1, p.2)
  | _ => .none

def codec : Codec VirtualPolynomial := ⟨serialize, deserialize, serializedSize⟩

end VirtualPolynomial

/-! ## Openings -/

namespace OpeningId

/-- `OPENING_ID_TRUSTED_ADVICE_BASE` and those that follow it. -/
def trustedAdviceBase : Nat := SumcheckId.all.length

def committedBase : Nat := trustedAdviceBase + SumcheckId.all.length

def virtualBase : Nat := committedBase + SumcheckId.all.length

/-- `serialize_with_mode`. -/
def serialize : OpeningId → Option (List U8)
  | .UntrustedAdvice sumcheckId => tag sumcheckId.discriminant
  | .TrustedAdvice sumcheckId => tag (trustedAdviceBase + sumcheckId.discriminant)
  | .Polynomial (.Committed poly) sumcheckId => do
    .some (BitVec.ofNat 8 (committedBase + sumcheckId.discriminant) :: (← poly.serialize))
  | .Polynomial (.Virtual poly) sumcheckId => do
    .some (BitVec.ofNat 8 (virtualBase + sumcheckId.discriminant) :: (← poly.serialize))

def serializedSize : OpeningId → Nat
  | .UntrustedAdvice _ | .TrustedAdvice _ => 1
  | .Polynomial (.Committed poly) _ => 1 + poly.serializedSize
  | .Polynomial (.Virtual poly) _ => 1 + poly.serializedSize

/-- `deserialize_with_mode`. -/
def deserialize (bs : List U8) : Option (OpeningId × List U8) := do
  let (fused, bs) ← Codec.byte.decode bs
  if fused < trustedAdviceBase then
    .some (.UntrustedAdvice (← SumcheckId.fromU8 fused), bs)
  else if fused < committedBase then
    .some (.TrustedAdvice (← SumcheckId.fromU8 (fused - trustedAdviceBase)), bs)
  else if fused < virtualBase then
    let (poly, bs) ← CommittedPolynomial.deserialize bs
    .some (committed poly (← SumcheckId.fromU8 (fused - committedBase)), bs)
  else
    let (poly, bs) ← VirtualPolynomial.deserialize bs
    .some (virt poly (← SumcheckId.fromU8 (fused - virtualBase)), bs)

def codec : Codec OpeningId := ⟨serialize, deserialize, serializedSize⟩

end OpeningId

/-! ## The tags -/

theorem getElem?_all {α : Type} [DecidableEq α] {all : List α} (hnodup : all.Nodup) {n : Nat} {a : α} :
    all[n]? = .some a ↔ a ∈ all ∧ all.idxOf a = n := by
  constructor
  · intro h
    obtain ⟨hlt, rfl⟩ := List.getElem?_eq_some_iff.mp h
    exact ⟨List.getElem_mem hlt, hnodup.idxOf_getElem n hlt⟩
  · rintro ⟨hmem, rfl⟩
    rw [List.getElem?_eq_getElem (List.idxOf_lt_length_of_mem hmem), List.getElem_idxOf]

theorem SumcheckId.fromU8_eq {n : Nat} {s : SumcheckId} : fromU8 n = .some s ↔ s.discriminant = n := by
  rw [fromU8, getElem?_all (by decide)]
  exact ⟨And.right, fun h => ⟨by cases s <;> decide, h⟩⟩

theorem CircuitFlags.fromRepr_eq {n : Nat} {f : CircuitFlags} :
    fromRepr n = .some f ↔ f.discriminant = n := by
  rw [fromRepr, getElem?_all (by decide)]
  exact ⟨And.right, fun h => ⟨by cases f <;> decide, h⟩⟩

theorem InstructionFlags.fromRepr_eq {n : Nat} {f : InstructionFlags} :
    fromRepr n = .some f ↔ f.discriminant = n := by
  rw [fromRepr, getElem?_all (by decide)]
  exact ⟨And.right, fun h => ⟨by cases f <;> decide, h⟩⟩

theorem SumcheckId.discriminant_lt (s : SumcheckId) : s.discriminant < 23 := by
  cases s <;> decide

theorem decode_tag {t : Nat} (h : t < 256) (bs : List U8) :
    Codec.byte.decode (BitVec.ofNat 8 t :: bs) = .some (t, bs) := by
  change Option.some ((BitVec.ofNat 8 t).toNat, bs) = _
  rw [BitVec.toNat_ofNat, Nat.mod_eq_of_lt h]

theorem tagWith_eq {t i : Nat} {bs : List U8} (h : tagWith t i = .some bs) :
    ∃ xs, Codec.byte.encode i = .some xs ∧ bs = BitVec.ofNat 8 t :: xs := by
  obtain ⟨xs, hxs, h⟩ := Option.bind_eq_some_iff.mp h
  cases h
  exact ⟨xs, hxs, rfl⟩

theorem cons_eq_tag {b : U8} {t : Nat} (h : b.toNat = t) (bs : List U8) :
    b :: bs = BitVec.ofNat 8 t :: bs := by
  rw [← h, BitVec.ofNat_toNat, BitVec.setWidth_eq]

/-- What is decoded after a tag, with a number behind it. -/
theorem byte_used {α : Type} {t : Nat} {b : U8} {bs rest : List U8} {f : Nat → α} {a : α}
    (hb : b.toNat = t) (h : (Codec.byte.decode bs).map (fun p => (f p.1, p.2)) = .some (a, rest)) :
    ∃ i used, f i = a ∧ tagWith t i = .some used ∧ b :: bs = used ++ rest := by
  obtain ⟨⟨i, cs⟩, hi, hp⟩ := Option.map_eq_some_iff.mp h
  cases hp
  obtain ⟨used, hused, rfl⟩ := Codec.byte_canonical.encode_decode hi
  exact ⟨i, BitVec.ofNat 8 t :: used, rfl, by rw [tagWith, hused]; rfl, cons_eq_tag hb _⟩

namespace CommittedPolynomial

theorem codec_faithful : codec.Faithful where
  decode_encode {a bs} h rest := by
    cases a
    case InstructionRa i | BytecodeRa i | RamRa i =>
      obtain ⟨xs, hxs, rfl⟩ := tagWith_eq h
      change Option.map _ (Codec.byte.decode (xs ++ rest)) = _
      rw [Codec.byte_faithful.decode_encode hxs]
      rfl
    all_goals
      cases h
      rfl
  length_encode {a bs} h := by
    cases a
    case InstructionRa i | BytecodeRa i | RamRa i =>
      obtain ⟨xs, hxs, rfl⟩ := tagWith_eq h
      rw [List.length_cons, Codec.byte_faithful.length_encode hxs]
      rfl
    all_goals
      cases h
      rfl

theorem codec_canonical : codec.Canonical where
  encode_decode {bs a rest} h := by
    cases bs with
    | nil => cases h
    | cons b bs =>
      have hdecode : Codec.byte.decode (b :: bs) = .some (b.toNat, bs) := rfl
      simp only [codec, deserialize, hdecode, Option.bind_eq_bind, Option.bind_some] at h
      split at h
      case h_3 hb | h_4 hb | h_5 hb =>
        obtain ⟨i, used, rfl, hused, hbs⟩ := byte_used hb h
        exact ⟨used, hused, hbs⟩
      case h_8 => cases h
      all_goals
        rename_i hb
        cases h
        exact ⟨_, rfl, cons_eq_tag hb _⟩

end CommittedPolynomial

namespace VirtualPolynomial

theorem codec_faithful : codec.Faithful where
  decode_encode {a bs} h rest := by
    cases a
    case InstructionRa i | LookupTableFlag i =>
      obtain ⟨xs, hxs, rfl⟩ := tagWith_eq h
      change Option.map _ (Codec.byte.decode (xs ++ rest)) = _
      rw [Codec.byte_faithful.decode_encode hxs]
      rfl
    case OpFlags flag =>
      obtain ⟨xs, hxs, rfl⟩ := tagWith_eq h
      change (Codec.byte.decode (xs ++ rest)).bind _ = _
      rw [Codec.byte_faithful.decode_encode hxs, Option.bind_some]
      change (CircuitFlags.fromRepr flag.discriminant).bind _ = _
      rw [CircuitFlags.fromRepr_eq.mpr rfl]
      rfl
    case InstructionFlags flag =>
      obtain ⟨xs, hxs, rfl⟩ := tagWith_eq h
      change (Codec.byte.decode (xs ++ rest)).bind _ = _
      rw [Codec.byte_faithful.decode_encode hxs, Option.bind_some]
      change (LightningJolt.InstructionFlags.fromRepr flag.discriminant).bind _ = _
      rw [LightningJolt.InstructionFlags.fromRepr_eq.mpr rfl]
      rfl
    all_goals
      cases h
      rfl
  length_encode {a bs} h := by
    cases a
    case InstructionRa i | LookupTableFlag i | OpFlags i | InstructionFlags i =>
      obtain ⟨xs, hxs, rfl⟩ := tagWith_eq h
      rw [List.length_cons, Codec.byte_faithful.length_encode hxs]
      rfl
    all_goals
      cases h
      rfl

theorem codec_canonical : codec.Canonical where
  encode_decode {bs a rest} h := by
    cases bs with
    | nil => cases h
    | cons b bs =>
      have hdecode : Codec.byte.decode (b :: bs) = .some (b.toNat, bs) := rfl
      simp only [codec, deserialize, hdecode, Option.bind_eq_bind, Option.bind_some] at h
      split at h
      case h_26 hb | h_39 hb =>
        obtain ⟨i, used, rfl, hused, hbs⟩ := byte_used hb h
        exact ⟨used, hused, hbs⟩
      case h_37 hb =>
        obtain ⟨⟨i, cs⟩, hi, h⟩ := Option.bind_eq_some_iff.mp h
        obtain ⟨flag, hflag, h⟩ := Option.bind_eq_some_iff.mp h
        cases h
        obtain ⟨used, hused, rfl⟩ := Codec.byte_canonical.encode_decode hi
        refine ⟨BitVec.ofNat 8 36 :: used, ?_, cons_eq_tag hb _⟩
        change tagWith 36 flag.discriminant = _
        rw [tagWith, CircuitFlags.fromRepr_eq.mp hflag, hused]
        rfl
      case h_38 hb =>
        obtain ⟨⟨i, cs⟩, hi, h⟩ := Option.bind_eq_some_iff.mp h
        obtain ⟨flag, hflag, h⟩ := Option.bind_eq_some_iff.mp h
        cases h
        obtain ⟨used, hused, rfl⟩ := Codec.byte_canonical.encode_decode hi
        refine ⟨BitVec.ofNat 8 37 :: used, ?_, cons_eq_tag hb _⟩
        change tagWith 37 flag.discriminant = _
        rw [tagWith, LightningJolt.InstructionFlags.fromRepr_eq.mp hflag, hused]
        rfl
      case h_40 => cases h
      all_goals
        rename_i hb
        cases h
        exact ⟨_, rfl, cons_eq_tag hb _⟩

end VirtualPolynomial

namespace OpeningId

theorem bases : trustedAdviceBase = 23 ∧ committedBase = 46 ∧ virtualBase = 69 := by decide

theorem codec_faithful : codec.Faithful where
  decode_encode {a bs} h rest := by
    obtain ⟨htrusted, hcommitted, hvirtual⟩ := bases
    cases a with
    | UntrustedAdvice s =>
      have hs := s.discriminant_lt
      cases h
      simp only [codec, deserialize, List.cons_append, List.nil_append,
        decode_tag (show s.discriminant < 256 by omega), Option.bind_eq_bind, Option.bind_some]
      rw [if_pos (by omega), SumcheckId.fromU8_eq.mpr rfl]
      rfl
    | TrustedAdvice s =>
      have hs := s.discriminant_lt
      cases h
      simp only [codec, deserialize, List.cons_append, List.nil_append,
        decode_tag (show trustedAdviceBase + s.discriminant < 256 by omega), Option.bind_eq_bind,
        Option.bind_some]
      rw [if_neg (by omega), if_pos (by omega), Nat.add_sub_cancel_left,
        SumcheckId.fromU8_eq.mpr rfl]
      rfl
    | Polynomial poly s =>
      have hs := s.discriminant_lt
      cases poly with
      | Committed poly =>
        obtain ⟨xs, hxs, h⟩ := Option.bind_eq_some_iff.mp h
        cases h
        have hpoly := CommittedPolynomial.codec_faithful.decode_encode hxs rest
        simp only [CommittedPolynomial.codec] at hpoly
        simp only [codec, deserialize, List.cons_append,
          decode_tag (show committedBase + s.discriminant < 256 by omega), Option.bind_eq_bind,
          Option.bind_some]
        rw [if_neg (by omega), if_neg (by omega), if_pos (by omega), Nat.add_sub_cancel_left, hpoly,
          SumcheckId.fromU8_eq.mpr rfl]
        rfl
      | Virtual poly =>
        obtain ⟨xs, hxs, h⟩ := Option.bind_eq_some_iff.mp h
        cases h
        have hpoly := VirtualPolynomial.codec_faithful.decode_encode hxs rest
        simp only [VirtualPolynomial.codec] at hpoly
        simp only [codec, deserialize, List.cons_append,
          decode_tag (show virtualBase + s.discriminant < 256 by omega), Option.bind_eq_bind,
          Option.bind_some]
        rw [if_neg (by omega), if_neg (by omega), if_neg (by omega), Nat.add_sub_cancel_left, hpoly,
          SumcheckId.fromU8_eq.mpr rfl]
        rfl
  length_encode {a bs} h := by
    cases a with
    | UntrustedAdvice s | TrustedAdvice s =>
      cases h
      rfl
    | Polynomial poly s =>
      cases poly with
      | Committed poly =>
        obtain ⟨xs, hxs, h⟩ := Option.bind_eq_some_iff.mp h
        cases h
        rw [List.length_cons, CommittedPolynomial.codec_faithful.length_encode hxs, Nat.add_comm]
        rfl
      | Virtual poly =>
        obtain ⟨xs, hxs, h⟩ := Option.bind_eq_some_iff.mp h
        cases h
        rw [List.length_cons, VirtualPolynomial.codec_faithful.length_encode hxs, Nat.add_comm]
        rfl

theorem codec_canonical : codec.Canonical where
  encode_decode {bs a rest} h := by
    cases bs with
    | nil => cases h
    | cons b bs =>
      have hdecode : Codec.byte.decode (b :: bs) = .some (b.toNat, bs) := rfl
      simp only [codec, deserialize, hdecode, Option.bind_eq_bind, Option.bind_some] at h
      split_ifs at h with huntrusted htrusted hcommitted
      · obtain ⟨s, hs, h⟩ := Option.bind_eq_some_iff.mp h
        cases h
        exact ⟨_, rfl, cons_eq_tag (SumcheckId.fromU8_eq.mp hs).symm _⟩
      · obtain ⟨s, hs, h⟩ := Option.bind_eq_some_iff.mp h
        cases h
        have hvalue := SumcheckId.fromU8_eq.mp hs
        exact ⟨_, rfl, cons_eq_tag (by omega) _⟩
      · obtain ⟨⟨poly, cs⟩, hpoly, h⟩ := Option.bind_eq_some_iff.mp h
        obtain ⟨s, hs, h⟩ := Option.bind_eq_some_iff.mp h
        cases h
        have hvalue := SumcheckId.fromU8_eq.mp hs
        obtain ⟨used, hused, rfl⟩ := CommittedPolynomial.codec_canonical.encode_decode hpoly
        refine ⟨BitVec.ofNat 8 (committedBase + s.discriminant) :: used, ?_,
          cons_eq_tag (by omega) _⟩
        exact congrArg (Option.bind · _) hused
      · obtain ⟨⟨poly, cs⟩, hpoly, h⟩ := Option.bind_eq_some_iff.mp h
        obtain ⟨s, hs, h⟩ := Option.bind_eq_some_iff.mp h
        cases h
        have hvalue := SumcheckId.fromU8_eq.mp hs
        obtain ⟨used, hused, rfl⟩ := VirtualPolynomial.codec_canonical.encode_decode hpoly
        refine ⟨BitVec.ofNat 8 (virtualBase + s.discriminant) :: used, ?_,
          cons_eq_tag (by omega) _⟩
        exact congrArg (Option.bind · _) hused

end OpeningId

/-! ## Fitting indices -/

/-- The indices are those of a byte. -/
def CommittedPolynomial.Fits : CommittedPolynomial → Prop
  | .InstructionRa i | .BytecodeRa i | .RamRa i => i < 256
  | _ => True

def VirtualPolynomial.Fits : VirtualPolynomial → Prop
  | .InstructionRa i | .LookupTableFlag i => i < 256
  | _ => True

def OpeningId.Fits : OpeningId → Prop
  | .Polynomial (.Committed poly) _ => poly.Fits
  | .Polynomial (.Virtual poly) _ => poly.Fits
  | _ => True

theorem isSome_tagWith {t i : Nat} : (tagWith t i).isSome ↔ i < 256 := by
  simp only [tagWith, Codec.byte]
  split_ifs with h <;> simp [h]

theorem CommittedPolynomial.isSome_serialize (poly : CommittedPolynomial) :
    poly.serialize.isSome ↔ poly.Fits := by
  cases poly <;> first | exact isSome_tagWith | exact iff_of_true rfl trivial

theorem VirtualPolynomial.isSome_serialize (poly : VirtualPolynomial) :
    poly.serialize.isSome ↔ poly.Fits := by
  cases poly
  case InstructionRa i | LookupTableFlag i => exact isSome_tagWith
  case OpFlags flag => exact iff_of_true (isSome_tagWith.mpr (by cases flag <;> decide)) trivial
  case InstructionFlags flag =>
    exact iff_of_true (isSome_tagWith.mpr (by cases flag <;> decide)) trivial
  all_goals exact iff_of_true rfl trivial

theorem OpeningId.isSome_serialize (id : OpeningId) : id.serialize.isSome ↔ id.Fits := by
  cases id with
  | UntrustedAdvice s | TrustedAdvice s => exact iff_of_true rfl trivial
  | Polynomial poly s =>
    cases poly with
    | Committed poly =>
      rw [OpeningId.Fits, ← poly.isSome_serialize, serialize]
      cases poly.serialize <;> simp
    | Virtual poly =>
      rw [OpeningId.Fits, ← poly.isSome_serialize, serialize]
      cases poly.serialize <;> simp

/-! ## The parts of a proof -/

section Parts

/-- `UniSkipFirstRoundProofVariant`. -/
inductive UniSkipFirstRoundProofVariant (F G : Type)
  | Standard (coeffs : List F)
  | Zk (commitment : G) (polyDegree : U64) (outputClaimsCommitments : List G)

/-- `SumcheckInstanceProof`. -/
inductive SumcheckInstanceProof (F G : Type)
  | Clear (compressedPolys : List (List F))
  | Zk (roundCommitments : List G) (polyDegrees : List U64) (outputClaimsCommitments : List G)

variable {F G : Type} (field : Codec F) (group : Codec G)

def UniSkipFirstRoundProofVariant.codec : Codec (UniSkipFirstRoundProofVariant F G) :=
  (field.vec.either (group.pair (Codec.word.pair group.vec))).xmap
    (fun
      | .inl coeffs => .Standard coeffs
      | .inr (commitment, polyDegree, output) => .Zk commitment polyDegree output)
    (fun
      | .Standard coeffs => .inl coeffs
      | .Zk commitment polyDegree output => .inr (commitment, polyDegree, output))

def SumcheckInstanceProof.codec : Codec (SumcheckInstanceProof F G) :=
  (field.vec.vec.either (group.vec.pair (Codec.word.vec.pair group.vec))).xmap
    (fun
      | .inl polys => .Clear polys
      | .inr (rounds, polyDegrees, output) => .Zk rounds polyDegrees output)
    (fun
      | .Clear polys => .inl polys
      | .Zk rounds polyDegrees output => .inr (rounds, polyDegrees, output))

/-- A `u8`. -/
def u8Codec : Codec U8 := Codec.byte.xmap (BitVec.ofNat 8) BitVec.toNat

def ReadWriteConfig.codec : Codec ReadWriteConfig :=
  (u8Codec.pair (u8Codec.pair (u8Codec.pair u8Codec))).xmap
    (fun p => ⟨p.1, p.2.1, p.2.2.1, p.2.2.2⟩)
    (fun c => (c.ramRwPhase1NumRounds, c.ramRwPhase2NumRounds, c.registersRwPhase1NumRounds,
      c.registersRwPhase2NumRounds))

def OneHotConfig.codec : Codec OneHotConfig :=
  (Codec.byte.pair Codec.byte).xmap (fun p => ⟨p.1, p.2⟩)
    (fun c => (c.logKChunk, c.lookupsRaVirtualLogKChunk))

/-- Other values of the byte are invalid. -/
def DoryLayout.codec : Codec DoryLayout where
  encode
    | .CycleMajor => Codec.byte.encode 0
    | .AddressMajor => Codec.byte.encode 1
  decode bs := do
    let (value, bs) ← Codec.byte.decode bs
    if value > 1 then .none
    else .some (if value = 0 then .CycleMajor else .AddressMajor, bs)
  size _ := 1

variable {field group}

theorem UniSkipFirstRoundProofVariant.codec_faithful (hfield : field.Faithful)
    (hgroup : group.Faithful) : (codec field group).Faithful := by
  refine Codec.xmap_faithful (Codec.either_faithful (Codec.vec_faithful hfield)
    (Codec.pair_faithful hgroup (Codec.pair_faithful Codec.word_faithful
      (Codec.vec_faithful hgroup)))) ?_
  rintro (coeffs | ⟨commitment, polyDegree, output⟩) <;> rfl

theorem SumcheckInstanceProof.codec_faithful (hfield : field.Faithful) (hgroup : group.Faithful) :
    (codec field group).Faithful := by
  refine Codec.xmap_faithful (Codec.either_faithful (Codec.vec_faithful (Codec.vec_faithful hfield))
    (Codec.pair_faithful (Codec.vec_faithful hgroup) (Codec.pair_faithful
      (Codec.vec_faithful Codec.word_faithful) (Codec.vec_faithful hgroup)))) ?_
  rintro (polys | ⟨rounds, polyDegrees, output⟩) <;> rfl

theorem u8Codec_faithful : u8Codec.Faithful :=
  Codec.xmap_faithful Codec.byte_faithful fun b => by rw [BitVec.ofNat_toNat, BitVec.setWidth_eq]

theorem ReadWriteConfig.codec_faithful : codec.Faithful :=
  Codec.xmap_faithful (Codec.pair_faithful u8Codec_faithful (Codec.pair_faithful u8Codec_faithful
    (Codec.pair_faithful u8Codec_faithful u8Codec_faithful))) fun _ => rfl

theorem OneHotConfig.codec_faithful : codec.Faithful :=
  Codec.xmap_faithful (Codec.pair_faithful Codec.byte_faithful Codec.byte_faithful) fun _ => rfl

theorem DoryLayout.codec_faithful : codec.Faithful where
  decode_encode {layout bs} h rest := by
    cases layout <;> cases h <;> rfl
  length_encode {layout bs} h := by
    cases layout <;> cases h <;> rfl

end Parts

/-! ## The claims -/

section Claims

variable {K V W : Type} [LinearOrder K]

/-- `BTreeMap`: its entries in the order of the keys. -/
structure BTreeMap (K V : Type) [LinearOrder K] where
  entries : List (K × V)
  sorted : (entries.map Prod.fst).Pairwise (· < ·)

namespace BTreeMap

/-- The entries with one more, or another value for its key. -/
def insertEntry (key : K) (value : V) : List (K × V) → List (K × V)
  | [] => [(key, value)]
  | e :: es =>
    if key < e.1 then (key, value) :: e :: es
    else if key = e.1 then (key, value) :: es
    else e :: insertEntry key value es

theorem mem_insertEntry {key k : K} {value : V} {es : List (K × V)}
    (h : k ∈ (insertEntry key value es).map Prod.fst) : k = key ∨ k ∈ es.map Prod.fst := by
  induction es with
  | nil => exact .inl (List.mem_singleton.mp h)
  | cons e es ih =>
    rw [insertEntry] at h
    split_ifs at h with hlt heq
    · rcases List.mem_cons.mp h with rfl | hmem
      · exact .inl rfl
      · exact .inr hmem
    · rcases List.mem_cons.mp h with rfl | hmem
      · exact .inl rfl
      · exact .inr (List.mem_cons_of_mem _ hmem)
    · rcases List.mem_cons.mp h with rfl | hmem
      · exact .inr List.mem_cons_self
      · exact (ih hmem).imp_right (List.mem_cons_of_mem _)

theorem sorted_insertEntry {key : K} {value : V} {es : List (K × V)}
    (h : (es.map Prod.fst).Pairwise (· < ·)) :
    ((insertEntry key value es).map Prod.fst).Pairwise (· < ·) := by
  induction es with
  | nil => exact List.pairwise_singleton _ _
  | cons e es ih =>
    obtain ⟨hfirst, hrest⟩ := List.pairwise_cons.mp h
    rw [insertEntry]
    split_ifs with hlt heq
    · refine List.pairwise_cons.mpr ⟨fun k hk => ?_, h⟩
      rcases List.mem_cons.mp hk with rfl | hk
      · exact hlt
      · exact hlt.trans (hfirst k hk)
    · exact List.pairwise_cons.mpr ⟨fun k hk => heq ▸ hfirst k hk, hrest⟩
    · refine List.pairwise_cons.mpr ⟨fun k hk => ?_, ih hrest⟩
      rcases mem_insertEntry hk with rfl | hk
      · exact lt_of_le_of_ne (not_lt.mp hlt) (Ne.symm heq)
      · exact hfirst k hk

def empty : BTreeMap K V := ⟨[], List.Pairwise.nil⟩

def insert (m : BTreeMap K V) (key : K) (value : V) : BTreeMap K V :=
  ⟨insertEntry key value m.entries, sorted_insertEntry m.sorted⟩

def map (f : V → W) (m : BTreeMap K V) : BTreeMap K W :=
  ⟨m.entries.map fun e => (e.1, f e.2), by rw [List.map_map]; exact m.sorted⟩

theorem ext {m m' : BTreeMap K V} (h : m.entries = m'.entries) : m = m' := by
  cases m
  cases m'
  cases h
  rfl

/-- A key beyond the others comes last. -/
theorem insertEntry_last {key : K} {value : V} {es : List (K × V)} (h : ∀ e ∈ es, e.1 < key) :
    insertEntry key value es = es ++ [(key, value)] := by
  induction es with
  | nil => rfl
  | cons e es ih =>
    obtain ⟨he, hes⟩ := List.forall_mem_cons.mp h
    rw [insertEntry, if_neg (not_lt.mpr he.le), if_neg (Ne.symm he.ne), ih hes, List.cons_append]

/-- Sorted entries inserted in their order. -/
theorem foldl_insert (m : BTreeMap K V) (es : List (K × V))
    (h : ((m.entries ++ es).map Prod.fst).Pairwise (· < ·)) :
    (es.foldl (fun m e => m.insert e.1 e.2) m).entries = m.entries ++ es := by
  induction es generalizing m with
  | nil => rw [List.foldl_nil, List.append_nil]
  | cons e es ih =>
    have hlast : ∀ x ∈ m.entries, x.1 < e.1 := by
      intro x hx
      rw [List.map_append, List.pairwise_append] at h
      exact h.2.2 _ (List.mem_map_of_mem hx) _ (List.mem_map_of_mem List.mem_cons_self)
    have hinsert : (m.insert e.1 e.2).entries = m.entries ++ [e] := insertEntry_last hlast
    rw [List.foldl_cons, ih, hinsert, List.append_assoc, List.cons_append, List.nil_append]
    rwa [hinsert, List.append_assoc]

end BTreeMap

variable {F C : Type} [LinearOrder OpeningId] (field : Codec F)

/-- `Claims`: the openings of a proof. -/
abbrev Claims (F C : Type) := BTreeMap OpeningId (OpeningPoint C × F)

namespace Claims

/-- `serialize_with_mode`: the points stay behind. -/
def serialize (claims : Claims F C) : Option (List U8) :=
  (OpeningId.codec.pair field).vec.encode (claims.entries.map fun e => (e.1, e.2.2))

/-- The loop of `deserialize_with_mode`. -/
def deserializeLoop : Nat → Claims F C → List U8 → Option (Claims F C × List U8)
  | 0, claims, bs => .some (claims, bs)
  | n + 1, claims, bs => do
    let (key, bs) ← OpeningId.deserialize bs
    let (claim, bs) ← field.decode bs
    deserializeLoop n (claims.insert key ([], claim)) bs

def deserialize (bs : List U8) : Option (Claims F C × List U8) := do
  let (size, bs) ← Codec.word.decode bs
  deserializeLoop field size.toNat BTreeMap.empty bs

/-- The claims without their points. -/
def withoutPoints (claims : Claims F C) : Claims F C := claims.map fun v => ([], v.2)

variable {field}

theorem deserializeLoop_eq (n : Nat) (claims : Claims F C) (bs : List U8) :
    deserializeLoop field n claims bs = ((OpeningId.codec.pair field).decodeAll n bs).map fun p =>
      (p.1.foldl (fun m e => m.insert e.1 ([], e.2)) claims, p.2) := by
  induction n generalizing claims bs with
  | zero => rfl
  | succ n ih =>
    have hpair : (OpeningId.codec.pair field).decode bs = (OpeningId.deserialize bs).bind fun p =>
        (field.decode p.2).bind fun q => .some ((p.1, q.1), q.2) := rfl
    simp only [deserializeLoop, Codec.decodeAll, hpair, Option.bind_eq_bind, Option.bind_assoc,
      Option.bind_some, Option.map_bind, ih]
    refine Option.bind_congr fun p _ => ?_
    rw [Function.comp_apply, Option.map_bind]
    refine Option.bind_congr fun q _ => ?_
    rw [Function.comp_apply]
    cases Codec.decodeAll (OpeningId.codec.pair field) n q.2 <;> rfl

theorem deserialize_serialize (hfield : field.Faithful) {claims : Claims F C} {bs : List U8}
    (h : claims.serialize field = .some bs) (rest : List U8) :
    deserialize field (bs ++ rest) = .some (claims.withoutPoints, rest) := by
  have hvec := Codec.vec_faithful (Codec.pair_faithful OpeningId.codec_faithful hfield)
  have hdecode := hvec.decode_encode h rest
  have hloop : ∀ bs : List U8, deserialize (C := C) field bs =
      ((OpeningId.codec.pair field).vec.decode bs).map fun p =>
        (p.1.foldl (fun m e => m.insert e.1 ([], e.2)) BTreeMap.empty, p.2) := by
    intro bs
    simp only [deserialize, Codec.vec, Option.bind_eq_bind, deserializeLoop_eq, Option.map_bind]
    rfl
  rw [hloop, hdecode, Option.map_some]
  refine congrArg (fun m => Option.some (m, rest)) (BTreeMap.ext ?_)
  have hsorted := claims.sorted
  have hfold := BTreeMap.foldl_insert (BTreeMap.empty : Claims F C)
    (claims.entries.map fun e => (e.1, ([], e.2.2))) (by
      rw [BTreeMap.empty, List.nil_append, List.map_map]
      exact claims.sorted)
  rw [List.foldl_map] at hfold ⊢
  exact hfold

end Claims

/-! ## Proofs -/

/-- `JoltProof`, with the fields that `JoltVerifier::new` does not read. -/
structure FullJoltProof (K P H F G C : Type) extends JoltProof K where
  stage1UniSkipFirstRoundProof : UniSkipFirstRoundProofVariant F G
  stage1SumcheckProof : SumcheckInstanceProof F G
  stage2UniSkipFirstRoundProof : UniSkipFirstRoundProofVariant F G
  stage2SumcheckProof : SumcheckInstanceProof F G
  stage3SumcheckProof : SumcheckInstanceProof F G
  stage4SumcheckProof : SumcheckInstanceProof F G
  stage5SumcheckProof : SumcheckInstanceProof F G
  stage6SumcheckProof : SumcheckInstanceProof F G
  stage7SumcheckProof : SumcheckInstanceProof F G
  jointOpeningProof : P
  openingHint : Option H
  openingClaims : Claims F C
  doryLayout : DoryLayout

/-- The codecs of the field, the group and the commitment scheme. -/
structure ProofCodecs (K P F G : Type) where
  commitment : Codec K
  openingProof : Codec P
  field : Codec F
  group : Codec G

/-- They round-trip. -/
structure ProofCodecs.Faithful {K P F G : Type} (codecs : ProofCodecs K P F G) : Prop where
  commitment : codecs.commitment.Faithful
  openingProof : codecs.openingProof.Faithful
  field : codecs.field.Faithful
  group : codecs.group.Faithful

namespace FullJoltProof

variable {P H G : Type} {K : Type} (codecs : ProofCodecs K P F G)

/-- `serialize_with_mode`. -/
def serialize (p : FullJoltProof K P H F G C) : Option (List U8) := do
  let uniSkip := UniSkipFirstRoundProofVariant.codec codecs.field codecs.group
  let sumcheck := SumcheckInstanceProof.codec codecs.field codecs.group
  let commitments ← codecs.commitment.vec.encode p.commitments
  let stage1UniSkip ← uniSkip.encode p.stage1UniSkipFirstRoundProof
  let stage1 ← sumcheck.encode p.stage1SumcheckProof
  let stage2UniSkip ← uniSkip.encode p.stage2UniSkipFirstRoundProof
  let stage2 ← sumcheck.encode p.stage2SumcheckProof
  let stage3 ← sumcheck.encode p.stage3SumcheckProof
  let stage4 ← sumcheck.encode p.stage4SumcheckProof
  let stage5 ← sumcheck.encode p.stage5SumcheckProof
  let stage6 ← sumcheck.encode p.stage6SumcheckProof
  let stage7 ← sumcheck.encode p.stage7SumcheckProof
  let jointOpening ← codecs.openingProof.encode p.jointOpeningProof
  let untrusted ← codecs.commitment.option.encode p.untrustedAdviceCommitment
  let claims ← p.openingClaims.serialize codecs.field
  let traceLength ← Codec.word.encode p.traceLength
  let ramK ← Codec.word.encode p.ramK
  let rw ← ReadWriteConfig.codec.encode p.rwConfig
  let oneHot ← OneHotConfig.codec.encode p.oneHotConfig
  let layout ← DoryLayout.codec.encode p.doryLayout
  .some (commitments ++ (stage1UniSkip ++ (stage1 ++ (stage2UniSkip ++ (stage2 ++ (stage3 ++
    (stage4 ++ (stage5 ++ (stage6 ++ (stage7 ++ (jointOpening ++ (untrusted ++ (claims ++
    (traceLength ++ (ramK ++ (rw ++ (oneHot ++ layout)))))))))))))))))

/-- `deserialize_with_mode`; the hint is not kept. -/
def deserialize (bs : List U8) : Option (FullJoltProof K P H F G C × List U8) := do
  let uniSkip := UniSkipFirstRoundProofVariant.codec codecs.field codecs.group
  let sumcheck := SumcheckInstanceProof.codec codecs.field codecs.group
  let (commitments, bs) ← codecs.commitment.vec.decode bs
  let (stage1UniSkipFirstRoundProof, bs) ← uniSkip.decode bs
  let (stage1SumcheckProof, bs) ← sumcheck.decode bs
  let (stage2UniSkipFirstRoundProof, bs) ← uniSkip.decode bs
  let (stage2SumcheckProof, bs) ← sumcheck.decode bs
  let (stage3SumcheckProof, bs) ← sumcheck.decode bs
  let (stage4SumcheckProof, bs) ← sumcheck.decode bs
  let (stage5SumcheckProof, bs) ← sumcheck.decode bs
  let (stage6SumcheckProof, bs) ← sumcheck.decode bs
  let (stage7SumcheckProof, bs) ← sumcheck.decode bs
  let (jointOpeningProof, bs) ← codecs.openingProof.decode bs
  let (untrustedAdviceCommitment, bs) ← codecs.commitment.option.decode bs
  let (openingClaims, bs) ← Claims.deserialize codecs.field bs
  let (traceLength, bs) ← Codec.word.decode bs
  let (ramK, bs) ← Codec.word.decode bs
  let (rwConfig, bs) ← ReadWriteConfig.codec.decode bs
  let (oneHotConfig, bs) ← OneHotConfig.codec.decode bs
  let (doryLayout, bs) ← DoryLayout.codec.decode bs
  .some ({
    commitments, untrustedAdviceCommitment, traceLength, ramK, rwConfig, oneHotConfig,
    stage1UniSkipFirstRoundProof, stage1SumcheckProof, stage2UniSkipFirstRoundProof,
    stage2SumcheckProof, stage3SumcheckProof, stage4SumcheckProof, stage5SumcheckProof,
    stage6SumcheckProof, stage7SumcheckProof, jointOpeningProof, openingHint := .none,
    openingClaims, doryLayout }, bs)

/-- What serialization keeps: not the hint, and of the claims not their points. -/
def kept (p : FullJoltProof K P H F G C) : FullJoltProof K P H F G C :=
  { p with openingHint := .none, openingClaims := Claims.withoutPoints p.openingClaims }

variable {codecs}

theorem deserialize_serialize (hcodecs : codecs.Faithful) {p : FullJoltProof K P H F G C}
    {bs : List U8} (h : p.serialize codecs = .some bs) (rest : List U8) :
    deserialize codecs (bs ++ rest) = .some (p.kept, rest) := by
  have huniSkip := UniSkipFirstRoundProofVariant.codec_faithful hcodecs.field hcodecs.group
  have hsumcheck := SumcheckInstanceProof.codec_faithful hcodecs.field hcodecs.group
  obtain ⟨_, h1, h⟩ := Option.bind_eq_some_iff.mp h
  obtain ⟨_, h2, h⟩ := Option.bind_eq_some_iff.mp h
  obtain ⟨_, h3, h⟩ := Option.bind_eq_some_iff.mp h
  obtain ⟨_, h4, h⟩ := Option.bind_eq_some_iff.mp h
  obtain ⟨_, h5, h⟩ := Option.bind_eq_some_iff.mp h
  obtain ⟨_, h6, h⟩ := Option.bind_eq_some_iff.mp h
  obtain ⟨_, h7, h⟩ := Option.bind_eq_some_iff.mp h
  obtain ⟨_, h8, h⟩ := Option.bind_eq_some_iff.mp h
  obtain ⟨_, h9, h⟩ := Option.bind_eq_some_iff.mp h
  obtain ⟨_, h10, h⟩ := Option.bind_eq_some_iff.mp h
  obtain ⟨_, h11, h⟩ := Option.bind_eq_some_iff.mp h
  obtain ⟨_, h12, h⟩ := Option.bind_eq_some_iff.mp h
  obtain ⟨_, h13, h⟩ := Option.bind_eq_some_iff.mp h
  obtain ⟨_, h14, h⟩ := Option.bind_eq_some_iff.mp h
  obtain ⟨_, h15, h⟩ := Option.bind_eq_some_iff.mp h
  obtain ⟨_, h16, h⟩ := Option.bind_eq_some_iff.mp h
  obtain ⟨_, h17, h⟩ := Option.bind_eq_some_iff.mp h
  obtain ⟨_, h18, h⟩ := Option.bind_eq_some_iff.mp h
  cases h
  simp only [List.append_assoc]
  have hcommitments := (Codec.vec_faithful hcodecs.commitment).decode_encode h1
  have huntrusted := (Codec.option_faithful hcodecs.commitment).decode_encode h12
  have hclaims := Claims.deserialize_serialize hcodecs.field h13
  refine Option.bind_eq_some_iff.mpr ⟨_, hcommitments _, ?_⟩
  refine Option.bind_eq_some_iff.mpr ⟨_, huniSkip.decode_encode h2 _, ?_⟩
  refine Option.bind_eq_some_iff.mpr ⟨_, hsumcheck.decode_encode h3 _, ?_⟩
  refine Option.bind_eq_some_iff.mpr ⟨_, huniSkip.decode_encode h4 _, ?_⟩
  refine Option.bind_eq_some_iff.mpr ⟨_, hsumcheck.decode_encode h5 _, ?_⟩
  refine Option.bind_eq_some_iff.mpr ⟨_, hsumcheck.decode_encode h6 _, ?_⟩
  refine Option.bind_eq_some_iff.mpr ⟨_, hsumcheck.decode_encode h7 _, ?_⟩
  refine Option.bind_eq_some_iff.mpr ⟨_, hsumcheck.decode_encode h8 _, ?_⟩
  refine Option.bind_eq_some_iff.mpr ⟨_, hsumcheck.decode_encode h9 _, ?_⟩
  refine Option.bind_eq_some_iff.mpr ⟨_, hsumcheck.decode_encode h10 _, ?_⟩
  refine Option.bind_eq_some_iff.mpr ⟨_, hcodecs.openingProof.decode_encode h11 _, ?_⟩
  refine Option.bind_eq_some_iff.mpr ⟨_, huntrusted _, ?_⟩
  refine Option.bind_eq_some_iff.mpr ⟨_, hclaims _, ?_⟩
  refine Option.bind_eq_some_iff.mpr ⟨_, Codec.word_faithful.decode_encode h14 _, ?_⟩
  refine Option.bind_eq_some_iff.mpr ⟨_, Codec.word_faithful.decode_encode h15 _, ?_⟩
  refine Option.bind_eq_some_iff.mpr ⟨_, ReadWriteConfig.codec_faithful.decode_encode h16 _, ?_⟩
  refine Option.bind_eq_some_iff.mpr ⟨_, OneHotConfig.codec_faithful.decode_encode h17 _, ?_⟩
  refine Option.bind_eq_some_iff.mpr ⟨_, DoryLayout.codec_faithful.decode_encode h18 _, ?_⟩
  rfl

/-- **The proof codec is faithful**: the ids of the openings and of the polynomials
have exact codecs, and a proof that was serialized is deserialized to itself, but for
the hint and the points of its claims. -/
theorem proof_codec_exact :
    OpeningId.codec.Exact OpeningId.Fits ∧
      CommittedPolynomial.codec.Exact CommittedPolynomial.Fits ∧
      VirtualPolynomial.codec.Exact VirtualPolynomial.Fits ∧
      ∀ (codecs : ProofCodecs K P F G), codecs.Faithful →
        ∀ (p : FullJoltProof K P H F G C) (bs : List U8), p.serialize codecs = .some bs →
          ∀ rest, deserialize codecs (bs ++ rest) = .some (p.kept, rest) := by
  refine ⟨?_, ?_, ?_, fun codecs hcodecs p bs h rest => deserialize_serialize hcodecs h rest⟩
  · exact OpeningId.codec_faithful.exact OpeningId.codec_canonical OpeningId.isSome_serialize
  · exact CommittedPolynomial.codec_faithful.exact CommittedPolynomial.codec_canonical
      CommittedPolynomial.isSome_serialize
  · exact VirtualPolynomial.codec_faithful.exact VirtualPolynomial.codec_canonical
      VirtualPolynomial.isSome_serialize

end FullJoltProof

end Claims

/-- A proof with one claim, over bytes. -/
def oneClaimProof [LinearOrder OpeningId] : FullJoltProof Nat Nat Unit Nat Nat Nat where
  commitments := [3, 5]
  untrustedAdviceCommitment := .some 7
  traceLength := 2
  ramK := 8
  rwConfig := ⟨1, 0, 0, 0⟩
  oneHotConfig := ⟨4, 16⟩
  stage1UniSkipFirstRoundProof := .Standard [1, 2]
  stage1SumcheckProof := .Clear [[9], []]
  stage2UniSkipFirstRoundProof := .Zk 4 2 [6]
  stage2SumcheckProof := .Zk [1] [3] []
  stage3SumcheckProof := .Clear []
  stage4SumcheckProof := .Clear []
  stage5SumcheckProof := .Clear []
  stage6SumcheckProof := .Clear []
  stage7SumcheckProof := .Clear []
  jointOpeningProof := 11
  openingHint := .some ()
  openingClaims := ⟨[(.committed (.RamRa 255) .Booleanity, ([1, 2], 13))], List.pairwise_singleton _ _⟩
  doryLayout := .AddressMajor

theorem proof_codec_exact_oneClaim : ∃ (_ : LinearOrder OpeningId) (bs : List U8),
    oneClaimProof.serialize ⟨Codec.byte, Codec.byte, Codec.byte, Codec.byte⟩ = .some bs ∧
      FullJoltProof.deserialize ⟨Codec.byte, Codec.byte, Codec.byte, Codec.byte⟩ (bs ++ [1]) =
        .some (oneClaimProof.kept, [1]) := by
  have hcodecs : ProofCodecs.Faithful ⟨Codec.byte, Codec.byte, Codec.byte, Codec.byte⟩ :=
    ⟨Codec.byte_faithful, Codec.byte_faithful, Codec.byte_faithful, Codec.byte_faithful⟩
  let _ : LinearOrder OpeningId := IsWellOrder.linearOrder WellOrderingRel
  obtain ⟨bs, hbs⟩ : ∃ bs, oneClaimProof.serialize
      ⟨Codec.byte, Codec.byte, Codec.byte, Codec.byte⟩ = .some bs := ⟨_, rfl⟩
  exact ⟨inferInstance, bs, hbs, FullJoltProof.proof_codec_exact.2.2.2 _ hcodecs _ _ hbs [1]⟩

end LightningJolt
