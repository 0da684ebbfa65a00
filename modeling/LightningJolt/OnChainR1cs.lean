/-
The evaluation of the constraints at a point, by the Rust verifier
(`jolt-core/src/zkvm/r1cs/key.rs`) and by the contract
(`onchain-verifier/contracts/R1CSEvaluator.sol`): the contract's expressions with
its numbered inputs are the linear combinations of the table.
-/
import LightningJolt.LagrangeWeights
import LightningJolt.R1csConstraints

namespace LightningJolt

/-! ## The key of the Rust verifier -/

/-- `to_index`, in the order of `ALL_R1CS_INPUTS`. -/
def JoltR1CSInputs.toIndex : JoltR1CSInputs → Fin 35
  | LeftInstructionInput => 0
  | RightInstructionInput => 1
  | Product => 2
  | ShouldBranch => 3
  | PC => 4
  | UnexpandedPC => 5
  | Imm => 6
  | RamAddress => 7
  | Rs1Value => 8
  | Rs2Value => 9
  | RdWriteValue => 10
  | RamReadValue => 11
  | RamWriteValue => 12
  | LeftLookupOperand => 13
  | RightLookupOperand => 14
  | NextUnexpandedPC => 15
  | NextPC => 16
  | NextIsVirtual => 17
  | NextIsFirstInSequence => 18
  | LookupOutput => 19
  | ShouldJump => 20
  | OpFlags .AddOperands => 21
  | OpFlags .SubtractOperands => 22
  | OpFlags .MultiplyOperands => 23
  | OpFlags .Load => 24
  | OpFlags .Store => 25
  | OpFlags .Jump => 26
  | OpFlags .WriteLookupOutputToRD => 27
  | OpFlags .VirtualInstruction => 28
  | OpFlags .Assert => 29
  | OpFlags .DoNotUpdateUnexpandedPC => 30
  | OpFlags .Advice => 31
  | OpFlags .IsCompressed => 32
  | OpFlags .IsFirstInSequence => 33
  | OpFlags .IsLastInSequence => 34

namespace UniformSpartanKey

variable {C F : Type} [JoltField F] [Challenge C F] [DecidableEq F]

/-- The loop over a group, of the weighted sums of both sides. -/
def groupSums (z : JoltR1CSInputs → F) : F × F → List NamedR1CSConstraint → List F → F × F
  | sums, c :: cs, w :: ws =>
    groupSums z (sums.1 + w * c.a.dotProduct z 1, sums.2 + w * c.b.dotProduct z 1) cs ws
  | sums, _, _ => sums

/-- `evaluate_inner_sum_product_at_point`; the first entries of the point are the
streaming challenge and that of the univariate skip. -/
def evaluateInnerSumProductAtPoint (rxConstr : List C) (r1csInputEvals : Vector F 35) : Option F := do
  let rStream : F := Challenge.into (← rxConstr[0]?)
  let r0 : F := Challenge.into (← rxConstr[1]?)
  let w ← LagrangePolynomial.evals 10 r0
  let z := fun input : JoltR1CSInputs => r1csInputEvals.get input.toIndex
  let (azG0, bzG0) := groupSums z (0, 0) r1csConstraintsFirstGroup w
  let (azG1, bzG1) := groupSums z (0, 0) (r1csConstraintsSecondGroup.take 10) w
  let azFinal := azG0 + rStream * (azG1 - azG0)
  let bzFinal := bzG0 + rStream * (bzG1 - bzG0)
  .some (azFinal * bzFinal)

end UniformSpartanKey

/-! ## The contract -/

namespace R1CSEvaluator

/-- `R - x`, which reverts below zero. -/
def fromR (x : Word) : Option Word :=
  if x.toNat ≤ scalarModulus then .some (BitVec.ofNat 256 scalarModulus - x) else .none

def lit (n : Nat) : Option Word := .some (BitVec.ofNat 256 n)

/-- `addmod(a, b, R)`. -/
def add (a b : Option Word) : Option Word := do .some ((← a).addmod (← b) scalarModulus)

/-- `addmod(a, R - b, R)`. -/
def sub (a b : Option Word) : Option Word := do
  let minus ← fromR (← b)
  .some ((← a).addmod minus scalarModulus)

/-- `mulmod(n, x, R)`. -/
def mul (n : Nat) (x : Option Word) : Option Word := do
  .some (Word.mulmod (BitVec.ofNat 256 n) (← x) scalarModulus)

/-- The nodes `-4..5`, as words. -/
def nodes10 : List (Option Word) :=
  [fromR 4, fromR 3, fromR 2, fromR 1, lit 0, lit 1, lit 2, lit 3, lit 4, lit 5]

def invDenom : List Word := [
  0x1fa597e0a11384dc18aa8ea0f0adb6f1956f8aab1737b5a796c749fb3df8958a,
  0x05877fcb9d7a153d73e29e9e92eca3b0b04b91af096340834a4a27a27242be2c,
  0x1a464f446b494b33e8c5cb3c35cec99a6705a18c542c6e841ab9570a26f50751,
  0x033704f98741d0be81482d66d9c9f4be9a8d676e888f94381c277c583a6eeeef,
  0x135f9fc325b616f71a3bdec0fa11bd10ac45d8fe700559f477b5c045a059999a,
  0x1d04aeafbb7b89329e1466f5876f9b4c7bee0f4a09b4169ccc2c354e4fa66667,
  0x2d2d497959efcf6b3708184fa7b7639e8da680d9f129dc5927ba793bb5911112,
  0x161dff2e75e854f5cf8a7a7a4bb28ec2c12e46bc258d020d29289e89c90af8b0,
  0x2adccea743b78aec446da717ee94b4ac77e856997056300df997cdf17dbd41d5,
  0x10beb692401e1b4d9fa5b71590d3a16b92c45d9d6281bae9ad1aab98b2076a77]

def lagrangeWeights10 (x : Word) : Option (List Word) := do
  let diff ← nodes10.mapM fun t => sub (.some x) t
  let mulR := fun a b : Word => a.mulmod b scalarModulus
  let numerators := List.zipWith mulR (prefixProducts mulR 1 diff) (suffixProducts mulR 1 diff)
  .some (List.zipWith mulR numerators invDenom)

/-- The sides of the constraints of `_group1`. -/
def group1 (z : Vector Word 35) : List (Option Word × Option Word) :=
  let z := fun i : Fin 35 => .some z[i]
  [(sub (sub (lit 1) (z 24)) (z 25), z 7),
   (z 24, sub (z 11) (z 12)),
   (z 24, sub (z 11) (z 10)),
   (z 25, sub (z 9) (z 12)),
   (add (add (z 21) (z 22)) (z 23), z 13),
   (sub (sub (sub (lit 1) (z 21)) (z 22)) (z 23), sub (z 13) (z 0)),
   (z 29, sub (z 19) (lit 1)),
   (z 20, sub (z 15) (z 19)),
   (sub (z 28) (z 34), sub (sub (z 16) (z 4)) (lit 1)),
   (sub (z 17) (z 18), sub (lit 1) (z 30))]

/-- The sides of the constraints of `_group2`. -/
def group2 (z : Vector Word 35) : List (Option Word × Option Word) :=
  let z := fun i : Fin 35 => .some z[i]
  [(add (z 24) (z 25), sub (sub (z 7) (z 8)) (z 6)),
   (z 21, sub (sub (z 14) (z 0)) (z 1)),
   (z 22, sub (add (sub (z 14) (z 0)) (z 1)) (lit (0x10000000000000000 % scalarModulus))),
   (z 23, sub (z 14) (z 2)),
   (sub (sub (sub (sub (lit 1) (z 21)) (z 22)) (z 23)) (z 31), sub (z 14) (z 1)),
   (z 27, sub (z 10) (z 19)),
   (z 26, add (sub (sub (z 10) (z 5)) (lit 4)) (mul 2 (z 32))),
   (z 3, sub (sub (z 15) (z 5)) (z 6)),
   (sub (sub (lit 1) (z 3)) (z 26),
    add (add (sub (sub (z 15) (z 5)) (lit 4)) (mul 4 (z 30))) (mul 2 (z 32)))]

/-- The accumulation of both sides, each times its weight. -/
def accumulate : Word × Word → List (Option Word × Option Word) → List Word → Option (Word × Word)
  | sums, (a, b) :: rows, w :: ws => do
    let a ← a
    let b ← b
    accumulate (sums.1.addmod (w.mulmod a scalarModulus) scalarModulus,
      sums.2.addmod (w.mulmod b scalarModulus) scalarModulus) rows ws
  | sums, _, _ => .some sums

/-- The blend of the groups by the streaming challenge. -/
def blend (rStream g0 g1 : Word) : Option Word := do
  let minus ← fromR g0
  .some (g0.addmod (rStream.mulmod (g1.addmod minus scalarModulus) scalarModulus) scalarModulus)

def evaluateAzBz (z : Vector Word 35) (w : List Word) (rStream : Word) : Option Word := do
  let (azG0, bzG0) ← accumulate (0, 0) (group1 z) w
  let (azG1, bzG1) ← accumulate (0, 0) (group2 z) w
  let azFinal ← blend rStream azG0 azG1
  let bzFinal ← blend rStream bzG0 bzG1
  .some (azFinal.mulmod bzFinal scalarModulus)

/-! ## What the expressions denote -/

/-- The expression does not revert, and its word stands for the field element. -/
def Denotes (e : Option Word) (x : Fr) : Prop :=
  ∃ w : Word, e = .some w ∧ w.toNat ≤ scalarModulus ∧ w.residue = x

theorem denotes_fromR {w : Word} (h : w.toNat ≤ scalarModulus) :
    Denotes (fromR w) (-w.residue) := by
  have hmod : scalarModulus < 2 ^ 256 := by decide
  refine ⟨SumcheckVerifier.subFromR w, if_pos h, ?_, ?_⟩
  · rw [SumcheckVerifier.subFromR, BitVec.toNat_sub, BitVec.toNat_ofNat, Nat.mod_eq_of_lt hmod,
      show 2 ^ 256 - w.toNat + scalarModulus = scalarModulus - w.toNat + 2 ^ 256 by omega,
      Nat.add_mod_right]
    exact (Nat.mod_le _ _).trans (Nat.sub_le _ _)
  · rw [SumcheckVerifier.residue_subFromR, if_neg (Nat.not_lt.mpr h), zero_sub]

theorem denotes_frWord (x : Fr) : Denotes (.some (frWord x)) x :=
  ⟨_, rfl, (frWord_toNat x).trans_le (ZMod.val_lt x).le, residue_frWord x⟩

theorem denotes_lit {n : Nat} (h : n ≤ scalarModulus) : Denotes (lit n) (n : Fr) := by
  have hmod : scalarModulus < 2 ^ 256 := by decide
  have hn : (BitVec.ofNat 256 n).toNat = n := by
    rw [BitVec.toNat_ofNat, Nat.mod_eq_of_lt (by omega)]
  exact ⟨_, rfl, hn.trans_le h, by rw [Word.residue, hn]⟩

theorem Denotes.add {a b : Option Word} {x y : Fr} (ha : Denotes a x) (hb : Denotes b y) :
    Denotes (add a b) (x + y) := by
  obtain ⟨v, rfl, -, rfl⟩ := ha
  obtain ⟨w, rfl, -, rfl⟩ := hb
  exact ⟨_, rfl, (addmod_lt v w).le, SumcheckVerifier.residue_addmod v w⟩

theorem Denotes.sub {a b : Option Word} {x y : Fr} (ha : Denotes a x) (hb : Denotes b y) :
    Denotes (sub a b) (x - y) := by
  obtain ⟨v, rfl, -, rfl⟩ := ha
  obtain ⟨w, rfl, hw, rfl⟩ := hb
  obtain ⟨minus, hminus, -, hresidue⟩ := denotes_fromR hw
  refine ⟨v.addmod minus scalarModulus, ?_, (addmod_lt v minus).le, ?_⟩
  · simp only [R1CSEvaluator.sub, Option.bind_eq_bind, Option.bind_some, hminus]
  · rw [SumcheckVerifier.residue_addmod, hresidue, sub_eq_add_neg]

theorem Denotes.mul {n : Nat} {b : Option Word} {y : Fr} (hn : n ≤ scalarModulus)
    (hb : Denotes b y) : Denotes (mul n b) (n * y) := by
  obtain ⟨v, hv, -, hn⟩ := denotes_lit hn
  obtain ⟨w, rfl, -, rfl⟩ := hb
  cases hv
  exact ⟨_, rfl, (mulmod_lt _ w).le, by rw [residue_mulmod, hn]⟩

theorem Denotes.of_eq {e : Option Word} {x y : Fr} (h : Denotes e x) (hxy : x = y) :
    Denotes e y := hxy ▸ h

/-! ## The weights -/

/-- Words whose products with the denominators are one are their inverses. -/
theorem map_residue_eq_inv {ws : List Word} {ds : List Int}
    (h : List.Forall₂ (fun (w : Word) (d : Int) => w.residue * (d : Fr) = 1) ws ds) :
    ws.map Word.residue = List.map (fun d : Int => (d : Fr)⁻¹) ds := by
  induction h with
  | nil => rfl
  | cons hone _ ih => rw [List.map_cons, List.map_cons, ih, eq_inv_of_mul_eq_one_left hone]

set_option maxRecDepth 20000 in
theorem residue_invDenom : invDenom.map Word.residue =
    List.map (fun d : Int => (d : Fr)⁻¹) (LagrangePolynomial.denRow 10) := by
  have hrow : LagrangePolynomial.denRow 10 =
      [-362880, 40320, -10080, 4320, -2880, 2880, -4320, 10080, -40320, 362880] := by decide
  rw [hrow]
  refine map_residue_eq_inv ?_
  unfold invDenom
  repeat' apply List.Forall₂.cons
  all_goals first | exact List.Forall₂.nil | decide

/-- The values of the nodes. -/
def nodes : List Fr := [-4, -3, -2, -1, 0, 1, 2, 3, 4, 5]

set_option maxRecDepth 20000 in
theorem nodes10_denotes : List.Forall₂ Denotes nodes10 nodes := by
  have hfrom : ∀ n : Nat, n ≤ 5 → Denotes (fromR (BitVec.ofNat 256 n)) (-(n : Fr)) := by
    intro n hn
    have hmod : scalarModulus < 2 ^ 256 := by decide
    have hsmall : 5 ≤ scalarModulus := by decide
    have hvalue : (BitVec.ofNat 256 n).toNat = n := by
      rw [BitVec.toNat_ofNat, Nat.mod_eq_of_lt (by omega)]
    have hdenotes := denotes_fromR (w := BitVec.ofNat 256 n) (by omega)
    rwa [Word.residue, hvalue] at hdenotes
  have hlit : ∀ n : Nat, n ≤ 5 → Denotes (lit n) (n : Fr) := fun n hn =>
    denotes_lit (hn.trans (by decide))
  exact .cons (hfrom 4 (by decide)) (.cons (hfrom 3 (by decide)) (.cons (hfrom 2 (by decide))
    (.cons ((hfrom 1 (by decide)).of_eq (by rw [Nat.cast_one]))
    (.cons ((hlit 0 (by decide)).of_eq Nat.cast_zero)
    (.cons ((hlit 1 (by decide)).of_eq Nat.cast_one) (.cons (hlit 2 (by decide))
    (.cons (hlit 3 (by decide)) (.cons (hlit 4 (by decide)) (.cons (hlit 5 (by decide))
    .nil)))))))))

/-- A list of expressions, each moved from a point. -/
theorem mapM_sub {es : List (Option Word)} {xs : List Fr} {a : Option Word} {x : Fr}
    (ha : Denotes a x) (h : List.Forall₂ Denotes es xs) :
    ∃ ws, es.mapM (fun e => sub a e) = .some ws ∧ ws.map Word.residue = xs.map (x - ·) := by
  induction h with
  | nil => exact ⟨[], rfl, rfl⟩
  | cons he _ ih =>
    obtain ⟨w, hw, -, hresidue⟩ := ha.sub he
    obtain ⟨ws, hws, hmap⟩ := ih
    refine ⟨w :: ws, ?_, by rw [List.map_cons, List.map_cons, hresidue, hmap]⟩
    simp only [List.mapM_cons, hw, hws]
    rfl

theorem sub_nodes (x : Fr) : nodes.map (x - ·) = LagrangePolynomial.distances 10 x := by
  have hstart : x - ((LagrangePolynomial.start 10 : Int) : Fr) = x + 4 := by
    rw [show LagrangePolynomial.start 10 = -4 by decide]
    push_cast
    ring
  rw [LagrangePolynomial.distances, hstart]
  simp only [nodes, LagrangePolynomial.distancesFrom, List.map_cons, List.map_nil]
  simp only [List.cons.injEq, and_true]
  refine ⟨?_, ?_, ?_, ?_, ?_, ?_, ?_, ?_, ?_, ?_⟩ <;> ring

theorem map_zipWith_mulmod (as bs : List Word) :
    (List.zipWith (fun a b => a.mulmod b scalarModulus) as bs).map Word.residue =
      List.zipWith (· * ·) (as.map Word.residue) (bs.map Word.residue) := by
  induction as generalizing bs with
  | nil => rfl
  | cons a as ih =>
    cases bs with
    | nil => rfl
    | cons b bs =>
      rw [List.zipWith_cons_cons, List.map_cons, ih, residue_mulmod]
      rfl

/-- **The contract's weights are those of the Rust verifier.** -/
theorem lagrangeWeights10_eq (x : Fr) :
    ∃ ws, lagrangeWeights10 (frWord x) = .some ws ∧
      LagrangePolynomial.evals 10 x = .some (ws.map Word.residue) := by
  obtain ⟨diff, hdiff, hmap⟩ := mapM_sub (denotes_frWord x) nodes10_denotes
  rw [sub_nodes] at hmap
  have hone : (1 : Word).residue = 1 := by decide
  have hnonzero : (362880 : Fr) ≠ 0 := by decide
  have hden : ∀ d ∈ LagrangePolynomial.denRow 10, ((d : Int) : Fr) ≠ 0 := by decide
  have hweights : lagrangeWeights10 (frWord x) = .some (List.zipWith
      (fun a b => a.mulmod b scalarModulus) (List.zipWith (fun a b => a.mulmod b scalarModulus)
        (prefixProducts (fun a b => a.mulmod b scalarModulus) 1 diff)
        (suffixProducts (fun a b => a.mulmod b scalarModulus) 1 diff)) invDenom) := by
    simp only [lagrangeWeights10, hdiff, Option.bind_eq_bind, Option.bind_some]
  refine ⟨_, hweights, ?_⟩
  rw [LagrangePolynomial.evals_eq hden (LagrangePolynomial.sum_weights_ten hnonzero x),
    LagrangePolynomial.weights, ← zipWith_products, map_zipWith_mulmod, map_zipWith_mulmod,
    map_prefixProducts residue_mulmod, map_suffixProducts residue_mulmod, hmap, hone,
    residue_invDenom]

/-! ## The constraints -/

/-- Both sides denote the pair. -/
def DenotesRow (row : Option Word × Option Word) (v : Fr × Fr) : Prop :=
  Denotes row.1 v.1 ∧ Denotes row.2 v.2

section Groups

variable (z : Vector Fr 35)

/-- The value of an input. -/
def value (input : JoltR1CSInputs) : Fr := z[input.toIndex]

/-- The values of both sides of a constraint. -/
def sides (c : NamedR1CSConstraint) : Fr × Fr :=
  (c.a.dotProduct (value z) 1, c.b.dotProduct (value z) 1)

theorem group1_denotes : List.Forall₂ DenotesRow (group1 (z.map frWord))
    (r1csConstraintsFirstGroup.map (sides z)) := by
  have hone : Denotes (lit 1) 1 := (denotes_lit (by decide)).of_eq Nat.cast_one
  simp only [group1, Fin.isValue, Fin.getElem_fin, Fin.coe_ofNat_eq_mod, Nat.reduceMod,
    Vector.getElem_map, Nat.zero_mod, Nat.mod_succ, r1csConstraintsFirstGroup,
    filterR1csConstraints, firstGroupLabels, List.mem_cons, List.not_mem_nil, or_false,
    Bool.decide_or, r1csConstraints, eqConditional, reduceCtorEq, decide_false, Bool.or_self,
    Bool.false_eq_true, not_false_eq_true, List.filter_cons_of_neg, decide_true, Bool.or_false,
    List.filter_cons_of_pos, Bool.or_true, List.filter_nil, List.map_cons, sides,
    LC.dotProduct_sub, LC.dotProduct_ofConst, Int.cast_one, mul_one, LC.dotProduct_ofInput, value,
    JoltR1CSInputs.toIndex, Int.cast_zero, sub_zero, LC.dotProduct_add, List.map_nil,
    List.forall₂_cons, DenotesRow, List.forall₂_nil_right_iff, and_true]
  generalize lit 1 = one at hone ⊢
  refine ⟨⟨?_, ?_⟩, ⟨?_, ?_⟩, ⟨?_, ?_⟩, ⟨?_, ?_⟩, ⟨?_, ?_⟩, ⟨?_, ?_⟩, ⟨?_, ?_⟩, ⟨?_, ?_⟩,
    ⟨?_, ?_⟩, ?_, ?_⟩
  all_goals
    apply Denotes.of_eq
    · apply_rules [Denotes.sub, Denotes.add, denotes_frWord]
    · ring

theorem group2_denotes : List.Forall₂ DenotesRow (group2 (z.map frWord))
    ((r1csConstraintsSecondGroup.take 10).map (sides z)) := by
  have hone : Denotes (lit 1) 1 := (denotes_lit (by decide)).of_eq Nat.cast_one
  have hfour : Denotes (lit 4) 4 := denotes_lit (by decide)
  have hword : Denotes (lit (0x10000000000000000 % scalarModulus)) 0x10000000000000000 :=
    denotes_lit (by decide)
  have htwice : ∀ {b : Option Word} {y : Fr}, Denotes b y → Denotes (mul 2 b) (2 * y) :=
    Denotes.mul (by decide)
  have hfourfold : ∀ {b : Option Word} {y : Fr}, Denotes b y → Denotes (mul 4 b) (4 * y) :=
    Denotes.mul (by decide)
  simp only [group2, Fin.isValue, Fin.getElem_fin, Fin.coe_ofNat_eq_mod, Nat.reduceMod,
    Vector.getElem_map, Nat.zero_mod, Nat.one_mod, r1csConstraintsSecondGroup,
    filterR1csConstraints, secondGroupLabels, firstGroupLabels, List.mem_cons, List.not_mem_nil,
    or_false, not_or, Bool.decide_and, decide_not, r1csConstraints, eqConditional, List.map_cons,
    List.map_nil, reduceCtorEq, decide_false, Bool.not_false, Bool.and_self,
    List.filter_cons_of_pos, decide_true, Bool.not_true, Bool.and_true, Bool.false_eq_true,
    not_false_eq_true, List.filter_cons_of_neg, Bool.and_false, List.filter_nil, Bool.decide_or,
    Bool.or_self, Bool.or_false, Bool.or_true, List.take_succ_cons, List.take_nil, sides,
    LC.dotProduct_add, LC.dotProduct_ofInput, value, JoltR1CSInputs.toIndex, LC.dotProduct_sub,
    LC.dotProduct_ofConst, Int.cast_ofNat, mul_one, Int.cast_one, LC.dotProduct_ofInputWithCoeff,
    List.forall₂_cons, DenotesRow, List.forall₂_nil_right_iff, and_true]
  generalize lit 1 = one at hone ⊢
  generalize lit 4 = four at hfour ⊢
  generalize lit (0x10000000000000000 % scalarModulus) = word at hword ⊢
  refine ⟨⟨?_, ?_⟩, ⟨?_, ?_⟩, ⟨?_, ?_⟩, ⟨?_, ?_⟩, ⟨?_, ?_⟩, ⟨?_, ?_⟩, ⟨?_, ?_⟩, ⟨?_, ?_⟩, ?_, ?_⟩
  all_goals
    apply Denotes.of_eq
    · apply_rules [Denotes.sub, Denotes.add, denotes_frWord, htwice, hfourfold]
    · ring

/-- The accumulation keeps the sums of the key's loop. -/
theorem accumulate_eq {rows : List (Option Word × Option Word)} {cs : List NamedR1CSConstraint}
    (h : List.Forall₂ DenotesRow rows (cs.map (sides z))) :
    ∀ (ws : List Word) (az bz : Word), az.toNat ≤ scalarModulus → bz.toNat ≤ scalarModulus →
      ∃ az' bz', accumulate (az, bz) rows ws = .some (az', bz') ∧
        Denotes (.some az') (UniformSpartanKey.groupSums (value z) (az.residue, bz.residue) cs
          (ws.map Word.residue)).1 ∧
        Denotes (.some bz') (UniformSpartanKey.groupSums (value z) (az.residue, bz.residue) cs
          (ws.map Word.residue)).2 := by
  induction cs generalizing rows with
  | nil =>
    cases h
    exact fun ws az bz haz hbz => ⟨az, bz, by rw [accumulate]; nofun, ⟨az, rfl, haz, rfl⟩,
      ⟨bz, rfl, hbz, rfl⟩⟩
  | cons c cs ih =>
    cases h with
    | cons hrow hrows =>
      obtain ⟨⟨a, ha, -, hx⟩, ⟨b, hb, -, hy⟩⟩ := hrow
      intro ws az bz haz hbz
      cases ws with
      | nil => exact ⟨az, bz, rfl, ⟨az, rfl, haz, rfl⟩, ⟨bz, rfl, hbz, rfl⟩⟩
      | cons w ws =>
        have hrest := ih hrows ws _ _ (addmod_lt az (w.mulmod a scalarModulus)).le
          (addmod_lt bz (w.mulmod b scalarModulus)).le
        simp only [SumcheckVerifier.residue_addmod, residue_mulmod, hx, hy] at hrest
        obtain ⟨az', bz', hacc, hsums⟩ := hrest
        refine ⟨az', bz', ?_, hsums⟩
        rename_i row _
        obtain ⟨row1, row2⟩ := row
        simp only at ha hb
        subst ha hb
        exact hacc

theorem denotes_blend {rStream g0 g1 : Word} {x a b : Fr} (hr : rStream.residue = x)
    (h0 : Denotes (.some g0) a) (h1 : Denotes (.some g1) b) :
    Denotes (blend rStream g0 g1) (a + x * (b - a)) := by
  obtain ⟨_, hg0, hle, rfl⟩ := h0
  obtain ⟨_, hg1, -, rfl⟩ := h1
  cases hg0
  cases hg1
  obtain ⟨minus, hminus, -, hresidue⟩ := denotes_fromR hle
  refine ⟨g0.addmod (rStream.mulmod (g1.addmod minus scalarModulus) scalarModulus) scalarModulus,
    ?_, (addmod_lt _ _).le, ?_⟩
  · simp only [blend, hminus, Option.bind_eq_bind, Option.bind_some]
  · rw [SumcheckVerifier.residue_addmod, residue_mulmod, SumcheckVerifier.residue_addmod,
      hresidue, hr, sub_eq_add_neg]

end Groups

/-- **The contract evaluates the Rust constraint system**: for all inputs and both
challenges it does not revert, its weights are the Rust ones, its expressions are the
sides of the constraints of either group, and it returns the word of what the key
computes. -/
theorem evaluateAzBz_eq_key {C : Type} [Challenge C Fr] (z : Vector Fr 35) (r0 rStream : C) :
    ∃ (w : List Word) (v : Fr), lagrangeWeights10 (frWord (Challenge.into r0)) = .some w ∧
      LagrangePolynomial.evals 10 (Challenge.into r0) = .some (w.map Word.residue) ∧
      List.Forall₂ DenotesRow (group1 (z.map frWord)) (r1csConstraintsFirstGroup.map (sides z)) ∧
      List.Forall₂ DenotesRow (group2 (z.map frWord)) (r1csConstraintsSecondGroup.map (sides z)) ∧
      evaluateAzBz (z.map frWord) w (frWord (Challenge.into rStream)) = .some (frWord v) ∧
      UniformSpartanKey.evaluateInnerSumProductAtPoint [rStream, r0] z = .some v := by
  obtain ⟨ws, hws, hevals⟩ := lagrangeWeights10_eq (Challenge.into r0)
  have hzero : (0 : Word).residue = 0 := by decide
  have hbound : (0 : Word).toNat ≤ scalarModulus := by decide
  obtain ⟨az0, bz0, hacc0, haz0, hbz0⟩ := accumulate_eq z (group1_denotes z) ws 0 0 hbound hbound
  obtain ⟨az1, bz1, hacc1, haz1, hbz1⟩ := accumulate_eq z (group2_denotes z) ws 0 0 hbound hbound
  obtain ⟨az, haz, -, hazValue⟩ := denotes_blend (residue_frWord (Challenge.into rStream)) haz0 haz1
  obtain ⟨bz, hbz, -, hbzValue⟩ := denotes_blend (residue_frWord (Challenge.into rStream)) hbz0 hbz1
  have hcontract : evaluateAzBz (z.map frWord) ws (frWord (Challenge.into rStream)) =
      .some (az.mulmod bz scalarModulus) := by
    simp only [evaluateAzBz, hacc0, hacc1, haz, hbz, Option.bind_eq_bind, Option.bind_some]
  have htake : r1csConstraintsSecondGroup.take 10 = r1csConstraintsSecondGroup := by decide
  refine ⟨ws, az.residue * bz.residue, hws, hevals, group1_denotes z, htake ▸ group2_denotes z,
    ?_, ?_⟩
  · rw [hcontract, ← residue_mulmod, ← eq_frWord (mulmod_lt az bz) rfl]
  · rw [hazValue, hbzValue, hzero]
    simp only [UniformSpartanKey.evaluateInnerSumProductAtPoint, List.getElem?_cons_zero,
      List.getElem?_cons_succ, Option.bind_eq_bind, Option.bind_some]
    rw [hevals]
    rfl

end R1CSEvaluator

end LightningJolt
