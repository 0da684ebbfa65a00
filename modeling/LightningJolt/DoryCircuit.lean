/-
The Groth16 circuit of the Dory verifier
(`onchain-verifier/circuit/dory_verifier.go`): the constraints `Define` adds,
with the gadgets of the emulated fields, of the target group and of the hash
taken as what they compute.
-/
import LightningJolt.ScalarField

namespace LightningJolt

/-- `NumRounds`. -/
def numRounds : Nat := 11

/-- A variable of the circuit, whose field is the scalar field of the curve. -/
abbrev Native := Fr

/-- An element of an emulated field by its limbs, which are variables of the circuit. -/
@[ext]
structure Element where
  limbs : Fin 4 → Native

namespace Element

/-- The scalar that the limbs are read as. -/
def value (e : Element) : Fr := ∑ i, e.limbs i * 2 ^ (64 * i.val)

/-- The limbs are checked to be of 64 bits when a gadget takes the element, only then. -/
def InRange (e : Element) : Prop := ∀ i, (e.limbs i).val < 2 ^ 64

/-- `reconstructScalar`. -/
def reconstructScalar (e : Element) : Native :=
  e.limbs 0 + e.limbs 1 * 2 ^ 64 + e.limbs 2 * 2 ^ 128 + e.limbs 3 * 2 ^ 192

/-- `packFp`. -/
def packFp (e : Element) : List Native :=
  [e.limbs 0 + e.limbs 1 * 2 ^ 64, e.limbs 2 + e.limbs 3 * 2 ^ 64]

/-- The element of a limb and zeros above it. -/
def ofLimb (x : Native) : Element := ⟨Fin.cons x fun _ => 0⟩

theorem value_ofLimb (x : Native) : (ofLimb x).value = x := by
  simp [Element.value, ofLimb, Fin.sum_univ_succ]

theorem inRange_ofLimb {x : Native} (hx : x.val < 2 ^ 64) : (ofLimb x).InRange := by
  intro i
  cases i using Fin.cases with
  | zero => exact hx
  | succ i =>
    change (0 : Native).val < 2 ^ 64
    rw [ZMod.val_zero]
    decide

/-- A number split into limbs. -/
def split (n : Nat) : Element := ⟨fun i => ((n / 2 ^ (64 * i.val) % 2 ^ 64 : Nat) : Fr)⟩

theorem sum_limbs (n : Nat) (h : n < 2 ^ 256) :
    n % 2 ^ 64 + n / 2 ^ 64 % 2 ^ 64 * 2 ^ 64 + n / 2 ^ 128 % 2 ^ 64 * 2 ^ 128 + n / 2 ^ 192 % 2 ^ 64 * 2 ^ 192 = n := by
  omega

theorem reconstructScalar_split {n : Nat} (h : n < 2 ^ 256) : (split n).reconstructScalar = n := by
  have hsum := congrArg (fun n : Nat => (n : Fr)) (sum_limbs n h)
  simp only [Nat.cast_add, Nat.cast_mul, Nat.cast_pow, Nat.cast_ofNat] at hsum
  rw [← hsum, reconstructScalar]
  simp [split]

theorem value_split {n : Nat} (h : n < 2 ^ 256) : (split n).value = n := by
  rw [← reconstructScalar_split h, reconstructScalar, value, Fin.sum_univ_four]
  simp

theorem inRange_split (n : Nat) : (split n).InRange := by
  intro i
  have hlt : n / 2 ^ (64 * i.val) % 2 ^ 64 < 2 ^ 64 := Nat.mod_lt _ (by decide)
  have hval : ((split n).limbs i).val = n / 2 ^ (64 * i.val) % 2 ^ 64 := ZMod.val_cast_of_lt (hlt.trans (by decide))
  rwa [hval]

theorem exists_value_ne (e : Element) : ∃ e' : Element, e'.InRange ∧ e'.value ≠ e.value := by
  by_cases he : e.value = 0
  · refine ⟨.ofLimb 1, inRange_ofLimb (by decide), ?_⟩
    rw [value_ofLimb, he]
    exact one_ne_zero
  · refine ⟨.ofLimb 0, inRange_ofLimb (by decide), ?_⟩
    rw [value_ofLimb]
    exact fun hzero => he hzero.symm

end Element

/-- The components of an element of the target group. -/
abbrev E12 := Fin 12 → Element

/-- The gadgets: the element its components are read as, the product of pairings and the
hash. -/
structure Gadgets (GT G1 G2 : Type) where
  ofE12 : E12 → GT
  pair : List (G1 × G2) → GT
  mimc : List Native → Native

/-- The assignment of the circuit. What only gadgets of the target group and of the curves
take is given by the value. -/
structure DoryVerifierCircuit (GT G1 G2 : Type) where
  inputHash : Native
  alpha : Fin numRounds → Element
  beta : Fin numRounds → Element
  gamma : Element
  d : Element
  s1Coords : Fin numRounds → Element
  s2Coords : Fin numRounds → Element
  commitment : E12
  evaluation : Element
  sProduct : Element
  vmvC : GT
  vmvD2 : GT
  vmvE1 : G1
  d1Right : Fin numRounds → GT
  d2Right : Fin numRounds → GT
  accumE1 : G1
  finalE1 : G1
  finalP1G2 : G2
  finalP2G2 : G2
  d2Scaled : Fin numRounds → GT
  d1Scaled : Fin numRounds → GT
  cpScaled : Fin numRounds → GT
  cmScaled : Fin numRounds → GT
  d1LScaled : Fin numRounds → GT
  d1LSSetup : Fin numRounds → GT
  d1RSSetup : Fin numRounds → GT
  d2LScaled : Fin numRounds → GT
  d2LSSetup : Fin numRounds → GT
  d2RSSetup : Fin numRounds → GT
  htScaled : GT
  d2Final : GT
  d1Final : GT
  d2InitScaled : GT
  checkpointC : Fin numRounds → GT
  checkpointD1 : Fin numRounds → GT
  checkpointD2 : Fin numRounds → GT
  setupChi : Fin (numRounds + 1) → GT
  setupG1 : G1
  setupG2 : G2
  setupH1 : G1
  setupH2 : G2

namespace DoryVerifierCircuit

variable {GT G1 G2 : Type} [CommMonoid GT] [AddCommGroup G1] [Module (Fr) G1]
  (g : Gadgets GT G1 G2) (w : DoryVerifierCircuit GT G1 G2)

/-- What a round finds in an accumulator: the checkpoint of the round before it. -/
def before (first : GT) (checkpoint : Fin numRounds → GT) (idx : Fin numRounds) : GT :=
  if h : idx.val = 0 then first else checkpoint ⟨idx.val - 1, by omega⟩

/-- `s1Acc` and `s2Acc` after the rounds, whose coordinates are taken from the last. -/
def scalarFold (factor : Fin numRounds → Fr) : Fr :=
  (List.finRange numRounds).foldl (fun acc idx => acc * factor idx) 1

def s1Acc : Fr :=
  scalarFold fun idx =>
    (w.alpha idx).value * (1 - (w.s1Coords idx.rev).value) + (w.s1Coords idx.rev).value

def s2Acc : Fr :=
  scalarFold fun idx =>
    (w.alpha idx).value⁻¹ * (1 - (w.s2Coords idx.rev).value) + (w.s2Coords idx.rev).value

/-- What the hash absorbs. -/
def absorbed : List Native :=
  (List.ofFn w.alpha).map Element.reconstructScalar ++ (List.ofFn w.beta).map Element.reconstructScalar ++
    [w.gamma.reconstructScalar, w.d.reconstructScalar] ++
    (List.ofFn w.s1Coords).map Element.reconstructScalar ++
    (List.ofFn w.s2Coords).map Element.reconstructScalar ++
    (List.ofFn w.commitment).flatMap Element.packFp ++
    [w.evaluation.reconstructScalar, w.sProduct.reconstructScalar]

/-- The emulated scalars that gadgets take. -/
def operands : List Element :=
  List.ofFn w.alpha ++ [w.gamma, w.d, w.sProduct] ++ List.ofFn w.s1Coords ++ List.ofFn w.s2Coords

/-- The four pairings of the left side. -/
def pairings : List (G1 × G2) :=
  let d := w.d.value
  [(w.finalE1 + d • w.setupG1, w.finalP1G2),
   (w.setupH1, w.finalP2G2),
   ((-w.gamma.value⁻¹) • (w.accumE1 + (d * w.s2Acc) • w.setupG1), w.setupH2),
   ((d * d) • w.vmvE1, w.setupG2)]

/-- `Define`: the assignment satisfies every constraint. An inverse is a hint whose product
with the element is asserted to be 1. -/
structure Define : Prop where
  operands : ∀ e ∈ w.operands, e.InRange
  alphaInverse : ∀ idx, (w.alpha idx).value * (w.alpha idx).value⁻¹ = 1
  gammaInverse : w.gamma.value * w.gamma.value⁻¹ = 1
  checkC : ∀ idx, before w.vmvC w.checkpointC idx * w.setupChi idx.rev.succ * w.d2Scaled idx *
    w.d1Scaled idx * w.cpScaled idx * w.cmScaled idx = w.checkpointC idx
  checkD1 : ∀ idx, w.d1LScaled idx * w.d1Right idx * w.d1LSSetup idx * w.d1RSSetup idx =
    w.checkpointD1 idx
  checkD2 : ∀ idx, w.d2LScaled idx * w.d2Right idx * w.d2LSSetup idx * w.d2RSSetup idx =
    w.checkpointD2 idx
  sProduct : w.s1Acc * w.s2Acc = w.sProduct.value
  pairing : g.pair w.pairings = w.checkpointC (Fin.last 10) * w.htScaled * w.setupChi 0 * w.d2Final *
    w.d1Final * w.d2InitScaled
  inputHash : g.mimc w.absorbed = w.inputHash

/-- The scaled values whose bases are in the assignment, as the witness generator makes
them. -/
structure ScaledValues : Prop where
  d2Scaled : ∀ idx, w.d2Scaled idx = before w.vmvD2 w.checkpointD2 idx ^ (w.beta idx).value.val
  d1Scaled : ∀ idx, w.d1Scaled idx =
    before (g.ofE12 w.commitment) w.checkpointD1 idx ^ ((w.beta idx).value⁻¹).val
  d2Final : w.d2Final = w.checkpointD2 (Fin.last 10) ^ w.d.value.val
  d1Final : w.d1Final = w.checkpointD1 (Fin.last 10) ^ (w.d.value⁻¹).val
  d2InitScaled : w.d2InitScaled = w.vmvD2 ^ (w.d.value * w.d.value).val

/-- The assignment with the input hash computed anew. -/
def rehash : DoryVerifierCircuit GT G1 G2 := { w with inputHash := g.mimc w.absorbed }

/-- The assignment with another commitment and evaluation. -/
def replace (commitment : E12) (evaluation : Element) : DoryVerifierCircuit GT G1 G2 :=
  rehash g { w with commitment, evaluation }

/-- No other value of the commitment, and none of the evaluation, satisfies the circuit in
its place. -/
structure Binds : Prop where
  commitment : ∀ c, g.ofE12 c ≠ g.ofE12 w.commitment → ¬ (w.replace g c w.evaluation).Define g
  evaluation : ∀ e, e.value ≠ w.evaluation.value → ¬ (w.replace g w.commitment e).Define g

variable {g w}

/-! ## What the circuit leaves free -/

omit [CommMonoid GT] [AddCommGroup G1] [Module (Fr) G1] in
theorem rehash_inputHash : g.mimc (w.rehash g).absorbed = (w.rehash g).inputHash := rfl

/-- Commitment and evaluation meet no constraint but the hash. -/
theorem Define.replace (h : w.Define g) (commitment : E12) (evaluation : Element) :
    (w.replace g commitment evaluation).Define g where
  operands := h.operands
  alphaInverse := h.alphaInverse
  gammaInverse := h.gammaInverse
  checkC := h.checkC
  checkD1 := h.checkD1
  checkD2 := h.checkD2
  sProduct := h.sProduct
  pairing := h.pairing
  inputHash := rehash_inputHash

/-- **The circuit binds neither the commitment nor the evaluation.** Whatever assignment
satisfies it, every other commitment and evaluation does in their place, so no assignment
binds them. -/
theorem define_never_binds (h : w.Define g) :
    (∀ commitment evaluation, (w.replace g commitment evaluation).Define g) ∧
      ¬ (w.ScaledValues g ∧ w.Binds g) := by
  refine ⟨h.replace, fun hclaim => ?_⟩
  obtain ⟨e, -, he⟩ := w.evaluation.exists_value_ne
  exact hclaim.2.evaluation e he (h.replace w.commitment e)

/-- Nor does it bind the scaled values: what one gains another can lose. -/
theorem Define.rescale (h : w.Define g) (idx : Fin numRounds) (u : GTˣ) :
    ({ w with
        d2Scaled := Function.update w.d2Scaled idx (w.d2Scaled idx * u)
        d1Scaled := Function.update w.d1Scaled idx (w.d1Scaled idx * ↑u⁻¹) } :
      DoryVerifierCircuit GT G1 G2).Define g where
  operands := h.operands
  alphaInverse := h.alphaInverse
  gammaInverse := h.gammaInverse
  checkC k := by
    have hcheck := h.checkC k
    by_cases hk : k = idx
    · subst hk
      simp only [Function.update_self]
      have hcancel : w.d2Scaled k * u * (w.d1Scaled k * ↑u⁻¹) = w.d2Scaled k * w.d1Scaled k := by
        rw [mul_mul_mul_comm, Units.mul_inv, mul_one]
      calc _ = before w.vmvC w.checkpointC k * w.setupChi k.rev.succ *
            (w.d2Scaled k * u * (w.d1Scaled k * ↑u⁻¹)) * w.cpScaled k * w.cmScaled k := by
              simp only [mul_assoc]
        _ = w.checkpointC k := by rw [hcancel, ← hcheck]; simp only [mul_assoc]
    · simp only [Function.update_of_ne hk]
      exact hcheck
  checkD1 := h.checkD1
  checkD2 := h.checkD2
  sProduct := h.sProduct
  pairing := h.pairing
  inputHash := h.inputHash

end DoryVerifierCircuit

/-! ## Assignments that satisfy the circuit -/

namespace DoryVerifierCircuit

variable {GT G1 G2 : Type} [CommGroup GT] [AddCommGroup G1] [Module (Fr) G1]
  (g : Gadgets GT G1 G2) (w : DoryVerifierCircuit GT G1 G2)

/-- The assignment with the scaled values that its bases give. A scaled value whose base is not in
the assignment is what its check is short of. -/
def complete : DoryVerifierCircuit GT G1 G2 :=
  let d2Scaled := fun idx => before w.vmvD2 w.checkpointD2 idx ^ (w.beta idx).value.val
  let d1Scaled := fun idx => before (g.ofE12 w.commitment) w.checkpointD1 idx ^ ((w.beta idx).value⁻¹).val
  let d2Final := w.checkpointD2 (Fin.last 10) ^ w.d.value.val
  let d1Final := w.checkpointD1 (Fin.last 10) ^ (w.d.value⁻¹).val
  let d2InitScaled := w.vmvD2 ^ (w.d.value * w.d.value).val
  rehash g { w with
    sProduct := .split (w.s1Acc * w.s2Acc).val
    d2Scaled, d1Scaled, d2Final, d1Final, d2InitScaled
    cmScaled := fun idx => w.checkpointC idx /
      (before w.vmvC w.checkpointC idx * w.setupChi idx.rev.succ * d2Scaled idx * d1Scaled idx * w.cpScaled idx)
    d1RSSetup := fun idx => w.checkpointD1 idx / (w.d1LScaled idx * w.d1Right idx * w.d1LSSetup idx)
    d2RSSetup := fun idx => w.checkpointD2 idx / (w.d2LScaled idx * w.d2Right idx * w.d2LSSetup idx)
    htScaled := g.pair w.pairings /
      (w.checkpointC (Fin.last 10) * w.setupChi 0 * d2Final * d1Final * d2InitScaled) }

theorem complete_scaledValues : (w.complete g).ScaledValues g where
  d2Scaled _ := rfl
  d1Scaled _ := rfl
  d2Final := rfl
  d1Final := rfl
  d2InitScaled := rfl

/-- **Every assignment of scalars that have inverses can be completed**, whatever its points, its
elements of the target group, its commitment and its evaluation. -/
theorem complete_define (hscalars : ∀ e ∈ List.ofFn w.alpha ++ [w.gamma, w.d] ++ List.ofFn w.s1Coords ++
      List.ofFn w.s2Coords, e.InRange)
    (halpha : ∀ idx, (w.alpha idx).value ≠ 0) (hgamma : w.gamma.value ≠ 0) : (w.complete g).Define g where
  operands e he := by
    simp only [operands, complete, rehash, List.mem_append, List.mem_cons, List.not_mem_nil, or_false] at he
    simp only [List.mem_append, List.mem_cons, List.not_mem_nil, or_false] at hscalars
    rcases he with ((halpha | hgamma | hd | hproduct) | hs1) | hs2
    · exact hscalars e (.inl (.inl (.inl halpha)))
    · exact hscalars e (.inl (.inl (.inr (.inl hgamma))))
    · exact hscalars e (.inl (.inl (.inr (.inr hd))))
    · exact hproduct ▸ Element.inRange_split _
    · exact hscalars e (.inl (.inr hs1))
    · exact hscalars e (.inr hs2)
  alphaInverse idx := mul_inv_cancel₀ (halpha idx)
  gammaInverse := mul_inv_cancel₀ hgamma
  checkC idx := mul_div_cancel _ _
  checkD1 idx := mul_div_cancel _ _
  checkD2 idx := mul_div_cancel _ _
  sProduct := by
    have hlt : (w.s1Acc * w.s2Acc).val < 2 ^ 256 := (ZMod.val_lt _).trans (by decide)
    have hvalue : (w.complete g).sProduct.value = w.s1Acc * w.s2Acc :=
      (Element.value_split hlt).trans (ZMod.natCast_zmod_val _)
    rw [hvalue]
    rfl
  pairing := by
    have hpair : ∀ c chi d2 d1 d2Init : GT,
        g.pair w.pairings = c * (g.pair w.pairings / (c * chi * d2 * d1 * d2Init)) * chi * d2 * d1 * d2Init := by
      intro c chi d2 d1 d2Init
      calc g.pair w.pairings = g.pair w.pairings / (c * chi * d2 * d1 * d2Init) * (c * chi * d2 * d1 * d2Init) :=
            (div_mul_cancel _ _).symm
        _ = _ := by ac_rfl
    exact hpair _ _ _ _ _
  inputHash := rehash_inputHash

/-! Groups of the order of the curve's, by discrete logarithms. -/

def logGadgets : Gadgets (Multiplicative (Fr)) (Fr) (Fr) where
  ofE12 c := .ofAdd (∑ i, (c i).value * (i.val + 1))
  pair ps := .ofAdd (ps.map fun p => p.1 * p.2).sum
  mimc xs := xs.foldl (fun acc x => acc * 3 + x) 0

/-- An assignment whose scalars, points and elements of the target group all differ from the
neutral ones. -/
def sampleAssignment : DoryVerifierCircuit (Multiplicative (Fr)) (Fr) (Fr) :=
  let scalar := fun n : Nat => Element.split n
  let element := fun n : Nat => Multiplicative.ofAdd (n : Fr)
  complete logGadgets {
    inputHash := 0, alpha := fun idx => scalar (2 + idx), beta := fun idx => scalar (13 + idx)
    gamma := scalar 24, d := scalar 25
    s1Coords := fun idx => scalar (26 + idx), s2Coords := fun idx => scalar (37 + idx)
    commitment := fun i => scalar (48 + i), evaluation := scalar 5, sProduct := scalar 0
    vmvC := element 60, vmvD2 := element 61, vmvE1 := 62, d1Right := fun idx => element (63 + idx)
    d2Right := fun idx => element (74 + idx), accumE1 := 85, finalE1 := 86, finalP1G2 := 87, finalP2G2 := 88
    d2Scaled := 1, d1Scaled := 1, cpScaled := fun idx => element (89 + idx), cmScaled := 1
    d1LScaled := fun idx => element (100 + idx), d1LSSetup := fun idx => element (111 + idx), d1RSSetup := 1
    d2LScaled := fun idx => element (122 + idx), d2LSSetup := fun idx => element (133 + idx), d2RSSetup := 1
    htScaled := 1, d2Final := 1, d1Final := 1, d2InitScaled := 1
    checkpointC := fun idx => element (144 + idx), checkpointD1 := fun idx => element (155 + idx)
    checkpointD2 := fun idx => element (166 + idx), setupChi := fun i => element (177 + i)
    setupG1 := 189, setupG2 := 190, setupH1 := 191, setupH2 := 192 }

theorem value_split_ne_zero {n : Nat} (hpos : 0 < n) (hlt : n < scalarModulus) : (Element.split n).value ≠ 0 := by
  rw [Element.value_split (hlt.trans (by decide)), Ne, ZMod.natCast_eq_zero_iff]
  exact Nat.not_dvd_of_pos_of_lt hpos hlt

theorem sampleAssignment_define : sampleAssignment.Define logGadgets := by
  have hmodulus : 100 < scalarModulus := by decide
  refine complete_define logGadgets _ ?_ ?_ ?_
  · intro e he
    simp only [List.mem_append, List.mem_ofFn, List.mem_cons, List.not_mem_nil, or_false] at he
    rcases he with ((⟨_, rfl⟩ | rfl | rfl) | ⟨_, rfl⟩) | ⟨_, rfl⟩ <;> exact Element.inRange_split _
  · intro idx
    have hidx : idx.val < 11 := idx.isLt
    exact value_split_ne_zero (by omega) (by omega)
  · exact value_split_ne_zero (by omega) (by omega)

/-- The evaluation 5 of an assignment whose scaled values are all as described, and 6 in its
place; and another commitment in its place. -/
theorem define_evaluation_free :
    let w := sampleAssignment
    let c : E12 := fun i => .split (49 + i)
    w.Define logGadgets ∧ w.ScaledValues logGadgets ∧
      ((w.replace logGadgets w.commitment (.ofLimb 6)).Define logGadgets ∧
        (Element.ofLimb 6).value ≠ w.evaluation.value) ∧
      ((w.replace logGadgets c w.evaluation).Define logGadgets ∧
        logGadgets.ofE12 c ≠ logGadgets.ofE12 w.commitment) := by
  intro w c
  refine ⟨sampleAssignment_define, complete_scaledValues _ _,
    ⟨sampleAssignment_define.replace _ _, ?_⟩, ⟨sampleAssignment_define.replace _ _, ?_⟩⟩
  · change (Element.ofLimb 6).value ≠ (Element.split 5).value
    rw [Element.value_ofLimb, Element.value_split (by decide)]
    decide
  · change Multiplicative.ofAdd (∑ i : Fin 12, (Element.split (49 + i)).value * ((i.val : Fr) + 1)) ≠
      Multiplicative.ofAdd (∑ i : Fin 12, (Element.split (48 + i)).value * ((i.val : Fr) + 1))
    have hvalue (n : Nat) (i : Fin 12) : n < 100 → (Element.split (n + i)).value = ((n + i : Nat) : Fr) :=
      fun hn => Element.value_split (by omega)
    simp only [hvalue 49 _ (by decide), hvalue 48 _ (by decide)]
    intro heq
    have hterm (i : Fin 12) : ((49 + i : Nat) : Fr) * (i.val + 1) - ((48 + i : Nat) : Fr) * (i.val + 1) = i.val + 1 := by
      push_cast
      ring
    have hdiff := sub_eq_zero.mpr (Multiplicative.ofAdd.injective heq)
    simp only [← Finset.sum_sub_distrib, hterm] at hdiff
    exact absurd hdiff (by decide)

theorem define_never_binds_sample :
    (∀ commitment evaluation, (sampleAssignment.replace logGadgets commitment evaluation).Define logGadgets) ∧
      ¬ (sampleAssignment.ScaledValues logGadgets ∧ sampleAssignment.Binds logGadgets) :=
  define_never_binds sampleAssignment_define

end DoryVerifierCircuit

end LightningJolt
