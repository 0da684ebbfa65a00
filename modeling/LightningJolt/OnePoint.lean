/-
That all claims of stage 8 are about one point: the cycle parts that stage 6 records
agree, the reduction of stage 7 keeps them, and where the advice block lies.
-/
import LightningJolt.HammingReduction

namespace LightningJolt

variable {C : Type}

/-! ## Chunks -/

namespace OneHotParams

theorem length_of_mem_chunks {k : Nat} {xs : List C} (hk : 0 < k) (hdvd : k ∣ xs.length) {c : List C}
    (hc : c ∈ chunks k xs) : c.length = k := by
  obtain ⟨m, hm⟩ := hdvd
  obtain ⟨i, hi, heq⟩ := List.mem_map.mp hc
  have hceil : divCeil xs.length k = m := by
    rw [divCeil, hm, show k * m + k - 1 = (k - 1) + k * m by omega, Nat.add_mul_div_left _ _ hk,
      Nat.div_eq_of_lt (by omega), Nat.zero_add]
  rw [List.mem_range, hceil] at hi
  have hlast : (i + 1) * k ≤ k * m := by
    rw [Nat.mul_comm k m]
    exact Nat.mul_le_mul_right k hi
  rw [Nat.add_mul, Nat.one_mul] at hlast
  rw [← heq, List.length_take, List.length_drop, hm]
  omega

/-- The padded address is a whole number of chunks. -/
theorem length_of_mem_computeRAddressChunks [Zero C] {p : OneHotParams}
    (hk : p.logKChunk = 4 ∨ p.logKChunk = 8) {rAddress c : List C}
    (hc : c ∈ p.computeRAddressChunks rAddress) : c.length = p.logKChunk := by
  have hpos : 0 < p.logKChunk := by omega
  have hmask : rAddress.length &&& (p.logKChunk - 1) = rAddress.length % p.logKChunk := by
    rcases hk with h4 | h8
    · rw [h4]
      exact Nat.and_two_pow_sub_one_eq_mod rAddress.length 2
    · rw [h8]
      exact Nat.and_two_pow_sub_one_eq_mod rAddress.length 3
  refine length_of_mem_chunks hpos ?_ hc
  by_cases hwhole : rAddress.length % p.logKChunk = 0
  · rw [if_pos hwhole]
    exact Nat.dvd_of_mod_eq_zero hwhole
  · have hlt := Nat.mod_lt rAddress.length hpos
    have hdiv := Nat.div_add_mod rAddress.length p.logKChunk
    rw [if_neg hwhole, List.length_append, List.length_replicate, hmask]
    refine ⟨rAddress.length / p.logKChunk + 1, ?_⟩
    rw [Nat.mul_add, Nat.mul_one]
    omega

end OneHotParams

/-! ## One instance -/

/-- So many address coordinates, then the given cycle coordinates. -/
def AtCycle (k : Nat) (cycle point : List C) : Prop := ∃ address, address.length = k ∧ point = address ++ cycle

theorem AtCycle.drop {k : Nat} {cycle point : List C} (h : AtCycle k cycle point) : point.drop k = cycle := by
  obtain ⟨address, hlen, heq⟩ := h
  rw [heq, ← hlen, List.drop_left]

/-- The address coordinates in the points of a polynomial. -/
def addressVars (p : OneHotParams) : OpeningId → Nat
  | .Polynomial (.Committed (.InstructionRa _)) _ => p.logKChunk
  | .Polynomial (.Committed (.BytecodeRa _)) _ => p.logKChunk
  | .Polynomial (.Committed (.RamRa _)) _ => p.logKChunk
  | _ => 0

/-- Every point of an instance ends with the last `logT` of its challenges, reversed. -/
def PointInstance.EndsAtCycle (p : OneHotParams) (logT : Nat) (s : PointInstance C) : Prop :=
  ∀ r recorded, r.length = s.numRounds → s.openings r = .some recorded →
    ∀ e ∈ recorded, AtCycle (addressVars p e.1) (r.drop (r.length - logT)).reverse e.2

theorem mem_of_mapM {α β : Type} {f : α → Option β} {xs : List α} {ys : List β}
    (h : xs.mapM f = .some ys) {y : β} (hy : y ∈ ys) : ∃ x ∈ xs, f x = .some y := by
  induction xs generalizing ys with
  | nil =>
    cases h
    exact absurd hy (List.not_mem_nil)
  | cons x xs ih =>
    rw [List.mapM_cons] at h
    cases hx : f x with
    | none =>
      rw [hx] at h
      cases h
    | some z =>
      cases hxs : xs.mapM f with
      | none =>
        rw [hx, hxs] at h
        cases h
      | some zs =>
        rw [hx, hxs] at h
        cases h
        rcases List.mem_cons.mp hy with heq | hmem
        · exact ⟨x, List.mem_cons_self .., heq ▸ hx⟩
        · obtain ⟨x', hx', hfx'⟩ := ih hxs hmem
          exact ⟨x', List.mem_cons_of_mem _ hx', hfx'⟩

section Instances

variable {p : OneHotParams} {logT : Nat}

/-- A point normalised segment by segment ends with the reversed last segment. -/
theorem drop_segments {k : Nat} {r : List C} (hlen : r.length = k + logT) :
    ((r.take k).reverse ++ (r.drop k).reverse).drop k = (r.drop (r.length - logT)).reverse := by
  have htake : (r.take k).reverse.length = k := by
    rw [List.length_reverse, List.length_take]
    omega
  rw [List.drop_left' htake, show r.length - logT = k by omega]

theorem drop_all {r : List C} (hlen : r.length = logT) : (r.drop (r.length - logT)).reverse = r.reverse := by
  rw [show r.length - logT = 0 by omega, List.drop_zero]

theorem bytecodeReadRaf_ends [Zero C] (hk : p.logKChunk = 4 ∨ p.logKChunk = 8) :
    (bytecodeReadRaf p logT : PointInstance C).EndsAtCycle p logT := by
  intro r recorded hlen hopen e he
  have hrounds : r.length = p.bytecodeLogK + logT := hlen
  obtain ⟨i, -, hi⟩ := mem_of_mapM hopen he
  rw [drop_segments hrounds] at hi
  obtain ⟨chunk, hchunk, heq⟩ := Option.bind_eq_some_iff.mp hi
  cases heq
  exact ⟨chunk, OneHotParams.length_of_mem_computeRAddressChunks hk (List.mem_of_getElem? hchunk), rfl⟩

theorem addressVars_committed {p : OneHotParams} {poly : CommittedPolynomial}
    (hpoly : poly ∈ p.polynomialTypes) (sumcheck : SumcheckId) :
    addressVars p (.committed poly sumcheck) = p.logKChunk := by
  rcases OneHotParams.mem_polynomialTypes hpoly with ⟨i, rfl⟩ | ⟨i, rfl⟩ | ⟨i, rfl⟩
  · rfl
  · rfl
  · rfl

theorem booleanity_ends : (booleanity p logT : PointInstance C).EndsAtCycle p logT := by
  intro r recorded hlen hopen e he
  have hrounds : r.length = p.logKChunk + logT := hlen
  cases hopen
  obtain ⟨poly, hpoly, heq⟩ := List.mem_map.mp he
  rw [← heq, ← drop_segments hrounds]
  rw [addressVars_committed hpoly]
  refine ⟨(r.take p.logKChunk).reverse, ?_, ?_⟩
  · rw [List.length_reverse, List.length_take]
    omega
  · have htake : (r.take p.logKChunk).reverse.length = p.logKChunk := by
      rw [List.length_reverse, List.length_take]
      omega
    rw [List.drop_left' htake]

theorem hammingBooleanity_ends {rCycle : List C} (h : rCycle.length = logT) :
    (hammingBooleanity rCycle).EndsAtCycle p logT := by
  intro r recorded hlen hopen e he
  have hrounds : r.length = logT := hlen.trans h
  cases hopen
  rw [List.mem_singleton.mp he, drop_all hrounds]
  exact ⟨[], rfl, rfl⟩

theorem ramRaVirtual_ends [Zero C] (hk : p.logKChunk = 4 ∨ p.logKChunk = 8) (rReduced : List C) :
    (ramRaVirtual p logT rReduced).EndsAtCycle p logT := by
  intro r recorded hlen hopen e he
  obtain ⟨i, -, hi⟩ := mem_of_mapM hopen he
  obtain ⟨chunk, hchunk, heq⟩ := Option.bind_eq_some_iff.mp hi
  cases heq
  have hrounds : r.length = logT := hlen
  rw [drop_all hrounds]
  exact ⟨chunk, OneHotParams.length_of_mem_computeRAddressChunks hk (List.mem_of_getElem? hchunk), rfl⟩

theorem lookupsRaVirtual_ends [Zero C] (hk : p.logKChunk = 4 ∨ p.logKChunk = 8) {rVirtual : List (List C)}
    (h : ((rVirtual.headD []).drop p.lookupsRaVirtualLogKChunk).length = logT) :
    (lookupsRaVirtual p rVirtual).EndsAtCycle p logT := by
  intro r recorded hlen hopen e he
  have hrounds : r.length = logT := hlen.trans h
  cases hopen
  obtain ⟨⟨chunk, i⟩, hchunk, heq⟩ := List.mem_map.mp he
  rw [← heq, drop_all hrounds]
  have hmem : chunk ∈ p.computeRAddressChunks
      (rVirtual.flatMap fun r => r.take p.lookupsRaVirtualLogKChunk) :=
    List.fst_mem_of_mem_zipIdx hchunk
  exact ⟨chunk, OneHotParams.length_of_mem_computeRAddressChunks hk hmem, rfl⟩

theorem incClaimReduction_ends : (incClaimReduction logT : PointInstance C).EndsAtCycle p logT := by
  intro r recorded hlen hopen e he
  cases hopen
  have hrounds : r.length = logT := hlen
  rw [drop_all hrounds]
  rcases List.mem_cons.mp he with heq | hmem
  · rw [heq]
    exact ⟨[], rfl, rfl⟩
  · rw [List.mem_singleton.mp hmem]
    exact ⟨[], rfl, rfl⟩

end Instances

/-! ## One batch -/

section Batch

theorem le_maxRounds {instances : List (PointInstance C)} {s : PointInstance C} (hs : s ∈ instances) :
    s.numRounds ≤ maxRounds instances :=
  List.le_max?_getD_of_mem (List.mem_map_of_mem hs)

/-- Where a recorded opening comes from. -/
theorem mem_of_recordAll {maxNumRounds : Nat} {r : List C} {instances : List (PointInstance C)}
    {recorded : Recorded C} (h : recordAll maxNumRounds r instances = .some recorded)
    {e : OpeningId × OpeningPoint C} (he : e ∈ recorded) :
    ∃ s ∈ instances, ∃ rSlice points,
      BatchedSumcheck.slice r (s.roundOffset maxNumRounds) s.numRounds = .some rSlice ∧
        s.openings rSlice = .some points ∧ e ∈ points := by
  induction instances generalizing recorded with
  | nil =>
    cases h
    exact absurd he List.not_mem_nil
  | cons s rest ih =>
    rw [recordAll] at h
    obtain ⟨rSlice, hslice, h⟩ := Option.bind_eq_some_iff.mp h
    obtain ⟨points, hpoints, h⟩ := Option.bind_eq_some_iff.mp h
    obtain ⟨more, hmore, h⟩ := Option.bind_eq_some_iff.mp h
    cases h
    rcases List.mem_append.mp he with hhead | htail
    · exact ⟨s, List.mem_cons_self .., rSlice, points, hslice, hpoints, hhead⟩
    · obtain ⟨s', hs', hrest⟩ := ih hmore htail
      exact ⟨s', List.mem_cons_of_mem _ hs', hrest⟩

/-- The slice of an instance that ends with the batch. -/
theorem slice_suffix {r rSlice : List C} {n : Nat} (hn : n ≤ r.length)
    (h : BatchedSumcheck.slice r (r.length - n) n = .some rSlice) : rSlice = r.drop (r.length - n) := by
  rw [BatchedSumcheck.slice, if_pos (by omega)] at h
  cases h
  refine List.take_of_length_le ?_
  rw [List.length_drop]
  omega

/-- The last challenges of a slice that ends with the batch are those of the batch. -/
theorem drop_of_suffix {r : List C} {n k : Nat} (hk : k ≤ n) (hn : n ≤ r.length) :
    (r.drop (r.length - n)).drop ((r.drop (r.length - n)).length - k) = r.drop (r.length - k) := by
  rw [List.length_drop, List.drop_drop]
  congr 1
  omega

end Batch

/-! ## Stages 6 and 7 -/

/-- A run of the two stages, on any challenges. -/
structure StageRun (C : Type) [Zero C] (p : OneHotParams) (logT : Nat) (layout : DoryLayout)
    (advice : List (AdviceClaimReductionParams C)) where
  earlier : EarlierPoints C p logT
  r6 : List C
  recorded6 : Recorded C
  instances7 : List (PointInstance C)
  r7 : List C
  recorded7 : Recorded C
  length_r6 : r6.length = maxRounds (stage6 p logT layout earlier advice)
  record6 : recordAll r6.length r6 (stage6 p logT layout earlier advice) = .some recorded6
  stage7_eq : stage7 p layout r6.length r6 recorded6 advice = .some instances7
  length_r7 : r7.length = maxRounds instances7
  record7 : recordAll r7.length r7 instances7 = .some recorded7

namespace StageRun

variable [Zero C] {p : OneHotParams} {logT : Nat} {layout : DoryLayout}
  {advice : List (AdviceClaimReductionParams C)} (run : StageRun C p logT layout advice)

/-- The cycle point: the last challenges of stage 6, reversed. -/
def cycle : List C := (run.r6.drop (run.r6.length - logT)).reverse

theorem length_cycle_le (h : logT ≤ run.r6.length) : run.cycle.length = logT := by
  rw [cycle, List.length_reverse, List.length_drop]
  omega

/-- The openings of the advice polynomials and of the claim between their two phases. -/
def IsAdvice : OpeningId → Prop
  | .TrustedAdvice _ => True
  | .UntrustedAdvice _ => True
  | _ => False

omit [Zero C] in
theorem isAdvice_openingId (kind : AdviceKind) (sumcheck : SumcheckId) : IsAdvice (kind.openingId sumcheck) := by
  cases kind
  · exact trivial
  · exact trivial

omit [Zero C] in
/-- The advice instances record advice only. -/
theorem isAdvice_of_mem {a : AdviceClaimReductionParams C} {r : List C} {points : Recorded C}
    (h : a.openingsToCache layout r = .some points) {e : OpeningId × OpeningPoint C} (he : e ∈ points) :
    IsAdvice e.1 := by
  obtain ⟨cycle, hcycle, h⟩ := Option.bind_eq_some_iff.mp h
  obtain ⟨final, hfinal, h⟩ := Option.bind_eq_some_iff.mp h
  cases h
  rcases List.mem_append.mp he with hmem | hmem
  · rw [AdviceClaimReductionParams.cycleOpening] at hcycle
    cases hphase : a.phase with
    | CycleVariables =>
      rw [hphase] at hcycle
      obtain ⟨point, -, heq⟩ := Option.map_eq_some_iff.mp hcycle
      rw [← heq] at hmem
      rw [List.mem_singleton.mp hmem]
      exact isAdvice_openingId _ _
    | AddressVariables =>
      rw [hphase] at hcycle
      cases hcycle
      exact absurd hmem List.not_mem_nil
  · rw [AdviceClaimReductionParams.finalOpening] at hfinal
    split_ifs at hfinal
    · obtain ⟨point, -, heq⟩ := Option.map_eq_some_iff.mp hfinal
      rw [← heq] at hmem
      rw [List.mem_singleton.mp hmem]
      exact isAdvice_openingId _ _
    · cases hfinal
      exact absurd hmem List.not_mem_nil

/-- The regular instances of stage 6 end with the batch, at the cycle. -/
theorem regular_ends (hk : p.logKChunk = 4 ∨ p.logKChunk = 8) {s : PointInstance C}
    (hvirtual : 0 < lookupsLogK / p.lookupsRaVirtualLogKChunk)
    (hs : s ∈ stage6Regular p logT run.earlier) :
    s.EndsAtCycle p logT ∧ logT ≤ s.numRounds ∧ ∀ m, s.roundOffset m = m - s.numRounds := by
  have hhead : ((run.earlier.instructionRa.headD []).drop p.lookupsRaVirtualLogKChunk).length = logT := by
    have hlen := run.earlier.length_instructionRa
    have heach := run.earlier.length_each
    cases hvirt : run.earlier.instructionRa with
    | nil =>
      rw [hvirt, List.length_nil] at hlen
      omega
    | cons r rs =>
      have hr := heach r (hvirt ▸ List.mem_cons_self ..)
      rw [List.headD_cons, List.length_drop, hr]
      omega
  have hlookup := run.earlier.length_lookupOutput
  rw [stage6Regular] at hs
  simp only [List.mem_cons, List.not_mem_nil, or_false] at hs
  rcases hs with rfl | rfl | rfl | rfl | rfl | rfl
  · exact ⟨bytecodeReadRaf_ends hk, Nat.le_add_left _ _, fun m => rfl⟩
  · exact ⟨booleanity_ends, Nat.le_add_left _ _, fun m => rfl⟩
  · exact ⟨hammingBooleanity_ends hlookup, hlookup.ge, fun m => rfl⟩
  · exact ⟨ramRaVirtual_ends hk _, Nat.le_refl _, fun m => rfl⟩
  · exact ⟨lookupsRaVirtual_ends hk hhead, hhead.ge, fun m => rfl⟩
  · exact ⟨incClaimReduction_ends, Nat.le_refl _, fun m => rfl⟩

/-- **The cycle parts of stage 6 are one vector.** -/
theorem atCycle (hk : p.logKChunk = 4 ∨ p.logKChunk = 8)
    (hvirtual : 0 < lookupsLogK / p.lookupsRaVirtualLogKChunk) {e : OpeningId × OpeningPoint C}
    (he : e ∈ run.recorded6) (hadvice : ¬ IsAdvice e.1) : AtCycle (addressVars p e.1) run.cycle e.2 := by
  obtain ⟨s, hs, rSlice, points, hslice, hpoints, hmem⟩ := mem_of_recordAll run.record6 he
  rcases List.mem_append.mp hs with hregular | hs
  · obtain ⟨hends, hcycle, hoffset⟩ := run.regular_ends hk hvirtual hregular
    have hrounds : s.numRounds ≤ run.r6.length := run.length_r6 ▸ le_maxRounds hs
    rw [hoffset] at hslice
    have hsuffix := slice_suffix hrounds hslice
    have hlen : rSlice.length = s.numRounds := by
      rw [hsuffix, List.length_drop]
      omega
    have hat := hends rSlice points hlen hpoints e hmem
    rw [hsuffix, drop_of_suffix hcycle hrounds] at hat
    exact hat
  · obtain ⟨a, -, rfl⟩ := List.mem_map.mp hs
    exact absurd (isAdvice_of_mem hpoints hmem) hadvice

omit [Zero C] in
theorem mem_of_point {recorded : Recorded C} {id : OpeningId} {point : OpeningPoint C}
    (h : recorded.point id = .some point) : (id, point) ∈ recorded := by
  obtain ⟨e, hfind, heq⟩ := Option.map_eq_some_iff.mp h
  have hid := List.find?_some hfind
  have hmem := List.mem_of_find?_eq_some hfind
  rw [← heq, ← of_decide_eq_true hid]
  exact hmem

/-- The point of stage 7: its challenges reversed, then the cycle. -/
def unified : List C := (run.r7.drop (run.r7.length - p.logKChunk)).reverse ++ run.cycle

/-- What stage 7 runs, its reduction at the cycle of stage 6. -/
theorem instances7_eq (hk : p.logKChunk = 4 ∨ p.logKChunk = 8)
    (hvirtual : 0 < lookupsLogK / p.lookupsRaVirtualLogKChunk) :
    run.instances7 = hammingWeightClaimReduction p run.cycle ::
      (advice.filter fun a => 0 < a.numAddressPhaseRounds).map fun a =>
        adviceClaimReduction layout (adviceAddressPhase layout run.r6.length run.r6 a) := by
  have h := run.stage7_eq
  rw [stage7] at h
  obtain ⟨point, hpoint, h⟩ := Option.bind_eq_some_iff.mp h
  have hat := run.atCycle hk hvirtual (mem_of_point hpoint) (fun h => h)
  have hdrop : point.drop p.logKChunk = run.cycle := hat.drop
  rw [hdrop] at h
  exact (Option.some.inj h).symm

/-- **The reduction of stage 7 records one point.** -/
theorem atUnified (hk : p.logKChunk = 4 ∨ p.logKChunk = 8)
    (hvirtual : 0 < lookupsLogK / p.lookupsRaVirtualLogKChunk) {e : OpeningId × OpeningPoint C}
    (he : e ∈ run.recorded7) (hadvice : ¬ IsAdvice e.1) : e.2 = run.unified := by
  obtain ⟨s, hs, rSlice, points, hslice, hpoints, hmem⟩ := mem_of_recordAll run.record7 he
  have hrounds : s.numRounds ≤ run.r7.length := run.length_r7 ▸ le_maxRounds hs
  rw [run.instances7_eq hk hvirtual] at hs
  rcases List.mem_cons.mp hs with rfl | hs
  · have hsuffix := slice_suffix hrounds hslice
    cases hpoints
    obtain ⟨poly, -, heq⟩ := List.mem_map.mp hmem
    rw [← heq, hsuffix]
    rfl
  · obtain ⟨a, -, rfl⟩ := List.mem_map.mp hs
    exact absurd (isAdvice_of_mem hpoints hmem) hadvice

end StageRun

/-! ## The advice block -/

section Block

/-- What `new` fixes in the parameters of an advice reduction. -/
structure AdviceClaimReductionParams.OfTrace (logT : Nat) (layout : DoryLayout)
    (a : AdviceClaimReductionParams C) : Prop where
  phase : a.phase = .CycleVariables
  logKChunk : a.logKChunk = defaultLogKChunk logT
  logT_eq : a.logT = logT
  rounds : (a.cyclePhaseColRounds, a.cyclePhaseRowRounds) =
    cyclePhaseRoundSchedule layout logT (defaultLogKChunk logT)
      (DoryGlobals.mainSigmaNu (defaultLogKChunk logT) logT).1 a.adviceRowVars a.adviceColVars

theorem AdviceClaimReductionParams.ofTrace_new {F : Type} {fuel : Nat}
    {layout : DoryLayout} {kind : AdviceKind} {maxAdviceSizeBytes traceLen logT : Nat}
    {acc : VerifierOpeningAccumulator F C} {a : AdviceClaimReductionParams C}
    (hlog : log2 traceLen = .some logT)
    (h : AdviceClaimReductionParams.new fuel layout kind maxAdviceSizeBytes traceLen acc = .some a) :
    a.OfTrace logT layout := by
  rw [AdviceClaimReductionParams.new, hlog] at h
  obtain ⟨logT', hlogT, h⟩ := Option.bind_eq_some_iff.mp h
  obtain ⟨opening, -, h⟩ := Option.bind_eq_some_iff.mp h
  obtain ⟨sizes, -, h⟩ := Option.bind_eq_some_iff.mp h
  cases hlogT
  cases h
  exact ⟨rfl, rfl, rfl, rfl⟩

/-- The advice block starts its rows at a cycle coordinate of the matrix that is opened, and the
reduction is told that matrix: its `log_k_chunk` is the default of the trace length. -/
structure AdviceAligned (p : OneHotParams) (logT : Nat) (layout : DoryLayout)
    (a : AdviceClaimReductionParams C) : Prop where
  chunk : p.logKChunk = defaultLogKChunk logT
  cols : a.adviceColVars ≤ (DoryGlobals.mainSigmaNu p.logKChunk logT).1
  rows : a.adviceRowVars ≤ (DoryGlobals.mainSigmaNu p.logKChunk logT).2
  rowsAtCycle : match layout with
    | .CycleMajor => (DoryGlobals.mainSigmaNu p.logKChunk logT).1 ≤ logT
    | .AddressMajor => p.logKChunk ≤ (DoryGlobals.mainSigmaNu p.logKChunk logT).1

theorem slice_take {range : RoundRange} {n : Nat} {xs ys : List C}
    (h : range.slice (xs.take n) = .some ys) : ys = (xs.drop range.start).take range.len := by
  rw [RoundRange.slice] at h
  split_ifs at h with hrange
  cases h
  obtain ⟨hle, hstop⟩ := hrange
  rw [List.length_take] at hstop
  rw [List.drop_take, List.take_take, RoundRange.len]
  congr 1
  omega

/-- The coordinates bound in the two phases, in the order of the matrix index. -/
def AdviceClaimReductionParams.boundCoordinates (layout : DoryLayout) (a : AdviceClaimReductionParams C)
    (cycleCoordinates addressCoordinates : List C) : List C :=
  let cycle := (cycleCoordinates.drop a.cyclePhaseColRounds.start).take a.cyclePhaseColRounds.len ++
    (cycleCoordinates.drop a.cyclePhaseRowRounds.start).take a.cyclePhaseRowRounds.len
  let address := addressCoordinates.take a.numAddressPhaseRounds
  match layout with
  | .CycleMajor => cycle ++ address
  | .AddressMajor => address ++ cycle

/-- The coordinates of the matrix index, of the two parts of the point. -/
def indexCoordinates (layout : DoryLayout) (cycleCoordinates addressCoordinates : List C) : List C :=
  match layout with
  | .CycleMajor => cycleCoordinates ++ addressCoordinates
  | .AddressMajor => addressCoordinates ++ cycleCoordinates

theorem matrixCoordinates_append {layout : DoryLayout} {k : Nat} {cycle address : List C}
    (h : address.length = k) :
    matrixCoordinates layout k (address.reverse ++ cycle.reverse) = indexCoordinates layout cycle address := by
  have hlen : address.reverse.length = k := by rw [List.length_reverse, h]
  cases layout with
  | CycleMajor => simp [matrixCoordinates, indexCoordinates]
  | AddressMajor =>
    rw [matrixCoordinates, indexCoordinates, List.drop_left' hlen, List.take_left' hlen]
    simp

theorem mainSigmaNu_sum (k logT : Nat) :
    (DoryGlobals.mainSigmaNu k logT).1 + (DoryGlobals.mainSigmaNu k logT).2 = k + logT ∧
      (DoryGlobals.mainSigmaNu k logT).1 = (k + logT + 1) / 2 := by
  refine ⟨?_, rfl⟩
  simp only [DoryGlobals.mainSigmaNu, DoryGlobals.balancedSigmaNu]
  omega

variable {p : OneHotParams} {logT : Nat} {layout : DoryLayout} {a : AdviceClaimReductionParams C}

theorem AdviceAligned.numAddressPhaseRounds_le (h : AdviceAligned p logT layout a) (hof : a.OfTrace logT layout) :
    a.numAddressPhaseRounds ≤ p.logKChunk := by
  obtain ⟨hsum, -⟩ := mainSigmaNu_sum p.logKChunk logT
  have hrounds := hof.rounds
  have hcols := h.cols
  have hrows := h.rows
  have hrowsAt := h.rowsAtCycle
  rw [← h.chunk] at hrounds
  rw [AdviceClaimReductionParams.numAddressPhaseRounds]
  cases layout with
  | CycleMajor =>
    obtain ⟨hcol, hrow⟩ := Prod.mk.inj hrounds
    rw [hcol, hrow]
    simp only [RoundRange.len]
    simp only at hrowsAt
    omega
  | AddressMajor =>
    obtain ⟨hcol, hrow⟩ := Prod.mk.inj hrounds
    rw [hcol, hrow]
    simp only [RoundRange.len]
    simp only at hrowsAt
    omega

/-- **The two phases bind the coordinates of the top left block.** -/
theorem AdviceAligned.boundCoordinates_eq (h : AdviceAligned p logT layout a) (hof : a.OfTrace logT layout)
    {cycle address : List C} (hcycle : cycle.length = logT) (haddress : address.length = p.logKChunk) :
    (a.boundCoordinates layout cycle address).reverse =
      topLeftPoint (DoryGlobals.mainSigmaNu p.logKChunk logT).1 a.adviceColVars a.adviceRowVars
        (indexCoordinates layout cycle address) := by
  obtain ⟨hsum, -⟩ := mainSigmaNu_sum p.logKChunk logT
  have hrounds := hof.rounds
  have hcols := h.cols
  have hrows := h.rows
  have hrowsAt := h.rowsAtCycle
  rw [← h.chunk] at hrounds
  rw [topLeftPoint]
  generalize (DoryGlobals.mainSigmaNu p.logKChunk logT).1 = sigma at *
  congr 1
  cases layout with
  | CycleMajor =>
    obtain ⟨hcol, hrow⟩ := Prod.mk.inj hrounds
    simp only at hrowsAt
    simp only [AdviceClaimReductionParams.boundCoordinates, AdviceClaimReductionParams.numAddressPhaseRounds,
      hcol, hrow, RoundRange.len, indexCoordinates, List.drop_zero, List.append_assoc]
    have hcolVars : min logT a.adviceColVars - 0 = a.adviceColVars := by omega
    have hstart : min logT sigma = sigma := by omega
    rw [hcolVars, hstart, List.take_append_of_le_length (by omega), List.drop_append_of_le_length (by omega),
      List.take_append, List.length_drop, hcycle]
    congr 1
    by_cases hin : sigma + a.adviceRowVars ≤ logT
    · have hstop : min logT (sigma + a.adviceRowVars) - sigma = a.adviceRowVars := by omega
      rw [hstop, show a.adviceColVars + a.adviceRowVars - (a.adviceColVars + a.adviceRowVars) =
        a.adviceRowVars - (logT - sigma) by omega]
    · have hstop : min logT (sigma + a.adviceRowVars) - sigma = logT - sigma := by omega
      have htake : (cycle.drop sigma).take (logT - sigma) = (cycle.drop sigma).take a.adviceRowVars := by
        rw [List.take_of_length_le (by rw [List.length_drop]; omega),
          List.take_of_length_le (by rw [List.length_drop]; omega)]
      rw [hstop, htake, show a.adviceColVars + a.adviceRowVars - (a.adviceColVars + (logT - sigma)) =
        a.adviceRowVars - (logT - sigma) by omega]
  | AddressMajor =>
    obtain ⟨hcol, hrow⟩ := Prod.mk.inj hrounds
    simp only at hrowsAt
    simp only [AdviceClaimReductionParams.boundCoordinates, AdviceClaimReductionParams.numAddressPhaseRounds,
      hcol, hrow, RoundRange.len, indexCoordinates, List.drop_zero]
    have hstop : min logT (sigma - p.logKChunk + a.adviceRowVars) - (sigma - p.logKChunk) = a.adviceRowVars := by
      omega
    rw [hstop, Nat.sub_zero, List.take_append, List.drop_append, haddress,
      List.drop_of_length_le (by omega : address.length ≤ sigma), List.nil_append, List.append_assoc]
    congr 1
    by_cases hsmall : a.adviceColVars ≤ p.logKChunk
    · congr 1
      omega
    · rw [List.take_of_length_le (by omega), List.take_of_length_le (by omega)]

end Block

/-! ## Where the advice openings are recorded -/

namespace AdviceClaimReductionParams

variable {layout : DoryLayout} {a : AdviceClaimReductionParams C}

/-- The first phase's coordinates, from a slice of the cycle coordinates. -/
theorem normalize_cycle (hphase : a.phase = .CycleVariables) {cycle point : List C} {n : Nat}
    (h : a.normalizeOpeningPoint layout (cycle.take n) = .some point) :
    point = ((cycle.drop a.cyclePhaseColRounds.start).take a.cyclePhaseColRounds.len ++
      (cycle.drop a.cyclePhaseRowRounds.start).take a.cyclePhaseRowRounds.len).reverse := by
  simp only [normalizeOpeningPoint, hphase] at h
  obtain ⟨col, hcol, h⟩ := Option.bind_eq_some_iff.mp h
  obtain ⟨row, hrow, h⟩ := Option.bind_eq_some_iff.mp h
  rw [← slice_take hcol, ← slice_take hrow]
  exact (Option.some.inj h).symm

/-- An opening of the first phase: the claim in between, or the advice itself where no round is
left for the second. -/
theorem mem_openings_cycle (hphase : a.phase = .CycleVariables) {cycle : List C} {n : Nat}
    {points : Recorded C} (h : a.openingsToCache layout (cycle.take n) = .some points)
    {e : OpeningId × OpeningPoint C} (he : e ∈ points) (address : List C) :
    e.1 = a.kind.openingId .AdviceClaimReductionCyclePhase ∨
      (e.1 = a.kind.openingId .AdviceClaimReduction ∧
        e.2 = (a.boundCoordinates layout cycle address).reverse) := by
  obtain ⟨first, hfirst, h⟩ := Option.bind_eq_some_iff.mp h
  obtain ⟨final, hfinal, h⟩ := Option.bind_eq_some_iff.mp h
  cases h
  rcases List.mem_append.mp he with hmem | hmem
  · rw [cycleOpening, hphase] at hfirst
    obtain ⟨point, -, heq⟩ := Option.map_eq_some_iff.mp hfirst
    rw [← heq] at hmem
    rw [List.mem_singleton.mp hmem]
    exact .inl rfl
  · rw [finalOpening] at hfinal
    by_cases hnone : a.numAddressPhaseRounds = 0
    · rw [if_pos (.inl hnone)] at hfinal
      obtain ⟨point, hpoint, heq⟩ := Option.map_eq_some_iff.mp hfinal
      rw [← heq] at hmem
      rw [List.mem_singleton.mp hmem]
      refine .inr ⟨rfl, ?_⟩
      rw [normalize_cycle hphase hpoint]
      cases layout with
      | CycleMajor => simp [boundCoordinates, hnone]
      | AddressMajor => simp [boundCoordinates, hnone]
    · rw [if_neg (by rw [hphase]; simp [hnone])] at hfinal
      cases hfinal
      exact absurd hmem List.not_mem_nil

/-- An opening of the second phase. -/
theorem mem_openings_address (hphase : a.phase = .CycleVariables) {cycle address : List C} {n : Nat}
    {first points : Recorded C} (hfirst : a.openingsToCache layout (cycle.take n) = .some first)
    (h : (a.addressPhase layout (cycle.take n)).openingsToCache layout
      (address.take a.numAddressPhaseRounds) = .some points)
    {e : OpeningId × OpeningPoint C} (he : e ∈ points) :
    e.1 = a.kind.openingId .AdviceClaimReduction ∧
      e.2 = (a.boundCoordinates layout cycle address).reverse := by
  obtain ⟨opening, hopening, -⟩ := Option.bind_eq_some_iff.mp hfirst
  rw [cycleOpening, hphase] at hopening
  obtain ⟨cyclePoint, hcyclePoint, -⟩ := Option.map_eq_some_iff.mp hopening
  -- the first phase's opening is not recorded again
  obtain ⟨final, hfinal, h⟩ := Option.bind_eq_some_iff.mp h
  cases h
  rw [List.nil_append] at he
  rw [finalOpening, if_pos (.inr rfl)] at hfinal
  obtain ⟨point, hpoint, heq⟩ := Option.map_eq_some_iff.mp hfinal
  rw [← heq] at he
  rw [List.mem_singleton.mp he]
  refine ⟨rfl, ?_⟩
  have hchallenges : (a.addressPhase layout (cycle.take n)).cycleVarChallenges =
      (cycle.drop a.cyclePhaseColRounds.start).take a.cyclePhaseColRounds.len ++
        (cycle.drop a.cyclePhaseRowRounds.start).take a.cyclePhaseRowRounds.len := by
    rw [addressPhase, hcyclePoint, normalize_cycle hphase hcyclePoint]
    simp
  have hphase' : (a.addressPhase layout (cycle.take n)).phase = .AddressVariables := rfl
  cases layout with
  | CycleMajor =>
    simp only [normalizeOpeningPoint, hphase', hchallenges] at hpoint
    rw [← Option.some.inj hpoint]
    rfl
  | AddressMajor =>
    simp only [normalizeOpeningPoint, hphase', hchallenges] at hpoint
    rw [← Option.some.inj hpoint]
    rfl

end AdviceClaimReductionParams

theorem recordAll_mem {maxNumRounds : Nat} {r : List C} {instances : List (PointInstance C)}
    {recorded : Recorded C} (h : recordAll maxNumRounds r instances = .some recorded)
    {s : PointInstance C} (hs : s ∈ instances) :
    ∃ rSlice points, BatchedSumcheck.slice r (s.roundOffset maxNumRounds) s.numRounds = .some rSlice ∧
      s.openings rSlice = .some points ∧ ∀ e ∈ points, e ∈ recorded := by
  induction instances generalizing recorded with
  | nil => exact absurd hs List.not_mem_nil
  | cons s' rest ih =>
    obtain ⟨rSlice, hslice, h⟩ := Option.bind_eq_some_iff.mp h
    obtain ⟨points, hpoints, h⟩ := Option.bind_eq_some_iff.mp h
    obtain ⟨more, hmore, h⟩ := Option.bind_eq_some_iff.mp h
    cases h
    rcases List.mem_cons.mp hs with rfl | hs
    · exact ⟨rSlice, points, hslice, hpoints, fun e he => List.mem_append_left _ he⟩
    · obtain ⟨rSlice', points', hslice', hpoints', hmem⟩ := ih hmore hs
      exact ⟨rSlice', points', hslice', hpoints', fun e he => List.mem_append_right _ (hmem e he)⟩

theorem maxRounds_le {instances : List (PointInstance C)} {n : Nat}
    (h : ∀ s ∈ instances, s.numRounds ≤ n) : maxRounds instances ≤ n := by
  rw [maxRounds]
  cases hmax : (instances.map (·.numRounds)).max? with
  | none => exact Nat.zero_le _
  | some m =>
    obtain ⟨s, hs, heq⟩ := List.mem_map.mp (List.max?_mem hmax)
    rw [Option.getD_some, ← heq]
    exact h s hs

namespace StageRun

variable [Zero C] {p : OneHotParams} {logT : Nat} {layout : DoryLayout}
  {advice : List (AdviceClaimReductionParams C)} (run : StageRun C p logT layout advice)

/-- The cycle coordinates, lowest first. -/
def cycleCoordinates : List C := run.r6.drop (run.r6.length - logT)

theorem booleanity_le : p.logKChunk + logT ≤ run.r6.length := by
  have hmem : booleanity p logT ∈ stage6 p logT layout run.earlier advice :=
    List.mem_append_left _ (List.mem_cons_of_mem _ (List.mem_cons_self ..))
  rw [run.length_r6]
  exact le_maxRounds hmem

/-- An advice instance of stage 6 has the first of the cycle coordinates. -/
theorem slice_advice {a : AdviceClaimReductionParams C} (hof : a.OfTrace logT layout)
    (hchunk : p.logKChunk = defaultLogKChunk logT) {rSlice : List C}
    (h : BatchedSumcheck.slice run.r6 ((adviceClaimReduction layout a).roundOffset run.r6.length)
      a.numRounds = .some rSlice) : rSlice = run.cycleCoordinates.take a.numRounds := by
  have hbool := run.booleanity_le
  have hoffset : (adviceClaimReduction layout a).roundOffset run.r6.length = run.r6.length - logT := by
    simp only [adviceClaimReduction, hof.phase, hof.logKChunk, hof.logT_eq, ← hchunk]
    omega
  rw [hoffset, BatchedSumcheck.slice] at h
  split_ifs at h
  exact (Option.some.inj h).symm

/-- The regular instances of stage 6 record no advice. -/
theorem regular_ids {s : PointInstance C} (hs : s ∈ stage6Regular p logT run.earlier) {r : List C}
    {points : Recorded C} (hpoints : s.openings r = .some points) {e : OpeningId × OpeningPoint C}
    (he : e ∈ points) : ¬ IsAdvice e.1 := by
  rw [stage6Regular] at hs
  simp only [List.mem_cons, List.not_mem_nil, or_false] at hs
  rcases hs with rfl | rfl | rfl | rfl | rfl | rfl
  · obtain ⟨i, -, hi⟩ := mem_of_mapM hpoints he
    obtain ⟨chunk, -, heq⟩ := Option.bind_eq_some_iff.mp hi
    cases heq
    exact fun h => h
  · cases hpoints
    obtain ⟨poly, -, heq⟩ := List.mem_map.mp he
    rw [← heq]
    exact fun h => h
  · cases hpoints
    rw [List.mem_singleton.mp he]
    exact fun h => h
  · obtain ⟨i, -, hi⟩ := mem_of_mapM hpoints he
    obtain ⟨chunk, -, heq⟩ := Option.bind_eq_some_iff.mp hi
    cases heq
    exact fun h => h
  · cases hpoints
    obtain ⟨⟨chunk, i⟩, -, heq⟩ := List.mem_map.mp he
    rw [← heq]
    exact fun h => h
  · cases hpoints
    rcases List.mem_cons.mp he with heq | hmem
    · rw [heq]
      exact fun h => h
    · rw [List.mem_singleton.mp hmem]
      exact fun h => h

variable (hof : ∀ a ∈ advice, a.OfTrace logT layout) (haligned : ∀ a ∈ advice, AdviceAligned p logT layout a)

include hof haligned in
/-- With every advice aligned, stage 7 is as long as a chunk. -/
theorem length_r7_eq (hk : p.logKChunk = 4 ∨ p.logKChunk = 8)
    (hvirtual : 0 < lookupsLogK / p.lookupsRaVirtualLogKChunk) : run.r7.length = p.logKChunk := by
  have hinstances := run.instances7_eq hk hvirtual
  rw [run.length_r7]
  refine Nat.le_antisymm (maxRounds_le fun s hs => ?_) ?_
  · rw [hinstances] at hs
    rcases List.mem_cons.mp hs with rfl | hs
    · exact Nat.le_refl _
    · obtain ⟨a, ha, rfl⟩ := List.mem_map.mp hs
      have hmem := (List.mem_filter.mp ha).1
      have hle := (haligned a hmem).numAddressPhaseRounds_le (hof a hmem)
      rw [AdviceClaimReductionParams.numAddressPhaseRounds, Nat.add_comm a.cyclePhaseColRounds.len] at hle
      exact hle
  · have hmem : hammingWeightClaimReduction p run.cycle ∈ run.instances7 := by
      rw [hinstances]
      exact List.mem_cons_self ..
    exact le_maxRounds hmem

include hof haligned in
/-- **Advice is opened at its block.** -/
theorem advice_atBlock (hk : p.logKChunk = 4 ∨ p.logKChunk = 8)
    (hvirtual : 0 < lookupsLogK / p.lookupsRaVirtualLogKChunk) {e : OpeningId × OpeningPoint C}
    (he : e ∈ run.recorded6 ++ run.recorded7) (hadvice : IsAdvice e.1) :
    (∃ kind : AdviceKind, e.1 = kind.openingId .AdviceClaimReductionCyclePhase) ∨
      ∃ a ∈ advice, e.1 = a.kind.openingId .AdviceClaimReduction ∧
        e.2 = topLeftPoint (DoryGlobals.mainSigmaNu p.logKChunk logT).1 a.adviceColVars a.adviceRowVars
          (matrixCoordinates layout p.logKChunk run.unified) := by
  have hlength := run.length_r7_eq hof haligned hk hvirtual
  have hbool := run.booleanity_le
  have hcycle : run.cycleCoordinates.length = logT := by
    rw [cycleCoordinates, List.length_drop]
    omega
  have hunified : matrixCoordinates layout p.logKChunk run.unified =
      indexCoordinates layout run.cycleCoordinates run.r7 := by
    rw [unified, hlength, Nat.sub_self, List.drop_zero]
    exact matrixCoordinates_append hlength
  rcases List.mem_append.mp he with h6 | h7
  · obtain ⟨s, hs, rSlice, points, hslice, hpoints, hmem⟩ := mem_of_recordAll run.record6 h6
    rcases List.mem_append.mp hs with hregular | hs
    · have hregularIds := run.regular_ids hregular hpoints hmem
      exact absurd hadvice hregularIds
    · obtain ⟨a, ha, rfl⟩ := List.mem_map.mp hs
      rw [run.slice_advice (hof a ha) (haligned a ha).chunk hslice] at hpoints
      rcases AdviceClaimReductionParams.mem_openings_cycle (hof a ha).phase hpoints hmem run.r7 with hid | hpoint
      · exact .inl ⟨a.kind, hid⟩
      · refine .inr ⟨a, ha, hpoint.1, ?_⟩
        rw [hpoint.2, hunified, (haligned a ha).boundCoordinates_eq (hof a ha) hcycle hlength]
  · obtain ⟨s, hs, rSlice, points, hslice, hpoints, hmem⟩ := mem_of_recordAll run.record7 h7
    rw [run.instances7_eq hk hvirtual] at hs
    rcases List.mem_cons.mp hs with rfl | hs
    · cases hpoints
      obtain ⟨poly, -, heq⟩ := List.mem_map.mp hmem
      rw [← heq] at hadvice
      exact hadvice.elim
    · obtain ⟨a, ha, rfl⟩ := List.mem_map.mp hs
      have hmemA := (List.mem_filter.mp ha).1
      have hstage6 : adviceClaimReduction layout a ∈ stage6 p logT layout run.earlier advice :=
        List.mem_append_right _ (List.mem_map_of_mem hmemA)
      obtain ⟨slice6, first, hslice6, hfirst, -⟩ := recordAll_mem run.record6 hstage6
      have hcycle6 := run.slice_advice (hof a hmemA) (haligned a hmemA).chunk hslice6
      have hphase : adviceAddressPhase layout run.r6.length run.r6 a =
          a.addressPhase layout (run.cycleCoordinates.take a.numRounds) := by
        have hslice6' : BatchedSumcheck.slice run.r6
            ((adviceClaimReduction layout a).roundOffset run.r6.length) a.numRounds = .some slice6 := hslice6
        rw [adviceAddressPhase, hslice6', Option.getD_some, hcycle6]
      have hrounds : (adviceClaimReduction layout (adviceAddressPhase layout run.r6.length run.r6 a)).numRounds =
          a.numAddressPhaseRounds := by
        rw [AdviceClaimReductionParams.numAddressPhaseRounds, Nat.add_comm a.cyclePhaseColRounds.len]
        rfl
      have hslice7 : rSlice = run.r7.take a.numAddressPhaseRounds := by
        rw [hrounds] at hslice
        change BatchedSumcheck.slice run.r7 0 a.numAddressPhaseRounds = .some rSlice at hslice
        rw [BatchedSumcheck.slice, List.drop_zero] at hslice
        split_ifs at hslice
        exact (Option.some.inj hslice).symm
      rw [hslice7] at hpoints
      change (adviceAddressPhase layout run.r6.length run.r6 a).openingsToCache layout _ = .some points at hpoints
      rw [hphase] at hpoints
      rw [hcycle6] at hfirst
      obtain ⟨hid, hpoint⟩ := AdviceClaimReductionParams.mem_openings_address (hof a hmemA).phase hfirst hpoints hmem
      refine .inr ⟨a, hmemA, hid, ?_⟩
      rw [hpoint, hunified, (haligned a hmemA).boundCoordinates_eq (hof a hmemA) hcycle hlength]

/-! ## The claims of the reduction -/

theorem regular_mem {s : PointInstance C} (hs : s ∈ stage6Regular p logT run.earlier) :
    s ∈ stage6 p logT layout run.earlier advice := List.mem_append_left _ hs

/-- Where Booleanity opens every polynomial. -/
def boolPoint : List C :=
  ((run.r6.drop (run.r6.length - (p.logKChunk + logT))).take p.logKChunk).reverse ++
    ((run.r6.drop (run.r6.length - (p.logKChunk + logT))).drop p.logKChunk).reverse

theorem booleanity_recorded {poly : CommittedPolynomial} (hpoly : poly ∈ p.polynomialTypes) :
    (.committed poly .Booleanity, run.boolPoint) ∈ run.recorded6 := by
  have hs : booleanity p logT ∈ stage6Regular p logT run.earlier :=
    List.mem_cons_of_mem _ (List.mem_cons_self ..)
  obtain ⟨rSlice, points, hslice, hpoints, hmem⟩ := recordAll_mem run.record6 (run.regular_mem hs)
  have hsuffix := slice_suffix run.booleanity_le hslice
  cases hpoints
  refine hmem _ (List.mem_map.mpr ⟨poly, hpoly, ?_⟩)
  rw [hsuffix, boolPoint]

/-- Nothing else records an opening of Booleanity. -/
theorem eq_boolPoint {poly : CommittedPolynomial} {point : List C}
    (h : (.committed poly .Booleanity, point) ∈ run.recorded6) : point = run.boolPoint := by
  obtain ⟨s, hs, rSlice, points, hslice, hpoints, he⟩ := mem_of_recordAll run.record6 h
  rcases List.mem_append.mp hs with hs | hs
  · rw [stage6Regular] at hs
    simp only [List.mem_cons, List.not_mem_nil, or_false] at hs
    rcases hs with rfl | rfl | rfl | rfl | rfl | rfl
    · obtain ⟨i, -, hi⟩ := mem_of_mapM hpoints he
      obtain ⟨chunk, -, heq⟩ := Option.bind_eq_some_iff.mp hi
      cases heq
    · have hsuffix := slice_suffix run.booleanity_le hslice
      cases hpoints
      obtain ⟨poly', -, heq⟩ := List.mem_map.mp he
      cases heq
      rw [hsuffix, boolPoint]
    · cases hpoints
      cases List.mem_singleton.mp he
    · obtain ⟨i, -, hi⟩ := mem_of_mapM hpoints he
      obtain ⟨chunk, -, heq⟩ := Option.bind_eq_some_iff.mp hi
      cases heq
    · cases hpoints
      obtain ⟨⟨chunk, i⟩, -, heq⟩ := List.mem_map.mp he
      cases heq
    · cases hpoints
      rcases List.mem_cons.mp he with heq | hmem
      · cases heq
      · cases List.mem_singleton.mp hmem
  · obtain ⟨a, -, rfl⟩ := List.mem_map.mp hs
    exact absurd (isAdvice_of_mem hpoints he) fun h => h

/-- The claims of stage 6 are the values of the polynomials at the points recorded with them. -/
structure ClaimsTrue {F : Type} [JoltField F] [Challenge C F] (ra : OneHotPolys F p logT)
    (claims : OpeningId → Option F) : Prop where
  committed : ∀ poly ∈ p.polynomialTypes, ∀ sumcheck point, (.committed poly sumcheck, point) ∈ run.recorded6 →
    claims (.committed poly sumcheck) =
      .some (ra.eval poly (intoPoint (point.take p.logKChunk)) (intoPoint (point.drop p.logKChunk)))
  hamming : ∀ point, (.virt .RamHammingWeight .RamHammingBooleanity, point) ∈ run.recorded6 →
    claims (.virt .RamHammingWeight .RamHammingBooleanity) = .some (ra.hammingEval (intoPoint point))

variable {F : Type} [JoltField F] [Challenge C F] {ra : OneHotPolys F p logT} {claims : OpeningId → Option F}
  {gamma : F} {hp : HammingWeightParams F C}

/-- What the reduction is started with is true at the one cycle point. -/
theorem trueAt (hk : p.logKChunk = 4 ∨ p.logKChunk = 8)
    (hvirtual : 0 < lookupsLogK / p.lookupsRaVirtualLogKChunk) (htrue : run.ClaimsTrue ra claims)
    (hnew : HammingWeightParams.new p run.recorded6 claims gamma = .some hp) :
    hp.rCycle = run.cycle ∧ ∀ c ∈ hp.claims, c.poly ∈ p.polynomialTypes ∧
      c.TrueAt ra (intoPoint hp.rAddrBool) (intoPoint hp.rCycle) := by
  obtain ⟨point, hpoint, h⟩ := Option.bind_eq_some_iff.mp hnew
  obtain ⟨ramHwFactor, hramHw, h⟩ := Option.bind_eq_some_iff.mp h
  obtain ⟨each, heach, h⟩ := Option.bind_eq_some_iff.mp h
  cases h
  have hbool := run.eq_boolPoint (mem_of_point hpoint)
  have hcycle : point.drop p.logKChunk = run.cycle :=
    (run.atCycle hk hvirtual (mem_of_point hpoint) (fun h => h)).drop
  have hlength : run.cycle.length = logT := by
    have hle := run.booleanity_le
    exact run.length_cycle_le (by omega)
  have hhamming : ramHwFactor = ra.hammingEval (intoPoint run.cycle) := by
    have hs : hammingBooleanity run.earlier.lookupOutput ∈ stage6Regular p logT run.earlier :=
      List.mem_cons_of_mem _ (List.mem_cons_of_mem _ (List.mem_cons_self ..))
    obtain ⟨rSlice, points, -, hpoints, hmem⟩ := recordAll_mem run.record6 (run.regular_mem hs)
    cases hpoints
    have hrecorded := hmem _ (List.mem_singleton_self _)
    have hat := (run.atCycle hk hvirtual hrecorded (fun h => h)).drop
    have hclaim := htrue.hamming _ hrecorded
    rw [hramHw] at hclaim
    rw [Option.some.inj hclaim, ← hat]
    rfl
  refine ⟨hcycle, fun c hc => ?_⟩
  obtain ⟨poly, hpoly, hc⟩ := mem_of_mapM heach hc
  obtain ⟨claimBool, hclaimBool, hc⟩ := Option.bind_eq_some_iff.mp hc
  obtain ⟨virtPoint, hvirtPoint, hc⟩ := Option.bind_eq_some_iff.mp hc
  obtain ⟨claimVirt, hclaimVirt, hc⟩ := Option.bind_eq_some_iff.mp hc
  cases hc
  refine ⟨hpoly, ?_, ?_, ?_⟩
  · simp only
    rw [hcycle, hhamming]
    exact ra.hwClaim_eq hpoly (by rw [intoPoint, List.length_map, hlength])
  · have hclaim := htrue.committed poly hpoly _ _ (run.booleanity_recorded hpoly)
    rw [hclaimBool] at hclaim
    rw [hbool]
    exact Option.some.inj hclaim
  · have hrecorded := mem_of_point hvirtPoint
    have hclaim := htrue.committed poly hpoly _ _ hrecorded
    rw [hclaimVirt] at hclaim
    have hat := run.atCycle hk hvirtual hrecorded (fun h => h)
    rw [addressVars_committed hpoly] at hat
    simp only
    rw [hcycle, ← hat.drop]
    exact Option.some.inj hclaim

end StageRun

/-! ## All claims about one point -/

section Main

variable [Zero C] {p : OneHotParams} {logT : Nat} {layout : DoryLayout}
  {advice : List (AdviceClaimReductionParams C)}

/-- The claims that stage 8 batches are about one point, and the reduction to it keeps truth. -/
structure OnePoint (run : StageRun C p logT layout advice) : Prop where
  /-- One cycle part in stage 6. -/
  cycle : ∀ e ∈ run.recorded6, ¬ StageRun.IsAdvice e.1 → AtCycle (addressVars p e.1) run.cycle e.2
  /-- The point that stage 8 looks up. -/
  opening : run.recorded7.point (.committed (.InstructionRa 0) .HammingWeightClaimReduction) = .some run.unified
  ra : ∀ e ∈ run.recorded7, ¬ StageRun.IsAdvice e.1 → e.2 = run.unified
  inc : ∀ e ∈ run.recorded6, e.1 = .committed .RamInc .IncClaimReduction ∨
    e.1 = .committed .RdInc .IncClaimReduction → e.2 = run.unified.drop p.logKChunk
  /-- Advice at the coordinates of the top left block of the matrix. -/
  advice : ∀ e ∈ run.recorded6 ++ run.recorded7, StageRun.IsAdvice e.1 →
    (∃ kind : AdviceKind, e.1 = kind.openingId .AdviceClaimReductionCyclePhase) ∨
      ∃ a ∈ advice, e.1 = a.kind.openingId .AdviceClaimReduction ∧
        e.2 = topLeftPoint (DoryGlobals.mainSigmaNu p.logKChunk logT).1 a.adviceColVars a.adviceRowVars
          (matrixCoordinates layout p.logKChunk run.unified)
  /-- True claims of stage 6 make the input claim of stage 7 a sum over the addresses, whose summand
  at the challenges is what true claims at the one point are checked against. -/
  reduction : ∀ (F : Type) [JoltField F] [Challenge C F] (ra : OneHotPolys F p logT)
    (claims : OpeningId → Option F) (gamma : F) (hp : HammingWeightParams F C),
    run.ClaimsTrue ra claims → HammingWeightParams.new p run.recorded6 claims gamma = .some hp →
      hp.inputClaim = sumCube p.logKChunk (summand ra hp) ∧
      ∀ gClaim : CommittedPolynomial → F,
        (∀ poly ∈ p.polynomialTypes, gClaim poly = ra.eval poly
          (intoPoint (run.unified.take p.logKChunk)) (intoPoint (run.unified.drop p.logKChunk))) →
        hp.expectedOutputClaim gClaim (run.r7.drop (run.r7.length - p.logKChunk)) =
          summand ra hp (intoPoint (run.unified.take p.logKChunk))

theorem OneHotConfig.valid {config : OneHotConfig} {bytecodeK ramK : Nat} (hvalid : config.validate = true)
    (h : OneHotParams.fromConfig config bytecodeK ramK = .some p) :
    (p.logKChunk = 4 ∨ p.logKChunk = 8) ∧ 0 < lookupsLogK / p.lookupsRaVirtualLogKChunk := by
  obtain ⟨bytecodeLogK, -, h⟩ := Option.bind_eq_some_iff.mp h
  obtain ⟨ramLogK, -, h⟩ := Option.bind_eq_some_iff.mp h
  cases h
  simp only [OneHotConfig.validate, Bool.and_eq_true, Bool.or_eq_true, decide_eq_true_eq] at hvalid
  obtain ⟨hchunk, ⟨⟨hle, hmax⟩, -⟩, -⟩ := hvalid
  refine ⟨hchunk, Nat.div_pos hmax ?_⟩
  simp only
  omega

theorem StageRun.unified_split (run : StageRun C p logT layout advice) (hk : p.logKChunk = 4 ∨ p.logKChunk = 8)
    (hvirtual : 0 < lookupsLogK / p.lookupsRaVirtualLogKChunk) :
    run.unified.take p.logKChunk = (run.r7.drop (run.r7.length - p.logKChunk)).reverse ∧
      run.unified.drop p.logKChunk = run.cycle := by
  have hle : p.logKChunk ≤ run.r7.length := by
    have hmem : hammingWeightClaimReduction p run.cycle ∈ run.instances7 := by
      rw [run.instances7_eq hk hvirtual]
      exact List.mem_cons_self ..
    rw [run.length_r7]
    exact le_maxRounds hmem
  have hlen : (run.r7.drop (run.r7.length - p.logKChunk)).reverse.length = p.logKChunk := by
    rw [List.length_reverse, List.length_drop]
    omega
  exact ⟨List.take_left' hlen, List.drop_left' hlen⟩

omit [Zero C] in
theorem Recorded.exists_point {recorded : Recorded C} {e : OpeningId × OpeningPoint C} (he : e ∈ recorded) :
    ∃ point, recorded.point e.1 = .some point := by
  rw [Recorded.point]
  cases hfind : recorded.find? fun e' => e'.1 = e.1 with
  | none =>
    have hno := List.find?_eq_none.mp hfind e he
    simp at hno
  | some e' => exact ⟨e'.2, rfl⟩

theorem StageRun.opening_eq (run : StageRun C p logT layout advice) (hk : p.logKChunk = 4 ∨ p.logKChunk = 8)
    (hvirtual : 0 < lookupsLogK / p.lookupsRaVirtualLogKChunk) :
    run.recorded7.point (.committed (.InstructionRa 0) .HammingWeightClaimReduction) = .some run.unified := by
  have hmem : hammingWeightClaimReduction p run.cycle ∈ run.instances7 := by
    rw [run.instances7_eq hk hvirtual]
    exact List.mem_cons_self ..
  obtain ⟨rSlice, points, -, hpoints, hrecorded⟩ := recordAll_mem run.record7 hmem
  cases hpoints
  have hfirst : CommittedPolynomial.InstructionRa 0 ∈ p.polynomialTypes := by
    refine List.mem_append_left _ (List.mem_append_left _ (List.mem_map.mpr ⟨0, ?_, rfl⟩))
    rw [List.mem_range, OneHotParams.instructionD, divCeil, lookupsLogK]
    refine Nat.div_pos ?_ (by omega)
    omega
  have he := hrecorded _ (List.mem_map.mpr ⟨_, hfirst, rfl⟩)
  obtain ⟨point, hpoint⟩ := Recorded.exists_point he
  have heq := run.atUnified hk hvirtual (mem_of_point hpoint) (fun h => h)
  rw [← heq]
  exact hpoint

/-- **All claims of stage 8 are about one point**, where the advice reduction is told the matrix that
is opened and the rows of that matrix start at a cycle coordinate. -/
theorem onePoint_of_aligned {config : OneHotConfig} {bytecodeK ramK traceLen : Nat}
    (hvalid : config.validate = true) (hparams : OneHotParams.fromConfig config bytecodeK ramK = .some p)
    (hlog : log2 traceLen = .some logT)
    (hnew : ∀ a ∈ advice, ∃ (F : Type) (fuel : Nat) (kind : AdviceKind) (maxAdviceSizeBytes : Nat)
      (acc : VerifierOpeningAccumulator F C),
      AdviceClaimReductionParams.new fuel layout kind maxAdviceSizeBytes traceLen acc = .some a)
    (haligned : ∀ a ∈ advice, AdviceAligned p logT layout a) (run : StageRun C p logT layout advice) :
    OnePoint run := by
  obtain ⟨hk, hvirtual⟩ := OneHotConfig.valid hvalid hparams
  have hof (a : AdviceClaimReductionParams C) (ha : a ∈ advice) : a.OfTrace logT layout := by
    obtain ⟨F, fuel, kind, maxAdviceSizeBytes, acc, h⟩ := hnew a ha
    exact AdviceClaimReductionParams.ofTrace_new hlog h
  obtain ⟨htake, hdrop⟩ := run.unified_split hk hvirtual
  refine ⟨fun e he hadvice => run.atCycle hk hvirtual he hadvice, run.opening_eq hk hvirtual,
    fun e he hadvice => run.atUnified hk hvirtual he hadvice, ?_,
    fun e he hadvice => run.advice_atBlock hof haligned hk hvirtual he hadvice, ?_⟩
  · intro e he hid
    obtain ⟨id, point⟩ := e
    rw [hdrop]
    rcases hid with rfl | rfl
    · exact (run.atCycle hk hvirtual he (fun h => h)).drop
    · exact (run.atCycle hk hvirtual he (fun h => h)).drop
  · intro F _ _ ra claims gamma hp htrue hparams7
    obtain ⟨hcycle, htrueAt⟩ := run.trueAt hk hvirtual htrue hparams7
    refine ⟨inputClaim_eq ra hp fun c hc => (htrueAt c hc).2, fun gClaim hclaim => ?_⟩
    rw [htake]
    refine expectedOutputClaim_eq ra hp fun c hc => ?_
    rw [hclaim c.poly (htrueAt c hc).1, htake, hdrop, hcycle]

end Main

/-! ## Runs of a short trace -/

/-- A run from its challenges. -/
def StageRun.ofChallenges [Zero C] {p : OneHotParams} {logT : Nat} {layout : DoryLayout}
    {advice : List (AdviceClaimReductionParams C)} (earlier : EarlierPoints C p logT) (r6 r7 : List C)
    (length6 : r6.length = maxRounds (stage6 p logT layout earlier advice))
    (some6 : (recordAll r6.length r6 (stage6 p logT layout earlier advice)).isSome)
    (instances7 : (stage7 p layout r6.length r6 ((recordAll r6.length r6
      (stage6 p logT layout earlier advice)).get some6) advice).isSome)
    (length7 : r7.length = maxRounds ((stage7 p layout r6.length r6 ((recordAll r6.length r6
      (stage6 p logT layout earlier advice)).get some6) advice).get instances7))
    (some7 : (recordAll r7.length r7 ((stage7 p layout r6.length r6 ((recordAll r6.length r6
      (stage6 p logT layout earlier advice)).get some6) advice).get instances7)).isSome) :
    StageRun C p logT layout advice where
  earlier
  r6
  recorded6 := (recordAll r6.length r6 (stage6 p logT layout earlier advice)).get some6
  instances7 := (stage7 p layout r6.length r6 ((recordAll r6.length r6
    (stage6 p logT layout earlier advice)).get some6) advice).get instances7
  r7
  recorded7 := (recordAll r7.length r7 ((stage7 p layout r6.length r6 ((recordAll r6.length r6
    (stage6 p logT layout earlier advice)).get some6) advice).get instances7)).get some7
  length_r6 := length6
  record6 := (Option.some_get some6).symm
  stage7_eq := (Option.some_get instances7).symm
  length_r7 := length7
  record7 := (Option.some_get some7).symm

/-- A thousand cycles, a bytecode and a memory of one word each. -/
def shortParams (logKChunk : Nat) : OneHotParams := ⟨logKChunk, 16, 0, 0⟩

def shortEarlier (logKChunk : Nat) : EarlierPoints Nat (shortParams logKChunk) 10 where
  lookupOutput := List.replicate 10 0
  ramRa := List.replicate 10 0
  instructionRa := List.replicate 8 (List.replicate 26 0)
  length_lookupOutput := rfl
  length_ramRa := rfl
  length_instructionRa := by
    rw [List.length_replicate]
    change 8 = 128 / 16
    rfl
  length_each r hr := by
    rw [List.eq_of_mem_replicate hr]
    rfl

/-- An advice claim of the memory check, and nothing else. -/
def shortAccumulator : VerifierOpeningAccumulator (ZMod 7) Nat :=
  .prepopulated fun id => if id = .UntrustedAdvice .RamValCheck then .some ([], 0) else .none

/-- Advice of four words, in two columns and two rows. -/
def shortAdvice : AdviceClaimReductionParams Nat where
  kind := .Untrusted
  phase := .CycleVariables
  logKChunk := 4
  logT := 10
  adviceColVars := 1
  adviceRowVars := 1
  mainColVars := 7
  mainRowVars := 7
  cyclePhaseRowRounds := ⟨7, 8⟩
  cyclePhaseColRounds := ⟨0, 1⟩
  rVal := []
  cycleVarChallenges := []

/-- The default chunk, on the challenges 1 to 18. -/
def defaultChunkRun : StageRun Nat (shortParams 4) 10 .CycleMajor [shortAdvice] :=
  .ofChallenges (shortEarlier 4) (List.range' 1 14) (List.range' 15 4) (by decide)
    (by decide) (by decide) (by decide) (by decide)

/-- The wider chunk, on the challenges 1 to 26. -/
def widerChunkRun : StageRun Nat (shortParams 8) 10 .CycleMajor [shortAdvice] :=
  .ofChallenges (shortEarlier 8) (List.range' 1 18) (List.range' 19 8) (by decide)
    (by decide) (by decide) (by decide) (by decide)

theorem shortAdvice_new : AdviceClaimReductionParams.new 1 .CycleMajor .Untrusted 32 1024 shortAccumulator =
    .some shortAdvice := by
  rfl

theorem onePoint_defaultChunk : OnePoint defaultChunkRun := by
  have hvalid : OneHotConfig.validate ⟨4, 16⟩ = true := by decide
  have hparams : OneHotParams.fromConfig ⟨4, 16⟩ 1 1 = .some (shortParams 4) := by decide
  have hlog : log2 1024 = .some 10 := by decide
  refine onePoint_of_aligned hvalid hparams hlog ?_ ?_ defaultChunkRun
  · intro a ha
    rw [List.mem_singleton.mp ha]
    exact ⟨ZMod 7, 1, .Untrusted, 32, shortAccumulator, shortAdvice_new⟩
  · intro a ha
    rw [List.mem_singleton.mp ha]
    exact ⟨by decide, by decide, by decide, by decide⟩

set_option maxRecDepth 20000 in
/-- A chunk of eight bits on a trace of a thousand cycles: the advice is opened with the eighth cycle
coordinate, and the rows of the matrix start at the tenth. -/
theorem widerChunk_notOnePoint :
    OneHotConfig.validate ⟨8, 16⟩ = true ∧
      OneHotParams.fromConfig ⟨8, 16⟩ 1 1 = .some (shortParams 8) ∧ log2 1024 = .some 10 ∧
      AdviceClaimReductionParams.new 1 .CycleMajor .Untrusted 32 1024 shortAccumulator = .some shortAdvice ∧
      ¬ OnePoint widerChunkRun := by
  refine ⟨by decide, by decide, by decide, shortAdvice_new, ?_⟩
  intro h
  have hmem : (.UntrustedAdvice .AdviceClaimReduction, [16, 9]) ∈
      widerChunkRun.recorded6 ++ widerChunkRun.recorded7 := by decide
  rcases h.advice _ hmem trivial with ⟨kind, hkind⟩ | ⟨a, ha, -, hpoint⟩
  · cases kind
    · cases hkind
    · cases hkind
  · rw [List.mem_singleton.mp ha] at hpoint
    revert hpoint
    decide

end LightningJolt
