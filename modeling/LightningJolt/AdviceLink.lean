/-
The two phases of the advice claim reduction in the runs the verifier accepts:
with address rounds, the claim the second phase starts from is the one the first
was checked against; without, nothing relates the two.
-/
import LightningJolt.AdviceReduction

namespace LightningJolt

variable {F C T : Type} [JoltField F] [Challenge C F] [DecidableEq F] [DecidableEq C]

/-! ## Openings of other polynomials -/

namespace VerifierOpeningAccumulator

omit [JoltField F] [Challenge C F] [DecidableEq F] [DecidableEq C] in
/-- Indexed ids and aliases stay with their polynomial. -/
structure WellIndexed (acc : VerifierOpeningAccumulator F C) : Prop where
  indexed : ∀ poly, ∀ id ∈ acc.openingIdsByPoly poly, underlyingPolynomialId id = poly
  aliases : ∀ key id, acc.aliases key = .some id → underlyingPolynomialId id = underlyingPolynomialId key

omit [JoltField F] [Challenge C F] [DecidableEq F] [DecidableEq C] in
/-- Two accumulators that have the same openings of a polynomial. -/
structure SameOpenings (poly : PolynomialId) (acc acc' : VerifierOpeningAccumulator F C) : Prop where
  openings : ∀ id, underlyingPolynomialId id = poly → acc'.openings id = acc.openings id
  aliases : ∀ id, underlyingPolynomialId id = poly → acc'.aliases id = acc.aliases id

variable {acc acc' acc'' : VerifierOpeningAccumulator F C} {poly : PolynomialId}

omit [JoltField F] [Challenge C F] [DecidableEq F] [DecidableEq C] in
theorem SameOpenings.refl : SameOpenings poly acc acc := ⟨fun _ _ => rfl, fun _ _ => rfl⟩

omit [JoltField F] [Challenge C F] [DecidableEq F] [DecidableEq C] in
theorem SameOpenings.trans (h : SameOpenings poly acc acc') (h' : SameOpenings poly acc' acc'') :
    SameOpenings poly acc acc'' :=
  ⟨fun id hid => (h'.openings id hid).trans (h.openings id hid),
    fun id hid => (h'.aliases id hid).trans (h.aliases id hid)⟩

omit [JoltField F] [Challenge C F] [DecidableEq F] [DecidableEq C] in
/-- A chain of aliases stays with its polynomial. -/
theorem resolveAlias_same (hwell : acc.WellIndexed) (h : SameOpenings poly acc acc') (fuel : Nat)
    {key : OpeningId} (hkey : underlyingPolynomialId key = poly) :
    resolveAlias acc'.aliases fuel key = resolveAlias acc.aliases fuel key ∧
      ∀ id, resolveAlias acc.aliases fuel key = .some id → underlyingPolynomialId id = poly := by
  induction fuel generalizing key with
  | zero => exact ⟨rfl, fun id hid => by cases hid⟩
  | succ fuel ih =>
    rw [resolveAlias, resolveAlias, h.aliases key hkey]
    cases halias : acc.aliases key with
    | none =>
      refine ⟨rfl, fun id hid => ?_⟩
      cases hid
      exact hkey
    | some next => exact ih ((hwell.aliases key next halias).trans hkey)

omit [JoltField F] [Challenge C F] [DecidableEq F] [DecidableEq C] in
theorem getAdviceOpening_same {kind : AdviceKind} (hwell : acc.WellIndexed)
    (h : SameOpenings kind.poly acc acc') (fuel : Nat) (sumcheck : SumcheckId) :
    acc'.getAdviceOpening fuel kind sumcheck = acc.getAdviceOpening fuel kind sumcheck := by
  obtain ⟨hresolve, hpoly⟩ := resolveAlias_same hwell h fuel (kind.underlyingPolynomialId_openingId sumcheck)
  unfold getAdviceOpening
  rw [hresolve]
  cases hid : resolveAlias acc.aliases fuel (kind.openingId sumcheck) with
  | none => rfl
  | some id => exact h.openings id (hpoly id hid)

omit [JoltField F] [Challenge C F] [DecidableEq F] [DecidableEq C] in
theorem wellIndexed_prepopulated (openingClaims : Openings F C) :
    (prepopulated openingClaims).WellIndexed where
  indexed _ _ h := by cases h
  aliases _ _ h := by cases h

omit [JoltField F] [Challenge C F] [DecidableEq F] in
theorem mem_of_findAtPoint {openings : Openings F C} {point : OpeningPoint C} {ids : List OpeningId}
    {id : OpeningId} {claim : F} (h : findAtPoint openings point ids = .some (.some (id, claim))) :
    id ∈ ids := by
  induction ids with
  | nil => cases h
  | cons existingId ids ih =>
    unfold findAtPoint at h
    split at h
    · cases h
    · split_ifs at h
      · exact List.mem_cons_of_mem _ (ih h)
      · cases h
        exact List.mem_cons_self ..
      · exact List.mem_cons_of_mem _ (ih h)

omit [JoltField F] [Challenge C F] [DecidableEq F] [DecidableEq C] in
/-- A placed claim is of its polynomial alone. -/
theorem placeOpening_frame (hwell : acc.WellIndexed) {key : OpeningId} (point : OpeningPoint C)
    (claim : F) : (acc.placeOpening key point claim).WellIndexed ∧
      ∀ poly, underlyingPolynomialId key ≠ poly →
        SameOpenings poly acc (acc.placeOpening key point claim) := by
  unfold placeOpening indexOpeningId
  simp only [insertEntry_self]
  have hopenings (poly : PolynomialId) (hkey : underlyingPolynomialId key ≠ poly) (id : OpeningId)
      (hid : underlyingPolynomialId id = poly) :
      insertEntry acc.openings key (point, claim) id = acc.openings id := by
    refine insertEntry_of_ne fun heq => hkey ?_
    rw [← heq, hid]
  split_ifs
  · exact ⟨⟨hwell.indexed, hwell.aliases⟩, fun poly hkey => ⟨hopenings poly hkey, fun _ _ => rfl⟩⟩
  · refine ⟨⟨fun poly id hid => ?_, hwell.aliases⟩, fun poly hkey => ⟨hopenings poly hkey, fun _ _ => rfl⟩⟩
    simp only at hid
    split_ifs at hid with hpoly
    · exact hwell.indexed poly id hid
    · rcases List.mem_append.mp hid with hid | hid
      · exact hwell.indexed poly id hid
      · rw [List.mem_singleton.mp hid, hpoly]
    · exact hwell.indexed poly id hid

omit [JoltField F] [Challenge C F] [DecidableEq F] [DecidableEq C] in
theorem addAlias_frame (hwell : acc.WellIndexed) {key id : OpeningId}
    (hid : id ∈ acc.openingIdsByPoly (underlyingPolynomialId key)) :
    (acc.addAlias key id).WellIndexed ∧
      ∀ poly, underlyingPolynomialId key ≠ poly → SameOpenings poly acc (acc.addAlias key id) := by
  refine ⟨⟨hwell.indexed, fun k next hnext => ?_⟩, fun poly hkey => ⟨fun _ _ => rfl, fun k hk => ?_⟩⟩
  · change insertEntry acc.aliases key id k = .some next at hnext
    by_cases hk : k = key
    · rw [hk, insertEntry_self] at hnext
      cases hnext
      rw [hk]
      exact hwell.indexed _ id hid
    · rw [insertEntry_of_ne hk] at hnext
      exact hwell.aliases k next hnext
  · refine insertEntry_of_ne fun heq => hkey ?_
    rw [← heq, hk]

omit [Challenge C F] in
theorem populate_frame (hwell : acc.WellIndexed) {key : OpeningId} {point : OpeningPoint C}
    (h : acc.populateOrAliasOpening key point = .some acc') :
    acc'.WellIndexed ∧ ∀ poly, underlyingPolynomialId key ≠ poly → SameOpenings poly acc acc' := by
  unfold populateOrAliasOpening at h
  split at h <;> obtain ⟨found, hfound, h⟩ := Option.bind_eq_some_iff.mp h
  case h_1 hopening =>
    cases found with
    | none =>
      cases h
      exact placeOpening_frame hwell _ _
    | some existing =>
      simp only at h
      split_ifs at h
      · cases h
        exact addAlias_frame hwell (mem_of_findAtPoint hfound)
      · cases h
        exact placeOpening_frame hwell _ _
  case h_2 hopening =>
    cases found with
    | none =>
      cases h
      exact placeOpening_frame hwell _ _
    | some existing =>
      cases h
      exact addAlias_frame hwell (mem_of_findAtPoint hfound)

omit [Challenge C F] in
theorem appendAll_frame {calls : List (OpeningId × OpeningPoint C)} (hwell : acc.WellIndexed)
    (h : appendAll calls acc = .some acc') :
    acc'.WellIndexed ∧ ∀ poly, (∀ call ∈ calls, underlyingPolynomialId call.1 ≠ poly) →
      SameOpenings poly acc acc' := by
  induction calls generalizing acc with
  | nil =>
    cases h
    exact ⟨hwell, fun _ _ => .refl⟩
  | cons call calls ih =>
    obtain ⟨acc1, hcall, hrest⟩ := Option.bind_eq_some_iff.mp h
    obtain ⟨hwell1, hsame1⟩ := populate_frame hwell hcall
    obtain ⟨hwell', hsame'⟩ := ih hwell1 hrest
    refine ⟨hwell', fun poly hcalls => ?_⟩
    obtain ⟨hfirst, hothers⟩ := List.forall_mem_cons.mp hcalls
    exact (hsame1 poly hfirst).trans (hsame' poly hothers)

end VerifierOpeningAccumulator

/-! ## The instances of a batch -/

/-- An instance that caches openings of other polynomials only. -/
def SumcheckInstanceVerifier.CachesOutside (v : SumcheckInstanceVerifier F C) (poly : PolynomialId) :
    Prop :=
  ∀ acc r, ∃ calls : List (OpeningId × OpeningPoint C),
    (∀ call ∈ calls, underlyingPolynomialId call.1 ≠ poly) ∧
      v.cacheOpenings acc r = (VerifierOpeningAccumulator.appendAll calls acc).getD acc

omit [Challenge C F] in
theorem SumcheckInstanceVerifier.CachesOutside.frame {v : SumcheckInstanceVerifier F C}
    {poly : PolynomialId} (h : v.CachesOutside poly) {acc : VerifierOpeningAccumulator F C}
    (hwell : acc.WellIndexed) (r : List C) :
    (v.cacheOpenings acc r).WellIndexed ∧ acc.SameOpenings poly (v.cacheOpenings acc r) := by
  obtain ⟨calls, hcalls, hcache⟩ := h acc r
  rw [hcache]
  cases happend : VerifierOpeningAccumulator.appendAll calls acc with
  | none => exact ⟨hwell, .refl⟩
  | some acc' =>
    obtain ⟨hwell', hsame⟩ := VerifierOpeningAccumulator.appendAll_frame hwell happend
    exact ⟨hwell', hsame poly hcalls⟩

namespace AdviceClaimReductionParams

variable (fuel : Nat) (layout : DoryLayout) (p : AdviceClaimReductionParams C)

omit [Challenge C F] [DecidableEq F] [DecidableEq C] [JoltField F] in
theorem openingsToCache_kind {challenges : List C} {calls : List (OpeningId × OpeningPoint C)}
    (h : p.openingsToCache layout challenges = .some calls) :
    ∀ call ∈ calls, underlyingPolynomialId call.1 = p.kind.poly := by
  obtain ⟨cycle, hcycle, h⟩ := Option.bind_eq_some_iff.mp h
  obtain ⟨final, hfinal, h⟩ := Option.bind_eq_some_iff.mp h
  cases h
  intro call hcall
  rcases List.mem_append.mp hcall with hcall | hcall
  · unfold cycleOpening at hcycle
    split at hcycle
    · obtain ⟨point, -, rfl⟩ := Option.map_eq_some_iff.mp hcycle
      rw [List.mem_singleton.mp hcall]
      exact p.kind.underlyingPolynomialId_openingId _
    · cases hcycle
      cases hcall
  · unfold finalOpening at hfinal
    split_ifs at hfinal
    · obtain ⟨point, -, rfl⟩ := Option.map_eq_some_iff.mp hfinal
      rw [List.mem_singleton.mp hcall]
      exact p.kind.underlyingPolynomialId_openingId _
    · cases hfinal
      cases hcall

/-- The reduction of the other advice polynomial is such an instance. -/
theorem verifier_cachesOutside {kind : AdviceKind} (h : p.kind ≠ kind) :
    (p.verifier fuel layout : SumcheckInstanceVerifier F C).CachesOutside kind.poly := by
  intro acc r
  cases hcalls : p.openingsToCache layout r with
  | none => exact ⟨[], by simp, by simp [verifier, cacheOpenings, hcalls, VerifierOpeningAccumulator.appendAll]⟩
  | some calls =>
    refine ⟨calls, fun call hcall heq => h (AdviceKind.poly_injective ?_), by
      simp [verifier, cacheOpenings, hcalls]⟩
    rw [← heq, p.openingsToCache_kind layout hcalls call hcall]

theorem verifier_wellIndexed {acc : VerifierOpeningAccumulator F C} (hwell : acc.WellIndexed)
    (r : List C) : ((p.verifier fuel layout).cacheOpenings acc r).WellIndexed := by
  change ((p.cacheOpenings layout acc r).getD acc).WellIndexed
  cases hcache : p.cacheOpenings layout acc r with
  | none => exact hwell
  | some acc' =>
    obtain ⟨calls, -, happend⟩ := Option.bind_eq_some_iff.mp hcache
    exact (VerifierOpeningAccumulator.appendAll_frame hwell happend).1

end AdviceClaimReductionParams

namespace BatchedSumcheck

section Expect

variable {start : SumcheckInstanceVerifier F C → Nat × Nat} {r : List C}
  {before after : List (SumcheckInstanceVerifier F C × F)} {v : SumcheckInstanceVerifier F C}
  {coeff sum : F} {acc acc' : VerifierOpeningAccumulator F C} {poly : PolynomialId}

omit [Challenge C F] in
theorem expectAll_frame (houtside : ∀ q ∈ before, q.1.CachesOutside poly) (hwell : acc.WellIndexed)
    (h : expectAll start r before acc = .some (sum, acc')) :
    acc'.WellIndexed ∧ acc.SameOpenings poly acc' := by
  induction before generalizing acc sum with
  | nil =>
    cases h
    exact ⟨hwell, .refl⟩
  | cons q before ih =>
    obtain ⟨rSlice, -, h⟩ := Option.bind_eq_some_iff.mp h
    obtain ⟨⟨sum1, acc1⟩, hrest, h⟩ := Option.bind_eq_some_iff.mp h
    cases h
    obtain ⟨hfirst, hothers⟩ := List.forall_mem_cons.mp houtside
    obtain ⟨hwell1, hsame1⟩ := hfirst.frame hwell rSlice
    obtain ⟨hwell', hsame'⟩ := ih hothers hwell1 hrest
    exact ⟨hwell', hsame1.trans hsame'⟩

omit [Challenge C F] in
/-- An instance among others that leave its openings alone: the sum is the same
with its claim read from a later accumulator. -/
theorem expectAll_reread (hbefore : ∀ q ∈ before, q.1.CachesOutside poly)
    (hafter : ∀ q ∈ after, q.1.CachesOutside poly) (hwell : acc.WellIndexed)
    (hcache : ∀ acc rSlice, acc.WellIndexed → (v.cacheOpenings acc rSlice).WellIndexed)
    (hread : ∀ (acc acc' : VerifierOpeningAccumulator F C) rSlice, acc.WellIndexed →
      acc.SameOpenings poly acc' → v.expectedOutputClaim acc' rSlice = v.expectedOutputClaim acc rSlice)
    {acc2 : VerifierOpeningAccumulator F C} (hacc2 : acc'.SameOpenings poly acc2)
    (hstart : ∀ f, start { v with expectedOutputClaim := f } = start v)
    (h : expectAll start r (before ++ (v, coeff) :: after) acc = .some (sum, acc')) :
    acc'.WellIndexed ∧ expectAll start r (before ++ ({ v with
      expectedOutputClaim := fun _ rSlice => v.expectedOutputClaim acc2 rSlice }, coeff) :: after) acc =
        .some (sum, acc') := by
  induction before generalizing acc sum with
  | nil =>
    obtain ⟨rSlice, hslice, h⟩ := Option.bind_eq_some_iff.mp h
    obtain ⟨⟨sum1, acc1⟩, hrest, h⟩ := Option.bind_eq_some_iff.mp h
    cases h
    have hwell1 := hcache acc rSlice hwell
    obtain ⟨hwell', hsame⟩ := expectAll_frame hafter hwell1 hrest
    refine ⟨hwell', ?_⟩
    rw [List.nil_append, expectAll, hstart, hslice]
    simp only [Option.bind_eq_bind, Option.bind_some, hrest, hread _ _ rSlice hwell1 (hsame.trans hacc2)]
  | cons q before ih =>
    obtain ⟨rSlice, hslice, h⟩ := Option.bind_eq_some_iff.mp h
    obtain ⟨⟨sum1, acc1⟩, hrest, h⟩ := Option.bind_eq_some_iff.mp h
    cases h
    obtain ⟨hfirst, hothers⟩ := List.forall_mem_cons.mp hbefore
    obtain ⟨hwell1, -⟩ := hfirst.frame hwell rSlice
    obtain ⟨hwell', hreread⟩ := ih hothers hwell1 hrest
    refine ⟨hwell', ?_⟩
    rw [List.cons_append, expectAll, hslice]
    simp only [Option.bind_eq_bind, Option.bind_some, hreread]

end Expect

section Verify

variable (tr : Transcript T F C) {before after : List (SumcheckInstanceVerifier F C)}
  {v : SumcheckInstanceVerifier F C} {acc acc' : VerifierOpeningAccumulator F C} {poly : PolynomialId}
  {proof : ClearSumcheckProof F} {t t' : T} {result : List F × List C}

omit [JoltField F] [Challenge C F] [DecidableEq F] [DecidableEq C] in
theorem split_at {xs : List F} (n : Nat) {m : Nat} (h : xs.length = n + (m + 1)) :
    ∃ pre x post, xs = pre ++ x :: post ∧ pre.length = n := by
  refine ⟨xs.take n, xs[n], xs.drop (n + 1), ?_, ?_⟩
  · rw [← List.drop_eq_getElem_cons, List.take_append_drop]
  · rw [List.length_take]
    omega

/-- A batch that is accepted is accepted with the claim expected of one instance
read from the accumulator the batch leaves. -/
theorem verify_reread (hbefore : ∀ q ∈ before, q.CachesOutside poly)
    (hafter : ∀ q ∈ after, q.CachesOutside poly) (hwell : acc.WellIndexed)
    (hcache : ∀ acc rSlice, acc.WellIndexed → (v.cacheOpenings acc rSlice).WellIndexed)
    (hread : ∀ (acc acc' : VerifierOpeningAccumulator F C) rSlice, acc.WellIndexed →
      acc.SameOpenings poly acc' → v.expectedOutputClaim acc' rSlice = v.expectedOutputClaim acc rSlice)
    (h : verify tr proof (before ++ v :: after) acc t = .some (.ok result, acc', t')) :
    acc'.WellIndexed ∧ verify tr proof (before ++ { v with
      expectedOutputClaim := fun _ rSlice => v.expectedOutputClaim acc' rSlice } :: after) acc t =
        .some (.ok result, acc', t') := by
  -- the claims the batch starts from do not depend on those it expects
  have hclaims (m : Nat) (f : VerifierOpeningAccumulator F C → List C → F) :
      (before ++ { v with expectedOutputClaim := f } :: after).mapM (fun sumcheck =>
        mulPow2 (sumcheck.inputClaim acc) (m - sumcheck.numRounds)) =
      (before ++ v :: after).mapM fun sumcheck =>
        mulPow2 (sumcheck.inputClaim acc) (m - sumcheck.numRounds) := by
    simp only [List.mapM_append, List.mapM_cons]
  unfold verify verifyWith at h ⊢
  simp only [hclaims]
  simp only [List.map_append, List.map_cons, List.foldl_append, List.foldl_cons, List.length_append,
    List.length_cons] at h ⊢
  obtain ⟨maxDegree, hdegree, h⟩ := Option.bind_eq_some_iff.mp h
  obtain ⟨maxNumRounds, hrounds, h⟩ := Option.bind_eq_some_iff.mp h
  obtain ⟨claims, hclaim, h⟩ := Option.bind_eq_some_iff.mp h
  obtain ⟨⟨verdict, t1⟩, hverify, h⟩ := Option.bind_eq_some_iff.mp h
  rw [hdegree, hrounds]
  simp only [Option.bind_eq_bind, Option.bind_some] at hclaim hverify ⊢
  rw [hclaim]
  simp only [Option.bind_some]
  rw [hverify]
  simp only [Option.bind_some]
  cases verdict with
  | error e => cases h
  | ok verdict =>
    obtain ⟨outputClaim, rSumcheck⟩ := verdict
    obtain ⟨⟨expected, acc1⟩, hexpect, h⟩ := Option.bind_eq_some_iff.mp h
    generalize hcoeffs : tr.challengeVector _ _ = vector at hexpect h ⊢
    have hlength : vector.1.length = before.length + (after.length + 1) := by
      rw [← hcoeffs, tr.length_challengeVector]
    obtain ⟨coeffsBefore, coeff, coeffsAfter, hsplit, hlen⟩ := split_at before.length hlength
    simp only at hexpect h ⊢
    rw [hsplit, List.zip_append hlen.symm, List.zip_cons_cons] at hexpect ⊢
    split_ifs at h with hne
    · cases h
    · simp only [Option.some.injEq, Prod.mk.injEq, Except.ok.injEq] at h
      obtain ⟨rfl, rfl, rfl⟩ := h
      have hbefore' : ∀ q ∈ before.zip coeffsBefore, q.1.CachesOutside poly :=
        fun q hq => hbefore q.1 (List.of_mem_zip hq).1
      have hafter' : ∀ q ∈ after.zip coeffsAfter, q.1.CachesOutside poly :=
        fun q hq => hafter q.1 (List.of_mem_zip hq).1
      have hflush : acc1.SameOpenings poly (acc1.flushToTranscript tr t1).1 :=
        ⟨fun _ _ => rfl, fun _ _ => rfl⟩
      obtain ⟨hwell1, hreread⟩ :=
        expectAll_reread hbefore' hafter' hwell hcache hread hflush (fun _ => rfl) hexpect
      refine ⟨⟨hwell1.indexed, hwell1.aliases⟩, ?_⟩
      rw [hreread]
      simp only [Option.bind_some, if_neg hne]
      rw [hsplit]

end Verify

end BatchedSumcheck

/-! ## Accepted runs -/

open AdviceClaimReductionParams BatchedSumcheck

/-- The two stages of an accepted proof in which the advice polynomial is reduced,
among other instances; stage 8 opens the advice polynomial at the claim `acc7` has. -/
structure AcceptedRun (tr : Transcript T F C) (fuel : Nat) (layout : DoryLayout) where
  kind : AdviceKind
  maxAdviceSizeBytes : Nat
  traceLen : Nat
  params : AdviceClaimReductionParams C
  before6 : List (SumcheckInstanceVerifier F C)
  after6 : List (SumcheckInstanceVerifier F C)
  before7 : List (SumcheckInstanceVerifier F C)
  after7 : List (SumcheckInstanceVerifier F C)
  proof6 : ClearSumcheckProof F
  proof7 : ClearSumcheckProof F
  acc0 : VerifierOpeningAccumulator F C
  acc6 : VerifierOpeningAccumulator F C
  acc7 : VerifierOpeningAccumulator F C
  t0 : T
  t6 : T
  -- the transcript after the other instances of stage 7 are made
  start7 : T
  t7 : T
  result6 : List F × List C
  result7 : List F × List C
  challenges : List C
  wellIndexed : acc0.WellIndexed
  outside : ∀ v ∈ before6 ++ after6 ++ (before7 ++ after7), v.CachesOutside kind.poly
  made : AdviceClaimReductionParams.new fuel layout kind maxAdviceSizeBytes traceLen acc0 = .some params
  stage6 : verify tr proof6 (before6 ++ params.verifier fuel layout :: after6) acc0 t0 =
    .some (.ok result6, acc6, t6)
  slice6 : ∃ maxNumRounds,
    ((before6 ++ params.verifier fuel layout :: after6).map (·.numRounds)).max? = .some maxNumRounds ∧
      slice result6.2 ((params.verifier fuel layout : SumcheckInstanceVerifier F C).roundOffset maxNumRounds)
        params.numRounds = .some challenges
  stage7 : verify tr proof7
    (if 0 < params.numAddressPhaseRounds then
      before7 ++ (params.addressPhase layout challenges).verifier fuel layout :: after7
    else before7 ++ after7) acc6 start7 = .some (.ok result7, acc7, t7)

namespace AcceptedRun

variable {tr : Transcript T F C} {fuel : Nat} {layout : DoryLayout} (run : AcceptedRun tr fuel layout)

/-- The instance of the second stage. -/
def address : SumcheckInstanceVerifier F C :=
  (run.params.addressPhase layout run.challenges).verifier fuel layout

/-- The claim the second stage starts from or, without address rounds, the one that
follows from the claim stage 8 opens the advice polynomial at. -/
def link : F :=
  if 0 < run.params.numAddressPhaseRounds then run.address.inputClaim run.acc6
  else run.address.expectedOutputClaim run.acc7 []

/-- The checks force the claims: the first stage starts from the advice claim of the
RAM values and its check holds with the link in the place of the claim the proof
supplies, and that of the second stage with the claim stage 8 opens. -/
structure Linked : Prop where
  start : (run.params.verifier fuel layout : SumcheckInstanceVerifier F C).inputClaim run.acc0 =
    ((run.acc0.getAdviceOpening fuel run.kind .RamValCheck).map Prod.snd).getD 0
  cycle : verify tr run.proof6 (run.before6 ++ { run.params.verifier fuel layout with
      expectedOutputClaim := fun _ _ => run.link } :: run.after6) run.acc0 run.t0 =
    .some (.ok run.result6, run.acc6, run.t6)
  address : 0 < run.params.numAddressPhaseRounds →
    verify tr run.proof7 (run.before7 ++ { run.address with
        expectedOutputClaim := fun _ r => run.address.expectedOutputClaim run.acc7 r } :: run.after7)
      run.acc6 run.start7 = .some (.ok run.result7, run.acc7, run.t7)

theorem params_new : run.params.kind = run.kind ∧ run.params.phase = .CycleVariables := by
  obtain ⟨logT, -, h⟩ := Option.bind_eq_some_iff.mp run.made
  obtain ⟨⟨rVal, claim⟩, -, h⟩ := Option.bind_eq_some_iff.mp h
  obtain ⟨⟨adviceColVars, adviceRowVars⟩, -, h⟩ := Option.bind_eq_some_iff.mp h
  rw [← Option.some.inj h]
  exact ⟨rfl, rfl⟩

/-- **In every accepted run with address rounds, the verifier's checks tie the claim
stage 8 opens the advice polynomial at to the advice claim of the RAM values.** -/
theorem linked_of_address_rounds (h : 0 < run.params.numAddressPhaseRounds) : run.Linked := by
  obtain ⟨hkind, hphase⟩ := run.params_new
  have houtside := run.outside
  simp only [List.mem_append] at houtside
  have hread (p : AdviceClaimReductionParams C) (hp : p.kind = run.kind)
      (acc acc' : VerifierOpeningAccumulator F C) (rSlice : List C) (hwell : acc.WellIndexed)
      (hsame : acc.SameOpenings run.kind.poly acc') :
      (p.verifier fuel layout).expectedOutputClaim acc' rSlice =
        (p.verifier fuel layout).expectedOutputClaim acc rSlice := by
    have hopening := VerifierOpeningAccumulator.getAdviceOpening_same hwell hsame fuel
    simp only [verifier, expectedOutputClaim, hp, hopening]
  obtain ⟨hwell6, hcycle⟩ := verify_reread tr (fun q hq => houtside q (.inl (.inl hq)))
    (fun q hq => houtside q (.inl (.inr hq))) run.wellIndexed
    (fun acc rSlice hwell => run.params.verifier_wellIndexed fuel layout hwell rSlice)
    (hread run.params hkind) run.stage6
  have hstage7 := run.stage7
  rw [if_pos h] at hstage7
  obtain ⟨-, haddress⟩ := verify_reread tr (fun q hq => houtside q (.inr (.inl hq)))
    (fun q hq => houtside q (.inr (.inr hq))) hwell6
    (fun acc rSlice hwell =>
      (run.params.addressPhase layout run.challenges).verifier_wellIndexed fuel layout hwell rSlice)
    (hread (run.params.addressPhase layout run.challenges) hkind) hstage7
  refine ⟨?_, ?_, fun _ => haddress⟩
  · simp only [verifier, inputClaim, hphase, hkind, Option.getD_some]
  · have hlink (rSlice : List C) : run.link =
        (run.params.verifier fuel layout).expectedOutputClaim run.acc6 rSlice := by
      rw [link, if_pos h]
      simp only [address, verifier, inputClaim, expectedOutputClaim, addressPhase, hphase]
    have hfun : (fun (_ : VerifierOpeningAccumulator F C) (_ : List C) => run.link) =
        fun _ rSlice => (run.params.verifier fuel layout).expectedOutputClaim run.acc6 rSlice := by
      funext _ rSlice
      exact hlink rSlice
    rw [hfun]
    exact hcycle

end AcceptedRun

/-! ## A run with address rounds and one without -/

/-- An instance of so many rounds whose claims are all zero. -/
def zeroInstance (rounds : Nat) : SumcheckInstanceVerifier (ZMod 7) (ZMod 7) where
  degree := 1
  numRounds := rounds
  roundOffset _ := 0
  inputClaim _ := 0
  expectedOutputClaim _ _ := 0
  cacheOpenings acc _ := acc

theorem zeroInstance_cachesOutside (rounds : Nat) (poly : PolynomialId) :
    (zeroInstance rounds).CachesOutside poly :=
  fun _ _ => ⟨[], by simp, rfl⟩

/-- So many rounds of zero messages. -/
def zeroProof (rounds : Nat) : ClearSumcheckProof (ZMod 7) := ⟨List.replicate rounds ⟨[0]⟩⟩

/-- The claims of a proof: the advice of the RAM values is zero, so is the claim in
between, and the advice polynomial is said to be one at its opening. -/
def claimedAdvice (final : ZMod 7) : VerifierOpeningAccumulator (ZMod 7) (ZMod 7) :=
  (VerifierOpeningAccumulator.prepopulated fun id =>
    if id = .TrustedAdvice .AdviceClaimReductionCyclePhase then .some ([], 0)
    else if id = .TrustedAdvice .AdviceClaimReduction then .some ([], final)
    else .none).placeOpening (.TrustedAdvice .RamValCheck) [0, 0] 0

theorem wellIndexed_claimedAdvice (final : ZMod 7) : (claimedAdvice final).WellIndexed :=
  (VerifierOpeningAccumulator.placeOpening_frame (VerifierOpeningAccumulator.wellIndexed_prepopulated _)
    _ _).1

theorem eq_some_of_map {α β γ : Type} {x : Option (α × β × γ)} {a : α} {c : γ} (b : β)
    (h : (x.map fun q => (q.1, q.2.2)) = .some (a, c)) :
    x = .some (a, (x.map fun q => q.2.1).getD b, c) := by
  cases x with
  | none => cases h
  | some q =>
    obtain ⟨a', b', c'⟩ := q
    cases h
    rfl

/-- The accumulator a batch leaves. -/
def leaves (proof : ClearSumcheckProof (ZMod 7)) (instances : List (SumcheckInstanceVerifier (ZMod 7) (ZMod 7)))
    (acc : VerifierOpeningAccumulator (ZMod 7) (ZMod 7)) (t : Nat) :
    VerifierOpeningAccumulator (ZMod 7) (ZMod 7) :=
  ((verify countingTranscript proof instances acc t).map fun q => q.2.1).getD acc

/-- The parameters for four words of advice and a trace of so many cycles. -/
def fourWords (traceLen : Nat) (final : ZMod 7) : AdviceClaimReductionParams (ZMod 7) :=
  (AdviceClaimReductionParams.new 2 .CycleMajor .Trusted 32 traceLen (claimedAdvice final)).getD
    ⟨.Trusted, .CycleVariables, 0, 0, 0, 0, 0, 0, ⟨0, 0⟩, ⟨0, 0⟩, [], []⟩

theorem zeroInstances_cacheOutside {m n : Nat} {v : SumcheckInstanceVerifier (ZMod 7) (ZMod 7)}
    (poly : PolynomialId) (h : v ∈ [zeroInstance m] ++ [] ++ ([zeroInstance n] ++ [])) :
    v.CachesOutside poly := by
  simp only [List.append_nil, List.cons_append, List.nil_append, List.mem_cons, List.not_mem_nil,
    or_false] at h
  rcases h with rfl | rfl
  · exact zeroInstance_cachesOutside m poly
  · exact zeroInstance_cachesOutside n poly

/-- A trace of two cycles: one round of the columns in the cycle phase, one of the
rows in the address phase. -/
def runWithAddressRound : @AcceptedRun (ZMod 7) (ZMod 7) Nat _ _ _ _ countingTranscript 2 .CycleMajor :=
  let acc0 := claimedAdvice 0
  let params := fourWords 2 0
  let acc6 := leaves (zeroProof 5) [zeroInstance 5, params.verifier 2 .CycleMajor] acc0 1
  let instances7 := [zeroInstance 4, (params.addressPhase .CycleMajor [0]).verifier 2 .CycleMajor]
  { kind := .Trusted, maxAdviceSizeBytes := 32, traceLen := 2, params
    before6 := [zeroInstance 5], after6 := [], before7 := [zeroInstance 4], after7 := []
    proof6 := zeroProof 5, proof7 := zeroProof 4
    acc0, acc6, acc7 := leaves (zeroProof 4) instances7 acc6 0
    t0 := 1, t6 := 8, start7 := 0, t7 := 6
    result6 := ([1, 1], [3, 4, 5, 6, 0]), result7 := ([1, 1], [2, 3, 4, 5])
    challenges := [0]
    wellIndexed := wellIndexed_claimedAdvice 0
    outside := fun _ hv => zeroInstances_cacheOutside _ hv
    made := rfl
    stage6 := eq_some_of_map acc0 (by decide)
    slice6 := ⟨5, by decide, by decide⟩
    stage7 := eq_some_of_map acc6 (by decide) }

theorem AcceptedRun.linked_with_address_round : runWithAddressRound.Linked :=
  runWithAddressRound.linked_of_address_rounds (by decide)

/-- A trace of 64 cycles: no address round. -/
def runWithoutAddressRounds :
    @AcceptedRun (ZMod 7) (ZMod 7) Nat _ _ _ _ countingTranscript 2 .CycleMajor :=
  let acc0 := claimedAdvice 1
  let params := fourWords 64 1
  let acc6 := leaves (zeroProof 10) [zeroInstance 10, params.verifier 2 .CycleMajor] acc0 1
  { kind := .Trusted, maxAdviceSizeBytes := 32, traceLen := 64, params
    before6 := [zeroInstance 10], after6 := [], before7 := [zeroInstance 1], after7 := []
    proof6 := zeroProof 10, proof7 := zeroProof 1
    acc0, acc6, acc7 := leaves (zeroProof 1) [zeroInstance 1] acc6 0
    t0 := 1, t6 := 13, start7 := 0, t7 := 2
    result6 := ([1, 1], [3, 4, 5, 6, 0, 1, 2, 3, 4, 5]), result7 := ([1], [1])
    challenges := [0, 1, 2, 3, 4, 5]
    wellIndexed := wellIndexed_claimedAdvice 1
    outside := fun _ hv => zeroInstances_cacheOutside _ hv
    made := rfl
    stage6 := eq_some_of_map acc0 (by decide)
    slice6 := ⟨10, by decide, by decide⟩
    stage7 := eq_some_of_map acc6 (by decide) }

/-- It is accepted with the advice polynomial at one, which the zero claim the cycle
phase ends with does not give. -/
theorem AcceptedRun.not_linked_without_address_rounds :
    runWithoutAddressRounds.params.numAddressPhaseRounds = 0 ∧
      (runWithoutAddressRounds.params.cacheOpenings .CycleMajor runWithoutAddressRounds.acc0
        runWithoutAddressRounds.challenges).isSome ∧
      (runWithoutAddressRounds.acc7.getAdviceOpening 2 .Trusted .AdviceClaimReduction).map Prod.snd =
        .some 1 ∧
      ¬ runWithoutAddressRounds.Linked := by
  refine ⟨by decide, by decide, by decide, ?_⟩
  intro hlinked
  have hverdict := congrArg (Option.map Prod.fst) hlinked.cycle
  exact absurd hverdict (by decide +kernel)

end LightningJolt
