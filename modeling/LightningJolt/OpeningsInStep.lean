/-
The two accumulators over one sequence of calls. The prover receives the
claims; the verifier starts from the prover's final openings, their points
left out, and receives the calls without the claims. Both deduplicate, each
by its own search, and they take the same decisions as long as no polynomial
is opened twice at the empty point, the mark the verifier keeps for an opening
that has not been placed.
-/
import LightningJolt.Openings

namespace LightningJolt

/-! ## Calls -/

/-- A call of an appending method, with the claims the prover passes, or of a
flush. -/
inductive AccumulatorCall (F C : Type)
  | appendDense (polynomial : CommittedPolynomial) (sumcheck : SumcheckId)
      (openingPoint : OpeningPoint C) (claim : F)
  | appendSparse (polynomials : List CommittedPolynomial) (sumcheck : SumcheckId)
      (rAddress rCycle : List C) (claims : List F)
  | appendVirtual (polynomial : VirtualPolynomial) (sumcheck : SumcheckId)
      (openingPoint : OpeningPoint C) (claim : F)
  | appendUntrustedAdvice (sumcheck : SumcheckId) (openingPoint : OpeningPoint C) (claim : F)
  | appendTrustedAdvice (sumcheck : SumcheckId) (openingPoint : OpeningPoint C) (claim : F)
  | flushToTranscript

/-- An opening a call makes: of the polynomial under an id, at a point. -/
structure Placement (F C : Type) where
  id : OpeningId
  point : OpeningPoint C
  claim : F

namespace AccumulatorCall

variable {F C T : Type}

/-- The ids a call appends. -/
def ids : AccumulatorCall F C → List OpeningId
  | .appendDense polynomial sumcheck _ _ => [.committed polynomial sumcheck]
  | .appendSparse polynomials sumcheck _ _ _ => polynomials.map (OpeningId.committed · sumcheck)
  | .appendVirtual polynomial sumcheck _ _ => [.virt polynomial sumcheck]
  | .appendUntrustedAdvice sumcheck _ _ => [.UntrustedAdvice sumcheck]
  | .appendTrustedAdvice sumcheck _ _ => [.TrustedAdvice sumcheck]
  | .flushToTranscript => []

/-- The openings a call makes on the prover's side. -/
def placements : AccumulatorCall F C → List (Placement F C)
  | .appendDense polynomial sumcheck point claim => [⟨.committed polynomial sumcheck, point, claim⟩]
  | .appendSparse polynomials sumcheck rAddress rCycle claims =>
    (polynomials.zip claims).map fun (label, claim) =>
      ⟨.committed label sumcheck, rAddress ++ rCycle, claim⟩
  | .appendVirtual polynomial sumcheck point claim => [⟨.virt polynomial sumcheck, point, claim⟩]
  | .appendUntrustedAdvice sumcheck point claim => [⟨.UntrustedAdvice sumcheck, point, claim⟩]
  | .appendTrustedAdvice sumcheck point claim => [⟨.TrustedAdvice sumcheck, point, claim⟩]
  | .flushToTranscript => []

/-- A claim for each polynomial: an `append_sparse` does not check it. -/
def CarriesClaims : AccumulatorCall F C → Prop
  | .appendSparse polynomials _ _ _ claims => polynomials.length ≤ claims.length
  | _ => True

variable [DecidableEq C] [DecidableEq F] (tr : Transcript T F C)

/-- The call on the prover's side. -/
def prover : AccumulatorCall F C → ProverOpeningAccumulator F C × T →
    Option (ProverOpeningAccumulator F C × T)
  | .appendDense polynomial sumcheck point claim, (acc, t) =>
    (acc.appendDense polynomial sumcheck point claim).map (·, t)
  | .appendSparse polynomials sumcheck rAddress rCycle claims, (acc, t) =>
    (acc.appendSparse polynomials sumcheck rAddress rCycle claims).map (·, t)
  | .appendVirtual polynomial sumcheck point claim, (acc, t) =>
    (acc.appendVirtual polynomial sumcheck point claim).map (·, t)
  | .appendUntrustedAdvice sumcheck point claim, (acc, t) =>
    (acc.appendUntrustedAdvice sumcheck point claim).map (·, t)
  | .appendTrustedAdvice sumcheck point claim, (acc, t) =>
    (acc.appendTrustedAdvice sumcheck point claim).map (·, t)
  | .flushToTranscript, (acc, t) => .some (acc.flushToTranscript tr t)

/-- The call on the verifier's side, without the claims. -/
def verifier [Zero F] : AccumulatorCall F C → VerifierOpeningAccumulator F C × T →
    Option (VerifierOpeningAccumulator F C × T)
  | .appendDense polynomial sumcheck point _, (acc, t) =>
    (acc.appendDense polynomial sumcheck point).map (·, t)
  | .appendSparse polynomials sumcheck rAddress rCycle _, (acc, t) =>
    (VerifierOpeningAccumulator.appendSparse sumcheck (rAddress ++ rCycle) polynomials acc).map (·, t)
  | .appendVirtual polynomial sumcheck point _, (acc, t) =>
    (acc.appendVirtual polynomial sumcheck point).map (·, t)
  | .appendUntrustedAdvice sumcheck point _, (acc, t) =>
    (acc.appendUntrustedAdvice sumcheck point).map (·, t)
  | .appendTrustedAdvice sumcheck point _, (acc, t) =>
    (acc.appendTrustedAdvice sumcheck point).map (·, t)
  | .flushToTranscript, (acc, t) => .some (acc.flushToTranscript tr t)

/-- The calls one after the other, on the prover's side. -/
def proverRun : List (AccumulatorCall F C) → ProverOpeningAccumulator F C × T →
    Option (ProverOpeningAccumulator F C × T)
  | [], s => .some s
  | call :: calls, s => do proverRun calls (← call.prover tr s)

/-- The calls one after the other, on the verifier's side. -/
def verifierRun [Zero F] : List (AccumulatorCall F C) → VerifierOpeningAccumulator F C × T →
    Option (VerifierOpeningAccumulator F C × T)
  | [], s => .some s
  | call :: calls, s => do verifierRun calls (← call.verifier tr s)

end AccumulatorCall

/-! ## What staying in step means -/

section InStep

variable {F C T : Type}

/-- The opening an id resolves to. -/
def ResolvesTo (aliases : OpeningId → Option OpeningId) (openings : Openings F C) (id : OpeningId)
    (o : OpeningPoint C × F) : Prop :=
  ∃ fuel key, resolveAlias aliases fuel id = .some key ∧ openings key = .some o

/-- The loop of `resolve_alias` ends on every id. -/
def Terminates (aliases : OpeningId → Option OpeningId) : Prop :=
  ∀ id, ∃ fuel key, resolveAlias aliases fuel id = .some key

/-- The two sides after the calls that appended `ids`: each id resolves to one
opening, a flush appends the same scalars, and the transcripts are equal. -/
structure InStep (ids : List OpeningId) (p : ProverOpeningAccumulator F C × T)
    (v : VerifierOpeningAccumulator F C × T) : Prop where
  resolve : ∀ id ∈ ids, ∃ o, ResolvesTo p.1.aliases p.1.openings id o ∧
    ResolvesTo v.1.aliases v.1.openings id o
  proverTerminates : Terminates p.1.aliases
  verifierTerminates : Terminates v.1.aliases
  pending : p.1.pendingClaims = v.1.pendingClaims
  transcript : p.2 = v.2

variable [DecidableEq C] [DecidableEq F] [Zero F] (tr : Transcript T F C)

/-- After every prefix of the calls the two sides are in step, the verifier
started from the openings the prover's whole run leaves. -/
def StaysInStep (calls : List (AccumulatorCall F C)) (t : T) : Prop :=
  ∃ final, AccumulatorCall.proverRun tr calls (.new, t) = .some final ∧
    ∀ k ≤ calls.length, ∃ p v,
      AccumulatorCall.proverRun tr (calls.take k) (.new, t) = .some p ∧
      AccumulatorCall.verifierRun tr (calls.take k) (.prepopulated final.1.openings, t) = .some v ∧
      InStep ((calls.take k).flatMap AccumulatorCall.ids) p v

end InStep

/-! ## The searches -/

section Searches

variable {F C : Type} [DecidableEq C] {openings : Openings F C} {point : OpeningPoint C}

theorem ProverOpeningAccumulator.findAtPoint_some {ids : List OpeningId} {e : OpeningId} {c : F}
    (h : findAtPoint openings point ids = .some (.some (e, c))) :
    e ∈ ids ∧ openings e = .some (point, c) := by
  induction ids with
  | nil => simp [findAtPoint] at h
  | cons id ids ih =>
    simp only [findAtPoint] at h
    cases ho : openings id with
    | none => simp [ho] at h
    | some o =>
      obtain ⟨pt, cl⟩ := o
      simp only [ho] at h
      by_cases hpt : pt = point
      · simp only [hpt, ite_true, Option.some.injEq, Prod.mk.injEq] at h
        obtain ⟨rfl, rfl⟩ := h
        exact ⟨by simp, by rw [ho, hpt]⟩
      · simp only [hpt, ite_false] at h
        obtain ⟨hmem, hopen⟩ := ih h
        exact ⟨by simp [hmem], hopen⟩

theorem ProverOpeningAccumulator.findAtPoint_total {ids : List OpeningId}
    (h : ∀ id ∈ ids, (openings id).isSome) : ∃ r, findAtPoint openings point ids = .some r := by
  induction ids with
  | nil => exact ⟨_, rfl⟩
  | cons id ids ih =>
    obtain ⟨o, ho⟩ := Option.isSome_iff_exists.mp (h id (by simp))
    simp only [findAtPoint, ho]
    by_cases hpt : o.1 = point
    · exact ⟨.some (id, o.2), by simp [hpt]⟩
    · obtain ⟨r, hr⟩ := ih fun id hid => h id (by simp [hid])
      exact ⟨r, by simp [hpt, hr]⟩

/-- An opening whose point is not empty, which the verifier takes for one that
has not been placed. -/
def Openings.placed (openings : Openings F C) (id : OpeningId) : Bool :=
  match openings id with
  | .some (point, _) => !point.isEmpty
  | .none => false

/-- The verifier finds nothing at the empty point. -/
theorem VerifierOpeningAccumulator.findAtPoint_nil {ids : List OpeningId}
    (h : ∀ id ∈ ids, (openings id).isSome) : findAtPoint openings [] ids = .some .none := by
  induction ids with
  | nil => rfl
  | cons id ids ih =>
    obtain ⟨o, ho⟩ := Option.isSome_iff_exists.mp (h id (by simp))
    have hrest := ih fun id hid => h id (by simp [hid])
    obtain ⟨pt, c⟩ := o
    cases pt <;> simp [findAtPoint, ho, hrest]

/-- At another point the two searches agree, the verifier's index holding the
placed ids of the prover's. -/
theorem findAtPoint_filter {vopenings : Openings F C} {ids : List OpeningId} (hpt : point ≠ [])
    (h : ∀ id ∈ ids, ∃ o, openings id = .some o ∧ vopenings id = .some o) :
    VerifierOpeningAccumulator.findAtPoint vopenings point (ids.filter openings.placed) =
      ProverOpeningAccumulator.findAtPoint openings point ids := by
  induction ids with
  | nil => rfl
  | cons id ids ih =>
    obtain ⟨o, ho, hv⟩ := h id (by simp)
    have hrest := ih fun id hid => h id (by simp [hid])
    obtain ⟨pt, c⟩ := o
    cases hempty : pt.isEmpty with
    | true =>
      have hne : pt ≠ point := by
        intro heq
        rw [heq, List.isEmpty_iff] at hempty
        exact hpt hempty
      simp [Openings.placed, ProverOpeningAccumulator.findAtPoint, ho, hempty, hne, ← hrest]
    | false =>
      by_cases heq : pt = point
      · subst heq
        simp [Openings.placed, ProverOpeningAccumulator.findAtPoint,
          VerifierOpeningAccumulator.findAtPoint, ho, hv, hpt]
      · simp [Openings.placed, ProverOpeningAccumulator.findAtPoint,
          VerifierOpeningAccumulator.findAtPoint, ho, hv, hempty, heq, ← hrest]

end Searches

/-! ## The prover's bookkeeping -/

/-- The prover's accumulator after the openings `done`: each was recorded, or is
an alias of a recorded one at the same point with the same claim. -/
structure ProverOpeningAccumulator.Tracks {F C : Type} (p : ProverOpeningAccumulator F C)
    (done : List (Placement F C)) : Prop where
  opened : ∀ id o, p.openings id = .some o → ⟨id, o.1, o.2⟩ ∈ done
  index : ∀ poly id, id ∈ p.openingIdsByPoly poly ↔
    underlyingPolynomialId id = poly ∧ (p.openings id).isSome
  canonical : ∀ id next, p.aliases id = .some next →
    p.openings id = .none ∧ (p.openings next).isSome ∧ id ∈ done.map Placement.id
  covered : ∀ a ∈ done, p.openings a.id = .some (a.point, a.claim) ∨
    ∃ next, p.aliases a.id = .some next ∧ p.openings next = .some (a.point, a.claim)

namespace ProverOpeningAccumulator

variable {F C : Type} {p : ProverOpeningAccumulator F C} {done : List (Placement F C)}
  {a : Placement F C}

theorem tracks_new : (new : ProverOpeningAccumulator F C).Tracks [] :=
  ⟨by simp [new], by simp [new], by simp [new], by simp⟩

namespace Tracks

/-- An id not yet appended is not in the maps. -/
theorem fresh (h : p.Tracks done) {id : OpeningId} (hid : id ∉ done.map Placement.id) :
    p.openings id = .none ∧ p.aliases id = .none := by
  constructor
  · cases ho : p.openings id with
    | none => rfl
    | some o => exact absurd (List.mem_map_of_mem (f := Placement.id) (h.opened id o ho)) hid
  · cases ha : p.aliases id with
    | none => rfl
    | some next => exact absurd (h.canonical id next ha).2.2 hid

/-- An alias leads to an id that is no alias. -/
theorem canonical_root (h : p.Tracks done) {id next : OpeningId} (ha : p.aliases id = .some next) :
    p.aliases next = .none := by
  cases hn : p.aliases next with
  | none => rfl
  | some other =>
    have hnone := (h.canonical next other hn).1
    have hsome := (h.canonical id next ha).2.1
    simp [hnone] at hsome

theorem addAlias (h : p.Tracks done) (hfresh : a.id ∉ done.map Placement.id) {e : OpeningId}
    (he : p.openings e = .some (a.point, a.claim)) :
    (p.addAlias a.id e).Tracks (done ++ [a]) where
  opened id o ho := List.mem_append_left _ (h.opened id o ho)
  index := h.index
  canonical id next hn := by
    by_cases hid : id = a.id
    · subst hid
      simp only [ProverOpeningAccumulator.addAlias, insertEntry_self, Option.some.injEq] at hn
      subst hn
      exact ⟨(h.fresh hfresh).1, by simp [ProverOpeningAccumulator.addAlias, he], by simp⟩
    · simp only [ProverOpeningAccumulator.addAlias, insertEntry_of_ne hid] at hn
      obtain ⟨hnone, hsome, hmem⟩ := h.canonical id next hn
      exact ⟨hnone, hsome, by simp only [List.map_append, List.mem_append]; exact .inl hmem⟩
  covered b hb := by
    simp only [List.mem_append, List.mem_singleton] at hb
    rcases hb with hb | rfl
    · have hne : b.id ≠ a.id := fun heq => hfresh (heq ▸ List.mem_map_of_mem hb)
      rcases h.covered b hb with ho | ⟨next, hn, ho⟩
      · exact .inl ho
      · exact .inr ⟨next, by simpa [ProverOpeningAccumulator.addAlias, insertEntry_of_ne hne] using hn, ho⟩
    · exact .inr ⟨e, by simp [ProverOpeningAccumulator.addAlias], he⟩

theorem placeOpening (h : p.Tracks done) (hfresh : a.id ∉ done.map Placement.id) :
    (p.placeOpening a.id a.point a.claim).Tracks (done ++ [a]) where
  opened id o ho := by
    simp only [ProverOpeningAccumulator.placeOpening, indexOpeningId] at ho
    by_cases hid : id = a.id
    · subst hid
      simp only [insertEntry_self, Option.some.injEq] at ho
      subst ho
      simp
    · rw [insertEntry_of_ne hid] at ho
      exact List.mem_append_left _ (h.opened id o ho)
  index poly id := by
    simp only [ProverOpeningAccumulator.placeOpening, indexOpeningId]
    have hold := h.index poly id
    by_cases hid : id = a.id
    · subst hid
      have hnone := (h.fresh hfresh).1
      by_cases hpoly : poly = underlyingPolynomialId a.id
      · simp [hpoly]
      · simp only [hpoly, ite_false, hold, hnone]
        simp [eq_comm, hpoly]
    · simp only [insertEntry_of_ne hid]
      by_cases hpoly : poly = underlyingPolynomialId a.id
      · simp only [hpoly, ite_true, List.mem_append, List.mem_singleton, hid, or_false]
        rw [← hpoly]
        exact hold
      · simpa only [hpoly, ite_false] using hold
  canonical id next hn := by
    simp only [ProverOpeningAccumulator.placeOpening, indexOpeningId] at hn ⊢
    obtain ⟨hnone, hsome, hmem⟩ := h.canonical id next hn
    have hid : id ≠ a.id := fun heq => hfresh (heq ▸ hmem)
    refine ⟨by rw [insertEntry_of_ne hid]; exact hnone, ?_, by simp at hmem ⊢; exact .inl hmem⟩
    by_cases hnext : next = a.id
    · simp [hnext]
    · rw [insertEntry_of_ne hnext]
      exact hsome
  covered b hb := by
    simp only [ProverOpeningAccumulator.placeOpening, indexOpeningId]
    simp only [List.mem_append, List.mem_singleton] at hb
    rcases hb with hb | rfl
    · have hne : b.id ≠ a.id := fun heq => hfresh (heq ▸ List.mem_map_of_mem hb)
      rcases h.covered b hb with ho | ⟨next, hn, ho⟩
      · exact .inl (by rw [insertEntry_of_ne hne]; exact ho)
      · have hnext : next ≠ a.id := by
          intro heq
          rw [heq, (h.fresh hfresh).1] at ho
          cases ho
        exact .inr ⟨next, hn, by rw [insertEntry_of_ne hnext]; exact ho⟩
    · exact .inl (by simp)

end Tracks

variable [DecidableEq C] [DecidableEq F]

/-- What the prover does with a new id: it places the opening, or finds the
earlier one at the same point. -/
theorem insertOrAliasOpening_cases (h : p.Tracks done) (hfresh : a.id ∉ done.map Placement.id)
    (hsame : ∀ b ∈ done, underlyingPolynomialId b.id = underlyingPolynomialId a.id →
      b.point = a.point → b.claim = a.claim) :
    (p.findExistingOpeningAtPoint (underlyingPolynomialId a.id) a.point = .some .none ∧
      p.insertOrAliasOpening a.id a.point a.claim =
        .some (true, p.placeOpening a.id a.point a.claim)) ∨
    ∃ e, p.findExistingOpeningAtPoint (underlyingPolynomialId a.id) a.point =
        .some (.some (e, a.claim)) ∧
      underlyingPolynomialId e = underlyingPolynomialId a.id ∧
      p.openings e = .some (a.point, a.claim) ∧
      p.insertOrAliasOpening a.id a.point a.claim = .some (false, p.addAlias a.id e) := by
  have hnone := (h.fresh hfresh).1
  obtain ⟨r, hr⟩ := findAtPoint_total
    fun id hid => ((h.index (underlyingPolynomialId a.id) id).mp hid).2
  cases r with
  | none => exact .inl ⟨hr, by simp [insertOrAliasOpening, hnone, findExistingOpeningAtPoint, hr]⟩
  | some found =>
    obtain ⟨e, c⟩ := found
    obtain ⟨hmem, he⟩ := findAtPoint_some hr
    have hpoly := ((h.index _ e).mp hmem).1
    have hc : c = a.claim := hsame _ (h.opened e _ he) hpoly rfl
    subst hc
    exact .inr ⟨e, hr, hpoly, he, by simp [insertOrAliasOpening, hnone, findExistingOpeningAtPoint, hr]⟩

end ProverOpeningAccumulator

/-! ## The two sides together -/

/-- The verifier's accumulator beside the prover's, `final` being the openings
the prover ends with: what the prover has opened is placed, what it has not is
still at the empty point with its claim. -/
structure Agrees {F C : Type} (final : Openings F C) (p : ProverOpeningAccumulator F C)
    (v : VerifierOpeningAccumulator F C) : Prop where
  opened : ∀ id o, p.openings id = .some o → v.openings id = .some o
  unopened : ∀ id, p.openings id = .none → v.openings id = (final id).map fun o => ([], o.2)
  aliases : v.aliases = p.aliases
  index : ∀ poly, v.openingIdsByPoly poly = (p.openingIdsByPoly poly).filter p.openings.placed
  pending : p.pendingClaims = v.pendingClaims

namespace Agrees

variable {F C : Type} {final : Openings F C} {p p' : ProverOpeningAccumulator F C}
  {v : VerifierOpeningAccumulator F C} {done : List (Placement F C)} {a : Placement F C}

theorem new : Agrees final .new (.prepopulated final) :=
  ⟨by simp [ProverOpeningAccumulator.new], by simp [VerifierOpeningAccumulator.prepopulated], rfl,
    by simp [ProverOpeningAccumulator.new, VerifierOpeningAccumulator.prepopulated], rfl⟩

theorem addAlias (h : Agrees final p v) (key e : OpeningId) :
    Agrees final (p.addAlias key e) (v.addAlias key e) :=
  ⟨h.opened, h.unopened, by
    simp [ProverOpeningAccumulator.addAlias, VerifierOpeningAccumulator.addAlias, h.aliases],
    h.index, h.pending⟩

theorem placeOpening (h : Agrees final p v) (ht : p.Tracks done)
    (hfresh : a.id ∉ done.map Placement.id) :
    Agrees final (p.placeOpening a.id a.point a.claim) (v.placeOpening a.id a.point a.claim) := by
  have hopen : (v.placeOpening a.id a.point a.claim).openings =
      insertEntry v.openings a.id (a.point, a.claim) := by
    simp only [VerifierOpeningAccumulator.placeOpening, VerifierOpeningAccumulator.indexOpeningId,
      insertEntry_self]
    split <;> rfl
  -- the placed ids of the index, before and after
  have hplaced : ∀ poly, (p.openingIdsByPoly poly).filter
      (Openings.placed (insertEntry p.openings a.id (a.point, a.claim))) =
        (p.openingIdsByPoly poly).filter p.openings.placed := by
    intro poly
    refine List.filter_congr fun id hid => ?_
    have hne : id ≠ a.id := by
      intro heq
      have hsome := ((ht.index poly id).mp hid).2
      rw [heq, (ht.fresh hfresh).1] at hsome
      cases hsome
    simp [Openings.placed, insertEntry_of_ne hne]
  constructor
  · intro id o ho
    rw [hopen]
    simp only [ProverOpeningAccumulator.placeOpening, ProverOpeningAccumulator.indexOpeningId] at ho
    by_cases hid : id = a.id
    · subst hid
      simpa using ho
    · rw [insertEntry_of_ne hid] at ho ⊢
      exact h.opened id o ho
  · intro id ho
    rw [hopen]
    simp only [ProverOpeningAccumulator.placeOpening, ProverOpeningAccumulator.indexOpeningId] at ho
    by_cases hid : id = a.id
    · subst hid
      simp at ho
    · rw [insertEntry_of_ne hid] at ho ⊢
      exact h.unopened id ho
  · simp only [VerifierOpeningAccumulator.placeOpening, VerifierOpeningAccumulator.indexOpeningId,
      insertEntry_self]
    split <;> exact h.aliases
  · intro poly
    have hnew : a.id ∉ p.openingIdsByPoly poly := by
      intro hmem
      have hsome := ((ht.index poly a.id).mp hmem).2
      rw [(ht.fresh hfresh).1] at hsome
      cases hsome
    simp only [VerifierOpeningAccumulator.placeOpening, VerifierOpeningAccumulator.indexOpeningId,
      ProverOpeningAccumulator.placeOpening, ProverOpeningAccumulator.indexOpeningId,
      insertEntry_self]
    by_cases hpoly : poly = underlyingPolynomialId a.id
    · subst hpoly
      have hlast : Openings.placed (insertEntry p.openings a.id (a.point, a.claim)) a.id =
          !a.point.isEmpty := by simp [Openings.placed]
      simp only [↓reduceIte, List.filter_append, hplaced, List.filter_singleton, hlast]
      cases hempty : a.point.isEmpty with
      | true => simp [h.index]
      | false => simp [h.index, hnew]
    · cases hempty : a.point.isEmpty <;> simp [hplaced, h.index, hpoly]
  · simp only [VerifierOpeningAccumulator.placeOpening, VerifierOpeningAccumulator.indexOpeningId,
      ProverOpeningAccumulator.placeOpening, ProverOpeningAccumulator.indexOpeningId,
      insertEntry_self]
    split <;> simp [h.pending]

variable [DecidableEq C] [DecidableEq F] [Zero F]

/-- **One opening keeps the two sides together**: the verifier decides on it
as the prover did. -/
theorem populate (h : Agrees final p v) (ht : p.Tracks done)
    (hfresh : a.id ∉ done.map Placement.id)
    (hsame : ∀ b ∈ done, underlyingPolynomialId b.id = underlyingPolynomialId a.id →
      b.point = a.point → b.claim = a.claim)
    (honce : ∀ b ∈ done, underlyingPolynomialId b.id = underlyingPolynomialId a.id →
      b.point = a.point → a.point ≠ [])
    {placed : Bool} (hp : p.insertOrAliasOpening a.id a.point a.claim = .some (placed, p'))
    (hfinal : final a.id = p'.openings a.id) :
    ∃ v', v.populateOrAliasOpening a.id a.point = .some v' ∧ p'.Tracks (done ++ [a]) ∧
      Agrees final p' v' := by
  have hnone := (ht.fresh hfresh).1
  have hv := h.unopened a.id hnone
  have hall : ∀ id ∈ p.openingIdsByPoly (underlyingPolynomialId a.id),
      ∃ o, p.openings id = .some o ∧ v.openings id = .some o := by
    intro id hid
    obtain ⟨o, ho⟩ := Option.isSome_iff_exists.mp ((ht.index _ id).mp hid).2
    exact ⟨o, ho, h.opened id o ho⟩
  rcases ProverOpeningAccumulator.insertOrAliasOpening_cases ht hfresh hsame with
    ⟨hfind, hins⟩ | ⟨e, hfind, hpoly, he, hins⟩
  · rw [hins] at hp
    cases hp
    have hclaim : v.openings a.id = .some ([], a.claim) := by
      rw [hv, hfinal]
      simp [ProverOpeningAccumulator.placeOpening, ProverOpeningAccumulator.indexOpeningId]
    have hnot : v.findExistingOpeningAtPoint (underlyingPolynomialId a.id) a.point =
        .some .none := by
      simp only [VerifierOpeningAccumulator.findExistingOpeningAtPoint, h.index]
      by_cases hempty : a.point = []
      · rw [hempty]
        refine VerifierOpeningAccumulator.findAtPoint_nil fun id hid => ?_
        obtain ⟨o, -, ho⟩ := hall id (List.mem_filter.mp hid).1
        simp [ho]
      · rw [findAtPoint_filter hempty hall]
        exact hfind
    refine ⟨_, ?_, ht.placeOpening hfresh, h.placeOpening ht hfresh⟩
    simp [VerifierOpeningAccumulator.populateOrAliasOpening, hclaim, hnot]
  · rw [hins] at hp
    cases hp
    have hclaim : v.openings a.id = .none := by
      rw [hv, hfinal]
      simp [ProverOpeningAccumulator.addAlias, hnone]
    have hne := honce _ (ht.opened e _ he) hpoly rfl
    have hfound : v.findExistingOpeningAtPoint (underlyingPolynomialId a.id) a.point =
        .some (.some (e, a.claim)) := by
      simp only [VerifierOpeningAccumulator.findExistingOpeningAtPoint, h.index]
      rw [findAtPoint_filter hne hall]
      exact hfind
    refine ⟨_, ?_, ht.addAlias hfresh he, h.addAlias a.id e⟩
    simp [VerifierOpeningAccumulator.populateOrAliasOpening, hclaim, hfound]

end Agrees

/-! ## Whole runs -/

/-- What the openings of a run are promised to be: ids are distinct, and equal
polynomials at equal points have equal claims. `emptyOnce` is what the
accumulators need on top: no polynomial is opened twice at the empty point. -/
structure Coherent {F C : Type} (all : List (Placement F C)) : Prop where
  distinct : (all.map Placement.id).Nodup
  consistent : ∀ a ∈ all, ∀ b ∈ all, underlyingPolynomialId a.id = underlyingPolynomialId b.id →
    a.point = b.point → a.claim = b.claim
  emptyOnce : ∀ a ∈ all, ∀ b ∈ all, underlyingPolynomialId a.id = underlyingPolynomialId b.id →
    a.point = [] → b.point = [] → a.id = b.id

/-- What a run of openings asks of the next one. -/
structure Coherent.Next {F C : Type} (done : List (Placement F C)) (a : Placement F C) : Prop where
  fresh : a.id ∉ done.map Placement.id
  same : ∀ b ∈ done, underlyingPolynomialId b.id = underlyingPolynomialId a.id →
    b.point = a.point → b.claim = a.claim
  once : ∀ b ∈ done, underlyingPolynomialId b.id = underlyingPolynomialId a.id →
    b.point = a.point → a.point ≠ []

theorem Coherent.next {F C : Type} {done rest : List (Placement F C)} {a : Placement F C}
    (h : Coherent (done ++ a :: rest)) : Coherent.Next done a := by
  have hfresh : a.id ∉ done.map Placement.id := by
    have hd := h.distinct
    rw [List.map_append, List.map_cons, List.nodup_append] at hd
    intro hmem
    exact hd.2.2 a.id hmem a.id (by simp) rfl
  refine ⟨hfresh, fun b hb => h.consistent b (by simp [hb]) a (by simp), fun b hb hpoly hpt hnil => ?_⟩
  have hid := h.emptyOnce b (by simp [hb]) a (by simp) hpoly (hpt.trans hnil) hnil
  exact hfresh (hid ▸ List.mem_map_of_mem hb)

section Placements

variable {F C : Type} [DecidableEq C] [DecidableEq F]

/-- The openings of one call, one after the other, on the prover's side. -/
def ProverOpeningAccumulator.placeAll :
    List (Placement F C) → ProverOpeningAccumulator F C → Option (ProverOpeningAccumulator F C)
  | [], p => .some p
  | a :: rest, p => do
    let (_, p) ← p.insertOrAliasOpening a.id a.point a.claim
    placeAll rest p

/-- The openings of one call, one after the other, on the verifier's side. -/
def VerifierOpeningAccumulator.placeAll [Zero F] :
    List (Placement F C) → VerifierOpeningAccumulator F C → Option (VerifierOpeningAccumulator F C)
  | [], v => .some v
  | a :: rest, v => do placeAll rest (← v.populateOrAliasOpening a.id a.point)

theorem ProverOpeningAccumulator.placeAll_single (a : Placement F C)
    (p : ProverOpeningAccumulator F C) :
    placeAll [a] p = (p.insertOrAliasOpening a.id a.point a.claim).map Prod.snd := by
  rw [placeAll]
  cases p.insertOrAliasOpening a.id a.point a.claim <;> rfl

theorem VerifierOpeningAccumulator.placeAll_single [Zero F] (a : Placement F C)
    (v : VerifierOpeningAccumulator F C) :
    placeAll [a] v = v.populateOrAliasOpening a.id a.point := by
  rw [placeAll]
  cases v.populateOrAliasOpening a.id a.point <;> rfl

/-- Openings placed on the prover's side: it does not panic, and the other ids
are where they were. -/
theorem ProverOpeningAccumulator.placeAll_total {p : ProverOpeningAccumulator F C}
    {done as rest : List (Placement F C)} (ht : p.Tracks done) (hc : Coherent (done ++ as ++ rest)) :
    ∃ p', placeAll as p = .some p' ∧ p'.Tracks (done ++ as) ∧
      ∀ id, id ∉ as.map Placement.id → p'.openings id = p.openings id := by
  induction as generalizing p done with
  | nil => exact ⟨p, rfl, by simpa using ht, fun _ _ => rfl⟩
  | cons a as ih =>
    have hassoc : done ++ a :: as = done ++ [a] ++ as := by simp
    have hnext : Coherent.Next done a := Coherent.next (by simpa using hc)
    rw [hassoc] at hc
    rcases insertOrAliasOpening_cases ht hnext.fresh hnext.same with
      ⟨-, hins⟩ | ⟨e, -, -, he, hins⟩
    · obtain ⟨p', hp', ht', hother⟩ := ih (ht.placeOpening hnext.fresh) hc
      refine ⟨p', by simp [placeAll, hins, hp'], by rw [hassoc]; exact ht', fun id hid => ?_⟩
      simp only [List.map_cons, List.mem_cons, not_or] at hid
      rw [hother id hid.2]
      exact insertEntry_of_ne hid.1
    · obtain ⟨p', hp', ht', hother⟩ := ih (ht.addAlias hnext.fresh he) hc
      refine ⟨p', by simp [placeAll, hins, hp'], by rw [hassoc]; exact ht', fun id hid => ?_⟩
      simp only [List.map_cons, List.mem_cons, not_or] at hid
      exact hother id hid.2

/-- The openings of one call keep the two sides together. -/
theorem Agrees.placeAll [Zero F] {final : Openings F C} {p p' : ProverOpeningAccumulator F C}
    {v : VerifierOpeningAccumulator F C} {done as rest : List (Placement F C)}
    (h : Agrees final p v) (ht : p.Tracks done) (hc : Coherent (done ++ as ++ rest))
    (hp : ProverOpeningAccumulator.placeAll as p = .some p')
    (hfinal : ∀ id ∈ as.map Placement.id, final id = p'.openings id) :
    ∃ v', VerifierOpeningAccumulator.placeAll as v = .some v' ∧ Agrees final p' v' := by
  induction as generalizing p v done with
  | nil =>
    cases hp
    exact ⟨v, rfl, h⟩
  | cons a as ih =>
    have hnext : Coherent.Next done a := Coherent.next (by simpa using hc)
    have hc' : Coherent (done ++ [a] ++ as ++ rest) := by simpa using hc
    simp only [ProverOpeningAccumulator.placeAll, Option.bind_eq_bind,
      Option.bind_eq_some_iff] at hp
    obtain ⟨⟨placed, p1⟩, hins, hrest⟩ := hp
    -- the rest of the call leaves this id where this opening put it
    have hkept : p'.openings a.id = p1.openings a.id := by
      have ht1 : p1.Tracks (done ++ [a]) := by
        rcases ProverOpeningAccumulator.insertOrAliasOpening_cases ht hnext.fresh hnext.same with
          ⟨-, hins'⟩ | ⟨e, -, -, he, hins'⟩
        · rw [hins'] at hins
          cases hins
          exact ht.placeOpening hnext.fresh
        · rw [hins'] at hins
          cases hins
          exact ht.addAlias hnext.fresh he
      obtain ⟨p2, hp2, -, hother⟩ := ProverOpeningAccumulator.placeAll_total ht1 hc'
      rw [hrest] at hp2
      cases hp2
      refine hother a.id ?_
      have hd := hc.distinct
      simp only [List.append_assoc, List.cons_append, List.map_append, List.map_cons,
        List.nodup_append, List.nodup_cons, List.mem_append, not_or] at hd
      exact hd.2.1.1.1
    obtain ⟨v1, hv1, ht1, h1⟩ := h.populate ht hnext.fresh hnext.same hnext.once hins
      ((hfinal a.id (by simp)).trans hkept)
    obtain ⟨v', hv', h'⟩ := ih h1 ht1 hc' hrest
      fun id hid => hfinal id (by simp only [List.map_cons, List.mem_cons]; exact .inr hid)
    exact ⟨v', by simp [VerifierOpeningAccumulator.placeAll, hv1, hv'], h'⟩

end Placements

namespace AccumulatorCall

variable {F C T : Type} {tr : Transcript T F C}

theorem ids_eq {call : AccumulatorCall F C} (h : call.CarriesClaims) :
    call.ids = call.placements.map Placement.id := by
  cases call with
  | appendSparse polynomials sumcheck rAddress rCycle claims =>
    have hzip : polynomials = (polynomials.zip claims).map Prod.fst := by
      rw [List.map_fst_zip h]
    simp only [ids, placements, List.map_map]
    conv_lhs => rw [hzip, List.map_map]
    rfl
  | _ => rfl

theorem flatMap_ids {calls : List (AccumulatorCall F C)} (h : ∀ call ∈ calls, call.CarriesClaims) :
    calls.flatMap ids = (calls.flatMap placements).map Placement.id := by
  induction calls with
  | nil => rfl
  | cons call calls ih =>
    simp only [List.flatMap_cons, List.map_append]
    rw [ids_eq (h call (by simp)), ih fun c hc => h c (by simp [hc])]

variable [DecidableEq C] [DecidableEq F]

theorem appendSparseLoop_eq (sumcheck : SumcheckId) (point : OpeningPoint C)
    (entries : List (CommittedPolynomial × F)) (p : ProverOpeningAccumulator F C) :
    ProverOpeningAccumulator.appendSparseLoop sumcheck point entries p =
      ProverOpeningAccumulator.placeAll
        (entries.map fun (label, claim) => ⟨.committed label sumcheck, point, claim⟩) p := by
  induction entries generalizing p with
  | nil => rfl
  | cons entry entries ih =>
    simp only [ProverOpeningAccumulator.appendSparseLoop, List.map_cons,
      ProverOpeningAccumulator.placeAll, ih]

variable [Zero F]

theorem appendSparse_eq (sumcheck : SumcheckId) (point : OpeningPoint C)
    {polynomials : List CommittedPolynomial} {claims : List F}
    (h : polynomials.length ≤ claims.length) (v : VerifierOpeningAccumulator F C) :
    VerifierOpeningAccumulator.appendSparse sumcheck point polynomials v =
      VerifierOpeningAccumulator.placeAll
        ((polynomials.zip claims).map fun (label, claim) =>
          ⟨.committed label sumcheck, point, claim⟩) v := by
  induction polynomials generalizing v claims with
  | nil => rfl
  | cons label polynomials ih =>
    cases claims with
    | nil => simp at h
    | cons claim claims =>
      simp only [List.length_cons, Nat.add_le_add_iff_right] at h
      simp only [VerifierOpeningAccumulator.appendSparse, List.zip_cons_cons, List.map_cons,
        VerifierOpeningAccumulator.placeAll, fun v => ih h v]

variable (tr) in
/-- Every call but a flush places its openings, on both sides. -/
theorem flush_or_placeAll {call : AccumulatorCall F C} (h : call.CarriesClaims) :
    call = .flushToTranscript ∨
      ((∀ s : ProverOpeningAccumulator F C × T, call.prover tr s =
        (ProverOpeningAccumulator.placeAll call.placements s.1).map (·, s.2)) ∧
      ∀ s : VerifierOpeningAccumulator F C × T, call.verifier tr s =
        (VerifierOpeningAccumulator.placeAll call.placements s.1).map (·, s.2)) := by
  cases call with
  | flushToTranscript => exact .inl rfl
  | appendSparse polynomials sumcheck rAddress rCycle claims =>
    refine .inr ⟨fun s => ?_, fun s => ?_⟩
    · simp only [prover, ProverOpeningAccumulator.appendSparse, placements, appendSparseLoop_eq]
    · simp only [verifier, placements, appendSparse_eq sumcheck (rAddress ++ rCycle) h]
  | appendDense polynomial sumcheck point claim | appendVirtual polynomial sumcheck point claim =>
    refine .inr ⟨fun s => ?_, fun s => ?_⟩
    · rw [placements, ProverOpeningAccumulator.placeAll_single]
      rfl
    · rw [placements, VerifierOpeningAccumulator.placeAll_single]
      rfl
  | appendUntrustedAdvice sumcheck point claim | appendTrustedAdvice sumcheck point claim =>
    refine .inr ⟨fun s => ?_, fun s => ?_⟩
    · rw [placements, ProverOpeningAccumulator.placeAll_single]
      rfl
    · rw [placements, VerifierOpeningAccumulator.placeAll_single]
      rfl

variable (tr) in
/-- A call on the prover's side does not panic, and the other ids are where they
were. -/
theorem prover_total {call : AccumulatorCall F C} {done rest : List (Placement F C)}
    {s : ProverOpeningAccumulator F C × T} (ht : s.1.Tracks done) (hclaims : call.CarriesClaims)
    (hc : Coherent (done ++ call.placements ++ rest)) :
    ∃ s', call.prover tr s = .some s' ∧ s'.1.Tracks (done ++ call.placements) ∧
      ∀ id, id ∉ call.placements.map Placement.id → s'.1.openings id = s.1.openings id := by
  rcases flush_or_placeAll tr hclaims with rfl | ⟨hplace, -⟩
  · exact ⟨_, rfl, by simpa [placements] using ⟨ht.opened, ht.index, ht.canonical, ht.covered⟩,
      fun _ _ => rfl⟩
  · obtain ⟨p1, hp1, ht1, hother⟩ := ProverOpeningAccumulator.placeAll_total ht hc
    exact ⟨(p1, s.2), by rw [hplace, hp1]; rfl, ht1, hother⟩

variable (tr) in
/-- A run of the prover does not panic, and the other ids are where they were. -/
theorem proverRun_total {calls : List (AccumulatorCall F C)} {done rest : List (Placement F C)}
    {s : ProverOpeningAccumulator F C × T} (ht : s.1.Tracks done)
    (hclaims : ∀ call ∈ calls, call.CarriesClaims)
    (hc : Coherent (done ++ calls.flatMap placements ++ rest)) :
    ∃ s', proverRun tr calls s = .some s' ∧ s'.1.Tracks (done ++ calls.flatMap placements) ∧
      ∀ id, id ∉ (calls.flatMap placements).map Placement.id →
        s'.1.openings id = s.1.openings id := by
  induction calls generalizing s done with
  | nil => exact ⟨s, rfl, by simpa using ht, fun _ _ => rfl⟩
  | cons call calls ih =>
    rw [List.flatMap_cons, ← List.append_assoc] at hc ⊢
    obtain ⟨s1, hstep, ht1, hother1⟩ := prover_total tr
      ht (hclaims call (by simp)) (by simpa using hc)
    obtain ⟨s', hrun, ht', hother'⟩ := ih ht1 (fun c hc => hclaims c (by simp [hc])) hc
    refine ⟨s', by simp [proverRun, hstep, hrun], ht', fun id hid => ?_⟩
    simp only [List.map_append, List.mem_append, not_or] at hid
    rw [hother' id hid.2, hother1 id hid.1]

/-- A call keeps the two sides together. -/
theorem verifier_agrees {call : AccumulatorCall F C} {done rest : List (Placement F C)}
    {final : Openings F C} {s s' : ProverOpeningAccumulator F C × T}
    {v : VerifierOpeningAccumulator F C × T} (ht : s.1.Tracks done) (hclaims : call.CarriesClaims)
    (hc : Coherent (done ++ call.placements ++ rest)) (hp : call.prover tr s = .some s')
    (hfinal : ∀ id ∈ call.placements.map Placement.id, final id = s'.1.openings id)
    (h : Agrees final s.1 v.1) (htr : s.2 = v.2) :
    ∃ v', call.verifier tr v = .some v' ∧ Agrees final s'.1 v'.1 ∧ s'.2 = v'.2 := by
  rcases flush_or_placeAll tr hclaims with rfl | ⟨hplace, hverify⟩
  · simp only [prover, Option.some.injEq] at hp
    subst hp
    refine ⟨_, rfl, ⟨h.opened, h.unopened, h.aliases, h.index, rfl⟩, ?_⟩
    simp only [ProverOpeningAccumulator.flushToTranscript,
      VerifierOpeningAccumulator.flushToTranscript, h.pending, htr]
  · simp only [hplace, Option.map_eq_some_iff] at hp
    obtain ⟨p1, hp1, rfl⟩ := hp
    obtain ⟨v1, hv1, h1⟩ := h.placeAll ht hc hp1 hfinal
    exact ⟨(v1, v.2), by rw [hverify, hv1]; rfl, h1, htr⟩

variable (tr) in
/-- A run keeps the two sides together, from openings `final` that agree with
what the run leaves. -/
theorem verifierRun_agrees {calls : List (AccumulatorCall F C)} {done rest : List (Placement F C)}
    {final : Openings F C} {s s' : ProverOpeningAccumulator F C × T}
    {v : VerifierOpeningAccumulator F C × T} (ht : s.1.Tracks done)
    (hclaims : ∀ call ∈ calls, call.CarriesClaims)
    (hc : Coherent (done ++ calls.flatMap placements ++ rest))
    (hp : proverRun tr calls s = .some s')
    (hfinal : ∀ id ∈ (calls.flatMap placements).map Placement.id, final id = s'.1.openings id)
    (h : Agrees final s.1 v.1) (htr : s.2 = v.2) :
    ∃ v', verifierRun tr calls v = .some v' ∧ Agrees final s'.1 v'.1 ∧ s'.2 = v'.2 := by
  induction calls generalizing s v done with
  | nil =>
    cases hp
    exact ⟨v, rfl, h, htr⟩
  | cons call calls ih =>
    have hclaims' : ∀ c ∈ calls, c.CarriesClaims := fun c hc => hclaims c (by simp [hc])
    rw [List.flatMap_cons, ← List.append_assoc] at hc
    have hc1 : Coherent (done ++ call.placements ++ (calls.flatMap placements ++ rest)) := by
      simpa using hc
    obtain ⟨s1, hstep, ht1, -⟩ := prover_total tr ht (hclaims call (by simp)) hc1
    simp only [proverRun, hstep, Option.bind_eq_bind, Option.bind_some] at hp
    -- an id of this call is not appended again
    have hkept : ∀ id ∈ call.placements.map Placement.id, s'.1.openings id = s1.1.openings id := by
      intro id hid
      obtain ⟨s2, hrun, -, hother⟩ := proverRun_total tr ht1 hclaims' hc
      rw [hp] at hrun
      cases hrun
      refine hother id fun hmem => ?_
      have hd := hc.distinct
      simp only [List.map_append, List.nodup_append, List.mem_append] at hd
      exact hd.1.2.2 id (.inr hid) id hmem rfl
    obtain ⟨v1, hv1, h1, htr1⟩ := verifier_agrees ht (hclaims call (by simp)) hc1 hstep
      (fun id hid => (hfinal id (by simp only [List.flatMap_cons, List.map_append, List.mem_append]; exact .inl hid)).trans (hkept id hid)) h htr
    obtain ⟨v', hv', h', htr'⟩ := ih ht1 hclaims' hc hp
      (fun id hid => hfinal id (by simp only [List.flatMap_cons, List.map_append, List.mem_append]; exact .inr hid)) h1 htr1
    exact ⟨v', by simp [verifierRun, hv1, hv'], h', htr'⟩

variable (tr) in
omit [Zero F] in
theorem proverRun_append (calls rest : List (AccumulatorCall F C))
    (s : ProverOpeningAccumulator F C × T) :
    proverRun tr (calls ++ rest) s = proverRun tr calls s >>= proverRun tr rest := by
  induction calls generalizing s with
  | nil => rfl
  | cons call calls ih => cases h : call.prover tr s <;> simp [proverRun, h, ih]

end AccumulatorCall

/-! ## In step -/

section Main

variable {F C T : Type}

theorem ProverOpeningAccumulator.Tracks.terminates {p : ProverOpeningAccumulator F C}
    {done : List (Placement F C)} (h : p.Tracks done) : Terminates p.aliases := by
  intro id
  cases ha : p.aliases id with
  | none => exact ⟨1, id, by simp [resolveAlias, ha]⟩
  | some next => exact ⟨2, next, by simp [resolveAlias, ha, h.canonical_root ha]⟩

/-- Each opening that was made resolves to its point and claim. -/
theorem ProverOpeningAccumulator.Tracks.resolvesTo {p : ProverOpeningAccumulator F C}
    {done : List (Placement F C)} (h : p.Tracks done) {a : Placement F C} (ha : a ∈ done) :
    ResolvesTo p.aliases p.openings a.id (a.point, a.claim) := by
  rcases h.covered a ha with ho | ⟨next, hn, ho⟩
  · have hroot : p.aliases a.id = .none := by
      cases hn : p.aliases a.id with
      | none => rfl
      | some next =>
        rw [(h.canonical a.id next hn).1] at ho
        cases ho
    exact ⟨1, a.id, by simp [resolveAlias, hroot], ho⟩
  · exact ⟨2, next, by simp [resolveAlias, hn, h.canonical_root hn], ho⟩

theorem InStep.of_agrees {final : Openings F C} {p : ProverOpeningAccumulator F C × T}
    {v : VerifierOpeningAccumulator F C × T} {done : List (Placement F C)} (ht : p.1.Tracks done)
    (h : Agrees final p.1 v.1) (htr : p.2 = v.2) : InStep (done.map Placement.id) p v where
  resolve id hid := by
    obtain ⟨a, ha, rfl⟩ := List.mem_map.mp hid
    have hp := ht.resolvesTo ha
    obtain ⟨fuel, key, hkey, ho⟩ := hp
    exact ⟨_, ht.resolvesTo ha, fuel, key, by rw [h.aliases]; exact hkey, h.opened key _ ho⟩
  proverTerminates := ht.terminates
  verifierTerminates := by
    rw [h.aliases]
    exact ht.terminates
  pending := h.pending
  transcript := htr

/-- What the calls are promised to be: each id is appended once, and a
polynomial has one value at a point. -/
structure Admissible (calls : List (AccumulatorCall F C)) : Prop where
  distinct : (calls.flatMap AccumulatorCall.ids).Nodup
  consistent : ∀ a ∈ calls.flatMap AccumulatorCall.placements,
    ∀ b ∈ calls.flatMap AccumulatorCall.placements,
    underlyingPolynomialId a.id = underlyingPolynomialId b.id → a.point = b.point →
      a.claim = b.claim

/-- No polynomial is opened twice at the empty point. -/
def OpensEmptyOnce (calls : List (AccumulatorCall F C)) : Prop :=
  ∀ a ∈ calls.flatMap AccumulatorCall.placements, ∀ b ∈ calls.flatMap AccumulatorCall.placements,
    underlyingPolynomialId a.id = underlyingPolynomialId b.id → a.point = [] → b.point = [] →
      a.id = b.id

variable [DecidableEq C] [DecidableEq F] [Zero F] (tr : Transcript T F C)

/-- **The accumulators stay in step** over every sequence of calls that opens no
polynomial twice at the empty point. -/
theorem stays_in_step (calls : List (AccumulatorCall F C)) (t : T) (hadm : Admissible calls)
    (hclaims : ∀ call ∈ calls, call.CarriesClaims) (honce : OpensEmptyOnce calls) :
    StaysInStep tr calls t := by
  have hall : Coherent ([] ++ calls.flatMap AccumulatorCall.placements ++ []) := by
    have hd := hadm.distinct
    rw [AccumulatorCall.flatMap_ids hclaims] at hd
    exact ⟨by simpa using hd, by simpa using hadm.consistent, by simpa [OpensEmptyOnce] using honce⟩
  obtain ⟨final, hfinal, -⟩ := AccumulatorCall.proverRun_total tr
    (s := (.new, t)) ProverOpeningAccumulator.tracks_new hclaims hall
  refine ⟨final, hfinal, fun k _ => ?_⟩
  -- the calls as a prefix and what follows it
  have hsplit : calls.flatMap AccumulatorCall.placements =
      (calls.take k).flatMap AccumulatorCall.placements ++
        (calls.drop k).flatMap AccumulatorCall.placements := by
    rw [← List.flatMap_append, List.take_append_drop]
  have hclaims1 : ∀ call ∈ calls.take k, call.CarriesClaims :=
    fun c hc => hclaims c (List.mem_of_mem_take hc)
  have hclaims2 : ∀ call ∈ calls.drop k, call.CarriesClaims :=
    fun c hc => hclaims c (List.mem_of_mem_drop hc)
  have hc1 : Coherent ([] ++ (calls.take k).flatMap AccumulatorCall.placements ++
      (calls.drop k).flatMap AccumulatorCall.placements) := by
    rw [hsplit] at hall
    simpa using hall
  obtain ⟨p, hp, ht, -⟩ := AccumulatorCall.proverRun_total tr (s := (.new, t))
    ProverOpeningAccumulator.tracks_new hclaims1 hc1
  have hrest : AccumulatorCall.proverRun tr (calls.drop k) p = .some final := by
    have happend := AccumulatorCall.proverRun_append tr (calls.take k) (calls.drop k) (.new, t)
    rw [List.take_append_drop, hfinal, hp] at happend
    exact happend.symm
  have hkept : ∀ id ∈ ((calls.take k).flatMap AccumulatorCall.placements).map Placement.id,
      final.1.openings id = p.1.openings id := by
    intro id hid
    obtain ⟨s', hs', -, hother⟩ := AccumulatorCall.proverRun_total tr ht hclaims2
      (show Coherent (_ ++ _ ++ []) by simpa using hc1)
    rw [hrest] at hs'
    cases hs'
    refine hother id fun hmem => ?_
    have hd := hc1.distinct
    simp only [List.nil_append, List.map_append, List.nodup_append] at hd
    exact hd.2.2 id hid id hmem rfl
  obtain ⟨v, hv, hagrees, htr⟩ := AccumulatorCall.verifierRun_agrees tr
    (v := (.prepopulated final.1.openings, t)) ProverOpeningAccumulator.tracks_new hclaims1 hc1 hp
    hkept Agrees.new rfl
  refine ⟨p, v, hp, hv, ?_⟩
  rw [AccumulatorCall.flatMap_ids hclaims1]
  exact InStep.of_agrees (by simpa using ht) hagrees htr

end Main

theorem stays_in_step_shift :
    StaysInStep scalarTranscript
      [.appendVirtual .Rs1Value .SpartanOuter [3] 1, .appendVirtual .Rs1Value .SpartanShift [3] 1,
        .appendDense .RdInc .IncClaimReduction [] 4, .flushToTranscript] [] := by
  refine stays_in_step scalarTranscript _ [] ⟨by decide, ?_⟩ ?_ ?_
  · simp [AccumulatorCall.placements, OpeningId.virt, OpeningId.committed, underlyingPolynomialId]
  · simp [AccumulatorCall.CarriesClaims]
  · simp [OpensEmptyOnce, AccumulatorCall.placements, OpeningId.virt, OpeningId.committed,
      underlyingPolynomialId]

/-- Two openings of one polynomial at the empty point: the prover omits the
second, the verifier takes zero for its claim. -/
theorem splits_at_empty_point :
    let calls : List (AccumulatorCall (ZMod 7) (ZMod 7)) :=
      [.appendVirtual .Rs1Value .SpartanOuter [] 1, .appendVirtual .Rs1Value .SpartanShift [] 1]
    Admissible calls ∧ (∀ call ∈ calls, call.CarriesClaims) ∧
      ¬ StaysInStep scalarTranscript calls [] := by
  refine ⟨⟨by decide, ?_⟩, ?_, ?_⟩
  · simp [AccumulatorCall.placements, OpeningId.virt, underlyingPolynomialId]
  · simp [AccumulatorCall.CarriesClaims]
  · intro h
    obtain ⟨final, hfinal, hsteps⟩ := h
    obtain ⟨p, v, hp, hv, hstep⟩ := hsteps 2 (by simp)
    cases hfinal
    have hpending := hstep.pending
    cases hp
    cases hv
    revert hpending
    decide

end LightningJolt
