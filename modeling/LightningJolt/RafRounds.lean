/-
The operand and identity decompositions over all phases: what is asked of each, the state that it
is in after every round, and the direct sumcheck that every round agrees with.
-/
import LightningJolt.RafTables

namespace LightningJolt

variable {F : Type} [JoltField F]

/-! ## All phases -/

/-- The rounds of a phase: the evaluations at every index, and the binding. -/
def roundEvents : List F → List (Event F)
  | [] => []
  | r :: rs => (tableOf (2 ^ rs.length) fun b => .call 0 (.sumcheckEvals b)) ++
      .call 0 (.bind r) :: roundEvents rs

/-- The start of a phase, in either order. -/
def startEvents (qFirst : Bool) (uEvals : List F) (indices : List Nat) (lookupBits : List LookupBits) :
    List (Event F) :=
  if qFirst then [.call 0 (.initQ uEvals indices lookupBits), .call 0 .initP]
  else [.call 0 .initP, .call 0 (.initQ uEvals indices lookupBits)]

/-- What is asked of a decomposition in the phases of these challenges: the weights are condensed
after each but the last. -/
def phaseEvents (qFirst : Bool) (chunkLen : Nat) (lookupBits : List LookupBits) (indices : List Nat) :
    List (List F) → List F → Option (List (Event F))
  | [], _ => .some []
  | rs :: rest, uEvals => do
    let next ← if rest = [] then .some uEvals
      else condense (← phaseTable chunkLen rs) chunkLen (rest.length * chunkLen) lookupBits uEvals
    .some (startEvents qFirst uEvals indices lookupBits ++ (roundEvents rs ++
      .updateCheckpoints :: (← phaseEvents qFirst chunkLen lookupBits indices rest next)))

/-! ## The direct sumcheck by rounds -/

/-- What the direct sumcheck has for the rounds of a phase, at 0 and 2. -/
def directRounds (direct : List F → F) : List F → List F → List (Nat × List F)
  | _, [] => []
  | x, r :: rs => (tableOf (2 ^ rs.length) fun b =>
      (0, [direct (x ++ 0 :: bitsPoint rs.length b), direct (x ++ 2 :: bitsPoint rs.length b)])) ++
      (0, []) :: directRounds direct (x ++ [r]) rs

/-- What it has for all phases. -/
def directPhases (kind : Prefix) (chunkLen : Nat) (lookupBits : List LookupBits) (indices : List Nat)
    (uEvals : List F) : List F → List (List F) → List (Nat × List F)
  | _, [] => []
  | x, rs :: rest => [(0, []), (0, [])] ++
      (directRounds (directSum kind lookupBits indices uEvals · (rest.length * chunkLen)) x rs ++
        directPhases kind chunkLen lookupBits indices uEvals (x ++ rs) rest)

/-! ## One decomposition over a registry -/

namespace Sharing

/-- A decomposition over a registry of its own, and the slot of its prefix. -/
structure Holds (s : Sharing F) (d : Decomposition F) (slot : Slot F) : Prop where
  decomps : s.decomps = [d]
  slot : s.registry d.kind = slot
  rest : ∀ kind, kind ≠ d.kind → (s.registry kind).poly = .none

theorem run_append {s s1 : Sharing F} {es : List (Event F)} {out : List (Nat × List F)}
    (h : s.run es = .some (out, s1)) (es' : List (Event F)) :
    s.run (es ++ es') = (s1.run es').map fun r => (out ++ r.1, r.2) := by
  induction es generalizing s out with
  | nil =>
    cases h
    simp
  | cons e es ih =>
    obtain ⟨⟨out1, s2⟩, hstep, -⟩ := Option.bind_eq_some_iff.mp h
    rw [run_cons hstep] at h
    obtain ⟨⟨out2, s3⟩, hrest, heq⟩ := Option.map_eq_some_iff.mp h
    cases heq
    rw [List.cons_append, run_cons hstep, ih hrest, Option.map_map]
    congr 1
    funext r
    simp [List.append_assoc]

/-- Steps that leave the state as it is. -/
theorem run_stay {s : Sharing F} {n : Nat} {e : Nat → Event F} {out : Nat → Nat × List F}
    (h : ∀ i < n, s.step (e i) = .some ([out i], s)) : s.run (tableOf n e) = .some (tableOf n out, s) := by
  induction n with
  | zero => rfl
  | succ n ih =>
    have hlast : s.run (tableOf 1 fun i => e (n + i)) = .some ([out n], s) := by
      show s.run [e (n + 0)] = _
      rw [Nat.add_zero, run_cons (h n (by omega))]
      rfl
    rw [tableOf_add, tableOf_add, run_append (ih fun i hi => h i (by omega)), hlast]
    rfl

namespace Holds

variable {s : Sharing F} {d d' : Decomposition F} {slot slot' : Slot F}

theorem step (h : s.Holds d slot) {c : Call F} {out : List F}
    (hact : d.act (s.strongCount d.kind) slot c = .some (out, slot', d')) :
    ∃ s', s.step (.call 0 c) = .some ([(0, out)], s') ∧ s'.Holds d' slot' := by
  have hkind := Decomposition.act_kind hact
  refine ⟨⟨Function.update s.registry d.kind slot', [d']⟩, ?_, rfl, ?_, fun kind hne => ?_⟩
  · rw [Sharing.step, h.decomps, List.getElem?_cons_zero, Option.bind_eq_bind, Option.bind_some, h.slot, hact]
    rfl
  · simp only [hkind, Function.update_self]
  · rw [hkind] at hne
    simp only [Function.update_of_ne hne]
    exact h.rest kind hne

/-- A call that changes nothing. -/
theorem step_stay (h : s.Holds d slot) {c : Call F} {out : List F}
    (hact : d.act (s.strongCount d.kind) slot c = .some (out, slot, d)) :
    s.step (.call 0 c) = .some ([(0, out)], s) := by
  rw [Sharing.step, h.decomps, List.getElem?_cons_zero, Option.bind_eq_bind, Option.bind_some, h.slot, hact,
    ← h.slot, Option.bind_eq_bind, Option.bind_some]
  show some ([(0, out)], (⟨Function.update s.registry d.kind (s.registry d.kind), [d]⟩ : Sharing F)) = _
  rw [Function.update_eq_self, ← h.decomps]

omit [JoltField F] in
/-- The polynomial in use has two references: it is not cached. -/
theorem strongCount (h : s.Holds d slot) {m : Nat} (hp : d.p = .some m) (hpoly : slot.poly = .some m) :
    decide (2 < s.strongCount d.kind m) = false := by
  simp [Sharing.strongCount, h.decomps, h.slot, hp, hpoly]

end Holds

end Sharing

/-! ## Rounds -/

/-- A decomposition with the challenges of `x` bound. -/
structure Decomposition.AtPoint (kind : Prefix) (chunkLen totalLen : Nat) (x : List F) (d : Decomposition F) :
    Prop where
  kind_eq : d.kind = kind
  chunkLen_eq : d.chunkLen = chunkLen
  totalLen_eq : d.totalLen = totalLen
  phase_eq : d.phase = x.length / chunkLen
  round_eq : d.round = x.length

/-- In a phase with `n` variables left: the prefix polynomial and the tables are of functions of
the point, the last coordinates Boolean. -/
structure Decomposition.InRound (kind : Prefix) (chunkLen totalLen : Nat) (G0 G1 : List F → F) (x : List F)
    (n : Nat) (d : Decomposition F) (slot : Slot F) : Prop where
  atPoint : d.AtPoint kind chunkLen totalLen x
  q : d.q = (tableAt G0 x n, tableAt G1 x n)
  cell : ∃ m cell, d.p = .some m ∧ slot.poly = .some m ∧ slot.cells[m]? = .some cell ∧
    cell.inner = tableAt kind.evaluate x n ∧ cell.boundThisRound = false

/-- What a decomposition evaluates. -/
def combined (kind : Prefix) (G0 G1 : List F → F) (x : List F) : F := kind.evaluate x * G0 x + G1 x

/-- The value of an affine function at two by those of its halves. -/
theorem Affine.atPointtwo {G : List F → F} (hG : Affine G) (x z : List F) :
    G (x ++ 2 :: z) = G (x ++ 1 :: z) + G (x ++ 1 :: z) - G (x ++ 0 :: z) := by
  rw [hG x 2 z, line]
  ring

section Rounds

variable {kind : Prefix} {c T n : Nat} {G0 G1 : List F → F} {x : List F} {s : Sharing F}
variable {d : Decomposition F} {slot : Slot F}

theorem getElem?_half {G : List F → F} {b : Nat} (hb : b < 2 ^ n) :
    (tableAt G x (n + 1))[b + (tableAt G x (n + 1)).length / 2]? = .some (G (x ++ 1 :: bitsPoint n b)) := by
  have hhalf : 2 ^ (n + 1) / 2 = 2 ^ n := by rw [pow_succ, Nat.mul_div_cancel _ (by omega)]
  rw [length_tableAt, hhalf, Nat.add_comm b, getElem?_tableAt_high hb]

theorem sumcheckEvals_tableAt {G : List F → F} (hG : Affine G) {b : Nat} (hb : b < 2 ^ n) :
    sumcheckEvals ((tableAt G x (n + 1))[·]?) (tableAt G x (n + 1)).length b 2 .highToLow =
      .some [G (x ++ 0 :: bitsPoint n b), G (x ++ 2 :: bitsPoint n b)] := by
  have hhigh := getElem?_half (G := G) (x := x) hb
  rw [Nat.add_comm b] at hhigh
  simp only [sumcheckEvals, BindingOrder.pair, getElem?_tableAt_low hb, hhigh, Option.bind_eq_bind,
    Option.bind_some, if_neg (show ¬ 2 = 0 by omega), if_neg (show ¬ 2 = 1 by omega), hG.atPointtwo x]
  congr 2
  simp [List.iterate]
  ring

theorem step_sumcheckEvals (hs : s.Holds d slot) (h : d.InRound kind c T G0 G1 x (n + 1) slot)
    (hG0 : Affine G0) (hG1 : Affine G1) {b : Nat} (hb : b < 2 ^ n) :
    s.step (.call 0 (.sumcheckEvals b)) = .some ([(0, [combined kind G0 G1 (x ++ 0 :: bitsPoint n b),
      combined kind G0 G1 (x ++ 2 :: bitsPoint n b)])], s) := by
  obtain ⟨m, cell, hp, hpoly, hcell, hinner, -⟩ := h.cell
  have hcached : cell.cachedSumcheckEvals b false = .some ((kind.evaluate (x ++ 0 :: bitsPoint n b),
      kind.evaluate (x ++ 2 :: bitsPoint n b)), cell) := by
    rw [CachedPolynomial.cachedSumcheckEvals, hinner, sumcheckEvals_tableAt kind.affine_evaluate hb]
    rfl
  have hcombine : d.combine b (kind.evaluate (x ++ 0 :: bitsPoint n b), kind.evaluate (x ++ 2 :: bitsPoint n b)) =
      .some [combined kind G0 G1 (x ++ 0 :: bitsPoint n b), combined kind G0 G1 (x ++ 2 :: bitsPoint n b)] := by
    have hlen : (tableAt G0 x (n + 1)).length = (tableAt G1 x (n + 1)).length := by
      rw [length_tableAt, length_tableAt]
    have hhigh0 := getElem?_half (G := G0) (x := x) hb
    have hhigh1 := getElem?_half (G := G1) (x := x) hb
    rw [← hlen] at hhigh1
    simp only [Decomposition.combine, h.q, getElem?_tableAt_low hb, hhigh0, hhigh1, Option.bind_eq_bind,
      Option.bind_some, combined, hG0.atPointtwo x, hG1.atPointtwo x, one_mul]
    congr 3
    ring
  refine hs.step_stay ?_
  have hset : slot.cells.set m cell = slot.cells := by
    refine List.ext_getElem? fun i => ?_
    by_cases hi : m = i
    · subst hi
      rw [List.getElem?_set_self (List.getElem?_eq_some_iff.mp hcell).1, hcell]
    · rw [List.getElem?_set_ne hi]
  simp only [Decomposition.act, hp, hcell, Option.bind_eq_bind, Option.bind_some, hs.strongCount hp hpoly,
    hcached, hcombine, hset]

theorem step_bind (hs : s.Holds d slot) (h : d.InRound kind c T G0 G1 x (n + 1) slot)
    (hG0 : Affine G0) (hG1 : Affine G1) (r : F) :
    ∃ s' d' slot', s.step (.call 0 (.bind r)) = .some ([(0, [])], s') ∧ s'.Holds d' slot' ∧
      d'.InRound kind c T G0 G1 (x ++ [r]) n slot' := by
  obtain ⟨m, cell, hp, hpoly, hcell, hinner, hbound⟩ := h.cell
  have hact : d.act (s.strongCount d.kind) slot (.bind r) = .some ([],
      { slot with cells := slot.cells.set m ((cell.bindParallel r).clearCache false) },
      ({ d with q := (tableAt G0 (x ++ [r]) n, tableAt G1 (x ++ [r]) n) } : Decomposition F).nextRound) := by
    simp only [Decomposition.act, hp, hcell, Option.bind_eq_bind, Option.bind_some, hs.strongCount hp hpoly, h.q,
      bind_tableAt hG0, bind_tableAt hG1]
  obtain ⟨s', hstep, hs'⟩ := hs.step hact
  refine ⟨s', _, _, hstep, hs', ⟨h.atPoint.kind_eq, h.atPoint.chunkLen_eq, h.atPoint.totalLen_eq, ?_, ?_⟩, rfl, m,
    _, hp, hpoly, List.getElem?_set_self (List.getElem?_eq_some_iff.mp hcell).1, ?_, rfl⟩
  · simp only [Decomposition.nextRound, h.atPoint.phase_eq, h.atPoint.round_eq, h.atPoint.chunkLen_eq, List.length_append,
      List.length_singleton, Nat.succ_div, Nat.dvd_iff_mod_eq_zero]
    split_ifs <;> rfl
  · simp only [Decomposition.nextRound, h.atPoint.round_eq, List.length_append, List.length_singleton]
  · simp only [CachedPolynomial.clearCache, CachedPolynomial.bindParallel, hbound, Bool.false_eq_true, if_false,
      hinner, bind_tableAt kind.affine_evaluate]

/-- **The rounds of a phase** return what the function evaluated has there, and bind it. -/
theorem run_roundEvents (rs : List F) {x : List F} {s : Sharing F} {d : Decomposition F} {slot : Slot F}
    (hs : s.Holds d slot) (h : d.InRound kind c T G0 G1 x rs.length slot) (hG0 : Affine G0) (hG1 : Affine G1) :
    ∃ s' d' slot', s.run (roundEvents rs) = .some (directRounds (combined kind G0 G1) x rs, s') ∧
      s'.Holds d' slot' ∧ d'.InRound kind c T G0 G1 (x ++ rs) 0 slot' := by
  induction rs generalizing x s d slot with
  | nil => exact ⟨s, d, slot, rfl, hs, by rwa [List.append_nil]⟩
  | cons r rs ih =>
    have hevals := Sharing.run_stay fun b hb => step_sumcheckEvals hs h hG0 hG1 (b := b) hb
    obtain ⟨s1, d1, slot1, hbind, hs1, h1⟩ := step_bind hs h hG0 hG1 r
    obtain ⟨s', d', slot', hrun, hs', h'⟩ := ih hs1 h1
    rw [List.append_assoc, List.singleton_append] at h'
    refine ⟨s', d', slot', ?_, hs', h'⟩
    rw [roundEvents, Sharing.run_append hevals, Sharing.run_cons hbind, hrun]
    rfl

end Rounds

/-! ## Phases -/

namespace Prefix

@[simp] theorem suffixMle_empty (kind : Prefix) : kind.suffixMle (.ofBits 0 0) = (1, 0) := by
  cases kind <;> rfl

end Prefix

/-- Between phases: the checkpoint is the value of the challenges, and so is what is left of the
prefix polynomial. -/
structure Decomposition.Between (kind : Prefix) (chunkLen totalLen : Nat) (x : List F) (d : Decomposition F)
    (slot : Slot F) : Prop where
  atPoint : d.AtPoint kind chunkLen totalLen x
  poly : slot.poly = .none
  checkpoint : slot.checkpoint.getD 0 = kind.evaluate x
  bound : x ≠ [] → slot.checkpoint = .some (kind.evaluate x) ∧
    ∃ m cell, d.p = .some m ∧ slot.cells[m]? = .some cell ∧ cell.inner = [kind.evaluate x]

section Phases

variable {kind : Prefix} {c T n : Nat} {G0 G1 : List F → F} {x uEvals current : List F} {s : Sharing F}
variable {d : Decomposition F} {slot : Slot F} {lookupBits : List LookupBits} {indices : List Nat}

theorem prefixPolynomial_inner {checkpoint : Option F} (hcheckpoint : checkpoint.getD 0 = kind.evaluate x)
    (hx : x.length % 2 = 0) (hc : c % 2 = 0) (hfits : c ≤ 128) :
    (prefixPolynomial kind checkpoint c).inner = tableAt kind.evaluate x c := by
  refine tableOf_congr fun i _ => ?_
  rw [hcheckpoint, kind.evaluate_append _ hx, length_bitsPoint, kind.evaluate_bitsPoint i hc hfits]

theorem step_initP (hs : s.Holds d slot) (h : d.Between kind c T x slot) (hx : x.length % 2 = 0)
    (hc : c % 2 = 0) (hfits : c ≤ 128) :
    ∃ s' d' slot', s.step (.call 0 .initP) = .some ([(0, [])], s') ∧ s'.Holds d' slot' ∧
      d'.AtPoint kind c T x ∧ d'.q = d.q ∧ ∃ m cell, d'.p = .some m ∧ slot'.poly = .some m ∧
        slot'.cells[m]? = .some cell ∧ cell.inner = tableAt kind.evaluate x c ∧ cell.boundThisRound = false := by
  have hprefixes : slot.prefixes d.kind d.chunkLen = { slot with
      poly := .some slot.cells.length
      cells := slot.cells ++ [prefixPolynomial kind slot.checkpoint c] } := by
    simp only [Slot.prefixes, h.poly, h.atPoint.kind_eq, h.atPoint.chunkLen_eq]
  obtain ⟨s', hstep, hs'⟩ := hs.step (c := .initP) rfl
  refine ⟨s', _, _, hstep, hs', ⟨h.atPoint.kind_eq, h.atPoint.chunkLen_eq, h.atPoint.totalLen_eq, h.atPoint.phase_eq,
    h.atPoint.round_eq⟩, rfl, slot.cells.length, prefixPolynomial kind slot.checkpoint c, ?_, ?_, ?_,
    prefixPolynomial_inner h.checkpoint hx hc hfits, rfl⟩
  · simp only [hprefixes]
  · rw [hprefixes]
  · rw [hprefixes]
    simp

omit [JoltField F] in
theorem suffixLen_eq (h : d.AtPoint kind c T x) (hc : 0 < c) (hx : c ∣ x.length) (hn : c ∣ n)
    (hT : T = x.length + c + n) : d.suffixLen = n := by
  obtain ⟨k, hk⟩ := hx
  obtain ⟨m, hm⟩ := hn
  have hdiv : T / c = k + 1 + m := by
    rw [hT, hk, hm, show c * k + c + c * m = c * (k + 1 + m) by ring, Nat.mul_div_cancel_left _ hc]
  have hphase : x.length / c = k := by rw [hk, Nat.mul_div_cancel_left _ hc]
  rw [Decomposition.suffixLen, h.totalLen_eq, h.chunkLen_eq, h.phase_eq, hdiv, hphase,
    show k + 1 + m - k - 1 = m by omega, hm, Nat.mul_comm]

theorem step_initQ (hs : s.Holds d slot) (h : d.AtPoint kind c T x) (hpos : 0 < c) (hx : c ∣ x.length) (hn : c ∣ n)
    (hT : T = x.length + c + n) (hbits : Indices lookupBits T) (hindices : ∀ j ∈ indices, j < lookupBits.length)
    (hcurrent : Condensed lookupBits T uEvals x current) :
    ∃ s', s.step (.call 0 (.initQ current indices lookupBits)) = .some ([(0, [])], s') ∧
      s'.Holds { d with q :=
        (tableAt (suffixSum lookupBits indices uEvals (fun b => (kind.suffixMle b).1) n) x c,
        tableAt (suffixSum lookupBits indices uEvals (fun b => (kind.suffixMle b).2) n) x c) } slot := by
  have htables := initQ_eq (suffixLen_eq h hpos hx hn hT) h.chunkLen_eq hbits hindices hcurrent hT
  rw [h.kind_eq] at htables
  refine hs.step ?_
  rw [Decomposition.act, htables]
  rfl

/-- **The start of a phase**: the prefix polynomial from the checkpoint, and the tables. -/
theorem run_start (qFirst : Bool) (hs : s.Holds d slot) (h : d.Between kind c T x slot) (hpos : 0 < c)
    (hc : c % 2 = 0) (hx : c ∣ x.length) (hn : c ∣ n) (hT : T = x.length + c + n) (hfits : T ≤ 128)
    (hbits : Indices lookupBits T) (hindices : ∀ j ∈ indices, j < lookupBits.length)
    (hcurrent : Condensed lookupBits T uEvals x current) :
    ∃ s' d' slot', s.run (startEvents qFirst current indices lookupBits) = .some ([(0, []), (0, [])], s') ∧
      s'.Holds d' slot' ∧
      d'.InRound kind c T (suffixSum lookupBits indices uEvals (fun b => (kind.suffixMle b).1) n)
        (suffixSum lookupBits indices uEvals (fun b => (kind.suffixMle b).2) n) x c slot' := by
  have heven : x.length % 2 = 0 := by
    have := (Nat.dvd_of_mod_eq_zero hc).trans hx
    omega
  cases qFirst with
  | false =>
    obtain ⟨s1, d1, slot1, hinitP, hs1, hat, -, hcell⟩ := step_initP hs h heven hc (by omega)
    obtain ⟨s', hinitQ, hs'⟩ := step_initQ hs1 hat hpos hx hn hT hbits hindices hcurrent
    refine ⟨s', _, _, ?_, hs', ⟨hat.kind_eq, hat.chunkLen_eq, hat.totalLen_eq, hat.phase_eq, hat.round_eq⟩, rfl,
      hcell⟩
    rw [startEvents, if_neg Bool.false_ne_true, Sharing.run_cons hinitP, Sharing.run_cons hinitQ]
    rfl
  | true =>
    obtain ⟨s1, hinitQ, hs1⟩ := step_initQ hs h.atPoint hpos hx hn hT hbits hindices hcurrent
    have h1 := Decomposition.Between.mk (d := { d with q :=
      (tableAt (suffixSum lookupBits indices uEvals (fun b => (kind.suffixMle b).1) n) x c,
      tableAt (suffixSum lookupBits indices uEvals (fun b => (kind.suffixMle b).2) n) x c) })
      ⟨h.atPoint.kind_eq, h.atPoint.chunkLen_eq, h.atPoint.totalLen_eq, h.atPoint.phase_eq, h.atPoint.round_eq⟩
      h.poly h.checkpoint h.bound
    obtain ⟨s', d', slot', hinitP, hs', hat, hq, hcell⟩ := step_initP hs1 h1 heven hc (by omega)
    refine ⟨s', d', slot', ?_, hs', hat, hq, hcell⟩
    rw [startEvents, if_pos rfl, Sharing.run_cons hinitQ, Sharing.run_cons hinitP]
    rfl

/-- **The end of a phase**: the checkpoint is updated with the polynomial bound. -/
theorem step_updateCheckpoints (hs : s.Holds d slot) (h : d.InRound kind c T G0 G1 x 0 slot) :
    ∃ s' slot', s.step .updateCheckpoints = .some ([], s') ∧ s'.Holds d slot' ∧
      d.Between kind c T x slot' := by
  obtain ⟨m, cell, hp, hpoly, hcell, hinner, -⟩ := h.cell
  rw [tableAt_zero] at hinner
  have hslot : slot.updateCheckpoint =
      .some { slot with checkpoint := .some (kind.evaluate x), poly := .none } := by
    simp only [Slot.updateCheckpoint, hpoly, hcell, hinner, DensePolynomial.finalSumcheckClaim,
      Option.bind_eq_bind, Option.bind_some, List.length_singleton, if_true, List.getElem?_cons_zero]
  have hslots : ∀ k, (s.registry k).updateCheckpoint = .some (if k = d.kind then
      { slot with checkpoint := .some (kind.evaluate x), poly := .none }
      else { s.registry k with checkpoint := .none }) := by
    intro k
    by_cases hk : k = d.kind
    · rw [if_pos hk, hk, hs.slot, hslot]
    · simp only [if_neg hk, Slot.updateCheckpoint, hs.rest k hk]
  refine ⟨_, { slot with checkpoint := .some (kind.evaluate x), poly := .none },
    Sharing.step_update_of hslots, ⟨hs.decomps, if_pos rfl, fun k hk => ?_⟩,
    ⟨h.atPoint, rfl, rfl, fun _ => ⟨rfl, m, cell, hp, hcell, hinner⟩⟩⟩
  simp only [if_neg hk]
  exact hs.rest k hk

/-- The final claim. -/
theorem step_finalSumcheckClaim (hs : s.Holds d slot) (h : d.Between kind c T x slot) (hx : x ≠ []) :
    s.step (.call 0 .finalSumcheckClaim) = .some ([(0, [kind.evaluate x])], s) := by
  obtain ⟨-, m, cell, hp, hcell, hinner⟩ := h.bound hx
  refine hs.step_stay ?_
  simp only [Decomposition.act, hp, hcell, hinner, DensePolynomial.finalSumcheckClaim, Prefix.suffixMle_empty,
    Option.bind_eq_bind, Option.bind_some, List.length_singleton, if_true, List.getElem?_cons_zero]
  simp

theorem directRounds_congr {D1 D2 : List F → F} (rs : List F) {x : List F} {m : Nat}
    (h : ∀ z, z.length = m → D1 z = D2 z) (hm : x.length + rs.length = m) :
    directRounds D1 x rs = directRounds D2 x rs := by
  induction rs generalizing x with
  | nil => rfl
  | cons r rs ih =>
    rw [List.length_cons] at hm
    have hround : ∀ b : Nat, ∀ t : F, D1 (x ++ t :: bitsPoint rs.length b) = D2 (x ++ t :: bitsPoint rs.length b) := by
      intro b t
      refine h _ ?_
      rw [List.length_append, List.length_cons, length_bitsPoint]
      omega
    simp only [directRounds, hround]
    rw [ih (by rw [List.length_append, List.length_singleton]; omega)]

/-- A phase: what the direct sumcheck has, and the checkpoint. -/
theorem run_phase (qFirst : Bool) {rs : List F} (hs : s.Holds d slot) (h : d.Between kind c T x slot) (hpos : 0 < c)
    (hc : c % 2 = 0) (hx : c ∣ x.length) (hn : c ∣ n) (hT : T = x.length + c + n) (hfits : T ≤ 128)
    (hbits : Indices lookupBits T) (hindices : ∀ j ∈ indices, j < lookupBits.length)
    (hcurrent : Condensed lookupBits T uEvals x current) (hrs : rs.length = c) :
    ∃ s' slot' d', s.run (startEvents qFirst current indices lookupBits ++
          (roundEvents rs ++ [.updateCheckpoints])) =
        .some ([(0, []), (0, [])] ++ directRounds (directSum kind lookupBits indices uEvals · n) x rs, s') ∧
      s'.Holds d' slot' ∧ d'.Between kind c T (x ++ rs) slot' := by
  obtain ⟨s1, d1, slot1, hstart, hs1, h1⟩ := run_start qFirst hs h hpos hc hx hn hT hfits hbits hindices hcurrent
  rw [← hrs] at h1
  obtain ⟨s2, d2, slot2, hrounds, hs2, h2⟩ := run_roundEvents rs hs1 h1
    (affine_suffixSum _ _ _ _ _) (affine_suffixSum _ _ _ _ _)
  obtain ⟨s3, slot3, hupdate, hs3, h3⟩ := step_updateCheckpoints hs2 h2
  rw [hrs] at h3
  refine ⟨s3, slot3, d2, ?_, hs3, h3⟩
  have heven : x.length % 2 = 0 := by
    have := (Nat.dvd_of_mod_eq_zero hc).trans hx
    omega
  have hneven : n % 2 = 0 := by
    have := (Nat.dvd_of_mod_eq_zero hc).trans hn
    omega
  have hdirect : directRounds (directSum kind lookupBits indices uEvals · n) x rs =
      directRounds (combined kind (suffixSum lookupBits indices uEvals (fun b => (kind.suffixMle b).1) n)
        (suffixSum lookupBits indices uEvals (fun b => (kind.suffixMle b).2) n)) x rs :=
    directRounds_congr rs (fun z hz => directSum_eq kind hbits hindices (by omega) (by omega) hneven hfits hz)
      (show x.length + rs.length = x.length + c by rw [hrs])
  rw [Sharing.run_append hstart, Sharing.run_append hrounds, Sharing.run_cons hupdate, hdirect]
  simp [Sharing.run]

/-- **All phases.** -/
theorem run_phaseEvents (qFirst : Bool) (chunks : List (List F)) {x current : List F} {s : Sharing F} {d : Decomposition F}
    {slot : Slot F} (hs : s.Holds d slot) (h : d.Between kind c T x slot) (hpos : 0 < c) (hc : c % 2 = 0)
    (hx : c ∣ x.length) (hchunks : ∀ rs ∈ chunks, rs.length = c) (hT : T = x.length + chunks.length * c)
    (hfits : T ≤ 128) (hbits : Indices lookupBits T) (hindices : ∀ j ∈ indices, j < lookupBits.length)
    (hcurrent : Condensed lookupBits T uEvals x current) :
    ∃ es, phaseEvents qFirst c lookupBits indices chunks current = .some es ∧
      ∃ s' d' slot', s.run es = .some (directPhases kind c lookupBits indices uEvals x chunks, s') ∧
        s'.Holds d' slot' ∧ d'.Between kind c T (x ++ chunks.flatten) slot' := by
  induction chunks generalizing x current s d slot with
  | nil => exact ⟨[], rfl, s, d, slot, rfl, hs, by rwa [List.flatten_nil, List.append_nil]⟩
  | cons rs rest ih =>
    have hrs : rs.length = c := hchunks rs (List.mem_cons_self ..)
    have hsplit : T = x.length + c + rest.length * c := by
      rw [hT, List.length_cons, Nat.add_mul]
      omega
    obtain ⟨s1, slot1, d1, hphase, hs1, h1⟩ := run_phase qFirst hs h hpos hc hx
      (Nat.dvd_mul_left c rest.length) hsplit hfits hbits hindices hcurrent hrs
    have hx1 : c ∣ (x ++ rs).length := by
      rw [List.length_append, hrs]
      exact Nat.dvd_add hx (Nat.dvd_refl c)
    have hT1 : T = (x ++ rs).length + rest.length * c := by rw [List.length_append, hrs, hsplit]
    have hrest : ∀ r ∈ rest, r.length = c := fun r hr => hchunks r (List.mem_cons_of_mem _ hr)
    obtain ⟨next, hnext, hcondensed⟩ := condense_eq (n := rest.length * c) hbits hcurrent hsplit hrs
    -- after the last phase nothing is condensed, and nothing is asked with the weights
    by_cases hlast : rest = []
    · subst hlast
      refine ⟨_, by simp only [phaseEvents, if_true, Option.bind_eq_bind, Option.bind_some]; rfl, s1, d1, slot1, ?_,
        hs1, by simpa using h1⟩
      rw [hphase]
      simp [directPhases]
    · obtain ⟨es, hes, s', d', slot', hrun, hs', h'⟩ := ih hs1 h1 hx1 hrest hT1 hcondensed
      refine ⟨_, by simp only [phaseEvents, if_neg hlast, phaseTable_eq hrs, hnext, hes, Option.bind_eq_bind,
        Option.bind_some]; rfl, s', d', slot', ?_, hs', by rwa [List.flatten_cons, ← List.append_assoc]⟩
      have happend : startEvents qFirst current indices lookupBits ++ (roundEvents rs ++ .updateCheckpoints :: es) =
          (startEvents qFirst current indices lookupBits ++ (roundEvents rs ++ [.updateCheckpoints])) ++ es := by
        simp
      rw [happend, Sharing.run_append hphase, hrun]
      simp [directPhases]

end Phases

/-! ## The three over a registry -/

section Three

variable {kind : Prefix} {c T : Nat} {uEvals : List F} {lookupBits : List LookupBits} {indices : List Nat}
variable {d : Decomposition F} {s : Sharing F}

/-- `init_Q` of a decomposition among others. -/
theorem step_initQ_of {i : Nat} (hd : s.decomps[i]? = .some d) {q : List F × List F}
    (hq : d.initQ uEvals indices lookupBits = .some q) :
    s.step (.call i (.initQ uEvals indices lookupBits)) =
      .some ([(i, [])], ⟨s.registry, s.decomps.set i { d with q := q }⟩) := by
  have hact : d.act (s.strongCount d.kind) (s.registry d.kind) (.initQ uEvals indices lookupBits) =
      .some ([], s.registry d.kind, { d with q := q }) := by
    rw [Decomposition.act, hq]
    rfl
  rw [Sharing.step, hd, Option.bind_eq_bind, Option.bind_some, hact]
  show some ([(i, [])], (⟨Function.update s.registry d.kind (s.registry d.kind), _⟩ : Sharing F)) = _
  rw [Function.update_eq_self]

/-- `init_Q` called on each of the three leaves what the fused initialiser does. -/
theorem run_initQ_three {left right identity : Decomposition F} {isInterleaved : List Bool}
    (hs : s.decomps = [left, right, identity]) (hkinds : s.kinds = [.leftOperand, .rightOperand, .identity])
    (hchunk : right.chunkLen = left.chunkLen) (hchunk' : identity.chunkLen = left.chunkLen)
    (hsuffix : right.suffixLen = left.suffixLen) (hsuffix' : identity.suffixLen = left.suffixLen)
    (hu : uEvals.length = lookupBits.length) (hi : isInterleaved.length = lookupBits.length) :
    let cycles := fun kind => cyclesOf kind isInterleaved lookupBits.length
    let raf := initQRaf left right identity uEvals lookupBits isInterleaved
    s.run [.call 0 (.initQ uEvals (cycles .leftOperand) lookupBits),
      .call 1 (.initQ uEvals (cycles .rightOperand) lookupBits),
      .call 2 (.initQ uEvals (cycles .identity) lookupBits)] =
        .some ([(0, []), (1, []), (2, [])], ⟨s.registry, [raf.1, raf.2.1, raf.2.2]⟩) := by
  intro cycles raf
  rw [Sharing.kinds, hs] at hkinds
  obtain ⟨hleft, hright, hidentity⟩ : left.kind = .leftOperand ∧ right.kind = .rightOperand ∧
    identity.kind = .identity := by simpa using hkinds
  obtain ⟨hqLeft, hqRight, hqIdentity⟩ :=
    initQRaf_eq hleft hright hidentity hchunk hchunk' hsuffix hsuffix' hu hi
  rw [Sharing.run_cons (step_initQ_of (by rw [hs]; rfl) hqLeft), hs,
    Sharing.run_cons (step_initQ_of (d := right) rfl hqRight),
    Sharing.run_cons (step_initQ_of (d := identity) rfl hqIdentity)]
  rfl

theorem holds_new (h : Decomposition.new kind c T = .some d) :
    (Sharing.new [d]).Holds d ⟨.none, .none, []⟩ ∧ d.Between kind c T [] ⟨.none, .none, []⟩ := by
  rw [Decomposition.new] at h
  split_ifs at h
  cases h
  refine ⟨⟨rfl, rfl, fun _ _ => rfl⟩, ⟨rfl, rfl, rfl, by rw [List.length_nil, Nat.zero_div], rfl⟩, rfl, ?_,
    fun hne => absurd rfl hne⟩
  cases kind <;> simp [Prefix.evaluate, Prefix.width]

theorem condensed_nil (hu : uEvals.length = lookupBits.length) : Condensed lookupBits T uEvals [] uEvals :=
  ⟨hu, fun j _ => by simp [eqMle]⟩

/-- **A decomposition by itself** through all phases and to its claim. -/
theorem run_alone (qFirst : Bool) (h : Decomposition.new kind c T = .some d) {chunks : List (List F)}
    (hpos : 0 < c) (heven : c % 2 = 0) (hne : chunks ≠ []) (hchunks : ∀ rs ∈ chunks, rs.length = c)
    (hT : T = chunks.length * c) (hfits : T ≤ 128) (hbits : Indices lookupBits T)
    (hindices : ∀ j ∈ indices, j < lookupBits.length) (hu : uEvals.length = lookupBits.length) :
    ∃ asked, phaseEvents qFirst c lookupBits indices chunks uEvals = .some asked ∧
      ∃ own, (Sharing.new [d]).run (asked ++ [.call 0 .finalSumcheckClaim]) =
          .some (directPhases kind c lookupBits indices uEvals [] chunks ++ [(0, [kind.evaluate chunks.flatten])], own) ∧
        (own.registry kind).checkpoint = .some (kind.evaluate chunks.flatten) := by
  obtain ⟨hs, hbetween⟩ := holds_new h
  obtain ⟨asked, hasked, own, d', slot', hrun, hs', h'⟩ := run_phaseEvents qFirst chunks hs hbetween hpos heven
    (Nat.dvd_zero c) hchunks (by rw [List.length_nil, Nat.zero_add, hT]) hfits hbits hindices (condensed_nil hu)
  rw [List.nil_append] at h'
  have hflatten : chunks.flatten ≠ [] := by
    obtain ⟨rs, hmem⟩ := List.exists_mem_of_ne_nil chunks hne
    have hlen := hchunks rs hmem
    intro hnil
    have hrs : rs = [] := List.flatten_eq_nil_iff.mp hnil rs hmem
    rw [hrs, List.length_nil] at hlen
    omega
  refine ⟨asked, hasked, own, ?_, ?_⟩
  · rw [Sharing.run_append hrun, Sharing.run_cons (step_finalSumcheckClaim hs' h' hflatten)]
    rfl
  · rw [← h'.atPoint.kind_eq, hs'.slot, h'.atPoint.kind_eq]
    exact (h'.bound hflatten).1

end Three

/-- The prefixes of the three, in the order of the fused initialiser. -/
def rafKinds : List Prefix := [.leftOperand, .rightOperand, .identity]

/-- **The operand and identity decompositions are exact**: over one registry, in whatever order
their calls alternate, all three return in every round what the direct sumcheck has and end with
the values of the polynomials; and the fused initialiser is `init_Q` of each. -/
theorem raf_decompositions_exact {c : Nat} {chunks : List (List F)} {lookupBits : List LookupBits}
    {uEvals : List F} (hpos : 0 < c) (heven : c % 2 = 0) (hne : chunks ≠ [])
    (hchunks : ∀ rs ∈ chunks, rs.length = c) (hfits : chunks.length * c ≤ 128)
    (hbits : Indices lookupBits (chunks.length * c)) (hu : uEvals.length = lookupBits.length)
    (isInterleaved : List Bool) :
    let cycles := fun kind => cyclesOf kind isInterleaved lookupBits.length
    (∃ ds : List (Decomposition F),
      (rafKinds.mapM fun kind => Decomposition.new kind c (chunks.length * c)) = .some ds ∧
      ∀ qFirst, (∀ kind, ∃ asked, phaseEvents qFirst c lookupBits (cycles kind) chunks uEvals = .some asked) ∧
        ∀ es, (∀ i call, Event.call i call ∈ es → i < rafKinds.length) →
          (∀ i kind, rafKinds[i]? = .some kind →
            (phaseEvents qFirst c lookupBits (cycles kind) chunks uEvals).map (· ++ [.call 0 .finalSumcheckClaim]) =
              .some (es.filterMap (Event.project i))) →
          ∃ outs s, (Sharing.new ds).run es = .some (outs, s) ∧ ∀ i kind, rafKinds[i]? = .some kind →
            outputsOf i outs = (directPhases kind c lookupBits (cycles kind) uEvals [] chunks).map Prod.snd ++
              [[kind.evaluate chunks.flatten]] ∧
            (s.registry kind).checkpoint = .some (kind.evaluate chunks.flatten)) ∧
    ∀ (s : Sharing F) (left right identity : Decomposition F) (current : List F),
      s.decomps = [left, right, identity] → s.kinds = rafKinds →
      right.chunkLen = left.chunkLen → identity.chunkLen = left.chunkLen →
      right.suffixLen = left.suffixLen → identity.suffixLen = left.suffixLen →
      current.length = lookupBits.length → isInterleaved.length = lookupBits.length →
      let raf := initQRaf left right identity current lookupBits isInterleaved
      s.run [.call 0 (.initQ current (cycles .leftOperand) lookupBits),
        .call 1 (.initQ current (cycles .rightOperand) lookupBits),
        .call 2 (.initQ current (cycles .identity) lookupBits)] =
          .some ([(0, []), (1, []), (2, [])], ⟨s.registry, [raf.1, raf.2.1, raf.2.2]⟩) := by
  intro cycles
  refine ⟨?_, fun s left right identity current hs hkinds hchunk hchunk' hsuffix hsuffix' hcurrent hi =>
    run_initQ_three hs hkinds hchunk hchunk' hsuffix hsuffix' hcurrent hi⟩
  have hnew (kind : Prefix) : ∃ d : Decomposition F, Decomposition.new kind c (chunks.length * c) = .some d ∧
      d.kind = kind := by
    rw [Decomposition.new, if_pos (Nat.mul_mod_left chunks.length c)]
    exact ⟨_, rfl, rfl⟩
  choose fresh hfresh hkind using hnew
  have hindices (kind : Prefix) : ∀ j ∈ cycles kind, j < lookupBits.length :=
    fun j hj => List.mem_range.mp (List.mem_filter.mp hj).1
  have halone (qFirst : Bool) (kind : Prefix) := run_alone qFirst (hfresh kind) hpos heven hne hchunks rfl hfits
    hbits (hindices kind) hu
  have hkinds : (rafKinds.map fresh).map Decomposition.kind = rafKinds := by
    rw [List.map_map, show Decomposition.kind ∘ fresh = id from funext hkind, List.map_id]
  refine ⟨rafKinds.map fresh, mapM_of_some fun kind _ => hfresh kind, fun qFirst => ⟨fun kind => ?_, ?_⟩⟩
  · obtain ⟨asked, hasked, -⟩ := halone qFirst kind
    exact ⟨asked, hasked⟩
  · intro es hcalls hes
    have hnodup : ((rafKinds.map fresh).map Decomposition.kind).Nodup := by
      rw [hkinds]
      decide
    -- the run of each by itself, with its outputs and its checkpoint
    have hown : ∀ i kind, rafKinds[i]? = .some kind → ∃ own,
        (Sharing.new [fresh kind]).run (es.filterMap (Event.project i)) =
          .some (directPhases kind c lookupBits (cycles kind) uEvals [] chunks ++ [(0, [kind.evaluate chunks.flatten])],
            own) ∧ (own.registry kind).checkpoint = .some (kind.evaluate chunks.flatten) := by
      intro i kind hi
      obtain ⟨asked, hasked, own, hrun, hcheckpoint⟩ := halone qFirst kind
      have hevents := hes i kind hi
      rw [hasked, Option.map_some, Option.some.injEq] at hevents
      exact ⟨own, by rw [← hevents]; exact hrun, hcheckpoint⟩
    have hmem : ∀ (i : Nat) d, (rafKinds.map fresh)[i]? = .some d →
        ∃ kind, rafKinds[i]? = .some kind ∧ fresh kind = d := by
      intro i d hd
      rw [List.getElem?_map, Option.map_eq_some_iff] at hd
      exact hd
    obtain ⟨⟨outs, s⟩, hrun⟩ := Sharing.run_new es hnodup (by simpa using hcalls) fun i d hd => by
      obtain ⟨kind, hi, rfl⟩ := hmem i d hd
      obtain ⟨own, hrun, -⟩ := hown i kind hi
      exact ⟨_, hrun⟩
    refine ⟨outs, s, hrun, fun i kind hi => ?_⟩
    have hd : (rafKinds.map fresh)[i]? = .some (fresh kind) := by rw [List.getElem?_map, hi, Option.map_some]
    obtain ⟨outs', own', hrun', houts, hcheck⟩ := Sharing.run_own es (Sharing.view_new hd) hnodup hrun
    obtain ⟨own, hrun'', hcheckpoint⟩ := hown i kind hi
    rw [hrun''] at hrun'
    cases hrun'
    rw [hkind] at hcheck
    refine ⟨?_, by rw [← hcheck]; exact hcheckpoint⟩
    rw [← houts, List.map_append]
    rfl

/-- Two indices of four bits, the first of interleaved operands. -/
def twoIndices : List LookupBits := [⟨9, 4⟩, ⟨6, 4⟩]

/-- A phase of two rounds of the three, in turn. -/
def phaseInTurn (uEvals : List (ZMod 7)) (r1 r2 : ZMod 7) : List (Event (ZMod 7)) :=
  (rafKinds.zipIdx.flatMap fun (kind, i) =>
    [.call i .initP, .call i (.initQ uEvals (cyclesOf kind [true, false] 2) twoIndices)]) ++
  (rafKinds.zipIdx.flatMap fun (_, i) => [.call i (.sumcheckEvals 0), .call i (.sumcheckEvals 1), .call i (.bind r1)]) ++
  (rafKinds.zipIdx.flatMap fun (_, i) => [.call i (.sumcheckEvals 0), .call i (.bind r2)]) ++ [.updateCheckpoints]

/-- Two phases, the weights condensed between them, and the claims. -/
def phasesInTurn : List (Event (ZMod 7)) :=
  phaseInTurn [2, 4] 3 5 ++ phaseInTurn [4, 2] 2 6 ++
    [.call 0 .finalSumcheckClaim, .call 1 .finalSumcheckClaim, .call 2 .finalSumcheckClaim]

theorem raf_decompositions_exact_two :
    ∃ ds : List (Decomposition (ZMod 7)), (rafKinds.mapM fun kind => Decomposition.new kind 2 4) = .some ds ∧
      ∃ outs s, (Sharing.new ds).run phasesInTurn = .some (outs, s) ∧ ∀ i kind, rafKinds[i]? = .some kind →
        outputsOf i outs = (directPhases kind 2 twoIndices (cyclesOf kind [true, false] 2) [2, 4] []
          [[3, 5], [2, 6]]).map Prod.snd ++ [[kind.evaluate [3, 5, 2, 6]]] ∧
        (s.registry kind).checkpoint = .some (kind.evaluate [3, 5, 2, 6]) := by
  have hbits : Indices twoIndices 4 := by
    unfold Indices
    decide
  obtain ⟨ds, hds, hruns⟩ := (@raf_decompositions_exact (ZMod 7) _ 2 [[3, 5], [2, 6]] twoIndices [2, 4]
    (by decide) (by decide) (by decide) (by decide) (by decide) hbits rfl [true, false]).1
  refine ⟨ds, hds, (hruns false).2 phasesInTurn ?_ fun i kind hi => ?_⟩
  · intro i call hmem
    simp [phasesInTurn, phaseInTurn, rafKinds] at hmem ⊢
    omega
  · rcases i with _ | _ | _ | i
    · cases hi
      rfl
    · cases hi
      rfl
    · cases hi
      rfl
    · cases hi

end LightningJolt
