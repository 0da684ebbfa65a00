/-
The addresses of the one-hot polynomials: their chunks, the point split to match, and the
pushforwards of all of them over a cycle point (`jolt-core/src/zkvm/config.rs`,
`jolt-core/src/poly/shared_ra_polys.rs`).
-/
import LightningJolt.OneHotPolynomial
import LightningJolt.RaPolynomials
import LightningJolt.SparseEval

namespace LightningJolt

open Finset

/-! ## The indices of a cycle -/

namespace OneHotParams

variable (p : OneHotParams)

/-- `assert_ra_bounds`. -/
def RaBounds : Prop := p.instructionD ≤ 32 ∧ p.bytecodeD ≤ 6 ∧ p.ramD ≤ 8

instance : Decidable p.RaBounds := inferInstanceAs (Decidable (_ ∧ _ ∧ _))

/-- A chunk as a byte. -/
def chunkByte (d i index : Nat) : Fin 256 := ⟨p.chunk d i index, Nat.mod_lt _ (by decide)⟩

end OneHotParams

/-- `RaIndices::from_cycle`: the entries past the number of chunks stay as they were allocated. -/
def RaIndices.fromCycle (p : OneHotParams) (c : CycleWitness) : RaIndices where
  instruction i := if i < p.instructionD then p.chunkByte p.instructionD i c.lookupIndex else 0
  bytecode i := if i < p.bytecodeD then p.chunkByte p.bytecodeD i c.pc else 0
  ram i := if i < p.ramD then c.ramAddress.map (p.chunkByte p.ramD i) else .none

/-! ## Pushforwards -/

section Source

variable {F C : Type} [JoltField F] [Challenge C F]

/-- The accumulators of a polynomial that a thread reuses from block to block, with the bitset of
those in use. -/
structure LocalSums (F : Type) where
  sums : Nat → F
  touched : Nat → Bool

namespace LocalSums

/-- The start of a block: the accumulators in use are cleared. -/
def clear (s : LocalSums F) : LocalSums F where
  sums k := if s.touched k then 0 else s.sums k
  touched _ := false

/-- What a cycle does to them. -/
def add (s : LocalSums F) (index : Option Nat) (e : F) : LocalSums F :=
  match index with
  | .none => s
  | .some k => ⟨Function.update s.sums k (s.sums k + e), Function.update s.touched k true⟩

/-- The cycles of a block, as far as the trace goes. -/
def block (index : Nat → Option Nat) (T base : Nat) (eLo : List F) (s : LocalSums F) : LocalSums F :=
  (List.range (min eLo.length (T - base))).foldl (fun s cLo => s.add (index (base + cLo)) (eLo.getD cLo 0)) s.clear

/-- A block of a thread: the accumulators in use are scaled into its partial sums. -/
def step (index : Nat → Option Nat) (T chunkStart : Nat) (eLo : List F) (state : LocalSums F × (Nat → F))
    (entry : F × Nat) : LocalSums F × (Nat → F) :=
  let s := state.1.block index T ((chunkStart + entry.2) * eLo.length) eLo
  (s, fun k => if s.touched k then state.2 k + entry.1 * s.sums k else state.2 k)

end LocalSums

/-- The partial sums of a thread, over its chunk of the high table. -/
def threadSums (index : Nat → Option Nat) (T chunkStart : Nat) (eLo chunk : List F) : Nat → F :=
  (chunk.zipIdx.foldl (LocalSums.step index T chunkStart eLo) (⟨fun _ => 0, fun _ => false⟩, fun _ => 0)).2

/-- The pushforward of one polynomial, of the given index in each cycle. -/
def pushforward (numThreads : Nat) (index : Nat → Option Nat) (T : Nat) (rCycle : List C) (k : Nat) : F :=
  let loBits := rCycle.length / 2
  let hiBits := rCycle.length - loBits
  let eHi : List F := EqPolynomial.evals (rCycle.take hiBits)
  let eLo : List F := EqPolynomial.evals (rCycle.drop hiBits)
  let chunkSize := divCeil eHi.length numThreads
  ((OneHotParams.chunks chunkSize eHi).zipIdx.map fun (chunk, chunkIdx) =>
    threadSums index T (chunkIdx * chunkSize) eLo chunk k).sum

/-- The index of a polynomial in a cycle. -/
def indexAt (p : OneHotParams) (cycles : List CycleWitness) (polyIdx j : Nat) : Option Nat :=
  (cycles[j]?).bind fun c => ((RaIndices.fromCycle p c).getIndex polyIdx p).join

/-- `compute_all_G`. Each polynomial has accumulators of its own. -/
def computeAllG (numThreads : Nat) (p : OneHotParams) (cycles : List CycleWitness) (rCycle : List C) :
    Option (List (List F)) :=
  if p.RaBounds then
    .some (tableOf p.numPolys fun polyIdx => tableOf (2 ^ p.logKChunk)
      (pushforward numThreads (indexAt p cycles polyIdx) cycles.length rCycle))
  else .none

/-- The cycles that the threads visit, in the order of the blocks. -/
def visited (T logT : Nat) : List Nat :=
  let inLen := 2 ^ (logT / 2)
  (List.range (2 ^ (logT - logT / 2))).flatMap fun cHi =>
    (List.range (min inLen (T - cHi * inLen))).map fun cLo => cHi * inLen + cLo

/-- The indices that `compute_all_G_and_ra_indices` writes into the array of zeros. -/
def collectRaIndices (p : OneHotParams) (cycles : List CycleWitness) (logT : Nat) : List RaIndices :=
  ((visited cycles.length logT).filterMap fun j => cycles[j]?.map fun c => (j, RaIndices.fromCycle p c)).foldl
    (fun rows (j, raIdx) => rows.set j raIdx) (List.replicate cycles.length ⟨fun _ => 0, fun _ => 0, fun _ => .none⟩)

end Source

/-! ## One block -/

section Block

variable {F : Type} [JoltField F] {index : Nat → Option Nat} {T : Nat} {eLo : List F}

/-- What a block adds up at an address. -/
def blockSum (index : Nat → Option Nat) (T base : Nat) (eLo : List F) (k : Nat) : F :=
  ∑ c ∈ range (min eLo.length (T - base)), if index (base + c) = .some k then eLo.getD c 0 else 0

/-- The accumulators not in use are zero. -/
def LocalSums.Clean (s : LocalSums F) : Prop := ∀ k, s.touched k = false → s.sums k = 0

theorem LocalSums.add_spec {s : LocalSums F} (h : s.Clean) (a : Option Nat) (e : F) :
    (s.add a e).Clean ∧ ∀ k, (s.add a e).sums k = s.sums k + if a = .some k then e else 0 := by
  cases a with
  | none => exact ⟨h, fun k => by rw [if_neg nofun, add_zero]; rfl⟩
  | some a =>
    constructor
    · intro k hk
      by_cases hak : k = a
      · subst hak
        simp [LocalSums.add] at hk
      · simp only [LocalSums.add, Function.update_of_ne hak] at hk ⊢
        exact h k hk
    · intro k
      by_cases hak : k = a
      · subst hak
        simp only [LocalSums.add, Function.update_self, if_true]
      · have hne : ¬ (Option.some a = .some k) := fun heq => hak (Option.some.inj heq).symm
        simp only [LocalSums.add, Function.update_of_ne hak, if_neg hne, add_zero]

theorem LocalSums.foldl_spec (base : Nat) (n : Nat) {s : LocalSums F} (h : s.Clean) :
    let final := (List.range n).foldl (fun s cLo => s.add (index (base + cLo)) (eLo.getD cLo 0)) s
    final.Clean ∧ ∀ k, final.sums k =
      s.sums k + ∑ c ∈ range n, if index (base + c) = .some k then eLo.getD c 0 else 0 := by
  induction n with
  | zero => exact ⟨h, fun k => (add_zero _).symm⟩
  | succ n ih =>
    obtain ⟨hclean, hsums⟩ := ih
    obtain ⟨hnext, hadd⟩ := LocalSums.add_spec hclean (index (base + n)) (eLo.getD n 0)
    rw [List.range_succ, List.foldl_append]
    refine ⟨hnext, fun k => ?_⟩
    rw [sum_range_succ, ← add_assoc, ← hsums k]
    exact hadd k

theorem LocalSums.block_spec (base : Nat) {s : LocalSums F} (h : s.Clean) :
    (s.block index T base eLo).Clean ∧ ∀ k, (s.block index T base eLo).sums k = blockSum index T base eLo k := by
  have hzero : ∀ k, s.clear.sums k = 0 := by
    intro k
    cases hk : s.touched k with
    | false => simp only [LocalSums.clear, hk, Bool.false_eq_true, if_false]; exact h k hk
    | true => simp only [LocalSums.clear, hk, if_true]
  obtain ⟨hclean, hsums⟩ := @LocalSums.foldl_spec F _ index eLo base (min eLo.length (T - base)) s.clear fun k _ => hzero k
  refine ⟨hclean, fun k => (hsums k).trans ?_⟩
  rw [hzero, zero_add]
  rfl

/-! ## A thread -/

theorem LocalSums.run_spec (chunkStart : Nat) (entries : List (F × Nat)) {state : LocalSums F × (Nat → F)}
    (h : state.1.Clean) (k : Nat) :
    (entries.foldl (LocalSums.step index T chunkStart eLo) state).2 k = state.2 k +
      (entries.map fun e => e.1 * blockSum index T ((chunkStart + e.2) * eLo.length) eLo k).sum := by
  induction entries generalizing state with
  | nil => exact (add_zero _).symm
  | cons e entries ih =>
    obtain ⟨hclean, hsums⟩ := @LocalSums.block_spec F _ index T eLo ((chunkStart + e.2) * eLo.length) state.1 h
    have hpartial : (LocalSums.step index T chunkStart eLo state e).2 k =
        state.2 k + e.1 * blockSum index T ((chunkStart + e.2) * eLo.length) eLo k := by
      rw [← hsums k]
      simp only [LocalSums.step]
      cases hk : (state.1.block index T ((chunkStart + e.2) * eLo.length) eLo).touched k with
      | false => simp only [hclean k hk, Bool.false_eq_true, if_false, mul_zero, add_zero]
      | true => simp only [if_true]
    rw [List.foldl_cons, @ih (LocalSums.step index T chunkStart eLo state e) hclean, hpartial, List.map_cons,
      List.sum_cons, add_assoc]

theorem threadSums_eq (chunkStart : Nat) (chunk : List F) {size : Nat} (hsize : chunk.length ≤ size) (k : Nat) :
    threadSums index T chunkStart eLo chunk k = ∑ m ∈ range size,
      chunk.getD m 0 * blockSum index T ((chunkStart + m) * eLo.length) eLo k := by
  rw [threadSums, LocalSums.run_spec chunkStart chunk.zipIdx (fun _ _ => rfl), zero_add,
    OneHotPolynomial.sum_zipIdx _ 0]
  refine sum_subset (range_mono hsize) fun m _ hm => ?_
  rw [List.getD_eq_default _ _ (Nat.not_lt.mp fun hlt => hm (mem_range.mpr hlt)), zero_mul]

end Block

/-! ## All threads -/

section Pushforward

variable {F C : Type} [JoltField F] [Challenge C F] {index : Nat → Option Nat} {T : Nat}

theorem two_pow_halves (n : Nat) : 2 ^ (n - n / 2) * 2 ^ (n / 2) = 2 ^ n := by
  rw [← pow_add]
  congr 1
  omega

theorem le_divCeil_mul {k : Nat} (hk : 0 < k) (n : Nat) : n ≤ k * divCeil n k := by
  have hdiv := Nat.div_add_mod (n + k - 1) k
  have hmod := Nat.mod_lt (n + k - 1) hk
  rw [divCeil]
  omega

/-- A sum over chunks of a list is one over the list. -/
theorem sum_chunks {size : Nat} (hsize : 0 < size) (xs : List F) (f : Nat → F) :
    ∑ i ∈ range (divCeil xs.length size), ∑ m ∈ range size,
        ((xs.drop (i * size)).take size).getD m 0 * f (i * size + m) =
      ∑ n ∈ range xs.length, xs.getD n 0 * f n := by
  have hcover : xs.length ≤ divCeil xs.length size * size := by
    rw [Nat.mul_comm]
    exact le_divCeil_mul hsize xs.length
  have hinner : ∀ i ∈ range (divCeil xs.length size), ∑ m ∈ range size,
      ((xs.drop (i * size)).take size).getD m 0 * f (i * size + m) =
        ∑ m ∈ range size, xs.getD (i * size + m) 0 * f (i * size + m) :=
    fun i _ => sum_congr rfl fun m hm => by rw [OneHotPolynomial.getD_take_drop _ _ (mem_range.mp hm)]
  rw [sum_congr rfl hinner, ← sum_range_mul _ _ fun n => xs.getD n 0 * f n]
  refine (sum_subset (range_mono hcover) fun n _ hn => ?_).symm
  rw [List.getD_eq_default _ _ (Nat.not_lt.mp fun hlt => hn (mem_range.mpr hlt)), zero_mul]

theorem pushforward_eq {numThreads : Nat} (hthreads : 0 < numThreads) (rCycle : List C)
    (hT : T ≤ 2 ^ rCycle.length) (k : Nat) :
    (pushforward numThreads index T rCycle k : F) =
      ∑ j ∈ range T, if index j = .some k then eqAt (rCycle.map Challenge.into) j else 0 := by
  have hhi : (rCycle.take (rCycle.length - rCycle.length / 2)).length = rCycle.length - rCycle.length / 2 := by
    rw [List.length_take]
    omega
  have hlo : (rCycle.drop (rCycle.length - rCycle.length / 2)).length = rCycle.length / 2 := by
    rw [List.length_drop]
    omega
  have hhiLen : (EqPolynomial.evals (rCycle.take (rCycle.length - rCycle.length / 2)) : List F).length =
      2 ^ (rCycle.length - rCycle.length / 2) := by
    rw [EqPolynomial.evals_eq, length_eqTable, List.length_map, hhi]
  have hloLen : (EqPolynomial.evals (rCycle.drop (rCycle.length - rCycle.length / 2)) : List F).length =
      2 ^ (rCycle.length / 2) := by
    rw [EqPolynomial.evals_eq, length_eqTable, List.length_map, hlo]
  have hsize : 0 < divCeil (2 ^ (rCycle.length - rCycle.length / 2)) numThreads := by
    have hpos := Nat.two_pow_pos (rCycle.length - rCycle.length / 2)
    rw [divCeil]
    exact Nat.div_pos (by omega) hthreads
  rw [pushforward]
  simp only [hhiLen]
  rw [OneHotPolynomial.sum_zipIdx _ [], OneHotParams.chunks, List.length_map, List.length_range]
  generalize hsizeEq : divCeil (2 ^ (rCycle.length - rCycle.length / 2)) numThreads = size at hsize ⊢
  generalize heHi : (EqPolynomial.evals (rCycle.take (rCycle.length - rCycle.length / 2)) : List F) = eHi at hhiLen ⊢
  generalize heLo : (EqPolynomial.evals (rCycle.drop (rCycle.length - rCycle.length / 2)) : List F) = eLo at hloLen ⊢
  have hthread : ∀ i ∈ range (divCeil eHi.length size),
      threadSums index T (i * size) eLo (((List.range (divCeil eHi.length size)).map fun i =>
        (eHi.drop (i * size)).take size).getD i []) k =
      ∑ m ∈ range size, ((eHi.drop (i * size)).take size).getD m 0 *
        blockSum index T ((i * size + m) * eLo.length) eLo k := by
    intro i hi
    have hget : ((List.range (divCeil eHi.length size)).map fun i => (eHi.drop (i * size)).take size).getD i [] =
        (eHi.drop (i * size)).take size := getD_tableOf (mem_range.mp hi)
    rw [hget]
    exact threadSums_eq _ _ (List.length_take_le ..) k
  rw [sum_congr rfl hthread, sum_chunks hsize eHi fun n => blockSum index T (n * eLo.length) eLo k, hhiLen, hloLen]
  have hblock : ∀ n ∈ range (2 ^ (rCycle.length - rCycle.length / 2)),
      eHi.getD n 0 * blockSum index T (n * 2 ^ (rCycle.length / 2)) eLo k =
      ∑ c ∈ range (2 ^ (rCycle.length / 2)), if n * 2 ^ (rCycle.length / 2) + c < T then
        (if index (n * 2 ^ (rCycle.length / 2) + c) = .some k then
          eqAt (rCycle.map Challenge.into) (n * 2 ^ (rCycle.length / 2) + c) else 0) else 0 := by
    intro n _
    have hmin : ∀ c, c < min eLo.length (T - n * 2 ^ (rCycle.length / 2)) ↔
        c < 2 ^ (rCycle.length / 2) ∧ n * 2 ^ (rCycle.length / 2) + c < T := by
      intro c
      rw [hloLen]
      omega
    rw [blockSum, mul_sum]
    refine sum_subset_zero_on_sdiff ?_ ?_ ?_
    · intro c hc
      exact mem_range.mpr ((hmin c).mp (mem_range.mp hc)).1
    · intro c hc
      obtain ⟨hc, hout⟩ := mem_sdiff.mp hc
      refine if_neg fun hlt => hout (mem_range.mpr ((hmin c).mpr ⟨mem_range.mp hc, hlt⟩))
    · intro c hc
      obtain ⟨hc, hlt⟩ := (hmin c).mp (mem_range.mp hc)
      rw [if_pos hlt]
      by_cases hhit : index (n * 2 ^ (rCycle.length / 2) + c) = .some k
      · have happ := eqAt_append ((rCycle.take (rCycle.length - rCycle.length / 2)).map (Challenge.into : C → F))
          ((rCycle.drop (rCycle.length - rCycle.length / 2)).map Challenge.into) n (j := c)
          (by rwa [List.length_map, hlo])
        rw [List.length_map, hlo, ← List.map_append, List.take_append_drop] at happ
        rw [if_pos hhit, if_pos hhit, happ, ← heHi, ← heLo, EqPolynomial.evals_eq, EqPolynomial.evals_eq]
        rfl
      · rw [if_neg hhit, if_neg hhit, mul_zero]
  rw [sum_congr rfl hblock, ← sum_range_mul _ _ fun j => if j < T then
    (if index j = .some k then eqAt (rCycle.map Challenge.into) j else 0) else 0, two_pow_halves]
  exact sum_range_block hT _

end Pushforward

theorem mem_visited {T logT j : Nat} (hT : T ≤ 2 ^ logT) (hj : j < T) : j ∈ visited T logT := by
  have hpos := Nat.two_pow_pos (logT / 2)
  have hsplit := Nat.div_add_mod' j (2 ^ (logT / 2))
  have hlo := Nat.mod_lt j hpos
  refine List.mem_flatMap.mpr ⟨j / 2 ^ (logT / 2), List.mem_range.mpr ?_, List.mem_map.mpr
    ⟨j % 2 ^ (logT / 2), List.mem_range.mpr ?_, hsplit⟩⟩
  · refine Nat.div_lt_of_lt_mul ?_
    rw [Nat.mul_comm, two_pow_halves]
    omega
  · omega

/-- Every cycle's indices are collected, once the trace fits the point. -/
theorem collectRaIndices_eq (p : OneHotParams) {cycles : List CycleWitness} {logT : Nat}
    (hT : cycles.length ≤ 2 ^ logT) : collectRaIndices p cycles logT = cycles.map (RaIndices.fromCycle p) := by
  have hlength : (collectRaIndices p cycles logT).length = cycles.length :=
    (OneHotPolynomial.length_foldl_set _ _).trans List.length_replicate
  refine List.ext_getElem (by rw [hlength, List.length_map]) fun j hj _ => ?_
  rw [hlength] at hj
  rw [List.getElem_map, ← List.getD_eq_getElem _ (RaIndices.fromCycle p cycles[j])]
  refine OneHotPolynomial.foldl_set _ (by rwa [List.length_replicate]) (.inr ?_) ?_
  · refine List.mem_filterMap.mpr ⟨j, mem_visited hT hj, ?_⟩
    rw [List.getElem?_eq_getElem hj, Option.map_some]
  · intro w hw
    obtain ⟨j', -, hpair⟩ := List.mem_filterMap.mp hw
    obtain ⟨c, hc, heq⟩ := Option.map_eq_some_iff.mp hpair
    obtain ⟨rfl, rfl⟩ := Prod.mk.inj heq
    rw [List.getElem?_eq_getElem hj] at hc
    rw [Option.some.inj hc]

/-! ## Chunks -/

section Chunks

variable {p : OneHotParams}

theorem chunk_eq (hk : p.logKChunk ≤ 8) (d i index : Nat) :
    p.chunk d i index = index / 2 ^ (p.logKChunk * (d - 1 - i)) % 2 ^ p.logKChunk := by
  have hlt : index / 2 ^ (p.logKChunk * (d - 1 - i)) % 2 ^ p.logKChunk < 2 ^ 8 :=
    (Nat.mod_lt _ (Nat.two_pow_pos _)).trans_le (Nat.pow_le_pow_right (by decide) hk)
  rw [OneHotParams.chunk, Nat.shiftRight_eq_div_pow, Nat.and_two_pow_sub_one_eq_mod, Nat.mod_eq_of_lt hlt]

theorem sum_digits (k d index : Nat) :
    ∑ e ∈ range d, index / 2 ^ (k * e) % 2 ^ k * 2 ^ (k * e) = index % 2 ^ (k * d) := by
  induction d with
  | zero => rw [sum_range_zero, Nat.mul_zero, pow_zero, Nat.mod_one]
  | succ d ih =>
    rw [sum_range_succ, ih, Nat.mul_succ, pow_add, Nat.mod_mul, Nat.mul_comm (2 ^ (k * d))]

/-- The chunks recombine to the index. -/
theorem sum_chunk (hk : p.logKChunk ≤ 8) {d index : Nat} (h : index < 2 ^ (p.logKChunk * d)) :
    ∑ i ∈ range d, p.chunk d i index * 2 ^ (p.logKChunk * (d - 1 - i)) = index := by
  have hreflect := sum_range_reflect
    (fun e => index / 2 ^ (p.logKChunk * e) % 2 ^ p.logKChunk * 2 ^ (p.logKChunk * e)) d
  rw [sum_digits, Nat.mod_eq_of_lt h] at hreflect
  rw [← hreflect]
  exact sum_congr rfl fun i _ => by rw [chunk_eq hk, hreflect]

variable {F C : Type} [JoltField F] [Challenge C F]

theorem prod_chunks (k d : Nat) (xs : List F) (hlen : xs.length = d * k) {a : Nat} (ha : a < 2 ^ (d * k)) :
    ∏ i ∈ range d, eqAt ((xs.drop (i * k)).take k) (a / 2 ^ (k * (d - 1 - i)) % 2 ^ k) = eqAt xs a := by
  induction d generalizing xs a with
  | zero =>
    rw [Nat.zero_mul] at hlen ha
    obtain rfl := List.eq_nil_of_length_eq_zero hlen
    obtain rfl : a = 0 := by simpa using ha
    rw [range_zero, prod_empty, eqAt_zero, List.map_nil, List.prod_nil]
  | succ d ih =>
    rw [Nat.succ_mul] at hlen ha
    have hhead : (xs.take (d * k)).length = d * k := by rw [List.length_take, hlen]; omega
    have hlast : (xs.drop (d * k)).length = k := by rw [List.length_drop, hlen]; omega
    have hhigh : a / 2 ^ k < 2 ^ (d * k) := Nat.div_lt_of_lt_mul (by rwa [← pow_add, Nat.add_comm])
    have happ := eqAt_append (xs.take (d * k)) (xs.drop (d * k)) (a / 2 ^ k) (j := a % 2 ^ k)
      (by rw [hlast]; exact Nat.mod_lt _ (Nat.two_pow_pos _))
    rw [List.take_append_drop, hlast, Nat.div_add_mod'] at happ
    rw [happ, prod_range_succ, ← ih (xs.take (d * k)) hhead hhigh]
    refine congrArg₂ (· * ·) (prod_congr rfl fun i hi => ?_) ?_
    · have hi := mem_range.mp hi
      have hin : i * k + k ≤ d * k := by
        rw [← Nat.succ_mul]
        exact Nat.mul_le_mul_right k hi
      have hchunk : ((xs.take (d * k)).drop (i * k)).take k = (xs.drop (i * k)).take k := by
        rw [List.drop_take, List.take_take, Nat.min_eq_left (by omega)]
      have hshift : k * (d + 1 - 1 - i) = k + k * (d - 1 - i) := by
        rw [show d + 1 - 1 - i = d - 1 - i + 1 by omega, Nat.mul_succ, Nat.add_comm]
      rw [hchunk, hshift, pow_add, Nat.div_div_eq_div_mul]
    · rw [show d + 1 - 1 - d = 0 by omega, Nat.mul_zero, pow_zero, Nat.div_one, List.take_of_length_le hlast.le]

/-- Zeros in front of a point leave the entries at the indices it had. -/
theorem eqAt_zeros (m : Nat) (xs : List F) {a : Nat} (ha : a < 2 ^ xs.length) :
    eqAt (List.replicate m 0 ++ xs) a = eqAt xs a := by
  have happ := eqAt_append (List.replicate m (0 : F)) xs 0 ha
  rw [Nat.zero_mul, Nat.zero_add, eqAt_zero] at happ
  rw [happ, List.map_replicate, List.prod_replicate, sub_zero, one_pow, one_mul]

theorem divCeil_mul_right {d k : Nat} (hk : 0 < k) : divCeil (d * k) k = d := OneHotPolynomial.divCeil_column hk

omit [JoltField F] [Challenge C F] in
/-- The chunks are those of the point with zeros in front of it up to whole chunks. -/
theorem computeRAddressChunks_padded [Zero C] (hk : p.logKChunk = 4 ∨ p.logKChunk = 8) (rAddress : List C) :
    ∃ m, m + rAddress.length = divCeil rAddress.length p.logKChunk * p.logKChunk ∧
      p.computeRAddressChunks rAddress = tableOf (divCeil rAddress.length p.logKChunk) fun i =>
        ((List.replicate m (0 : C) ++ rAddress).drop (i * p.logKChunk)).take p.logKChunk := by
  have hpos : 0 < p.logKChunk := by omega
  have hmask : rAddress.length &&& (p.logKChunk - 1) = rAddress.length % p.logKChunk := by
    rcases hk with hk | hk
    · rw [hk]
      exact Nat.and_two_pow_sub_one_eq_mod _ 2
    · rw [hk]
      exact Nat.and_two_pow_sub_one_eq_mod _ 3
  generalize hd : divCeil rAddress.length p.logKChunk = d
  have hpadded : ∃ m, p.computeRAddressChunks rAddress =
      OneHotParams.chunks p.logKChunk (List.replicate m 0 ++ rAddress) ∧ m + rAddress.length = d * p.logKChunk := by
    have hdiv := Nat.div_add_mod' rAddress.length p.logKChunk
    have hmod := Nat.mod_lt rAddress.length hpos
    by_cases hrem : rAddress.length % p.logKChunk = 0
    · refine ⟨0, ?_, ?_⟩
      · rw [OneHotParams.computeRAddressChunks, if_pos hrem, List.replicate_zero, List.nil_append]
      · rw [← hd, ← hdiv, hrem, add_zero, divCeil_mul_right hpos, Nat.zero_add]
    · refine ⟨p.logKChunk - rAddress.length % p.logKChunk, ?_, ?_⟩
      · rw [OneHotParams.computeRAddressChunks, if_neg hrem, hmask]
      · have hceil : d = rAddress.length / p.logKChunk + 1 := by
          rw [← hd, divCeil, show rAddress.length + p.logKChunk - 1 =
            (rAddress.length / p.logKChunk + 1) * p.logKChunk + (rAddress.length % p.logKChunk - 1) by
              rw [Nat.succ_mul]; omega]
          exact div_of_split (by omega)
        rw [hceil, Nat.succ_mul]
        omega
  obtain ⟨m, hchunks, hm⟩ := hpadded
  refine ⟨m, hm, ?_⟩
  rw [hchunks, OneHotParams.chunks, List.length_append, List.length_replicate, hm, divCeil_mul_right hpos]
  rfl

omit [JoltField F] [Challenge C F] in
theorem length_computeRAddressChunk [Zero C] (hk : p.logKChunk = 4 ∨ p.logKChunk = 8) {rAddress : List C} {i : Nat}
    (hi : i < divCeil rAddress.length p.logKChunk) :
    ((p.computeRAddressChunks rAddress).getD i []).length = p.logKChunk := by
  obtain ⟨m, hm, hchunks⟩ := computeRAddressChunks_padded hk rAddress
  have hfit : (i + 1) * p.logKChunk ≤ divCeil rAddress.length p.logKChunk * p.logKChunk := Nat.mul_le_mul_right _ hi
  rw [Nat.succ_mul] at hfit
  rw [hchunks, getD_tableOf hi, List.length_take, List.length_drop, List.length_append, List.length_replicate, hm]
  omega

/-- The chunks of a point are as many as its length needs, and their products are the entries of
the point's own table. -/
theorem computeRAddressChunks_eq [Zero C] (hzero : (Challenge.into (0 : C) : F) = 0)
    (hk : p.logKChunk = 4 ∨ p.logKChunk = 8) (rAddress : List C) :
    (p.computeRAddressChunks rAddress).length = divCeil rAddress.length p.logKChunk ∧
      ∀ a < 2 ^ rAddress.length, ∏ i ∈ range (divCeil rAddress.length p.logKChunk),
        eqAt (((p.computeRAddressChunks rAddress).getD i []).map Challenge.into)
          (p.chunk (divCeil rAddress.length p.logKChunk) i a) = (eqAt (rAddress.map Challenge.into) a : F) := by
  obtain ⟨m, hm, htable⟩ := computeRAddressChunks_padded hk rAddress
  generalize divCeil rAddress.length p.logKChunk = d at *
  have hlength : (List.replicate m (0 : C) ++ rAddress).length = d * p.logKChunk := by
    rw [List.length_append, List.length_replicate, hm]
  refine ⟨by rw [htable, length_tableOf], ?_⟩
  intro a ha
  have hmap : (List.replicate m (0 : C) ++ rAddress).map (Challenge.into : C → F) =
      List.replicate m 0 ++ rAddress.map Challenge.into := by
    rw [List.map_append, List.map_replicate, hzero]
  have hbig : a < 2 ^ (d * p.logKChunk) := ha.trans_le (Nat.pow_le_pow_right (by decide) (by omega))
  have hprod := prod_chunks p.logKChunk d ((List.replicate m (0 : C) ++ rAddress).map (Challenge.into : C → F))
    (by rw [List.length_map, hlength]) hbig
  rw [hmap, eqAt_zeros m _ (by rwa [List.length_map]), ← hmap] at hprod
  rw [← hprod]
  refine prod_congr rfl fun i hi => ?_
  rw [htable, getD_tableOf (mem_range.mp hi), chunk_eq (by omega), List.map_take, List.map_drop]

end Chunks

/-! ## All polynomials -/

section All

variable {F C : Type} [JoltField F] [Challenge C F] {p : OneHotParams}

/-- The polynomial of an index. -/
def OneHotParams.polynomialAt (p : OneHotParams) (i : Nat) : CommittedPolynomial :=
  if i < p.instructionD then .InstructionRa i
  else if i < p.instructionD + p.bytecodeD then .BytecodeRa (i - p.instructionD)
  else .RamRa (i - p.instructionD - p.bytecodeD)

theorem polynomialTypes_eq (p : OneHotParams) : p.polynomialTypes = tableOf p.numPolys p.polynomialAt := by
  rw [OneHotParams.numPolys, tableOf_add, tableOf_add, OneHotParams.polynomialTypes]
  refine congrArg₂ (· ++ ·) (congrArg₂ (· ++ ·) ?_ ?_) ?_
  · exact List.map_congr_left fun i hi => (if_pos (List.mem_range.mp hi)).symm
  · refine List.map_congr_left fun i hi => ?_
    have hlt := List.mem_range.mp hi
    rw [OneHotParams.polynomialAt, if_neg (by omega), if_pos (by omega), Nat.add_sub_cancel_left]
  · refine List.map_congr_left fun i _ => ?_
    rw [OneHotParams.polynomialAt, if_neg (by omega), if_neg (by omega), Nat.sub_sub, Nat.add_sub_cancel_left]

/-- The index of a polynomial in a cycle is the chunk of its family. -/
theorem getIndex_fromCycle (hbounds : p.RaBounds) (c : CycleWitness) {i : Nat} (hi : i < p.numPolys) :
    (RaIndices.fromCycle p c).getIndex i p = .some (p.chunkIndex c (p.polynomialAt i)) := by
  obtain ⟨hinstruction, hbytecode, hram⟩ := hbounds
  rw [OneHotParams.numPolys] at hi
  rw [RaIndices.getIndex, OneHotParams.polynomialAt]
  split_ifs with hfirst hsecond
  · rw [elementOf, dif_pos (by omega)]
    simp only [RaIndices.fromCycle, if_pos hfirst]
    rfl
  · rw [elementOf, dif_pos (by omega)]
    simp only [RaIndices.fromCycle, show i - p.instructionD < p.bytecodeD by omega, if_true]
    rfl
  · rw [elementOf, dif_pos (by omega)]
    simp only [RaIndices.fromCycle, show i - p.instructionD - p.bytecodeD < p.ramD by omega, if_true]
    rw [OneHotParams.chunkIndex]
    cases c.ramAddress with
    | none => rfl
    | some address => rfl

theorem indexAt_eq (hbounds : p.RaBounds) (cycles : List CycleWitness) {i : Nat} (hi : i < p.numPolys) (j : Nat) :
    indexAt p cycles i j = (cycles[j]?).bind (p.chunkIndex · (p.polynomialAt i)) := by
  rw [indexAt]
  congr 1
  funext c
  rw [getIndex_fromCycle hbounds c hi, Option.join_some]

/-- The pushforward of a polynomial over a cycle point. -/
def pushforwardOf (p : OneHotParams) (cycles : List CycleWitness) (rCycle : List C) (poly : CommittedPolynomial)
    (k : Nat) : F :=
  ∑ j ∈ range cycles.length, if (cycles[j]?).bind (p.chunkIndex · poly) = .some k then
    eqAt (rCycle.map Challenge.into) j else 0

theorem computeAllG_eq (hbounds : p.RaBounds) {numThreads : Nat} (hthreads : 0 < numThreads)
    {cycles : List CycleWitness} {rCycle : List C} (hT : cycles.length ≤ 2 ^ rCycle.length) :
    computeAllG numThreads p cycles rCycle = .some (p.polynomialTypes.map fun poly =>
      tableOf (2 ^ p.logKChunk) (pushforwardOf p cycles rCycle poly : Nat → F)) := by
  rw [computeAllG, if_pos hbounds, polynomialTypes_eq, tableOf, tableOf, List.map_map]
  refine congrArg some (List.map_congr_left fun i hi => tableOf_congr fun k _ => ?_)
  rw [pushforward_eq hthreads rCycle hT, pushforwardOf]
  refine sum_congr rfl fun j _ => ?_
  rw [indexAt_eq hbounds cycles (List.mem_range.mp hi)]

theorem sum_chunk_below (hk : p.logKChunk = 4 ∨ p.logKChunk = 8) {size logK index : Nat} (hlog : log2 size = .some logK)
    (h : index < size) : ∑ i ∈ range (divCeil logK p.logKChunk),
      p.chunk (divCeil logK p.logKChunk) i index * 2 ^ (p.logKChunk * (divCeil logK p.logKChunk - 1 - i)) = index := by
  refine sum_chunk (by omega) ?_
  calc index < size := h
    _ ≤ 2 ^ logK := OneHotPolynomial.le_of_log2 hlog
    _ ≤ 2 ^ (p.logKChunk * divCeil logK p.logKChunk) :=
      Nat.pow_le_pow_right (by decide) (le_divCeil_mul (by omega) logK)

/-- **Chunks, points and pushforwards agree** for every accepted configuration within the arrays'
bounds: the chunks recombine to the index, a cycle without an access has none, the split point's
tables multiply to the point's own, and the threads add up, for each polynomial and each address,
the table of the cycle point over the cycles of that address, and collect all indices. -/
theorem chunks_and_pushforwards [Zero C] (hzero : (Challenge.into (0 : C) : F) = 0) {config : OneHotConfig}
    (hvalid : config.validate = true) {bytecodeK ramK : Nat}
    (hparams : OneHotParams.fromConfig config bytecodeK ramK = .some p) (hbounds : p.RaBounds) :
    ((∀ index < 2 ^ lookupsLogK, ∑ i ∈ range p.instructionD,
        p.chunk p.instructionD i index * 2 ^ (p.logKChunk * (p.instructionD - 1 - i)) = index) ∧
      (∀ pc < bytecodeK, ∑ i ∈ range p.bytecodeD,
        p.chunk p.bytecodeD i pc * 2 ^ (p.logKChunk * (p.bytecodeD - 1 - i)) = pc) ∧
      ∀ address < ramK, ∑ i ∈ range p.ramD,
        p.chunk p.ramD i address * 2 ^ (p.logKChunk * (p.ramD - 1 - i)) = address) ∧
    ((∀ address layout, remapAddress address layout = .some .none ↔ address = 0) ∧
      ∀ c i, p.chunkIndex c (.RamRa i) = .none ↔ c.ramAddress = .none) ∧
    (∀ rAddress : List C, ∀ a < 2 ^ rAddress.length, ∏ i ∈ range (divCeil rAddress.length p.logKChunk),
      eqAt (((p.computeRAddressChunks rAddress).getD i []).map Challenge.into)
        (p.chunk (divCeil rAddress.length p.logKChunk) i a) = (eqAt (rAddress.map Challenge.into) a : F)) ∧
    ∀ (numThreads : Nat) (cycles : List CycleWitness) (rCycle : List C), 0 < numThreads →
      cycles.length ≤ 2 ^ rCycle.length →
      computeAllG numThreads p cycles rCycle = .some (p.polynomialTypes.map fun poly =>
          tableOf (2 ^ p.logKChunk) (pushforwardOf p cycles rCycle poly : Nat → F)) ∧
        collectRaIndices p cycles rCycle.length = cycles.map (RaIndices.fromCycle p) := by
  obtain ⟨bytecodeLogK, hbytecode, hparams⟩ := Option.bind_eq_some_iff.mp hparams
  obtain ⟨ramLogK, hram, hparams⟩ := Option.bind_eq_some_iff.mp hparams
  have hk : p.logKChunk = 4 ∨ p.logKChunk = 8 := by
    cases hparams
    simp only [OneHotConfig.validate, Bool.and_eq_true, Bool.or_eq_true, decide_eq_true_eq] at hvalid
    exact hvalid.1
  have hbytecode : log2 bytecodeK = .some p.bytecodeLogK := by cases hparams; exact hbytecode
  have hram : log2 ramK = .some p.ramLogK := by cases hparams; exact hram
  refine ⟨⟨?_, ?_, ?_⟩, ⟨?_, ?_⟩, ?_, ?_⟩
  · intro index hindex
    refine sum_chunk (by omega) (hindex.trans_le (Nat.pow_le_pow_right (by decide) ?_))
    exact le_divCeil_mul (by omega) lookupsLogK
  · exact fun pc hpc => sum_chunk_below hk hbytecode hpc
  · exact fun address haddress => sum_chunk_below hk hram haddress
  · intro address layout
    rw [remapAddress]
    by_cases hzero : address = 0
    · simp only [hzero, if_true]
    · refine iff_of_false ?_ hzero
      simp only [if_neg hzero]
      split
      · exact nofun
      · exact nofun
  · intro c i
    rw [OneHotParams.chunkIndex, Option.map_eq_none_iff]
  · exact fun rAddress a ha => (computeRAddressChunks_eq hzero hk rAddress).2 a ha
  · exact fun numThreads cycles rCycle hthreads hT => ⟨computeAllG_eq hbounds hthreads hT, collectRaIndices_eq p hT⟩

theorem chunks_and_pushforwards_small :
    @computeAllG (ZMod 7) (ZMod 7) _ ⟨id⟩ 3 ⟨4, 16, 5, 6⟩ [⟨0, 0, 77, 19, .some 33⟩, .noOp] [2, 3] =
      .some ((OneHotParams.polynomialTypes ⟨4, 16, 5, 6⟩).map fun poly => tableOf (2 ^ 4)
        (@pushforwardOf (ZMod 7) (ZMod 7) _ ⟨id⟩ ⟨4, 16, 5, 6⟩ [⟨0, 0, 77, 19, .some 33⟩, .noOp] [2, 3] poly)) :=
  ((@chunks_and_pushforwards (ZMod 7) (ZMod 7) _ ⟨id⟩ ⟨4, 16, 5, 6⟩ _ rfl ⟨4, 16⟩ (by decide) (2 ^ 5) (2 ^ 6)
    (by rw [OneHotParams.fromConfig, EqPolynomial.log2_pow, EqPolynomial.log2_pow]; rfl) (by decide)).2.2.2 3 _ _ (by decide) (by decide)).1

/-- A bytecode of `2 ^ 25` words has seven chunks of four bits, one more than the array has room for. -/
theorem ra_bounds_exceeded :
    OneHotConfig.validate ⟨4, 16⟩ = true ∧
      OneHotParams.fromConfig ⟨4, 16⟩ (2 ^ 25) (2 ^ 6) = .some ⟨4, 16, 25, 6⟩ ∧
      @computeAllG (ZMod 7) (ZMod 7) _ ⟨id⟩ 1 ⟨4, 16, 25, 6⟩ [.noOp] [] = .none := by
  refine ⟨by decide, ?_, if_neg (by decide)⟩
  rw [OneHotParams.fromConfig, EqPolynomial.log2_pow, EqPolynomial.log2_pow]
  rfl

end All

end LightningJolt
