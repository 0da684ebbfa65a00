/-
The address space as `MemoryLayout::new` divides it
(`common/src/jolt_device.rs`): the I/O regions and RAM are disjoint doubleword
ranges, each nonempty advice region starts at a multiple of its own length, and
the predicates of `JoltDevice` classify each address of an I/O region once.
-/
import LightningJolt.Layout

namespace LightningJolt

/-- The addresses from `start` up to `stop`, without it. -/
structure Region where
  start : Nat
  stop : Nat
  deriving DecidableEq

namespace Region

def Contains (r : Region) (address : Nat) : Prop := r.start ≤ address ∧ address < r.stop

/-- The length in doublewords. -/
def dwords (r : Region) : Nat := (r.stop - r.start) / 8

/-- Every address of `r` is below every address of `s`. -/
def Before (r s : Region) : Prop := r.stop ≤ s.start

def Disjoint (r s : Region) : Prop := ∀ address, ¬ (r.Contains address ∧ s.Contains address)

instance (r s : Region) : Decidable (r.Before s) := inferInstanceAs (Decidable (_ ≤ _))

theorem Before.disjoint {r s : Region} (h : r.Before s) : r.Disjoint s := by
  rintro address ⟨hr, hs⟩
  simp only [Before, Contains] at h hr hs
  omega

theorem Disjoint.symm {r s : Region} (h : r.Disjoint s) : s.Disjoint r :=
  fun address hboth => h address hboth.symm

end Region

namespace MemoryLayout

variable (l : MemoryLayout)

def trustedAdviceRegion : Region := ⟨l.trustedAdviceStart, l.trustedAdviceEnd⟩
def untrustedAdviceRegion : Region := ⟨l.untrustedAdviceStart, l.untrustedAdviceEnd⟩
def inputRegion : Region := ⟨l.inputStart, l.inputEnd⟩
def outputRegion : Region := ⟨l.outputStart, l.outputEnd⟩
def panicRegion : Region := ⟨l.panic, l.panic + 8⟩
def terminationRegion : Region := ⟨l.termination, l.termination + 8⟩

/-- RAM, up to the last `u64` address. -/
def ramRegion : Region := ⟨ramStartAddress, 2 ^ 64⟩

/-- The I/O regions above the advice. -/
def upperRegions : List Region :=
  [l.inputRegion, l.outputRegion, l.panicRegion, l.terminationRegion]

/-- Trusted advice, untrusted advice, and then the rest. -/
def ioRegions : List Region := l.trustedAdviceRegion :: l.untrustedAdviceRegion :: l.upperRegions

def regions : List Region := l.ioRegions ++ [ramRegion]

/-- The regions with the larger advice region first, the trusted one on a tie. -/
def regionsBySize : List Region :=
  if l.maxUntrustedAdviceSize ≤ l.maxTrustedAdviceSize then l.regions
  else l.untrustedAdviceRegion :: l.trustedAdviceRegion :: (l.upperRegions ++ [ramRegion])

/-- The region starts at a doubleword index, counted from the lowest address,
that is a multiple of its length, a power of two. -/
def AlignedToLength (r : Region) : Prop :=
  (∃ k, r.dwords = 2 ^ k) ∧ r.dwords ∣ (r.start - l.getLowestAddress) / 8

end MemoryLayout

/-- What each predicate of the device says of an address; an output address is
counted as one only where it is no panic address. -/
def JoltDevice.classes (d : JoltDevice) (address : Nat) : List Bool :=
  [d.isInput address, d.isTrustedAdvice address, d.isUntrustedAdvice address,
    d.isOutput address && !d.isPanic address, d.isPanic address, d.isTermination address]

/-- The layout divides the address space, its regions lying in the order of
the list `order`. -/
structure MemoryLayout.Partitions (l : MemoryLayout) (order : List Region) : Prop where
  disjoint : l.regions.Pairwise Region.Disjoint
  aligned : ∀ r ∈ l.regions, r.start % 8 = 0 ∧ r.stop % 8 = 0
  increasing : order.Pairwise Region.Before
  ioEnd_le : l.ioEnd ≤ ramStartAddress
  advice_aligned : ∀ r ∈ [l.trustedAdviceRegion, l.untrustedAdviceRegion],
    r.start < r.stop → l.AlignedToLength r
  classified : ∀ d : JoltDevice, d.memoryLayout = l → ∀ r ∈ l.ioRegions, ∀ address,
    r.Contains address → (d.classes address).count true = 1

/-! ## Powers of two -/

theorem eq_pow_of_isPowerOfTwo {n : Nat} (h : isPowerOfTwo n) : ∃ k, n = 2 ^ k := by
  simp only [isPowerOfTwo, Bool.and_eq_true, bne_iff_ne, beq_iff_eq] at h
  exact Nat.ne_zero_and_sub_one_eq_zero_iff_isPowerOfTwo.mp h

theorem pow_dvd_of_le {m n : Nat} (h : 2 ^ m ≤ 2 ^ n) : 2 ^ m ∣ 2 ^ n :=
  Nat.pow_dvd_pow 2 ((Nat.pow_le_pow_iff_right (by decide)).mp h)

/-- A nonzero size the layout admits for an advice region is a power of two
of doublewords. -/
theorem advice_size_eq {size : Nat} (haligned : size % 8 = 0)
    (hsize : isPowerOfTwo size ∨ size = 0) (hpos : 0 < size) : ∃ k, size = 8 * 2 ^ k := by
  obtain ⟨k, rfl⟩ := eq_pow_of_isPowerOfTwo (hsize.resolve_right (by omega))
  have hk : 3 ≤ k := by
    by_contra hlt
    have : k = 0 ∨ k = 1 ∨ k = 2 := by omega
    rcases this with rfl | rfl | rfl <;> simp at haligned
  refine ⟨k - 3, ?_⟩
  rw [show (8 : Nat) = 2 ^ 3 from rfl, ← Nat.pow_add]
  congr 1
  omega

/-! ## The partition -/

namespace MemoryLayout

variable {l : MemoryLayout}

/-- Where the advice regions lie: the one of the larger size at the lowest
address, the other one behind it. -/
theorem Placed.advice_cases (h : l.Placed) :
    l.maxUntrustedAdviceSize ≤ l.maxTrustedAdviceSize ∧
        l.trustedAdviceRegion = ⟨l.getLowestAddress, l.getLowestAddress + l.maxTrustedAdviceSize⟩ ∧
        l.untrustedAdviceRegion = ⟨l.getLowestAddress + l.maxTrustedAdviceSize,
          l.getLowestAddress + l.maxTrustedAdviceSize + l.maxUntrustedAdviceSize⟩ ∨
      l.maxTrustedAdviceSize < l.maxUntrustedAdviceSize ∧
        l.untrustedAdviceRegion =
          ⟨l.getLowestAddress, l.getLowestAddress + l.maxUntrustedAdviceSize⟩ ∧
        l.trustedAdviceRegion = ⟨l.getLowestAddress + l.maxUntrustedAdviceSize,
          l.getLowestAddress + l.maxUntrustedAdviceSize + l.maxTrustedAdviceSize⟩ := by
  obtain ⟨ioBytes, -, -, hadvice⟩ := h.advice
  obtain ⟨-, ⟨hle, hts, hte, hus, hue⟩ | ⟨hlt, hus, hue, hts, hte⟩⟩ := adviceRegions_cases hadvice
  · refine .inl ⟨hle, ?_⟩
    have hlowest : l.getLowestAddress = l.trustedAdviceStart := by
      simp only [getLowestAddress]
      omega
    simp only [trustedAdviceRegion, untrustedAdviceRegion, hlowest, hus, hte, hue, and_self]
  · refine .inr ⟨hlt, ?_⟩
    have hlowest : l.getLowestAddress = l.untrustedAdviceStart := by
      simp only [getLowestAddress]
      omega
    simp only [trustedAdviceRegion, untrustedAdviceRegion, hlowest, hts, hte, hue, and_self]

/-- A region of a size the layout admits is aligned to its length where it
starts at the lowest address, or behind a region of a larger such size. -/
theorem alignedToLength_of_behind {size before : Nat} (haligned : size % 8 = 0)
    (hsize : isPowerOfTwo size ∨ size = 0) (hbefore : before = 0 ∨ size ≤ before ∧
      before % 8 = 0 ∧ (isPowerOfTwo before ∨ before = 0)) (hpos : 0 < size) :
    l.AlignedToLength
      ⟨l.getLowestAddress + before, l.getLowestAddress + before + size⟩ := by
  obtain ⟨k, rfl⟩ := advice_size_eq haligned hsize hpos
  have hdwords : Region.dwords
      ⟨l.getLowestAddress + before, l.getLowestAddress + before + 8 * 2 ^ k⟩ = 2 ^ k := by
    simp only [Region.dwords]
    omega
  refine ⟨⟨k, hdwords⟩, ?_⟩
  rw [hdwords, Nat.add_sub_cancel_left]
  rcases hbefore with rfl | ⟨hle, hbefore8, hbefore⟩
  · exact Nat.dvd_zero _
  · obtain ⟨n, rfl⟩ := advice_size_eq hbefore8 hbefore (by omega)
    rw [Nat.mul_div_cancel_left _ (by decide)]
    exact pow_dvd_of_le (by omega)

theorem Placed.advice_aligned (h : l.Placed) {r : Region}
    (hr : r ∈ [l.trustedAdviceRegion, l.untrustedAdviceRegion]) (hne : r.start < r.stop) :
    l.AlignedToLength r := by
  have hfirst := fun size (h8 : size % 8 = 0) (hs : isPowerOfTwo size ∨ size = 0) =>
    alignedToLength_of_behind (l := l) h8 hs (.inl rfl)
  simp only [List.mem_cons, List.not_mem_nil, or_false] at hr
  rcases h.advice_cases with ⟨hle, ht, hu⟩ | ⟨hlt, hu, ht⟩
  · rcases hr with rfl | rfl
    · rw [ht] at hne ⊢
      exact hfirst _ h.trusted_aligned h.trusted_size (by simp only at hne; omega)
    · rw [hu] at hne ⊢
      exact alignedToLength_of_behind h.untrusted_aligned h.untrusted_size
        (.inr ⟨hle, h.trusted_aligned, h.trusted_size⟩) (by simp only at hne; omega)
  · rcases hr with rfl | rfl
    · rw [ht] at hne ⊢
      exact alignedToLength_of_behind h.trusted_aligned h.trusted_size
        (.inr ⟨by omega, h.untrusted_aligned, h.untrusted_size⟩) (by simp only at hne; omega)
    · rw [hu] at hne ⊢
      exact hfirst _ h.untrusted_aligned h.untrusted_size (by simp only at hne; omega)

theorem regions_perm : l.regionsBySize.Perm l.regions := by
  unfold regionsBySize
  split
  · exact .refl _
  · exact .swap _ _ _

theorem Placed.increasing (h : l.Placed) : l.regionsBySize.Pairwise Region.Before := by
  have hwf := h.wellFormed
  have hinput := h.inputStart_eq
  have hupper : (l.upperRegions ++ [ramRegion]).Pairwise Region.Before := by
    simp only [upperRegions, inputRegion, outputRegion, panicRegion, terminationRegion, ramRegion,
      List.cons_append, List.nil_append, List.pairwise_cons, List.mem_cons, List.not_mem_nil,
      or_false, forall_eq_or_imp, forall_eq, Region.Before]
    obtain ⟨-, -, -, -, -, -, -, ho, -, hp, ht, hio, -, hin, hout, -, -, -, hle, -, -, -⟩ := hwf
    refine ⟨⟨?_, ?_, ?_, ?_⟩, ⟨?_, ?_, ?_⟩, ⟨?_, ?_⟩, ?_, nofun, .nil⟩ <;> omega
  -- Every upper region starts at or above the input.
  have habove : ∀ r ∈ l.upperRegions ++ [ramRegion], l.inputStart ≤ r.start := by
    simp only [upperRegions, inputRegion, outputRegion, panicRegion, terminationRegion, ramRegion,
      List.cons_append, List.nil_append, List.mem_cons, List.not_mem_nil, or_false,
      forall_eq_or_imp, forall_eq]
    obtain ⟨-, -, -, -, -, -, -, ho, -, hp, ht, hio, -, hin, hout, -, -, -, hle, -, -, -⟩ := hwf
    refine ⟨?_, ?_, ?_, ?_, ?_⟩ <;> omega
  have htrusted : ∀ r ∈ l.upperRegions ++ [ramRegion], l.trustedAdviceRegion.Before r :=
    fun r hr => le_trans hwf.trusted_le_input (habove r hr)
  have huntrusted : ∀ r ∈ l.upperRegions ++ [ramRegion], l.untrustedAdviceRegion.Before r :=
    fun r hr => le_trans hwf.untrusted_le_input (habove r hr)
  rcases h.advice_cases with ⟨hle, ht, hu⟩ | ⟨hlt, hu, ht⟩
  · rw [regionsBySize, if_pos hle]
    refine .cons (fun r hr => ?_) (.cons huntrusted hupper)
    rcases List.mem_cons.mp hr with rfl | hr
    · rw [ht, hu, Region.Before]
    · exact htrusted r hr
  · rw [regionsBySize, if_neg (by omega)]
    refine .cons (fun r hr => ?_) (.cons htrusted hupper)
    rcases List.mem_cons.mp hr with rfl | hr
    · rw [ht, hu, Region.Before]
    · exact huntrusted r hr

theorem Placed.disjoint (h : l.Placed) : l.regions.Pairwise Region.Disjoint :=
  (regions_perm.pairwise_iff Region.Disjoint.symm).mp
    (h.increasing.imp Region.Before.disjoint)

theorem WellFormed.regions_aligned (h : l.WellFormed) {r : Region} (hr : r ∈ l.regions) :
    r.start % 8 = 0 ∧ r.stop % 8 = 0 := by
  simp only [regions, ioRegions, upperRegions, List.cons_append, List.nil_append, List.mem_cons,
    List.not_mem_nil, or_false] at hr
  have houtput := h.outputStart_eq
  have hpanic := h.panic_eq
  have htermination := h.termination_eq
  rcases hr with rfl | rfl | rfl | rfl | rfl | rfl | rfl
  · exact ⟨h.trustedStart_aligned, h.trustedEnd_aligned⟩
  · exact ⟨h.untrustedStart_aligned, h.untrustedEnd_aligned⟩
  · exact ⟨h.inputStart_aligned, h.inputEnd_aligned⟩
  · exact ⟨(congrArg (· % 8) houtput).trans h.inputEnd_aligned, h.outputEnd_aligned⟩
  · have hend := h.outputEnd_aligned
    simp only [panicRegion]
    omega
  · have hend := h.outputEnd_aligned
    simp only [terminationRegion]
    omega
  · exact ⟨rfl, rfl⟩

/-- What the predicates say, as membership in the regions. -/
theorem WellFormed.classes_eq (h : l.WellFormed) {d : JoltDevice} (hd : d.memoryLayout = l)
    (address : Nat) : d.classes address =
      [l.inputRegion, l.trustedAdviceRegion, l.untrustedAdviceRegion, l.outputRegion,
        l.panicRegion, l.terminationRegion].map
          fun r => decide (r.start ≤ address) && decide (address < r.stop) := by
  subst hd
  have hpanic := h.panic_eq
  have htermination := h.termination_eq
  have hio := h.ioEnd_eq
  have hle := h.output_le
  simp only [JoltDevice.classes, JoltDevice.isInput, JoltDevice.isTrustedAdvice,
    JoltDevice.isUntrustedAdvice, JoltDevice.isOutput, JoltDevice.isPanic,
    JoltDevice.isTermination, List.map_cons, List.map_nil, inputRegion, trustedAdviceRegion,
    untrustedAdviceRegion, outputRegion, panicRegion, terminationRegion, List.cons.injEq,
    and_true, true_and]
  refine ⟨?_, ?_, ?_⟩
  · rw [Bool.eq_iff_iff]
    simp only [Bool.and_eq_true, Bool.not_eq_true', Bool.and_eq_false_iff, decide_eq_true_eq,
      decide_eq_false_iff_not]
    omega
  · rw [htermination]
  · rw [hio, htermination]

/-- Of pairwise disjoint regions an address lies in one at most. -/
theorem count_contains {address : Nat} : ∀ {rs : List Region}, rs.Pairwise Region.Disjoint →
    ∀ {r : Region}, r ∈ rs → r.Contains address →
      (rs.map fun r => decide (r.start ≤ address) && decide (address < r.stop)).count true = 1
  | [], _, _, hr, _ => absurd hr List.not_mem_nil
  | s :: rs, hdisjoint, r, hr, hin => by
    obtain ⟨hs, hrs⟩ := List.pairwise_cons.mp hdisjoint
    rcases List.mem_cons.mp hr with rfl | hr
    · have hnone : (rs.map fun r => decide (r.start ≤ address) && decide (address < r.stop)).count
          true = 0 := by
        rw [List.count_eq_zero]
        intro hmem
        obtain ⟨t, ht, heq⟩ := List.mem_map.mp hmem
        simp only [Bool.and_eq_true, decide_eq_true_eq] at heq
        exact hs t ht address ⟨hin, heq⟩
      simp only [List.map_cons, List.count_cons, hnone, hin.1, hin.2, decide_true, Bool.and_true,
        beq_self_eq_true, if_true]
    · have hnot : (decide (s.start ≤ address) && decide (address < s.stop)) = false := by
        by_contra hs'
        simp only [Bool.not_eq_false, Bool.and_eq_true, decide_eq_true_eq] at hs'
        exact hs r hr address ⟨hs', hin⟩
      rw [List.map_cons, List.count_cons, count_contains hrs hr hin, hnot]
      rfl

/-- An address of the I/O part lies in one region, and the predicates tell
which. -/
theorem Placed.classified (h : l.Placed) {d : JoltDevice} (hd : d.memoryLayout = l) {r : Region}
    (hr : r ∈ l.ioRegions) {address : Nat} (haddress : r.Contains address) :
    (d.classes address).count true = 1 := by
  have hdisjoint := (List.pairwise_append.mp h.disjoint).1
  rw [h.wellFormed.classes_eq hd address]
  -- The predicates are listed with the input before the advice.
  have hperm : l.ioRegions.Perm [l.inputRegion, l.trustedAdviceRegion, l.untrustedAdviceRegion,
      l.outputRegion, l.panicRegion, l.terminationRegion] :=
    (List.Perm.cons _ (.swap _ _ _)).trans (.swap _ _ _)
  exact count_contains ((hperm.pairwise_iff Region.Disjoint.symm).mp hdisjoint)
    (hperm.mem_iff.mp hr) haddress

/-- **`MemoryLayout::new` partitions the address space**, the larger advice
region lying first. -/
theorem new_partitions {config : MemoryConfig} (h : MemoryLayout.new config = .some l) :
    l.Partitions l.regionsBySize := by
  have hplaced := new_placed h
  have hwf := hplaced.wellFormed
  exact {
    disjoint := hplaced.disjoint
    aligned := fun r hr => hwf.regions_aligned hr
    increasing := hplaced.increasing
    ioEnd_le := hwf.ioEnd_le
    advice_aligned := fun r hr hne => hplaced.advice_aligned hr hne
    classified := fun d hd r hr address haddress => hplaced.classified hd hr haddress }

/-- The trusted advice does not always precede the untrusted. -/
theorem untrustedFirst_not_partitions :
    ¬ ∀ config l, MemoryLayout.new config = .some l → l.Partitions l.regions := by
  intro h
  have hnew := h {
    maxInputSize := 0, maxTrustedAdviceSize := 8, maxUntrustedAdviceSize := 16, maxOutputSize := 0
    stackSize := 0, heapSize := 0, programSize := .some 0 } _ rfl
  have hbefore := (List.pairwise_cons.mp hnew.increasing).1 _ List.mem_cons_self
  revert hbefore
  decide

theorem new_partitions_unequal : ∃ config l, MemoryLayout.new config = .some l ∧
    config.maxTrustedAdviceSize < config.maxUntrustedAdviceSize ∧ l.Partitions l.regionsBySize := by
  have hnew : ∃ l, MemoryLayout.new {
      maxInputSize := 20, maxTrustedAdviceSize := 8, maxUntrustedAdviceSize := 16, maxOutputSize := 9
      stackSize := 4096, heapSize := 32768, programSize := .some 8190 } = .some l := ⟨_, rfl⟩
  obtain ⟨l, hl⟩ := hnew
  exact ⟨_, l, hl, by decide, new_partitions hl⟩

end MemoryLayout

end LightningJolt
