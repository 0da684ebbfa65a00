/-
The memory layouts that `MemoryLayout::new` computes: the order of the
regions, and that their bounds are doubleword addresses.
-/
import LightningJolt.Device

namespace LightningJolt

/-- What holds of every layout a device can have. -/
structure MemoryLayout.WellFormed (l : MemoryLayout) : Prop where
  lowest_aligned : l.getLowestAddress % 8 = 0
  trustedStart_aligned : l.trustedAdviceStart % 8 = 0
  trustedEnd_aligned : l.trustedAdviceEnd % 8 = 0
  untrustedStart_aligned : l.untrustedAdviceStart % 8 = 0
  untrustedEnd_aligned : l.untrustedAdviceEnd % 8 = 0
  inputStart_aligned : l.inputStart % 8 = 0
  inputEnd_aligned : l.inputEnd % 8 = 0
  outputStart_eq : l.outputStart = l.inputEnd
  outputEnd_aligned : l.outputEnd % 8 = 0
  panic_eq : l.panic = l.outputEnd
  termination_eq : l.termination = l.panic + 8
  ioEnd_eq : l.ioEnd = l.panic + 16
  lowest_le_input : l.getLowestAddress ≤ l.inputStart
  input_le : l.inputStart ≤ l.inputEnd
  output_le : l.outputStart ≤ l.outputEnd
  trusted_le_input : l.trustedAdviceEnd ≤ l.inputStart
  untrusted_le_input : l.untrustedAdviceEnd ≤ l.inputStart
  lowest_add_le : l.getLowestAddress + 16 ≤ ramStartAddress
  ioEnd_le : l.ioEnd ≤ ramStartAddress
  stackEnd_ge : ramStartAddress ≤ l.stackEnd
  heapEnd_ge : l.stackEnd + stackCanarySize ≤ l.heapEnd
  heapEnd_lt : l.heapEnd < 2 ^ 64

theorem alignUp_mod {val align aligned : Nat} (halign : 0 < align)
    (h : alignUp val align = .some aligned) : aligned % align = 0 := by
  unfold alignUp at h
  split_ifs at h with hzero hmod
  · omega
  · cases h
    exact hmod
  · obtain ⟨-, rfl⟩ := checkedAdd_eq_some.mp h
    have hlt := Nat.mod_lt val halign
    have hsplit := Nat.div_add_mod val align
    have heq : val + (align - val % align) = align * (val / align + 1) := by
      rw [Nat.mul_add]
      omega
    rw [heq, Nat.mul_mod_right]

/-- The advice regions lie one behind the other from `ioBytes` below RAM, the
larger one first. -/
theorem adviceRegions_cases {ioBytes trusted untrusted ts te us ue : Nat}
    (h : adviceRegions ioBytes trusted untrusted = .some (ts, te, us, ue)) :
    ioBytes ≤ ramStartAddress ∧
      (untrusted ≤ trusted ∧
          ts = ramStartAddress - ioBytes ∧ te = ts + trusted ∧ us = te ∧ ue = us + untrusted ∨
        trusted < untrusted ∧
          us = ramStartAddress - ioBytes ∧ ue = us + untrusted ∧ ts = ue ∧ te = ts + trusted) := by
  unfold adviceRegions at h
  split_ifs at h with hle
  all_goals
    obtain ⟨start, hstart, h⟩ := Option.bind_eq_some_iff.mp h
    obtain ⟨first, hfirst, h⟩ := Option.bind_eq_some_iff.mp h
    obtain ⟨second, hsecond, h⟩ := Option.bind_eq_some_iff.mp h
    obtain ⟨hio, rfl⟩ := checkedSub_eq_some.mp hstart
    obtain ⟨-, rfl⟩ := checkedAdd_eq_some.mp hfirst
    obtain ⟨-, rfl⟩ := checkedAdd_eq_some.mp hsecond
    cases h
  · exact ⟨hio, .inl ⟨hle, rfl, rfl, rfl, rfl⟩⟩
  · exact ⟨hio, .inr ⟨by omega, rfl, rfl, rfl, rfl⟩⟩

/-- What `MemoryLayout::new` did to reach `l`: the sizes it rounded and
checked, and where it put the regions. -/
structure MemoryLayout.Placed (l : MemoryLayout) : Prop where
  trusted_aligned : l.maxTrustedAdviceSize % 8 = 0
  untrusted_aligned : l.maxUntrustedAdviceSize % 8 = 0
  input_aligned : l.maxInputSize % 8 = 0
  output_aligned : l.maxOutputSize % 8 = 0
  trusted_size : isPowerOfTwo l.maxTrustedAdviceSize ∨ l.maxTrustedAdviceSize = 0
  untrusted_size : isPowerOfTwo l.maxUntrustedAdviceSize ∨ l.maxUntrustedAdviceSize = 0
  advice : ∃ ioBytes,
    l.maxInputSize + l.maxTrustedAdviceSize + l.maxUntrustedAdviceSize + l.maxOutputSize + 16
      ≤ ioBytes ∧ 8 ∣ ioBytes ∧
    adviceRegions ioBytes l.maxTrustedAdviceSize l.maxUntrustedAdviceSize = .some
      (l.trustedAdviceStart, l.trustedAdviceEnd, l.untrustedAdviceStart, l.untrustedAdviceEnd)
  inputStart_eq : l.inputStart = max l.untrustedAdviceEnd l.trustedAdviceEnd
  inputEnd_eq : l.inputEnd = l.inputStart + l.maxInputSize
  outputStart_eq : l.outputStart = l.inputEnd
  outputEnd_eq : l.outputEnd = l.outputStart + l.maxOutputSize
  panic_eq : l.panic = l.outputEnd
  termination_eq : l.termination = l.panic + 8
  ioEnd_eq : l.ioEnd = l.termination + 8
  stackEnd_ge : ramStartAddress ≤ l.stackEnd
  heapEnd_ge : l.stackEnd + stackCanarySize ≤ l.heapEnd
  heapEnd_lt : l.heapEnd < 2 ^ 64
  heapSize_le : l.heapSize ≤ l.heapEnd
  sizes_lt : l.maxInputSize + l.maxTrustedAdviceSize + l.maxUntrustedAdviceSize +
    l.maxOutputSize + 16 < 2 ^ 64

theorem MemoryLayout.new_placed {config : MemoryConfig} {l : MemoryLayout}
    (h : MemoryLayout.new config = .some l) : l.Placed := by
  unfold MemoryLayout.new at h
  obtain ⟨program, -, h⟩ := Option.bind_eq_some_iff.mp h
  obtain ⟨trusted, htrusted, h⟩ := Option.bind_eq_some_iff.mp h
  obtain ⟨untrusted, huntrusted, h⟩ := Option.bind_eq_some_iff.mp h
  obtain ⟨input, hinput, h⟩ := Option.bind_eq_some_iff.mp h
  obtain ⟨output, houtput, h⟩ := Option.bind_eq_some_iff.mp h
  obtain ⟨stack, -, h⟩ := Option.bind_eq_some_iff.mp h
  obtain ⟨heap, -, h⟩ := Option.bind_eq_some_iff.mp h
  obtain ⟨_, htrustedPow, h⟩ := Option.bind_eq_some_iff.mp h
  obtain ⟨_, huntrustedPow, h⟩ := Option.bind_eq_some_iff.mp h
  obtain ⟨s1, hs1, h⟩ := Option.bind_eq_some_iff.mp h
  obtain ⟨s2, hs2, h⟩ := Option.bind_eq_some_iff.mp h
  obtain ⟨s3, hs3, h⟩ := Option.bind_eq_some_iff.mp h
  obtain ⟨region, hregion, h⟩ := Option.bind_eq_some_iff.mp h
  obtain ⟨ioBytes, hioBytes, h⟩ := Option.bind_eq_some_iff.mp h
  obtain ⟨⟨ts, te, us, ue⟩, hadvice, h⟩ := Option.bind_eq_some_iff.mp h
  obtain ⟨inputEnd, hinputEnd, h⟩ := Option.bind_eq_some_iff.mp h
  obtain ⟨outputEnd, houtputEnd, h⟩ := Option.bind_eq_some_iff.mp h
  obtain ⟨termination, htermination, h⟩ := Option.bind_eq_some_iff.mp h
  obtain ⟨ioEnd, hioEnd, h⟩ := Option.bind_eq_some_iff.mp h
  obtain ⟨stackEnd, hstackEnd, h⟩ := Option.bind_eq_some_iff.mp h
  obtain ⟨start1, hstart1, h⟩ := Option.bind_eq_some_iff.mp h
  obtain ⟨start2, hstart2, h⟩ := Option.bind_eq_some_iff.mp h
  obtain ⟨heapEnd, hheapEnd, h⟩ := Option.bind_eq_some_iff.mp h
  cases h
  have htrusted8 := alignUp_mod (by decide) htrusted
  have huntrusted8 := alignUp_mod (by decide) huntrusted
  have hinput8 := alignUp_mod (by decide) hinput
  have houtput8 := alignUp_mod (by decide) houtput
  obtain ⟨-, rfl⟩ := checkedAdd_eq_some.mp hs1
  obtain ⟨-, rfl⟩ := checkedAdd_eq_some.mp hs2
  obtain ⟨-, rfl⟩ := checkedAdd_eq_some.mp hs3
  obtain ⟨hsizes, rfl⟩ := checkedAdd_eq_some.mp hregion
  obtain ⟨-, rfl⟩ := checkedMul_eq_some.mp hioBytes
  obtain ⟨-, rfl⟩ := checkedAdd_eq_some.mp hinputEnd
  obtain ⟨-, rfl⟩ := checkedAdd_eq_some.mp houtputEnd
  obtain ⟨-, rfl⟩ := checkedAdd_eq_some.mp htermination
  obtain ⟨-, rfl⟩ := checkedAdd_eq_some.mp hioEnd
  obtain ⟨-, rfl⟩ := checkedAdd_eq_some.mp hstackEnd
  obtain ⟨-, rfl⟩ := checkedAdd_eq_some.mp hstart1
  obtain ⟨-, rfl⟩ := checkedAdd_eq_some.mp hstart2
  obtain ⟨hheap, rfl⟩ := checkedAdd_eq_some.mp hheapEnd
  have hpow := le_nextPowerOfTwo ((input + trusted + untrusted + output + 16) / 8)
  have hcanary : stackCanarySize = 128 := rfl
  simp only [Option.guard_eq_some', Bool.or_eq_true, beq_iff_eq] at htrustedPow huntrustedPow
  exact {
    trusted_aligned := htrusted8
    untrusted_aligned := huntrusted8
    input_aligned := hinput8
    output_aligned := houtput8
    trusted_size := htrustedPow
    untrusted_size := huntrustedPow
    advice := ⟨_, by simp only; omega, Nat.dvd_mul_left 8 _, hadvice⟩
    inputStart_eq := rfl
    inputEnd_eq := rfl
    outputStart_eq := rfl
    outputEnd_eq := rfl
    panic_eq := rfl
    termination_eq := rfl
    ioEnd_eq := rfl
    stackEnd_ge := by simp only; omega
    heapEnd_ge := by simp only; omega
    heapEnd_lt := hheap
    heapSize_le := by simp only; omega
    sizes_lt := hsizes }

theorem MemoryLayout.Placed.wellFormed {l : MemoryLayout} (h : l.Placed) : l.WellFormed := by
  obtain ⟨ioBytes, hbytes, hdvd, hadvice⟩ := h.advice
  obtain ⟨hio, hregions⟩ := adviceRegions_cases hadvice
  obtain ⟨dwords, rfl⟩ := hdvd
  obtain ⟨ht, hu, hin, hout, -, -, -, hi, hie, ho, hoe, hp, htm, hioe, hse, hhe, hhl⟩ := h
  have hram : ramStartAddress = 8 * 268435456 := rfl
  have hcanary : stackCanarySize = 128 := rfl
  have hlowest : l.getLowestAddress = ramStartAddress - 8 * dwords := by
    simp only [MemoryLayout.getLowestAddress]
    omega
  have hinputStart : l.inputStart
      = l.getLowestAddress + l.maxTrustedAdviceSize + l.maxUntrustedAdviceSize := by
    omega
  constructor <;> omega

theorem MemoryLayout.new_wellFormed {config : MemoryConfig} {l : MemoryLayout}
    (h : MemoryLayout.new config = .some l) : l.WellFormed :=
  (MemoryLayout.new_placed h).wellFormed

theorem JoltDevice.wellFormed (d : JoltDevice) : d.memoryLayout.WellFormed := by
  obtain ⟨config, h⟩ := d.laidOut
  exact MemoryLayout.new_wellFormed h

end LightningJolt
