/-
`JoltVerifier::new` with its errors apart from its panics: which proofs and
devices it answers, and what holds of the parameters it derives when it
accepts.
-/
import LightningJolt.IoMle
import LightningJolt.Preamble
import LightningJolt.RamInit
import LightningJolt.SparseEval
import LightningJolt.UniPoly

namespace LightningJolt

open EqPolynomial (isPowerOfTwo_pow log2_pow)

/-! ## The construction

The outer `none` is a panic. -/

namespace BuildProfile

/-- `usize::next_power_of_two`, which is zero where it overflows. -/
def nextPowerOfTwoUsize (π : BuildProfile) (n : Nat) : Option Nat :=
  if n ≤ 2 ^ 63 then .some (nextPowerOfTwo n) else if π.overflowChecks then .none else .some 0

/-- `usize` multiplication. -/
def mulUsize (π : BuildProfile) (a b : Nat) : Option Nat :=
  if a * b < 2 ^ 64 then .some (a * b) else if π.overflowChecks then .none else .some (a * b % 2 ^ 64)

end BuildProfile

/-- `UniformSpartanKey`, but for its digest. -/
structure UniformSpartanKey where
  numConsTotal : Nat
  numSteps : Nat
deriving DecidableEq

namespace UniformSpartanKey

/-- `num_rows_per_step`, the number of constraints. -/
def numRowsPerStep : Nat := 19

def new (π : BuildProfile) (numSteps : Nat) : Option UniformSpartanKey :=
  if isPowerOfTwo numSteps then do
    let rowsPerStepPadded ← π.nextPowerOfTwoUsize numRowsPerStep
    let totalRows ← π.nextPowerOfTwoUsize (← π.mulUsize numSteps rowsPerStepPadded)
    .some { numConsTotal := totalRows, numSteps }
  else .none

end UniformSpartanKey

/-- The errors of `ProofVerifyError` that the construction returns. -/
inductive SetupError
  | InputTooLarge
  | OutputTooLarge
  | MemoryLayoutMismatch
  | InvalidReadWriteConfig (message : String)
  | InvalidOneHotConfig (message : String)
  | InvalidRamK (ramK minRamK : Nat)
deriving DecidableEq

/-- `validate`, with its messages. -/
def ReadWriteConfig.check (c : ReadWriteConfig) (logT ramLogK : Nat) : Except String Unit :=
  if logT < c.ramRwPhase1NumRounds.toNat then
    .error s!"ram_rw_phase1_num_rounds ({c.ramRwPhase1NumRounds.toNat}) exceeds log_T ({logT})"
  else if ramLogK < c.ramRwPhase2NumRounds.toNat then
    .error s!"ram_rw_phase2_num_rounds ({c.ramRwPhase2NumRounds.toNat}) exceeds log_ram_K ({ramLogK})"
  else if logT < c.registersRwPhase1NumRounds.toNat then
    .error s!"registers_rw_phase1_num_rounds ({c.registersRwPhase1NumRounds.toNat}) exceeds log_T ({logT})"
  else if 7 < c.registersRwPhase2NumRounds.toNat then
    .error s!"registers_rw_phase2_num_rounds ({c.registersRwPhase2NumRounds.toNat}) exceeds log_register_count ({7})"
  else .ok ()

/-- `validate`, with its messages. -/
def OneHotConfig.check (config : OneHotConfig) : Except String Unit :=
  let logKChunk := config.logKChunk
  let lookupsChunk := config.lookupsRaVirtualLogKChunk
  if logKChunk ≠ 4 ∧ logKChunk ≠ 8 then .error s!"log_k_chunk ({logKChunk}) must be either 4 or 8"
  else if lookupsChunk < logKChunk then
    .error s!"lookups_ra_virtual_log_k_chunk ({lookupsChunk}) must be >= log_k_chunk ({logKChunk})"
  else if lookupsLogK < lookupsChunk then
    .error s!"lookups_ra_virtual_log_k_chunk ({lookupsChunk}) must be <= LOG_K ({lookupsLogK})"
  else if lookupsChunk % logKChunk ≠ 0 then
    .error s!"lookups_ra_virtual_log_k_chunk ({lookupsChunk}) must be a multiple of log_k_chunk ({logKChunk})"
  else if lookupsLogK % lookupsChunk ≠ 0 then
    .error s!"LOG_K ({lookupsLogK}) must be divisible by lookups_ra_virtual_log_k_chunk ({lookupsChunk})"
  else .ok ()

/-- What the construction derives: the `log_T` of the openings, the key and the parameters. -/
structure VerifierSetup (K : Type) where
  verifier : JoltVerifier K
  logT : Nat
  spartanKey : UniformSpartanKey
  oneHotParams : OneHotParams

section Construction

variable {K : Type}

/-- The end of `JoltVerifier::new`: the validation of the configurations, and the parameters. -/
def VerifierSetup.validated (v : JoltVerifier K) (logT : Nat) (spartanKey : UniformSpartanKey) :
    Option (Except SetupError (VerifierSetup K)) :=
  match v.proof.oneHotConfig.check with
  | .error message => .some (.error (.InvalidOneHotConfig message))
  | .ok () => do
    let minRamK ← computeMinRamK v.preprocessing.ram v.preprocessing.memoryLayout
    if ¬ (isPowerOfTwo v.proof.ramK.toNat ∧ minRamK ≤ v.proof.ramK.toNat) then
      .some (.error (.InvalidRamK v.proof.ramK.toNat minRamK))
    else do
      let ramLogK ← log2 v.proof.ramK.toNat
      match v.proof.rwConfig.check logT ramLogK with
      | .error message => .some (.error (.InvalidReadWriteConfig message))
      | .ok () => do
        let oneHotParams ← OneHotParams.fromConfig v.proof.oneHotConfig v.preprocessing.codeSize v.proof.ramK.toNat
        .some (.ok ⟨v, logT, spartanKey, oneHotParams⟩)

/-- `JoltVerifier::new`. -/
def VerifierSetup.new (π : BuildProfile) (preprocessing : JoltVerifierPreprocessing) (proof : JoltProof K)
    (programIo : JoltDevice) (trustedAdviceCommitment : Option K) : Option (Except SetupError (VerifierSetup K)) :=
  if programIo.memoryLayout ≠ preprocessing.memoryLayout then .some (.error .MemoryLayoutMismatch)
  else if preprocessing.memoryLayout.maxInputSize < programIo.inputs.length then .some (.error .InputTooLarge)
  else if preprocessing.memoryLayout.maxOutputSize < programIo.outputs.length then .some (.error .OutputTooLarge)
  else do
    -- Trailing zeros of the outputs are cut off.
    let programIo := { programIo with outputs := programIo.outputs.rdropWhile (· = 0) }
    let logT ← log2 proof.traceLength.toNat
    let spartanKey ← UniformSpartanKey.new π (← π.nextPowerOfTwoUsize proof.traceLength.toNat)
    VerifierSetup.validated { trustedAdviceCommitment, programIo, proof, preprocessing } logT spartanKey

/-! ## What is promised of it -/

/-- `d` chunks of the size are as many as a logarithm needs. -/
def ChunkCovers (chunk d logK : Nat) : Prop := logK ≤ d * chunk ∧ d * chunk < logK + chunk

/-- The trace length is a power of two, not below the least that is assumed of it, and every
derived parameter is in its range. -/
structure VerifierSetup.InRange (minTrace : Nat) (s : VerifierSetup K) : Prop where
  assumed : minTrace ≤ s.verifier.proof.traceLength.toNat
  traceLength : s.verifier.proof.traceLength.toNat = 2 ^ s.logT
  logT : s.logT < 64
  numSteps : s.spartanKey.numSteps = 2 ^ s.logT
  numConsTotal : s.spartanKey.numConsTotal = 32 * 2 ^ s.logT
  ramK : s.verifier.proof.ramK.toNat = 2 ^ s.oneHotParams.ramLogK
  ramLogK : s.oneHotParams.ramLogK < 64
  phases : s.verifier.proof.rwConfig.validate s.logT s.oneHotParams.ramLogK
  logKChunk : s.oneHotParams.logKChunk = 4 ∨ s.oneHotParams.logKChunk = 8
  virtualChunk : s.oneHotParams.logKChunk ∣ s.oneHotParams.lookupsRaVirtualLogKChunk ∧
    s.oneHotParams.lookupsRaVirtualLogKChunk ∣ lookupsLogK
  instructionD : s.oneHotParams.instructionD * s.oneHotParams.logKChunk = lookupsLogK
  bytecodeD : ChunkCovers s.oneHotParams.logKChunk s.oneHotParams.bytecodeD s.oneHotParams.bytecodeLogK
  ramD : ChunkCovers s.oneHotParams.logKChunk s.oneHotParams.ramD s.oneHotParams.ramLogK

/-- The construction answers, and only with parameters in range when it accepts. -/
def Sound (minTrace : Nat) : Option (Except SetupError (VerifierSetup K)) → Prop
  | .none => False
  | .some (.error _) => True
  | .some (.ok s) => s.InRange minTrace

/-- The device is refused before the proof is looked at. -/
def DeviceRefused (preprocessing : JoltVerifierPreprocessing) (programIo : JoltDevice) : Prop :=
  programIo.memoryLayout ≠ preprocessing.memoryLayout ∨
    preprocessing.memoryLayout.maxInputSize < programIo.inputs.length ∨
    preprocessing.memoryLayout.maxOutputSize < programIo.outputs.length

/-- The trace length has a logarithm and a next power of two, and in a build with overflow checks
the rows of so many steps can be counted. -/
def TraceCounted (π : BuildProfile) (traceLength : Nat) : Prop :=
  traceLength ≠ 0 ∧ traceLength ≤ 2 ^ 63 ∧ (π.overflowChecks = true → nextPowerOfTwo traceLength * 32 < 2 ^ 64)

/-- The trace length is what the later stages take it to be, and the bytecode is not empty. -/
def TraceAssumed (minTrace traceLength codeSize : Nat) : Prop :=
  isPowerOfTwo traceLength ∧ minTrace ≤ traceLength ∧ traceLength * 32 < 2 ^ 64 ∧ codeSize ≠ 0

/-- One of the checks after the key refuses the proof, or none does and the trace length is as
assumed. -/
def ProofRefusedOr (preprocessing : JoltVerifierPreprocessing) (proof : JoltProof K) (accepted : Prop) : Prop :=
  proof.oneHotConfig.validate = false ∨
    ∃ minRamK, computeMinRamK preprocessing.ram preprocessing.memoryLayout = .some minRamK ∧
      (¬ (isPowerOfTwo proof.ramK.toNat ∧ minRamK ≤ proof.ramK.toNat) ∨
        ∃ logT ramLogK, log2 proof.traceLength.toNat = .some logT ∧ log2 proof.ramK.toNat = .some ramLogK ∧
          (proof.rwConfig.validate logT ramLogK = false ∨ accepted))

/-! ## The validations -/

theorem ReadWriteConfig.check_cases (c : ReadWriteConfig) (logT ramLogK : Nat) :
    (c.validate logT ramLogK = true ∧ c.check logT ramLogK = .ok ()) ∨
      (c.validate logT ramLogK = false ∧ ∃ message, c.check logT ramLogK = .error message) := by
  rw [ReadWriteConfig.check, ReadWriteConfig.validate]
  split_ifs with h1 h2 h3 h4
  · exact .inr ⟨decide_eq_false (by omega), _, rfl⟩
  · exact .inr ⟨decide_eq_false (by omega), _, rfl⟩
  · exact .inr ⟨decide_eq_false (by omega), _, rfl⟩
  · exact .inr ⟨decide_eq_false (by omega), _, rfl⟩
  · exact .inl ⟨decide_eq_true (by omega), rfl⟩

theorem OneHotConfig.validate_iff {config : OneHotConfig} : config.validate = true ↔
    (config.logKChunk = 4 ∨ config.logKChunk = 8) ∧ config.logKChunk ≤ config.lookupsRaVirtualLogKChunk ∧
      config.lookupsRaVirtualLogKChunk ≤ lookupsLogK ∧
      config.logKChunk ∣ config.lookupsRaVirtualLogKChunk ∧ config.lookupsRaVirtualLogKChunk ∣ lookupsLogK := by
  simp only [OneHotConfig.validate, Bool.and_eq_true, Bool.or_eq_true, decide_eq_true_eq, Nat.dvd_iff_mod_eq_zero,
    and_assoc]

theorem OneHotConfig.check_cases (config : OneHotConfig) :
    (config.validate = true ∧ config.check = .ok ()) ∨
      (config.validate = false ∧ ∃ message, config.check = .error message) := by
  rw [← Bool.not_eq_true, OneHotConfig.validate_iff, OneHotConfig.check]
  simp only [Nat.dvd_iff_mod_eq_zero]
  split_ifs with h1 h2 h3 h4 h5
  · exact .inr ⟨fun h => by omega, _, rfl⟩
  · exact .inr ⟨fun h => by omega, _, rfl⟩
  · exact .inr ⟨fun h => by omega, _, rfl⟩
  · exact .inr ⟨fun h => h4 h.2.2.2.1, _, rfl⟩
  · exact .inr ⟨fun h => h5 h.2.2.2.2, _, rfl⟩
  · exact .inl ⟨⟨by omega, by omega, by omega, by omega, by omega⟩, rfl⟩

/-! ## The key -/

/-- The next power of two is that of the logarithm, which is rounded up. -/
theorem nextPowerOfTwo_of_log2 {t logT : Nat} (h : log2 t = .some logT) : nextPowerOfTwo t = 2 ^ logT := by
  rw [log2] at h
  split_ifs at h with hzero hpow
  · obtain ⟨k, rfl⟩ := eq_pow_of_isPowerOfTwo hpow
    rw [Option.some.injEq, Nat.log2_two_pow] at h
    rw [nextPowerOfTwo_pow, h]
  · rw [Option.some.injEq] at h
    obtain ⟨k, hk⟩ := exists_nextPowerOfTwo t
    have hupper : 2 ^ k ≤ 2 ^ logT := by
      rw [← hk, ← h]
      exact nextPowerOfTwo_le Nat.lt_log2_self.le
    have hle : t ≤ 2 ^ k := hk ▸ le_nextPowerOfTwo t
    have hlog : 2 ^ t.log2 ≤ t := Nat.log2_self_le hzero
    rw [hk]
    have hk' : k ≤ logT := (Nat.pow_le_pow_iff_right (by decide)).mp hupper
    rcases Nat.lt_or_ge k logT with hlt | hge
    · -- below the rounded logarithm only the power itself is left
      have heq : t = 2 ^ k :=
        Nat.le_antisymm hle ((Nat.pow_le_pow_right (by decide) (by omega)).trans hlog)
      exact absurd (heq ▸ isPowerOfTwo_pow k) hpow
    · rw [Nat.le_antisymm hk' hge]

theorem log2_eq_none_iff {t : Nat} : log2 t = .none ↔ t = 0 := by
  rw [log2]
  split_ifs with h h'
  · simp [h]
  · simp [h]
  · simp [h]

theorem isPowerOfTwo_iff_log2 {t logT : Nat} (h : log2 t = .some logT) : isPowerOfTwo t ↔ t = 2 ^ logT := by
  constructor
  · intro hpow
    obtain ⟨k, rfl⟩ := eq_pow_of_isPowerOfTwo hpow
    rw [log2_pow, Option.some.injEq] at h
    rw [h]
  · rintro rfl
    exact isPowerOfTwo_pow logT

/-- The key of a power of two: beyond the rows that can be counted the build with checks panics, and
the other counts one row. -/
theorem UniformSpartanKey.new_pow (π : BuildProfile) {k : Nat} (hk : k < 64) :
    UniformSpartanKey.new π (2 ^ k) =
      if 2 ^ k * 32 < 2 ^ 64 then .some ⟨32 * 2 ^ k, 2 ^ k⟩
      else if π.overflowChecks then .none else .some ⟨1, 2 ^ k⟩ := by
  have hrows : π.nextPowerOfTwoUsize numRowsPerStep = .some 32 := by
    rw [BuildProfile.nextPowerOfTwoUsize, if_pos (by decide)]
    decide
  have hpow : 2 ^ k * 32 = 2 ^ (k + 5) := by
    rw [pow_add]
    rfl
  rw [new, if_pos (isPowerOfTwo_pow k), hrows]
  simp only [Option.bind_eq_bind, Option.bind_some, BuildProfile.mulUsize]
  split_ifs with hlt hchecks
  · have hk5 : k + 5 < 64 := by
      rw [hpow] at hlt
      exact (Nat.pow_lt_pow_iff_right (by decide)).mp hlt
    rw [Option.bind_some, hpow, BuildProfile.nextPowerOfTwoUsize,
      if_pos (Nat.pow_le_pow_right (by decide) (by omega)), nextPowerOfTwo_pow, Option.bind_some, ← hpow, Nat.mul_comm]
  · rfl
  · have hk5 : 64 ≤ k + 5 := by
      rw [hpow] at hlt
      exact Nat.le_of_not_lt fun h => hlt (Nat.pow_lt_pow_right (by decide) h)
    have hmod : 2 ^ k * 32 % 2 ^ 64 = 0 := by
      rw [hpow]
      exact Nat.mod_eq_zero_of_dvd (pow_dvd_pow 2 hk5)
    rw [hmod]
    rfl

/-! ## The construction answers -/

theorem covers_divCeil {chunk : Nat} (h : 0 < chunk) (logK : Nat) : ChunkCovers chunk (divCeil logK chunk) logK := by
  have hdiv := Nat.div_add_mod (logK + chunk - 1) chunk
  have hmod := Nat.mod_lt (logK + chunk - 1) h
  rw [ChunkCovers, divCeil, Nat.mul_comm]
  constructor
  · omega
  · omega

theorem lt_of_log2 {n : U64} {k : Nat} (h : n.toNat = 2 ^ k) : k < 64 :=
  (Nat.pow_lt_pow_iff_right (by decide)).mp (h ▸ n.isLt)

/-- After the key the proof is refused, or its parameters are in range but for the trace length
and the key. -/
theorem VerifierSetup.sound_validated (minTrace : Nat) (v : JoltVerifier K) {logT : Nat}
    (hlogT : log2 v.proof.traceLength.toNat = .some logT) (key : UniformSpartanKey) :
    Sound minTrace (VerifierSetup.validated v logT key) ↔
      ProofRefusedOr v.preprocessing v.proof (v.proof.traceLength.toNat = 2 ^ logT ∧
        minTrace ≤ v.proof.traceLength.toNat ∧ key = ⟨32 * 2 ^ logT, 2 ^ logT⟩ ∧ v.preprocessing.codeSize ≠ 0) := by
  rw [VerifierSetup.validated, ProofRefusedOr]
  rcases OneHotConfig.check_cases v.proof.oneHotConfig with ⟨hvalid, hcheck⟩ | ⟨hinvalid, message, hcheck⟩
  swap
  · rw [hcheck, hinvalid]
    exact ⟨fun _ => .inl rfl, fun _ => True.intro⟩
  rw [hcheck, hvalid]
  simp only [Bool.true_eq_false, false_or]
  cases hmin : computeMinRamK v.preprocessing.ram v.preprocessing.memoryLayout with
  | none => simp [Sound]
  | some minRamK =>
    simp only [Option.bind_eq_bind, Option.bind_some, Option.some.injEq, exists_eq_left']
    by_cases hramK : isPowerOfTwo v.proof.ramK.toNat ∧ minRamK ≤ v.proof.ramK.toNat
    swap
    · rw [if_pos hramK]
      exact ⟨fun _ => .inl hramK, fun _ => True.intro⟩
    rw [if_neg (not_not.mpr hramK)]
    obtain ⟨ramLogK, hpow⟩ := eq_pow_of_isPowerOfTwo hramK.1
    have hlogK : log2 v.proof.ramK.toNat = .some ramLogK := by rw [hpow, log2_pow]
    simp only [hramK, and_self, not_true_eq_false, false_or, hlogT, hlogK, Option.bind_some, Option.some.injEq,
      exists_and_left, exists_eq_left']
    rcases ReadWriteConfig.check_cases v.proof.rwConfig logT ramLogK with
      ⟨hrw, hrwCheck⟩ | ⟨hrw, message, hrwCheck⟩
    swap
    · rw [hrwCheck, hrw]
      exact ⟨fun _ => .inl rfl, fun _ => True.intro⟩
    rw [hrwCheck, hrw]
    simp only [Bool.true_eq_false, false_or, OneHotParams.fromConfig, hlogK, Option.bind_eq_bind, Option.bind_some]
    cases hcode : log2 v.preprocessing.codeSize with
    | none =>
      rw [log2_eq_none_iff] at hcode
      simp [Sound, hcode]
    | some bytecodeLogK =>
      have hne : v.preprocessing.codeSize ≠ 0 := fun h => by
        rw [log2_eq_none_iff.mpr h] at hcode
        cases hcode
      rw [OneHotConfig.validate_iff] at hvalid
      obtain ⟨hchunk, -, -, hdvd, hdvd'⟩ := hvalid
      have hpos : 0 < v.proof.oneHotConfig.logKChunk := by omega
      simp only [Option.bind_some]
      constructor
      · intro h
        have hkey : key = ⟨32 * 2 ^ logT, 2 ^ logT⟩ := by
          cases key
          exact congrArg₂ UniformSpartanKey.mk h.numConsTotal h.numSteps
        exact ⟨h.traceLength, h.assumed, hkey, hne⟩
      · rintro ⟨htrace, hassumed, rfl, -⟩
        exact {
          assumed := hassumed
          traceLength := htrace
          logT := lt_of_log2 htrace
          numSteps := rfl
          numConsTotal := rfl
          ramK := hpow
          ramLogK := lt_of_log2 hpow
          phases := hrw
          logKChunk := hchunk
          virtualChunk := ⟨hdvd, hdvd'⟩
          instructionD := by
            rcases hchunk with h4 | h8
            · simp [OneHotParams.instructionD, h4, divCeil, lookupsLogK]
            · simp [OneHotParams.instructionD, h8, divCeil, lookupsLogK]
          bytecodeD := covers_divCeil hpos bytecodeLogK
          ramD := covers_divCeil hpos ramLogK }

theorem ProofRefusedOr.congr {preprocessing : JoltVerifierPreprocessing} {proof : JoltProof K} {a b : Prop}
    (h : a ↔ b) : ProofRefusedOr preprocessing proof a ↔ ProofRefusedOr preprocessing proof b := by
  rw [propext h]

/-- A refused device is answered with an error. -/
theorem VerifierSetup.new_of_refused (π : BuildProfile) {preprocessing : JoltVerifierPreprocessing}
    (proof : JoltProof K) {programIo : JoltDevice} (trusted : Option K) (h : DeviceRefused preprocessing programIo) :
    ∃ e, VerifierSetup.new π preprocessing proof programIo trusted = .some (.error e) := by
  rw [VerifierSetup.new]
  split_ifs with h1 h2 h3
  · exact ⟨_, rfl⟩
  · exact ⟨_, rfl⟩
  · exact ⟨_, rfl⟩
  · rcases h with h | h | h
    · exact absurd h h1
    · exact absurd h h2
    · exact absurd h h3

/-- **`JoltVerifier::new` answers, and accepts only parameters in range,** exactly when the device is
refused, or the trace length is counted and a configuration is refused or the trace length is a power of
two within what is assumed of it: nothing else checks the trace length. -/
theorem verifierSetup_sound_iff (π : BuildProfile) (minTrace : Nat) (preprocessing : JoltVerifierPreprocessing)
    (proof : JoltProof K) (programIo : JoltDevice) (trusted : Option K) :
    Sound minTrace (VerifierSetup.new π preprocessing proof programIo trusted) ↔
      DeviceRefused preprocessing programIo ∨ (TraceCounted π proof.traceLength.toNat ∧
        ProofRefusedOr preprocessing proof
          (TraceAssumed minTrace proof.traceLength.toNat preprocessing.codeSize)) := by
  by_cases hdevice : DeviceRefused preprocessing programIo
  · obtain ⟨e, he⟩ := VerifierSetup.new_of_refused π proof trusted hdevice
    rw [he]
    exact ⟨fun _ => .inl hdevice, fun _ => True.intro⟩
  have hadmitted := hdevice
  simp only [DeviceRefused, not_or] at hadmitted
  obtain ⟨hlayout, hinputs, houtputs⟩ := hadmitted
  rw [VerifierSetup.new, if_neg hlayout, if_neg hinputs, if_neg houtputs]
  simp only [hdevice, false_or]
  cases hlogT : log2 proof.traceLength.toNat with
  | none =>
    have hzero := log2_eq_none_iff.mp hlogT
    exact ⟨fun h => h.elim, fun h => h.1.1 hzero⟩
  | some logT =>
    have hne : proof.traceLength.toNat ≠ 0 := fun h => by
      rw [log2_eq_none_iff.mpr h] at hlogT
      cases hlogT
    have hnext := nextPowerOfTwo_of_log2 hlogT
    simp only [Option.bind_eq_bind, Option.bind_some, TraceCounted, TraceAssumed, hnext, hne, ne_eq,
      not_false_eq_true, true_and]
    by_cases hlarge : proof.traceLength.toNat ≤ 2 ^ 63
    swap
    · rw [BuildProfile.nextPowerOfTwoUsize, if_neg hlarge]
      refine ⟨fun h => ?_, fun h => absurd h.1.1 hlarge⟩
      split_ifs at h
      · exact h.elim
      · exact h.elim
    have hlogTlt : logT < 64 := by
      have hle : 2 ^ logT ≤ 2 ^ 63 := hnext ▸ nextPowerOfTwo_le hlarge
      have := (Nat.pow_le_pow_iff_right (a := 2) (by decide)).mp hle
      omega
    rw [BuildProfile.nextPowerOfTwoUsize, if_pos hlarge, hnext, Option.bind_some, UniformSpartanKey.new_pow π hlogTlt,
      isPowerOfTwo_iff_log2 hlogT]
    by_cases hrows : 2 ^ logT * 32 < 2 ^ 64
    · rw [if_pos hrows, Option.bind_some, VerifierSetup.sound_validated minTrace _ hlogT]
      refine (ProofRefusedOr.congr ⟨?_, ?_⟩).trans (and_iff_right ⟨hlarge, fun _ => hrows⟩).symm
      · rintro ⟨htrace, hmin, -, hcode⟩
        exact ⟨htrace, hmin, htrace ▸ hrows, hcode⟩
      · rintro ⟨htrace, hmin, -, hcode⟩
        exact ⟨htrace, hmin, rfl, hcode⟩
    · rw [if_neg hrows]
      by_cases hchecks : π.overflowChecks = true
      · rw [if_pos hchecks]
        exact ⟨fun h => h.elim, fun h => absurd (h.1.2 hchecks) hrows⟩
      · rw [if_neg hchecks, Option.bind_some, VerifierSetup.sound_validated minTrace _ hlogT]
        refine (ProofRefusedOr.congr ⟨?_, ?_⟩).trans
          (and_iff_right ⟨hlarge, fun h => absurd h hchecks⟩).symm
        · rintro ⟨-, -, hkey, -⟩
          have hone : 1 = 32 * 2 ^ logT := congrArg UniformSpartanKey.numConsTotal hkey
          omega
        · rintro ⟨htrace, -, hlt, -⟩
          exact absurd (htrace ▸ hlt) hrows

/-- The acceptances of the release build are those of the model that keeps neither errors nor
parameters. -/
theorem VerifierSetup.new_eq_verifier {preprocessing : JoltVerifierPreprocessing} {proof : JoltProof K}
    {programIo : JoltDevice} {trusted : Option K} {s : VerifierSetup K}
    (h : VerifierSetup.new ⟨false, false⟩ preprocessing proof programIo trusted = .some (.ok s)) :
    JoltVerifier.new preprocessing proof programIo trusted = .some s.verifier := by
  by_cases hdevice : DeviceRefused preprocessing programIo
  · obtain ⟨e, he⟩ := VerifierSetup.new_of_refused ⟨false, false⟩ proof trusted hdevice
    rw [he] at h
    cases h
  simp only [DeviceRefused, not_or, not_not, Nat.not_lt] at hdevice
  obtain ⟨hlayout, hinputs, houtputs⟩ := hdevice
  rw [VerifierSetup.new, if_neg (not_not.mpr hlayout), if_neg (Nat.not_lt.mpr hinputs),
    if_neg (Nat.not_lt.mpr houtputs)] at h
  simp only [Option.bind_eq_bind, Option.bind_eq_some_iff] at h
  obtain ⟨logT, hlogT, next, hnext, key, hkey, hvalidated⟩ := h
  have htrace : proof.traceLength.toNat ≤ 2 ^ 63 := by
    by_contra hlarge
    rw [BuildProfile.nextPowerOfTwoUsize, if_neg hlarge] at hnext
    have hzero : 0 = next := Option.some.inj hnext
    rw [← hzero, UniformSpartanKey.new, if_neg (by decide)] at hkey
    cases hkey
  rw [VerifierSetup.validated] at hvalidated
  rcases OneHotConfig.check_cases proof.oneHotConfig with ⟨hvalid, hcheck⟩ | ⟨hinvalid, message, hcheck⟩
  swap
  · rw [hcheck] at hvalidated
    cases hvalidated
  simp only [hcheck, Option.bind_eq_bind, Option.bind_eq_some_iff] at hvalidated
  obtain ⟨minRamK, hmin, hvalidated⟩ := hvalidated
  by_cases hramK : isPowerOfTwo proof.ramK.toNat ∧ minRamK ≤ proof.ramK.toNat
  swap
  · rw [if_pos hramK] at hvalidated
    cases hvalidated
  rw [if_neg (not_not.mpr hramK), Option.bind_eq_some_iff] at hvalidated
  obtain ⟨ramLogK, hlogK, hvalidated⟩ := hvalidated
  rcases ReadWriteConfig.check_cases proof.rwConfig logT ramLogK with ⟨hrw, hrwCheck⟩ | ⟨hrw, message, hrwCheck⟩
  swap
  · rw [hrwCheck] at hvalidated
    cases hvalidated
  simp only [hrwCheck, Option.bind_eq_some_iff] at hvalidated
  obtain ⟨params, hparams, hs⟩ := hvalidated
  cases hs
  exact JoltVerifier.new_eq_some hlayout hinputs houtputs hlogT htrace hvalid hmin hramK hlogK hrw hparams

end Construction

/-- A proof of no cycles is a panic, and one of three cycles is accepted. -/
theorem new_not_sound :
    ∃ h : MemoryLayout.new (JoltVerifier.smallConfig 8) = .some (JoltVerifier.smallLayout 8),
      let small := JoltVerifier.smallVerifier (JoltVerifier.smallDevice 8 h) 0 16
      ¬ Sound 0 (VerifierSetup.new ⟨true, true⟩ small.preprocessing { small.proof with traceLength := 0 }
          small.programIo .none) ∧
        ¬ Sound 0 (VerifierSetup.new ⟨true, true⟩ small.preprocessing { small.proof with traceLength := 3 }
          small.programIo .none) := by
  refine ⟨rfl, ?_, ?_⟩
  · exact id
  · intro h
    have htrace : 3 = 2 ^ 2 := h.traceLength
    omega

end LightningJolt
