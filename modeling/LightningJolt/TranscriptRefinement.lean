/-
Whole runs of the two transcripts: as long as the 32-bit counter lasts and no
empty list of powers is asked for, they stay equal and draw equal challenges.
-/
import LightningJolt.TranscriptAgreement

namespace LightningJolt

section

variable (keccak : Keccak256) {n : Nat} {r r' : KeccakTranscript} {s s' : JoltTranscript.Transcript}
  {op : TranscriptOp} {xs : List Fr} {ws : List Word}

/-! ## One operation -/

theorem rawAppendLabel_some {label : List U8} (h : label.length ≤ 32) :
    r.rawAppendLabel keccak label = .some (r.rawAppendBytes keccak (KeccakTranscript.padded 32 label)) :=
  if_pos (by omega)

theorem rawAppendLabelWithLen_some {label : List U8} (h : label.length ≤ 24) (len : Nat) :
    r.rawAppendLabelWithLen keccak label len =
      .some (r.rawAppendBytes keccak (KeccakTranscript.padded 24 label ++ beBytes 8 len)) :=
  if_pos h

/-- What an operation leaves on the two sides, and what it returns there. -/
def OpMatches (keccak : Keccak256) (n : Nat) (r : KeccakTranscript) (s : JoltTranscript.Transcript)
    (op : TranscriptOp) : Prop :=
  ∃ xs r' ws s', op.runRust keccak r = .some (xs, r') ∧ op.runSolidity keccak s = .some (ws, s') ∧
    ws.map Word.residue = xs ∧ MatchesAt (n + op.rounds) r' s'

theorem MatchesAt.runs (h : MatchesAt n r s) (hfits : op.Fits) (hpower : op.AsksPower)
    (hn : n + op.rounds < 2 ^ 32) : OpMatches keccak n r s op := by
  cases op with
  | appendLabel label =>
    have hlabel : label.length ≤ 32 := hfits
    have hround := h.appendWord keccak hn (@bytes_bytes32 label (by omega))
    refine ⟨[], _, [], _, ?_, rfl, rfl, hround⟩
    rw [TranscriptOp.runRust, rawAppendLabel_some keccak hlabel]
    rfl
  | appendBytes label data =>
    obtain ⟨hlabel, hlen⟩ := hfits
    have hn2 : n + 2 < 2 ^ 32 := hn
    have hwidth : (BitVec.ofNat 64 data.length).setWidth 256 = BitVec.ofNat 256 data.length := by
      refine BitVec.eq_of_toNat_eq ?_
      rw [BitVec.toNat_setWidth, BitVec.toNat_ofNat, BitVec.toNat_ofNat, Nat.mod_eq_of_lt hlen]
    have hhead := h.appendWord keccak (by omega) (bytes_packed hlabel hlen)
    have hround := hhead.appendRaw keccak hn2 data
    refine ⟨[], _, [], _, ?_, ?_, rfl, hround⟩
    · rw [TranscriptOp.runRust, KeccakTranscript.appendBytes, rawAppendLabelWithLen_some keccak hlabel]
      rfl
    · rw [TranscriptOp.runSolidity, JoltTranscript.Transcript.appendLabeledBytes, hwidth]
  | appendU64 label x =>
    have hlabel : label.length ≤ 32 := hfits
    have hn2 : n + 2 < 2 ^ 32 := hn
    have hhead := h.appendWord keccak (by omega) (@bytes_bytes32 label (by omega))
    have hround := hhead.appendWord keccak hn2 (bytes_u64 x)
    refine ⟨[], _, [], _, ?_, rfl, rfl, hround⟩
    rw [TranscriptOp.runRust, KeccakTranscript.appendU64, rawAppendLabel_some keccak hlabel]
    rfl
  | appendScalar label scalar =>
    have hlabel : label.length ≤ 32 := hfits
    have hn2 : n + 2 < 2 ^ 32 := hn
    have hhead := h.appendWord keccak (by omega) (@bytes_bytes32 label (by omega))
    have hround := hhead.appendWord keccak hn2 (bytes_frWord scalar)
    refine ⟨[], _, [], _, ?_, rfl, rfl, hround⟩
    rw [TranscriptOp.runRust, KeccakTranscript.appendScalar, rawAppendLabel_some keccak hlabel]
    rfl
  | appendScalars label scalars =>
    obtain ⟨hlabel, hlen⟩ := hfits
    have hn2 : n + (1 + scalars.length) < 2 ^ 32 := hn
    have hhead := h.appendWord keccak (by omega) (bytes_packed hlabel hlen)
    have hround := hhead.appendScalars keccak scalars (by omega)
    rw [Nat.add_assoc] at hround
    refine ⟨[], _, [], _, ?_, ?_, rfl, hround⟩
    · rw [TranscriptOp.runRust, KeccakTranscript.appendScalars, rawAppendLabelWithLen_some keccak hlabel]
      rfl
    · rw [TranscriptOp.runSolidity, JoltTranscript.Transcript.appendLabeledScalars, List.length_map]
  | challengeScalar =>
    obtain ⟨hout, hround⟩ := h.challengeScalar keccak hn
    exact ⟨_, _, _, _, rfl, rfl, congrArg (fun x => [x]) hout, hround⟩
  | challengeScalarOptimized =>
    obtain ⟨hout, hround⟩ := h.challengeScalarMont keccak hn
    exact ⟨_, _, _, _, rfl, rfl, congrArg (fun x => [x]) hout, hround⟩
  | challengeVector len =>
    obtain ⟨hout, hround⟩ := h.drawn (f := Word.residue) (g := id) (fun h hn => h.challengeScalar keccak hn) hn
    rw [List.map_id] at hout
    exact ⟨_, _, _, _, rfl, rfl, hout, hround⟩
  | challengeVectorOptimized len =>
    obtain ⟨hout, hround⟩ := h.drawn (f := Word.residue) (g := MontU128Challenge.into)
      (fun h hn => h.challengeScalarMont keccak hn) hn
    exact ⟨_, _, _, _, rfl, rfl, hout, hround⟩
  | challengeScalarPowers len =>
    have hlen : len ≠ 0 := Nat.ne_of_gt hpower
    obtain ⟨hout, hround⟩ := h.challengeScalar keccak hn
    refine ⟨_, _, _, _, rfl, if_neg hlen, residue_powersFrom hout len ?_, hround⟩
    decide
  | challengeScalarPowersOptimized len =>
    have hlen : len ≠ 0 := Nat.ne_of_gt hpower
    obtain ⟨hout, hround⟩ := h.challengeScalarMont keccak hn
    refine ⟨_, _, _, _, rfl, if_neg hlen, residue_powersFrom hout len ?_, hround⟩
    decide

end

/-! ## The counters -/

section Counters

variable {T α : Type} {width : Nat}

theorem counter_succ (c : BitVec width) (k : Nat) :
    c + 1 + BitVec.ofNat width k = c + BitVec.ofNat width (k + 1) := by
  rw [Nat.add_comm k, BitVec.ofNat_add, BitVec.add_assoc]
  rfl

theorem counter_foldl (count : T → BitVec width) {f : T → α → T} (hf : ∀ t x, count (f t x) = count t + 1)
    (xs : List α) (t : T) : count (xs.foldl f t) = count t + BitVec.ofNat width xs.length := by
  induction xs generalizing t with
  | nil => simp
  | cons x xs ih => rw [List.foldl_cons, ih, hf, List.length_cons, counter_succ]

theorem counter_drawn (count : T → BitVec width) {draw : T → α × T}
    (hdraw : ∀ t, count (draw t).2 = count t + 1) (len : Nat) (t : T) :
    count (drawn draw len t).2 = count t + BitVec.ofNat width len := by
  induction len generalizing t with
  | zero => simp [drawn]
  | succ len ih =>
    have htail := ih (draw t).2
    rw [hdraw, counter_succ] at htail
    exact htail

variable {keccak : Keccak256} {r r' : KeccakTranscript} {s s' : JoltTranscript.Transcript}
  {op : TranscriptOp} {xs : List Fr} {ws : List Word}

theorem challengeBytes_nRounds (t : KeccakTranscript) :
    (t.challengeBytes keccak 16).2.nRounds = t.nRounds + 1 := by
  rw [KeccakTranscript.challengeBytes, if_neg (by decide)]
  rfl

theorem runRust_nRounds (hfits : op.Fits) (h : op.runRust keccak r = .some (xs, r')) :
    r'.nRounds = r.nRounds + BitVec.ofNat 32 op.rounds := by
  cases op with
  | appendLabel label =>
    have hlabel : label.length ≤ 32 := hfits
    rw [TranscriptOp.runRust, rawAppendLabel_some keccak hlabel] at h
    cases h
    rfl
  | appendBytes label data =>
    obtain ⟨hlabel, hlen⟩ := hfits
    rw [TranscriptOp.runRust, KeccakTranscript.appendBytes, rawAppendLabelWithLen_some keccak hlabel] at h
    cases h
    exact counter_succ r.nRounds 1
  | appendU64 label x =>
    have hlabel : label.length ≤ 32 := hfits
    rw [TranscriptOp.runRust, KeccakTranscript.appendU64, rawAppendLabel_some keccak hlabel] at h
    cases h
    exact counter_succ r.nRounds 1
  | appendScalar label scalar =>
    have hlabel : label.length ≤ 32 := hfits
    rw [TranscriptOp.runRust, KeccakTranscript.appendScalar, rawAppendLabel_some keccak hlabel] at h
    cases h
    exact counter_succ r.nRounds 1
  | appendScalars label scalars =>
    obtain ⟨hlabel, hlen⟩ := hfits
    rw [TranscriptOp.runRust, KeccakTranscript.appendScalars, rawAppendLabelWithLen_some keccak hlabel] at h
    cases h
    have hfold := counter_foldl KeccakTranscript.nRounds
      (f := fun t x => t.rawAppendScalar keccak x) (fun t x => rfl) scalars
      (r.rawAppendBytes keccak (KeccakTranscript.padded 24 label ++ beBytes 8 scalars.length))
    rw [TranscriptOp.rounds, Nat.add_comm 1, ← counter_succ]
    exact hfold
  | challengeScalar => cases h; exact challengeBytes_nRounds r
  | challengeScalarOptimized => cases h; exact challengeBytes_nRounds r
  | challengeVector len =>
    have hlast : (KeccakTranscript.challengeVector keccak len r).2 = r' :=
      congrArg Prod.snd (Option.some.inj h)
    rw [← hlast]
    exact @counter_drawn _ _ _ KeccakTranscript.nRounds (KeccakTranscript.challengeScalar keccak)
      challengeBytes_nRounds len r
  | challengeVectorOptimized len =>
    cases h
    exact @counter_drawn _ _ _ KeccakTranscript.nRounds (KeccakTranscript.challengeScalarOptimized keccak)
      challengeBytes_nRounds len r
  | challengeScalarPowers len => cases h; exact challengeBytes_nRounds r
  | challengeScalarPowersOptimized len => cases h; exact challengeBytes_nRounds r

theorem runSolidity_nRounds (h : op.runSolidity keccak s = .some (ws, s')) :
    op.AsksPower ∧ s'.nRounds = s.nRounds + BitVec.ofNat 256 op.rounds := by
  cases op with
  | appendLabel label => cases h; exact ⟨trivial, rfl⟩
  | appendBytes label data => cases h; exact ⟨trivial, counter_succ s.nRounds 1⟩
  | appendU64 label x => cases h; exact ⟨trivial, counter_succ s.nRounds 1⟩
  | appendScalar label scalar => cases h; exact ⟨trivial, counter_succ s.nRounds 1⟩
  | appendScalars label scalars =>
    cases h
    have hfold := counter_foldl JoltTranscript.Transcript.nRounds
      (f := fun t w => t.appendWord keccak w) (fun t w => rfl) (scalars.map frWord)
      (s.appendWord keccak (JoltTranscript.Transcript.bytes24 label ||| BitVec.ofNat 256 (scalars.map frWord).length))
    rw [List.length_map] at hfold
    refine ⟨trivial, ?_⟩
    rw [TranscriptOp.rounds, Nat.add_comm 1, ← counter_succ]
    rw [JoltTranscript.Transcript.appendLabeledScalars, List.length_map]
    exact hfold
  | challengeScalar => cases h; exact ⟨trivial, rfl⟩
  | challengeScalarOptimized => cases h; exact ⟨trivial, rfl⟩
  | challengeVector len =>
    have hlast : (JoltTranscript.Transcript.challengeVector keccak len s).2 = s' :=
      congrArg Prod.snd (Option.some.inj h)
    rw [← hlast]
    exact ⟨trivial, counter_drawn JoltTranscript.Transcript.nRounds (fun t => rfl) len s⟩
  | challengeVectorOptimized len =>
    have hlast : (JoltTranscript.Transcript.challengeVectorMont keccak len s).2 = s' :=
      congrArg Prod.snd (Option.some.inj h)
    rw [← hlast]
    exact ⟨trivial, counter_drawn JoltTranscript.Transcript.nRounds (fun t => rfl) len s⟩
  | challengeScalarPowers len =>
    rw [TranscriptOp.runSolidity, JoltTranscript.Transcript.challengeScalarPowers] at h
    by_cases hlen : len = 0
    · simp [hlen] at h
    · simp only [if_neg hlen] at h
      cases h
      exact ⟨Nat.pos_of_ne_zero hlen, rfl⟩
  | challengeScalarPowersOptimized len =>
    rw [TranscriptOp.runSolidity, JoltTranscript.Transcript.challengeScalarPowersMont] at h
    by_cases hlen : len = 0
    · simp [hlen] at h
    · simp only [if_neg hlen] at h
      cases h
      exact ⟨Nat.pos_of_ne_zero hlen, rfl⟩

end Counters

/-! ## Whole runs -/

section Runs

variable (keccak : Keccak256)

/-- Both sides perform every operation, return the same field elements, and have equal state
and counter after each. -/
def KeepsAgreement : KeccakTranscript → JoltTranscript.Transcript → List TranscriptOp → Prop
  | _, _, [] => True
  | r, s, op :: ops =>
    ∃ xs r' ws s', op.runRust keccak r = .some (xs, r') ∧ op.runSolidity keccak s = .some (ws, s') ∧
      ws.map Word.residue = xs ∧ Matches r' s' ∧ KeepsAgreement r' s' ops

variable {n : Nat} {r : KeccakTranscript} {s : JoltTranscript.Transcript} {ops : List TranscriptOp}

theorem TranscriptOp.rounds_lt {op : TranscriptOp} (h : op.Fits) : op.rounds ≤ 2 ^ 64 := by
  cases op with
  | appendScalars label scalars =>
    have hlen : scalars.length < 2 ^ 64 := h.2
    rw [TranscriptOp.rounds]
    omega
  | challengeVector len =>
    have hlen : len < 2 ^ 64 := h
    exact hlen.le
  | challengeVectorOptimized len =>
    have hlen : len < 2 ^ 64 := h
    exact hlen.le
  | _ => exact Nat.le_of_lt (by rw [TranscriptOp.rounds]; decide)

/-- Two counters of different width agree only before the narrower one wraps. -/
theorem MatchesAt.rounds_lt (h : MatchesAt n r s) (hn : n < 2 ^ 32) {k : Nat} (hk : k ≤ 2 ^ 64)
    (heq : (r.nRounds + BitVec.ofNat 32 k).toNat = (s.nRounds + BitVec.ofNat 256 k).toNat) :
    n + k < 2 ^ 32 := by
  rw [BitVec.toNat_add, BitVec.toNat_add, BitVec.toNat_ofNat, BitVec.toNat_ofNat, h.rust, h.solidity,
    Nat.add_mod_mod, Nat.add_mod_mod, Nat.mod_eq_of_lt (show n + k < 2 ^ 256 by omega)] at heq
  rw [← heq]
  exact Nat.mod_lt _ (by decide)

theorem MatchesAt.keepsAgreement_iff (h : MatchesAt n r s) (hn : n < 2 ^ 32) (hfits : ∀ op ∈ ops, op.Fits) :
    KeepsAgreement keccak r s ops ↔
      (∀ op ∈ ops, op.AsksPower) ∧ n + (ops.map TranscriptOp.rounds).sum < 2 ^ 32 := by
  induction ops generalizing n r s with
  | nil =>
    constructor
    · intro _
      exact ⟨nofun, hn⟩
    · intro _
      exact trivial
  | cons op ops ih =>
    obtain ⟨hop, hrest⟩ := List.forall_mem_cons.mp hfits
    rw [List.forall_mem_cons, List.map_cons, List.sum_cons]
    constructor
    · intro hkeeps
      obtain ⟨xs, r', ws, s', hrust, hsolidity, -, hmatches, htail⟩ := hkeeps
      obtain ⟨hpower, hcount⟩ := runSolidity_nRounds hsolidity
      have hlt : n + op.rounds < 2 ^ 32 := by
        refine h.rounds_lt hn (TranscriptOp.rounds_lt hop) ?_
        rw [← hcount, ← runRust_nRounds hop hrust]
        exact hmatches.nRounds
      obtain ⟨xs', r'', ws', s'', hrust', hsolidity', -, hnext⟩ := h.runs keccak hop hpower hlt
      rw [hrust] at hrust'
      rw [hsolidity] at hsolidity'
      cases hrust'
      cases hsolidity'
      obtain ⟨hpowers, hsum⟩ := (ih hnext hlt hrest).mp htail
      exact ⟨⟨hpower, hpowers⟩, by omega⟩
    · intro hcond
      obtain ⟨⟨hpower, hpowers⟩, hsum⟩ := hcond
      have hlt : n + op.rounds < 2 ^ 32 := by omega
      obtain ⟨xs, r', ws, s', hrust, hsolidity, hout, hnext⟩ := h.runs keccak hop hpower hlt
      exact ⟨xs, r', ws, s', hrust, hsolidity, hout, hnext.matches,
        (ih hnext hlt hrest).mpr ⟨hpowers, by omega⟩⟩

/-- The two constructors, from one label. -/
theorem new_matches {label after : List U8} (hlabel : label.length ≤ 32)
    (hafter : 32 ≤ label.length + after.length) :
    ∃ r s, KeccakTranscript.new keccak label = .some r ∧
      JoltTranscript.Transcript.newTranscript keccak label after = .some s ∧ MatchesAt 0 r s := by
  have hlt : label.length < 33 := by omega
  have hbytes := bytes_bytes32 hlt
  refine ⟨{ state := keccak.digest (KeccakTranscript.padded 32 label), nRounds := 0 },
    { state := keccak (KeccakTranscript.padded 32 label), nRounds := 0 }, if_pos hlt, ?_, rfl, rfl, rfl⟩
  rw [JoltTranscript.Transcript.newTranscript, if_pos hlt]
  by_cases hshort : label.length < 32
  · simp only [if_pos hshort]
    rw [newTranscript_word hshort hafter, hbytes]
  · have hfull : label.length = 32 := by omega
    have htake : (label ++ after).take 32 = label := List.take_left' hfull
    have hword : (BitVec.ofNat 256 (ofBe label) : Word) = JoltTranscript.Transcript.bytes32 label := by
      rw [JoltTranscript.Transcript.bytes32, hfull, Nat.sub_self, pow_zero, mul_one]
    simp only [if_neg hshort]
    rw [htake, hword, hbytes]

/-- **The transcripts stay equal exactly while every list of powers asked for has one and the
rounds number less than `2 ^ 32`.** -/
theorem transcripts_agree_iff (keccak : Keccak256) {label after : List U8} (hlabel : label.length ≤ 32)
    (hafter : 32 ≤ label.length + after.length) {ops : List TranscriptOp} (hfits : ∀ op ∈ ops, op.Fits) :
    (∃ r s, KeccakTranscript.new keccak label = .some r ∧
      JoltTranscript.Transcript.newTranscript keccak label after = .some s ∧
      Matches r s ∧ KeepsAgreement keccak r s ops) ↔
    (∀ op ∈ ops, op.AsksPower) ∧ (ops.map TranscriptOp.rounds).sum < 2 ^ 32 := by
  obtain ⟨r, s, hrust, hsolidity, hmatches⟩ := new_matches keccak hlabel hafter
  have hrun := hmatches.keepsAgreement_iff keccak (by decide) hfits
  rw [Nat.zero_add] at hrun
  rw [← hrun]
  constructor
  · intro h
    obtain ⟨r', s', hrust', hsolidity', -, hkeeps⟩ := h
    rw [hrust] at hrust'
    rw [hsolidity] at hsolidity'
    cases hrust'
    cases hsolidity'
    exact hkeeps
  · intro hkeeps
    exact ⟨r, s, hrust, hsolidity, hmatches.matches, hkeeps⟩

theorem transcripts_agree_example :
    ∃ r s, KeccakTranscript.new (fun bytes => BitVec.ofNat 256 (ofBe bytes)) [74, 111, 108, 116] = .some r ∧
      JoltTranscript.Transcript.newTranscript (fun bytes => BitVec.ofNat 256 (ofBe bytes)) [74, 111, 108, 116]
        (List.replicate 28 255) = .some s ∧
      Matches r s ∧
      KeepsAgreement (fun bytes => BitVec.ofNat 256 (ofBe bytes)) r s
        [.appendScalars [112] [1, 2], .challengeScalarOptimized, .challengeVector 2, .challengeScalarPowers 3] :=
  (transcripts_agree_iff (fun bytes => BitVec.ofNat 256 (ofBe bytes)) (by decide) (by decide)
    (by simp [TranscriptOp.Fits])).mpr ⟨by simp [TranscriptOp.AsksPower], by decide⟩

/-- No power asked for: Rust returns none of them, the contract reverts. -/
theorem transcripts_diverge_powers :
    ¬ ∃ r s, KeccakTranscript.new (fun bytes => BitVec.ofNat 256 (ofBe bytes)) [74, 111, 108, 116] = .some r ∧
      JoltTranscript.Transcript.newTranscript (fun bytes => BitVec.ofNat 256 (ofBe bytes)) [74, 111, 108, 116]
        (List.replicate 28 255) = .some s ∧
      Matches r s ∧
      KeepsAgreement (fun bytes => BitVec.ofNat 256 (ofBe bytes)) r s [.challengeScalarPowers 0] := by
  intro h
  obtain ⟨r, s, -, -, -, xs, r', ws, s', -, hsolidity, -⟩ := h
  cases hsolidity

end Runs

end LightningJolt
