/-
The bytecode table and the PC of an instruction in it
(`jolt-core/src/zkvm/bytecode/mod.rs`): the mapper keeps for each address the
index of its first entry and how many follow, and finds the others by the counter
that a sequence carries.
-/
import LightningJolt.R1csTraces

namespace LightningJolt

/-! ## Preprocessing -/

/-- `PreprocessingError`. -/
inductive PreprocessingError
  | NonDecreasingInlineSequence (bytecodeIndex address previousMaxSequence newSequence : Nat)
deriving DecidableEq

namespace BasicInstruction

/-- The address and the counter that `normalize` gives; a `NoOp` has none. -/
def normalizedAddress (i : BasicInstruction) : U64 := if i.op = .noOp then 0 else i.address

def sequenceRemaining (i : BasicInstruction) : Nat :=
  if i.op = .noOp then 0 else i.virtualSequenceRemaining.getD 0

/-- The `NoOp` in front of the bytecode and behind it. -/
def noOpEntry : BasicInstruction where
  op := .noOp
  address := 0
  virtualSequenceRemaining := .none
  isFirstInSequence := false
  isCompressed := false

/-- An instruction up to the advice it carries. -/
def forget (i : BasicInstruction) : BasicInstruction := { i with op := i.op.forget }

end BasicInstruction

namespace BytecodePCMapper

abbrev Indices := List (Option (Nat × Nat))

/-- What the loop of `try_new` does with one instruction. -/
def enter (instr : BasicInstruction) (indices : Indices) (lastPc : Nat) :
    Option (Except PreprocessingError (Indices × Nat)) :=
  if instr.normalizedAddress = 0 then .some (.ok (indices, lastPc))
  else do
    let bytecodeIndex ← getIndex instr.normalizedAddress
    match ← indices[bytecodeIndex]? with
    | .some (_, maxSequence) =>
      if maxSequence ≤ instr.sequenceRemaining then
        .some (.error (.NonDecreasingInlineSequence bytecodeIndex instr.normalizedAddress.toNat
          maxSequence instr.sequenceRemaining))
      else .some (.ok (indices, lastPc + 1))
    | .none =>
      .some (.ok (indices.set bytecodeIndex (.some (lastPc + 1, instr.sequenceRemaining)), lastPc + 1))

def enterAll : List BasicInstruction → Indices → Nat →
    Option (Except PreprocessingError (Indices × Nat))
  | [], indices, lastPc => .some (.ok (indices, lastPc))
  | i :: is, indices, lastPc => do
    match ← enter i indices lastPc with
    | .ok (indices, lastPc) => enterAll is indices lastPc
    | .error e => .some (.error e)

/-- `try_new`. The last instruction's address sizes the vector. -/
def tryNew (bytecode : List BasicInstruction) :
    Option (Except PreprocessingError BytecodePCMapper) := do
  let last ← bytecode.getLast?
  let lastIndex ← getIndex last.normalizedAddress
  guard ((lastIndex + 1) * 24 < 2 ^ 63)
  let indices := (List.replicate (lastIndex + 1) .none).set 0 (.some (0, 0))
  match ← enterAll bytecode indices 0 with
  | .ok (indices, _) =>
    if h : indices.length * 24 < 2 ^ 63 ∧ ∀ e ∈ indices, (e.getD (0, 0)).1 < 2 ^ 63 then
      .some (.ok ⟨indices, h.1, fun q hq => h.2 (.some q) hq⟩)
    else .none
  | .error e => .some (.error e)

end BytecodePCMapper

/-- `BytecodePreprocessing` with the table itself. -/
structure BytecodeTable extends BytecodePreprocessing where
  codeSize : Nat
  bytecode : List BasicInstruction
  entryAddress : U64

/-- `BytecodePreprocessing::preprocess`. -/
def BytecodeTable.preprocess (bytecode : List BasicInstruction) (entryAddress : U64) :
    Option (Except PreprocessingError BytecodeTable) := do
  let bytecode := .noOpEntry :: bytecode
  match ← BytecodePCMapper.tryNew bytecode with
  | .ok pcMap =>
    let codeSize := max (nextPowerOfTwo bytecode.length) 2
    .some (.ok {
      pcMap, codeSize, entryAddress
      bytecode := bytecode ++ List.replicate (codeSize - bytecode.length) .noOpEntry })
  | .error e => .some (.error e)

/-! ## Sequences -/

/-- The entries of one address, the counter running down to zero. -/
structure Counted (address : U64) (is : List BasicInstruction) : Prop where
  ne_nil : is ≠ []
  length_le : is.length ≤ 2 ^ 16
  address_eq : ∀ i ∈ is, i.address = address
  op_ne : ∀ i ∈ is, i.op ≠ .noOp
  remaining : is.map (·.virtualSequenceRemaining.getD 0) = (List.range is.length).reverse

/-- The counter of an entry is its distance from the end of its sequence. -/
theorem Counted.remaining_eq {address : U64} {is : List BasicInstruction} (h : Counted address is)
    {k : Nat} {i : BasicInstruction} (hi : is[k]? = .some i) : i.virtualSequenceRemaining.getD 0 = is.length - 1 - k := by
  have hget := congrArg (fun l : List Nat => l[k]?) h.remaining
  obtain ⟨hlt, -⟩ := List.getElem?_eq_some_iff.mp hi
  simp only [List.getElem?_map, hi, Option.map_some] at hget
  rw [List.getElem?_reverse (by rw [List.length_range]; exact hlt), List.length_range,
    List.getElem?_range (by omega)] at hget
  exact Option.some.inj hget

namespace BytecodePCMapper

variable {address : U64} {is js : List BasicInstruction} {indices indices' : Indices} {pc pc' k : Nat}

theorem enterAll_append (h : enterAll is indices pc = .some (.ok (indices', pc'))) :
    enterAll (is ++ js) indices pc = enterAll js indices' pc' := by
  induction is generalizing indices pc with
  | nil =>
    cases h
    rfl
  | cons i is ih =>
    obtain ⟨r, hr, h⟩ := Option.bind_eq_some_iff.mp h
    rw [List.cons_append, enterAll, hr]
    rcases r with e | ⟨mid, pc1⟩
    · cases h
    · exact ih h

theorem getIndex_ne_zero (hk : getIndex address = .some k) : address ≠ 0 := by
  rintro rfl
  cases hk

theorem getIndex_inj {a b : U64} (ha : getIndex a = .some k) (hb : getIndex b = .some k) : a = b := by
  unfold getIndex at ha hb
  split_ifs at ha hb with h1 h2
  have hab := (Option.some.inj ha).trans (Option.some.inj hb).symm
  exact BitVec.eq_of_toNat_eq (by omega)

/-- The instruction at an address with no entry makes one. -/
theorem enter_new {i : BasicInstruction} (hi : i.address = address) (hop : i.op ≠ .noOp)
    (hk : getIndex address = .some k) (hnone : indices[k]? = .some .none) :
    enter i indices pc = .some (.ok (indices.set k (.some (pc + 1,
      i.virtualSequenceRemaining.getD 0)), pc + 1)) := by
  simp only [enter, BasicInstruction.normalizedAddress, BasicInstruction.sequenceRemaining, if_neg hop,
    hi, getIndex_ne_zero hk, if_false, hk, hnone, Option.bind_eq_bind, Option.bind_some]

/-- The ones behind it are checked against its counter, and leave the entry. -/
theorem enterAll_rest {first last : Nat} (haddress : ∀ i ∈ is, i.address = address)
    (hop : ∀ i ∈ is, i.op ≠ .noOp) (hk : getIndex address = .some k)
    (hentry : indices[k]? = .some (.some (first, last)))
    (hless : ∀ i ∈ is, i.virtualSequenceRemaining.getD 0 < last) :
    enterAll is indices pc = .some (.ok (indices, pc + is.length)) := by
  induction is generalizing pc with
  | nil => rfl
  | cons i is ih =>
    obtain ⟨hi, haddress⟩ := List.forall_mem_cons.mp haddress
    obtain ⟨hiop, hop⟩ := List.forall_mem_cons.mp hop
    obtain ⟨hiless, hless⟩ := List.forall_mem_cons.mp hless
    have hone : enter i indices pc = .some (.ok (indices, pc + 1)) := by
      simp only [enter, BasicInstruction.normalizedAddress, BasicInstruction.sequenceRemaining,
        if_neg hiop, hi, getIndex_ne_zero hk, if_false, hk, hentry, Option.bind_eq_bind,
        Option.bind_some, if_neg (Nat.not_le.mpr hiless)]
    rw [enterAll, hone]
    have hrest := @ih (pc + 1) haddress hop hless
    rw [List.length_cons, show pc + (is.length + 1) = pc + 1 + is.length by omega]
    exact hrest

/-- A whole sequence: its first index and its length are kept. -/
theorem enterAll_counted (h : Counted address is) (hk : getIndex address = .some k)
    (hnone : indices[k]? = .some .none) :
    enterAll is indices pc =
      .some (.ok (indices.set k (.some (pc + 1, is.length - 1)), pc + is.length)) := by
  obtain ⟨hne, -, haddress, hop, hremaining⟩ := h
  rcases is with _ | ⟨i, is⟩
  · exact absurd rfl hne
  obtain ⟨hi, haddress⟩ := List.forall_mem_cons.mp haddress
  obtain ⟨hiop, hop⟩ := List.forall_mem_cons.mp hop
  rw [List.length_cons, List.range_succ, List.reverse_append, List.map_cons, List.reverse_singleton,
    List.singleton_append, List.cons.injEq] at hremaining
  obtain ⟨hfirst, hrest⟩ := hremaining
  have hless : ∀ j ∈ is, j.virtualSequenceRemaining.getD 0 < is.length := by
    intro j hj
    have hmem := List.mem_map_of_mem (f := fun i : BasicInstruction =>
      i.virtualSequenceRemaining.getD 0) hj
    rw [hrest, List.mem_reverse, List.mem_range] at hmem
    exact hmem
  have hlt : k < indices.length := (List.getElem?_eq_some_iff.mp hnone).1
  have hentry : (indices.set k (.some (pc + 1, is.length)))[k]? =
      .some (.some (pc + 1, is.length)) := by
    rw [List.getElem?_set, if_pos rfl, if_pos hlt]
  rw [enterAll, enter_new hi hiop hk hnone, hfirst, List.length_cons, Nat.add_sub_cancel,
    show pc + (is.length + 1) = pc + 1 + is.length by omega]
  exact enterAll_rest haddress hop hk hentry hless

/-- No index is beyond the counter of the loop. -/
theorem enterAll_bounded (h : enterAll is indices pc = .some (.ok (indices', pc')))
    (hle : ∀ e ∈ indices, (e.getD (0, 0)).1 ≤ pc) : ∀ e ∈ indices', (e.getD (0, 0)).1 ≤ pc' := by
  induction is generalizing indices pc with
  | nil =>
    cases h
    exact hle
  | cons i is ih =>
    obtain ⟨r, hr, h⟩ := Option.bind_eq_some_iff.mp h
    rcases r with e | ⟨mid, pc1⟩
    · cases h
    refine ih h ?_
    unfold enter at hr
    split_ifs at hr
    · cases hr
      exact hle
    obtain ⟨n, -, hr⟩ := Option.bind_eq_some_iff.mp hr
    obtain ⟨entry, -, hr⟩ := Option.bind_eq_some_iff.mp hr
    rcases entry with _ | ⟨first, last⟩
    · cases hr
      intro e he
      rcases List.mem_or_eq_of_mem_set he with he | rfl
      · exact (hle e he).trans (Nat.le_succ pc)
      · exact Nat.le_refl _
    · dsimp only at hr
      split_ifs at hr
      · cases hr
      · cases hr
        exact fun e he => (hle e he).trans (Nat.le_succ pc)

/-- The sequences of a program, each with its address. -/
abbrev Groups := List (U64 × List BasicInstruction)

def Groups.bytecode (groups : Groups) : List BasicInstruction := groups.flatMap (·.2)

/-- After the loop every group has its own entry: the index of its first instruction and
the counter it starts with. -/
theorem enterAll_groups {groups : Groups} (hcounted : ∀ g ∈ groups, Counted g.1 g.2)
    (hnone : ∀ g ∈ groups, ∃ k, getIndex g.1 = .some k ∧ indices[k]? = .some .none)
    (hdistinct : groups.Pairwise fun g h => g.1 ≠ h.1) :
    ∃ indices', enterAll groups.bytecode indices pc =
        .some (.ok (indices', pc + groups.bytecode.length)) ∧
      indices'.length = indices.length ∧
      (∀ k, (∀ g ∈ groups, getIndex g.1 ≠ .some k) → indices'[k]? = indices[k]?) ∧
      ∀ pre g post, groups = pre ++ g :: post → ∀ k, getIndex g.1 = .some k →
        indices'[k]? = .some (.some (pc + 1 + (Groups.bytecode pre).length, g.2.length - 1)) := by
  induction groups generalizing indices pc with
  | nil =>
    refine ⟨indices, rfl, rfl, fun _ _ => rfl, fun pre g post h => ?_⟩
    exact absurd h.symm (List.append_ne_nil_of_right_ne_nil _ (List.cons_ne_nil _ _))
  | cons g groups ih =>
    obtain ⟨hg, hcounted⟩ := List.forall_mem_cons.mp hcounted
    obtain ⟨⟨k, hk, hknone⟩, hnone⟩ := List.forall_mem_cons.mp hnone
    obtain ⟨hgne, hdistinct⟩ := List.pairwise_cons.mp hdistinct
    have hlt : k < indices.length := (List.getElem?_eq_some_iff.mp hknone).1
    have hfirst := @enterAll_counted g.1 g.2 indices pc k hg hk hknone
    -- The other groups have indices of their own.
    have hother : ∀ h ∈ groups, getIndex h.1 ≠ .some k :=
      fun h hh hhk => hgne h hh (getIndex_inj hk hhk)
    have hstill : ∀ h ∈ groups, ∃ n, getIndex h.1 = .some n ∧
        (indices.set k (.some (pc + 1, g.2.length - 1)))[n]? = .some .none := by
      intro h hh
      obtain ⟨n, hn, hnnone⟩ := hnone h hh
      refine ⟨n, hn, ?_⟩
      rw [List.getElem?_set, if_neg fun hkn : k = n => hother h hh (hkn ▸ hn)]
      exact hnnone
    obtain ⟨indices', hall, hlength, hframe, hentries⟩ := @ih _ (pc + g.2.length) hcounted hstill
      hdistinct
    have hbytecode : Groups.bytecode (g :: groups) = g.2 ++ Groups.bytecode groups :=
      List.flatMap_cons
    refine ⟨indices', ?_, hlength.trans (List.length_set ..), fun n hn => ?_, fun pre h post hsplit n hn => ?_⟩
    · rw [hbytecode, enterAll_append hfirst, hall, List.length_append, Nat.add_assoc]
    · rw [hframe n fun h hh => hn h (List.mem_cons_of_mem _ hh), List.getElem?_set,
        if_neg fun hkn : k = n => hn g (List.mem_cons_self ..) (hkn ▸ hk)]
    · rcases pre with _ | ⟨g', pre⟩
      · rw [List.nil_append, List.cons.injEq] at hsplit
        obtain ⟨rfl, -⟩ := hsplit
        obtain rfl : k = n := Option.some.inj (hk.symm.trans hn)
        rw [hframe k hother, List.getElem?_set, if_pos rfl, if_pos hlt]
        rfl
      · rw [List.cons_append, List.cons.injEq] at hsplit
        obtain ⟨rfl, rfl⟩ := hsplit
        rw [hentries pre h post rfl n hn]
        have hpre : Groups.bytecode (g :: pre) = g.2 ++ Groups.bytecode pre := List.flatMap_cons
        rw [hpre, List.length_append]
        congr 3
        omega

/-- An entry of the bytecode lies in a group. -/
theorem mem_groups {groups : Groups} {n : Nat} {i : BasicInstruction}
    (h : groups.bytecode[n]? = .some i) : ∃ pre g post k, groups = pre ++ g :: post ∧
      g.2[k]? = .some i ∧ n = (Groups.bytecode pre).length + k := by
  induction groups generalizing n with
  | nil => cases h
  | cons g groups ih =>
    have hbytecode : Groups.bytecode (g :: groups) = g.2 ++ Groups.bytecode groups :=
      List.flatMap_cons
    rw [hbytecode] at h
    by_cases hn : n < g.2.length
    · rw [List.getElem?_append_left hn] at h
      exact ⟨[], g, groups, n, rfl, h, (Nat.zero_add n).symm⟩
    · rw [List.getElem?_append_right (Nat.le_of_not_lt hn)] at h
      obtain ⟨pre, g', post, k, rfl, hk, hlength⟩ := ih h
      have hpre : Groups.bytecode (g :: pre) = g.2 ++ Groups.bytecode pre := List.flatMap_cons
      refine ⟨g :: pre, g', post, k, rfl, hk, ?_⟩
      rw [hpre, List.length_append]
      omega

/-- The vector that reaches up to an address can be allocated. -/
def Reaches (address : U64) : Prop := ((address.toNat - 0x80000000) / 2 + 2) * 24 < 2 ^ 63

theorem getPc_entry {m : BytecodePCMapper} {first n : Nat} (h : Counted address is)
    (hk : getIndex address = .some k)
    (hentry : m.indices[k]? = .some (.some (first, is.length - 1))) {i : BasicInstruction}
    (hi : is[n]? = .some i) :
    m.getPc i.address (i.virtualSequenceRemaining.getD 0) = .some (BitVec.ofNat 64 (first + n)) := by
  obtain ⟨hlt, hget⟩ := List.getElem?_eq_some_iff.mp hi
  have hlength := h.length_le
  have haddress : i.address = address := h.address_eq i (hget ▸ List.getElem_mem hlt)
  have hremaining := h.remaining_eq hi
  have hdistance : (is.length - 1 + 2 ^ 16 - (is.length - 1 - n)) % 2 ^ 16 = n := by omega
  simp only [getPc, haddress, hk, hentry, hremaining, hdistance, Option.bind_eq_bind, Option.bind_some]

/-- The mapper of a program: the PC of each entry is its index. -/
theorem tryNew_groups {groups : Groups} (hne : groups ≠ []) (hcounted : ∀ g ∈ groups, Counted g.1 g.2)
    (hindex : ∀ g ∈ groups, ∃ k, getIndex g.1 = .some k) (hreach : ∀ g ∈ groups, Reaches g.1)
    (hdistinct : groups.Pairwise fun g h => g.1 ≠ h.1)
    (hhighest : ∀ last ∈ groups.getLast?, ∀ g ∈ groups, g.1.toNat ≤ last.1.toNat)
    (hlength : groups.bytecode.length < 2 ^ 63) :
    ∃ m, tryNew (.noOpEntry :: groups.bytecode) = .some (.ok m) ∧
      ∀ n i, groups.bytecode[n]? = .some i →
        m.getPc i.address (i.virtualSequenceRemaining.getD 0) = .some (BitVec.ofNat 64 (n + 1)) := by
  obtain ⟨before, last, hlast⟩ := (List.eq_nil_or_concat' groups).resolve_left hne
  have hmemLast : last ∈ groups := by
    rw [hlast]
    exact List.mem_append_right _ (List.mem_singleton.mpr rfl)
  obtain ⟨kLast, hkLast⟩ := hindex last hmemLast
  -- The last entry is one of the last group.
  obtain ⟨i, hilast, hi⟩ : ∃ i, (BasicInstruction.noOpEntry :: groups.bytecode).getLast? = .some i ∧
      i ∈ last.2 := by
    have hbytecode : groups.bytecode = Groups.bytecode before ++ last.2 := by
      rw [hlast, Groups.bytecode, List.flatMap_append, List.flatMap_singleton]
      rfl
    have hne' := (hcounted last hmemLast).ne_nil
    refine ⟨last.2.getLast hne', ?_, List.getLast_mem hne'⟩
    rw [hbytecode, ← List.cons_append, List.getLast?_append, List.getLast?_eq_getLast_of_ne_nil hne']
    rfl
  have hiaddress : i.normalizedAddress = last.1 := by
    rw [BasicInstruction.normalizedAddress, if_neg ((hcounted last hmemLast).op_ne i hi)]
    exact (hcounted last hmemLast).address_eq i hi
  have hindices : ∀ {a : U64} {k : Nat}, getIndex a = .some k →
      k = (a.toNat - 0x80000000) / 2 + 1 ∧ 0x80000000 ≤ a.toNat := by
    intro a k hk
    unfold getIndex at hk
    split_ifs at hk with ha
    exact ⟨(Option.some.inj hk).symm, ha.1⟩
  have hle : ∀ g ∈ groups, g.1.toNat ≤ last.1.toNat := by
    refine hhighest last ?_
    rw [hlast, List.getLast?_concat]
    rfl
  let indices : Indices := (List.replicate (kLast + 1) .none).set 0 (.some (0, 0))
  have hnone : ∀ g ∈ groups, ∃ k, getIndex g.1 = .some k ∧ indices[k]? = .some .none := by
    intro g hg
    obtain ⟨k, hk⟩ := hindex g hg
    obtain ⟨hkeq, hklow⟩ := hindices hk
    obtain ⟨hkLast', -⟩ := hindices hkLast
    have hgle := hle g hg
    refine ⟨k, hk, ?_⟩
    rw [List.getElem?_set, if_neg (by omega), List.getElem?_replicate, if_pos (by omega)]
  obtain ⟨indices', hall, hlength', -, hentries⟩ := @enterAll_groups indices 0 groups hcounted hnone
    hdistinct
  have hall' : enterAll (.noOpEntry :: groups.bytecode) indices 0 =
      .some (.ok (indices', 0 + groups.bytecode.length)) := by
    rw [← hall]
    rfl
  have hbounded : ∀ e ∈ indices', (e.getD (0, 0)).1 < 2 ^ 63 := by
    have hinit : ∀ e ∈ indices, (e.getD (0, 0)).1 ≤ 0 := by
      intro e he
      rcases List.mem_or_eq_of_mem_set he with he | rfl
      · rw [(List.mem_replicate.mp he).2]
        exact Nat.le_refl 0
      · exact Nat.le_refl 0
    intro e he
    have hbound := enterAll_bounded hall hinit e he
    omega
  have hkreach : (kLast + 1) * 24 < 2 ^ 63 := by
    have hlastReach := hreach last hmemLast
    obtain ⟨hkLast', -⟩ := hindices hkLast
    rw [Reaches] at hlastReach
    rw [hkLast']
    exact hlastReach
  have hcapacity : indices'.length * 24 < 2 ^ 63 := by
    rw [hlength', List.length_set, List.length_replicate]
    exact hkreach
  have hguard : (guard ((kLast + 1) * 24 < 2 ^ 63) : Option Unit) = .some () :=
    (Option.guard_eq_some' ()).mpr hkreach
  refine ⟨⟨indices', hcapacity, fun q hq => hbounded (.some q) hq⟩, ?_, fun n j hj => ?_⟩
  · simp only [tryNew, hilast, hiaddress, hkLast, hguard, Option.bind_eq_bind, Option.bind_some]
    change (enterAll (.noOpEntry :: groups.bytecode) indices 0).bind _ = _
    rw [hall', Option.bind_some]
    exact dif_pos ⟨hcapacity, hbounded⟩
  · obtain ⟨pre, g, post, k, hsplit, hk, rfl⟩ := mem_groups hj
    have hg : g ∈ groups := by
      rw [hsplit]
      exact List.mem_append_right _ (List.mem_cons_self ..)
    obtain ⟨index, hindexg⟩ := hindex g hg
    have hentry := hentries pre g post hsplit index hindexg
    rw [getPc_entry (hcounted g hg) hindexg hentry hk]
    congr 2
    omega

end BytecodePCMapper

/-- **Preprocessing a program succeeds, and the PC of every entry is its index.** -/
theorem BytecodeTable.preprocess_groups {groups : BytecodePCMapper.Groups} (hne : groups ≠ [])
    (hcounted : ∀ g ∈ groups, Counted g.1 g.2)
    (hindex : ∀ g ∈ groups, ∃ k, BytecodePCMapper.getIndex g.1 = .some k)
    (hreach : ∀ g ∈ groups, BytecodePCMapper.Reaches g.1)
    (hdistinct : groups.Pairwise fun g h => g.1 ≠ h.1)
    (hhighest : ∀ last ∈ groups.getLast?, ∀ g ∈ groups, g.1.toNat ≤ last.1.toNat)
    (hlength : groups.bytecode.length < 2 ^ 63) (entryAddress : U64) :
    ∃ t, preprocess groups.bytecode entryAddress = .some (.ok t) ∧
      (∃ padding, t.bytecode = .noOpEntry :: groups.bytecode ++ List.replicate padding .noOpEntry) ∧
      ∀ n i, groups.bytecode[n]? = .some i → t.pcMap.getPc i.address
        (i.virtualSequenceRemaining.getD 0) = .some (BitVec.ofNat 64 (n + 1)) := by
  obtain ⟨m, hm, hpcs⟩ := BytecodePCMapper.tryNew_groups hne hcounted hindex hreach hdistinct hhighest hlength
  let codeSize := max (nextPowerOfTwo (BasicInstruction.noOpEntry :: groups.bytecode).length) 2
  let padding := codeSize - (BasicInstruction.noOpEntry :: groups.bytecode).length
  refine ⟨⟨⟨m⟩, codeSize, .noOpEntry :: groups.bytecode ++ List.replicate padding .noOpEntry,
    entryAddress⟩, ?_, ⟨padding, rfl⟩, hpcs⟩
  simp only [preprocess, hm, Option.bind_eq_bind, Option.bind_some]
  rfl

end LightningJolt
