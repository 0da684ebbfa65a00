/-
The BLAKE2b hasher of `DoryFiatShamir.sol`, with its arrays of hash words in
memory by reference and the EIP-152 precompile as a parameter, beside the
digest of BLAKE2b.
-/
import LightningJolt.Blake2b
import LightningJolt.OnChainBatched

namespace LightningJolt

open Blake2b

/-! ## The contract

`none` is a revert. -/

namespace DoryFiatShamir

/-- A `uint64[8]` in memory, by its place. -/
abbrev Ref := Nat

abbrev HashMemory := Ref → HashWords

structure Blake2bState where
  h : Ref
  t : Nat
  bufLen : Nat
  buf : List U8

/-- `blake2bInit`, with a new array for the hash: the personalization only reaches a local variable. -/
def blake2bInit (mem : HashMemory) (h : Ref) (_personalization : List U8) : HashMemory × Blake2bState :=
  (Function.update mem h unpersonalized, ⟨h, 0, 0, List.replicate 128 0⟩)

/-- `state.t += n`, in 128 bits. -/
def Blake2bState.count (state : Blake2bState) (n : Nat) : Option Blake2bState :=
  if state.t + n < 2 ^ 128 then .some { state with t := state.t + n } else .none

/-- The 213 bytes for the precompile. -/
def compressInput (h : HashWords) (buf : List U8) (t : Nat) (last : Bool) : List U8 :=
  [0x00, 0x00, 0x00, 0x0c] ++ wordBytes h.toList ++ buf.take 128 ++ leBytes 8 (t % 2 ^ 64) ++
    leBytes 8 (t / 2 ^ 64 % 2 ^ 64) ++ [if last then 0x01 else 0x00]

/-- The output parsed back into words. -/
def parseWords (output : List U8) : HashWords :=
  Vector.ofFn fun i : Fin 8 => leWord ((output.drop (8 * i.val)).take 8)

variable (precompile : List U8 → Option (List U8))

/-- `_blake2bCompress`. -/
def blake2bCompress (mem : HashMemory) (state : Blake2bState) (last : Bool) : Option HashMemory := do
  let output ← precompile (compressInput (mem state.h) state.buf state.t last)
  if output.length = 64 then .some (Function.update mem state.h (parseWords output)) else .none

/-- The compression of a full buffer, which waits for more data. -/
def flushFull (mem : HashMemory) (state : Blake2bState) : Option (HashMemory × Blake2bState) :=
  if state.bufLen = 128 then do
    let state ← state.count 128
    let mem ← blake2bCompress precompile mem state false
    .some (mem, { state with bufLen := 0 })
  else .some (mem, state)

/-- The copy of bytes behind those in the buffer. -/
def Blake2bState.copyIn (state : Blake2bState) (bytes : List U8) : Blake2bState :=
  { state with
    bufLen := state.bufLen + bytes.length
    buf := state.buf.take state.bufLen ++ bytes ++ state.buf.drop (state.bufLen + bytes.length) }

/-- The loop of `blake2bUpdate`, every pass of which copies a byte at least. -/
def updateLoop : Nat → HashMemory → Blake2bState → List U8 → Option (HashMemory × Blake2bState)
  | 0, mem, state, _ => .some (mem, state)
  | fuel + 1, mem, state, data =>
    if data = [] then .some (mem, state)
    else do
      let (mem, state) ← flushFull precompile mem state
      let toCopy := min (128 - state.bufLen) data.length
      updateLoop fuel mem (state.copyIn (data.take toCopy)) (data.drop toCopy)

def blake2bUpdate (mem : HashMemory) (state : Blake2bState) (data : List U8) : Option (HashMemory × Blake2bState) :=
  updateLoop precompile data.length mem state data

/-- The buffer with zeros behind its bytes. -/
def Blake2bState.zeroed (state : Blake2bState) : Blake2bState :=
  { state with buf := state.buf.take state.bufLen ++ List.replicate (128 - state.bufLen) 0 }

/-- `blake2bFinalize`. -/
def blake2bFinalize (mem : HashMemory) (state : Blake2bState) : Option (List U8 × HashMemory) := do
  let state ← state.count state.bufLen
  let mem ← blake2bCompress precompile mem state.zeroed true
  .some (wordBytes (mem state.h).toList, mem)

/-- `2^256 mod R`. -/
def two256ModR : Word := 0x0e0a77c19a07df2f666ea36f7879462e36fc76959f60cd29ac96341c4ffffffb

/-- `_leBytes64ToScalar`. -/
def leBytes64ToScalar (digest : List U8) : Word :=
  let low : Word := BitVec.ofNat 256 (ofLe (digest.take 32))
  let high : Word := BitVec.ofNat 256 (ofLe ((digest.drop 32).take 32))
  (high.mulmod two256ModR scalarModulus).addmod (BitVec.ofNat 256 (low.toNat % scalarModulus)) scalarModulus

/-- `challengeScalar`. The clone is given the array of the hash, not a copy of it, and the buffer is
copied. -/
def challengeScalar (mem : HashMemory) (state : Blake2bState) (label : List U8) :
    Option (Word × HashMemory × Blake2bState) := do
  let (mem, state) ← blake2bUpdate precompile mem state label
  let cloned := state.zeroed
  let (digest, mem) ← blake2bFinalize precompile mem cloned
  let scalar := leBytes64ToScalar digest
  let (mem, state) ← blake2bUpdate precompile mem state digest
  .some (scalar, mem, state)

/-- The pieces absorbed one after another. -/
def absorb (mem : HashMemory) (state : Blake2bState) (pieces : List (List U8)) : Option (HashMemory × Blake2bState) :=
  pieces.foldlM (fun s data => blake2bUpdate precompile s.1 s.2 data) (mem, state)

/-- The hash of the pieces. -/
def hash (mem : HashMemory) (h : Ref) (personalization : List U8) (pieces : List (List U8)) : Option (List U8) := do
  let (mem, state) := blake2bInit mem h personalization
  let (mem, state) ← absorb precompile mem state pieces
  let (digest, _) ← blake2bFinalize precompile mem state
  .some digest

/-! ## What is expected of it -/

/-- The precompile computes the compression function, as EIP-152 has it. -/
def Computes (F : Compression) : Prop :=
  ∀ (rounds : Nat) (h : HashWords) (m : BlockWords) (t : Nat) (last : Bool), rounds < 2 ^ 32 → t < 2 ^ 128 →
    precompile (beBytes 4 rounds ++ wordBytes h.toList ++ wordBytes m.toList ++ leBytes 8 (t % 2 ^ 64) ++
      leBytes 8 (t / 2 ^ 64) ++ [if last then 1 else 0]) = .some (wordBytes (F rounds h m t last).toList)

/-- The bytes in the buffer. -/
def Blake2bState.pending (state : Blake2bState) : List U8 := state.buf.take state.bufLen

/-- The buffer has room for a block, and no more is in it. -/
structure Blake2bState.Fits (state : Blake2bState) : Prop where
  bufLen : state.bufLen ≤ 128
  buf : state.buf.length = 128

variable (F : Compression)

/-- The digest of what a state has absorbed. -/
def digestOf (mem : HashMemory) (state : Blake2bState) : Option (List U8) :=
  (hashFrom F (mem state.h) state.t state.pending).map fun h => wordBytes h.toList

/-- The challenge as it is meant: the digest of the state with the label absorbed, modulo the order, and
the state with label and digest absorbed. -/
def expectedChallenge (mem : HashMemory) (state : Blake2bState) (label : List U8) :
    Option (Word × HashMemory × Blake2bState) := do
  let (mem, state) ← blake2bUpdate precompile mem state label
  let digest ← digestOf F mem state
  let (mem, state) ← blake2bUpdate precompile mem state digest
  .some (BitVec.ofNat 256 (ofLe digest % scalarModulus), mem, state)

/-- The hash of a state may be the final one in place of its own: nothing is compressed after it and the two
are the same, or the one compression with the digest does not tell them apart. -/
def Blake2bState.Survives (state : Blake2bState) (own final : HashWords) : Prop :=
  if state.bufLen + 64 ≤ 128 then final = own
  else state.t + 128 < 2 ^ 128 →
    F 12 final (blockWords ((state.pending ++ wordBytes final.toList).take 128)) (state.t + 128) false =
      F 12 own (blockWords ((state.pending ++ wordBytes final.toList).take 128)) (state.t + 128) false

/-! ## The compression -/

section Compression

variable {precompile : List U8 → Option (List U8)} {F : Compression} {mem : HashMemory} {state : Blake2bState}

theorem parseWords_wordBytes (h : HashWords) : parseWords (wordBytes h.toList) = h := by
  refine Vector.ext fun i hi => ?_
  have hword := @leWord_wordBytes h.toList i (by simpa using hi)
  rw [parseWords, Vector.getElem_ofFn, hword]
  simp

/-- The precompile is called on the bytes it takes, and its output is taken for the hash. -/
theorem blake2bCompress_eq (hF : Computes precompile F) (hbuf : state.buf.length = 128) (ht : state.t < 2 ^ 128)
    (last : Bool) : blake2bCompress precompile mem state last =
      .some (Function.update mem state.h (F 12 (mem state.h) (blockWords state.buf) state.t last)) := by
  have hrounds : beBytes 4 12 = [0x00, 0x00, 0x00, 0x0c] := by decide
  have hhigh : state.t / 2 ^ 64 % 2 ^ 64 = state.t / 2 ^ 64 := Nat.mod_eq_of_lt (by omega)
  have hcall := hF 12 (mem state.h) (blockWords state.buf) state.t last (by decide) ht
  rw [hrounds, wordBytes_blockWords hbuf] at hcall
  rw [blake2bCompress, compressInput, List.take_of_length_le hbuf.le, hhigh]
  simp only [hcall, Option.bind_eq_bind, Option.bind_some, length_wordBytes, Vector.length_toList, if_true,
    parseWords_wordBytes]

theorem flushFull_eq (hF : Computes precompile F) (hbuf : state.buf.length = 128) :
    flushFull precompile mem state = if state.bufLen = 128 then
      if state.t + 128 < 2 ^ 128 then
        .some (Function.update mem state.h (F 12 (mem state.h) (blockWords state.buf) (state.t + 128) false),
          { state with t := state.t + 128, bufLen := 0 })
      else .none
    else .some (mem, state) := by
  rw [flushFull]
  split_ifs with hfull hcount
  · have hcompress := @blake2bCompress_eq precompile F mem { state with t := state.t + 128 } hF hbuf hcount false
    rw [Blake2bState.count, if_pos hcount]
    simp only [Option.bind_eq_bind, Option.bind_some, hcompress]
  · rw [Blake2bState.count, if_neg hcount]
    rfl
  · rfl

/-! ## Absorbing -/

theorem length_pending (h : state.Fits) : state.pending.length = state.bufLen := by
  rw [Blake2bState.pending, List.length_take, h.buf, Nat.min_eq_left h.bufLen]

theorem fits_copyIn (h : state.Fits) {bytes : List U8} (hbytes : state.bufLen + bytes.length ≤ 128) :
    (state.copyIn bytes).Fits where
  bufLen := hbytes
  buf := by
    have htake := length_pending h
    rw [Blake2bState.pending] at htake
    rw [Blake2bState.copyIn, List.length_append, List.length_append, htake, List.length_drop, h.buf]
    omega

theorem pending_copyIn (h : state.Fits) (bytes : List U8) : (state.copyIn bytes).pending = state.pending ++ bytes := by
  have htake := length_pending h
  rw [Blake2bState.pending] at htake
  refine List.take_left' ?_
  rw [List.length_append, htake, Blake2bState.copyIn]

/-- What absorbing data from a state does, or that the counter runs out before any message with the data ends. -/
structure Absorbs (F : Compression) (mem : HashMemory) (state : Blake2bState) (data : List U8)
    (mem' : HashMemory) (state' : Blake2bState) : Prop where
  fits : state'.Fits
  h : state'.h = state.h
  elsewhere : ∀ r, r ≠ state.h → mem' r = mem r
  hash : ∀ msg, hashFrom F (mem' state.h) state'.t (state'.pending ++ msg) =
    hashFrom F (mem state.h) state.t (state.pending ++ (data ++ msg))

/-- The flush of a full buffer before more data. -/
theorem flushFull_absorbs (hF : Computes precompile F) (hfits : state.Fits) {data : List U8} (hdata : data ≠ []) :
    (∃ mem' state', flushFull precompile mem state = .some (mem', state') ∧ state'.Fits ∧ state'.bufLen < 128 ∧
      state'.h = state.h ∧ (∀ r, r ≠ state.h → mem' r = mem r) ∧
      ∀ msg, hashFrom F (mem' state.h) state'.t (state'.pending ++ (data ++ msg)) =
        hashFrom F (mem state.h) state.t (state.pending ++ (data ++ msg))) ∨
    (flushFull precompile mem state = .none ∧
      ∀ msg, hashFrom F (mem state.h) state.t (state.pending ++ (data ++ msg)) = .none) := by
  rw [flushFull_eq hF hfits.buf]
  split_ifs with hfull hcount
  · refine .inl ⟨_, _, rfl, ⟨Nat.zero_le _, hfits.buf⟩, Nat.zero_lt_succ 127, rfl, fun r hr => Function.update_of_ne hr .., ?_⟩
    intro msg
    have hpending : state.pending = state.buf := by
      rw [Blake2bState.pending, hfull, List.take_of_length_le hfits.buf.le]
    rw [hpending, hashFrom_block hfits.buf (List.append_ne_nil_of_left_ne_nil hdata msg), if_pos hcount,
      Function.update_self]
    rfl
  · refine .inr ⟨rfl, fun msg => ?_⟩
    have hpending : state.pending = state.buf := by
      rw [Blake2bState.pending, hfull, List.take_of_length_le hfits.buf.le]
    rw [hpending, hashFrom_block hfits.buf (List.append_ne_nil_of_left_ne_nil hdata msg), if_neg hcount]
  · exact .inl ⟨mem, state, rfl, hfits, Nat.lt_of_le_of_ne hfits.bufLen hfull, rfl, fun _ _ => rfl, fun _ => rfl⟩

/-- The loop absorbs its data. -/
theorem updateLoop_absorbs (hF : Computes precompile F) (fuel : Nat) {data : List U8} (hfuel : data.length ≤ fuel)
    (hfits : state.Fits) :
    (∃ mem' state', updateLoop precompile fuel mem state data = .some (mem', state') ∧
      Absorbs F mem state data mem' state') ∨
    (updateLoop precompile fuel mem state data = .none ∧
      ∀ msg, hashFrom F (mem state.h) state.t (state.pending ++ (data ++ msg)) = .none) := by
  induction fuel generalizing mem state data with
  | zero =>
    rw [List.length_eq_zero_iff.mp (Nat.le_zero.mp hfuel)]
    exact .inl ⟨mem, state, rfl, hfits, rfl, fun _ _ => rfl, fun _ => rfl⟩
  | succ fuel ih =>
    by_cases hdata : data = []
    · subst hdata
      exact .inl ⟨mem, state, rfl, hfits, rfl, fun _ _ => rfl, fun _ => rfl⟩
    rw [updateLoop, if_neg hdata]
    rcases @flushFull_absorbs precompile F mem state hF hfits data hdata with
      ⟨mem1, state1, hflush, hfits1, hroom, hh1, helsewhere1, hhash1⟩ | ⟨hflush, hnone⟩
    swap
    · rw [hflush]
      exact .inr ⟨rfl, hnone⟩
    rw [hflush]
    have hpos : 0 < data.length := List.length_pos_iff.mpr hdata
    have htake : (data.take (min (128 - state1.bufLen) data.length)).length = min (128 - state1.bufLen) data.length := by
      rw [List.length_take]
      omega
    have hcopied := @fits_copyIn state1 hfits1 (data.take (min (128 - state1.bufLen) data.length)) (by omega)
    have hpending := @pending_copyIn state1 hfits1 (data.take (min (128 - state1.bufLen) data.length))
    -- the message with the copied bytes moved into the buffer
    have hmoved : ∀ msg, hashFrom F (mem1 state1.h) state1.t
        ((state1.copyIn (data.take (min (128 - state1.bufLen) data.length))).pending ++
          (data.drop (min (128 - state1.bufLen) data.length) ++ msg)) =
        hashFrom F (mem state.h) state.t (state.pending ++ (data ++ msg)) := by
      intro msg
      rw [hpending, List.append_assoc, ← List.append_assoc (data.take _), List.take_append_drop, hh1, hhash1 msg]
    rcases @ih mem1 (state1.copyIn (data.take (min (128 - state1.bufLen) data.length)))
        (data.drop (min (128 - state1.bufLen) data.length)) (by rw [List.length_drop]; omega) hcopied with
      ⟨mem2, state2, hloop, habsorbs⟩ | ⟨hloop, hnone⟩
    · refine .inl ⟨mem2, state2, hloop, habsorbs.fits, habsorbs.h.trans hh1, ?_, ?_⟩
      · intro r hr
        exact (habsorbs.elsewhere r (hh1 ▸ hr)).trans (helsewhere1 r hr)
      · intro msg
        rw [← hmoved msg, ← hh1]
        exact habsorbs.hash msg
    · exact .inr ⟨hloop, fun msg => (hmoved msg).symm.trans (hnone msg)⟩

/-- A call absorbs its data. -/
theorem blake2bUpdate_absorbs (hF : Computes precompile F) (hfits : state.Fits) (data : List U8) :
    (∃ mem' state', blake2bUpdate precompile mem state data = .some (mem', state') ∧
      Absorbs F mem state data mem' state') ∨
    (blake2bUpdate precompile mem state data = .none ∧
      ∀ msg, hashFrom F (mem state.h) state.t (state.pending ++ (data ++ msg)) = .none) :=
  updateLoop_absorbs hF data.length le_rfl hfits

/-- The calls absorb the pieces put together. -/
theorem absorb_absorbs (hF : Computes precompile F) (hfits : state.Fits) (pieces : List (List U8)) :
    (∃ mem' state', absorb precompile mem state pieces = .some (mem', state') ∧
      Absorbs F mem state pieces.flatten mem' state') ∨
    (absorb precompile mem state pieces = .none ∧
      ∀ msg, hashFrom F (mem state.h) state.t (state.pending ++ (pieces.flatten ++ msg)) = .none) := by
  induction pieces generalizing mem state with
  | nil => exact .inl ⟨mem, state, rfl, hfits, rfl, fun _ _ => rfl, fun _ => rfl⟩
  | cons data pieces ih =>
    rw [absorb, List.foldlM_cons, List.flatten_cons]
    rcases @blake2bUpdate_absorbs precompile F mem state hF hfits data with
      ⟨mem1, state1, hupdate, habsorbs⟩ | ⟨hupdate, hnone⟩
    swap
    · rw [hupdate]
      exact .inr ⟨rfl, fun msg => by rw [List.append_assoc]; exact hnone _⟩
    rw [hupdate]
    rcases @ih mem1 state1 habsorbs.fits with ⟨mem2, state2, hrest, hrestAbsorbs⟩ | ⟨hrest, hnone⟩
    · refine .inl ⟨mem2, state2, hrest, hrestAbsorbs.fits, hrestAbsorbs.h.trans habsorbs.h, ?_, ?_⟩
      · intro r hr
        exact (hrestAbsorbs.elsewhere r (habsorbs.h ▸ hr)).trans (habsorbs.elsewhere r hr)
      · intro msg
        have hhash := hrestAbsorbs.hash msg
        rw [habsorbs.h] at hhash
        rw [hhash, habsorbs.hash, List.append_assoc]
    · refine .inr ⟨hrest, fun msg => ?_⟩
      have hhash := hnone msg
      rw [habsorbs.h, habsorbs.hash] at hhash
      rw [List.append_assoc]
      exact hhash

/-! ## The digest -/

theorem fits_zeroed (h : state.Fits) : state.zeroed.Fits where
  bufLen := h.bufLen
  buf := by
    have htake := length_pending h
    have hle := h.bufLen
    rw [Blake2bState.pending] at htake
    rw [Blake2bState.zeroed, List.length_append, htake, List.length_replicate]
    omega

theorem pending_zeroed (h : state.Fits) : state.zeroed.pending = state.pending :=
  List.take_left' (length_pending h)

/-- The finalisation writes the last hash of the pending bytes over the array. -/
theorem blake2bFinalize_eq (hF : Computes precompile F) (hfits : state.Fits) :
    blake2bFinalize precompile mem state = (hashFrom F (mem state.h) state.t state.pending).map fun h =>
      (wordBytes h.toList, Function.update mem state.h h) := by
  have hlength := length_pending hfits
  rw [hashFrom_of_le (hlength.trans_le hfits.bufLen), hlength, blake2bFinalize, Blake2bState.count]
  split_ifs with hcount
  · have hblock : ({ state with t := state.t + state.bufLen } : Blake2bState).zeroed.buf = padded state.pending := by
      rw [padded, hlength]
      rfl
    have hcompress := @blake2bCompress_eq precompile F mem
      ({ state with t := state.t + state.bufLen } : Blake2bState).zeroed hF (fits_zeroed ⟨hfits.bufLen, hfits.buf⟩).buf
      hcount true
    rw [hblock] at hcompress
    simp only [Option.bind_eq_bind, Option.bind_some, hcompress, Option.map_some]
    exact congrArg some (Prod.ext (congrArg (fun h : HashWords => wordBytes h.toList) (Function.update_self ..)) rfl)
  · rfl

theorem fits_init (mem : HashMemory) (h : Ref) (personalization : List U8) :
    (blake2bInit mem h personalization).2.Fits := ⟨Nat.zero_le _, List.length_replicate⟩

/-- **The hash of the pieces** is the digest of all their bytes without a personalization. -/
theorem hash_eq (hF : Computes precompile F) (mem : HashMemory) (h : Ref) (personalization : List U8)
    (pieces : List (List U8)) : hash precompile mem h personalization pieces = digest F [] pieces.flatten := by
  have hstart : (blake2bInit mem h personalization).1 (blake2bInit mem h personalization).2.h = initial [] := by
    rw [initial_nil]
    exact Function.update_self ..
  rw [hash, digest]
  rcases @absorb_absorbs precompile F (blake2bInit mem h personalization).1 (blake2bInit mem h personalization).2 hF
      (fits_init mem h personalization) pieces with ⟨mem1, state1, habsorb, habsorbs⟩ | ⟨habsorb, hnone⟩
  · have hhash : hashFrom F (mem1 state1.h) state1.t state1.pending = hashFrom F (initial []) 0 pieces.flatten := by
      have h := habsorbs.hash []
      rw [hstart, List.append_nil, List.append_nil, ← habsorbs.h] at h
      exact h
    have hfinal := @blake2bFinalize_eq precompile F mem1 state1 hF habsorbs.fits
    simp only [habsorb, Option.bind_eq_bind, Option.bind_some, hfinal, hhash]
    cases hashFrom F (initial []) 0 pieces.flatten with
    | none => rfl
    | some last => rfl
  · have hhash := hnone []
    rw [hstart, List.append_nil] at hhash
    change hashFrom F (initial []) 0 ([] ++ pieces.flatten) = .none at hhash
    rw [List.nil_append] at hhash
    simp only [habsorb, Option.bind_eq_bind, Option.bind_none, hhash, Option.map_none]

end Compression

/-! ## The scalar -/

theorem leBytes64ToScalar_eq {digest : List U8} (h : digest.length = 64) :
    leBytes64ToScalar digest = BitVec.ofNat 256 (ofLe digest % scalarModulus) := by
  have hlow : ofLe (digest.take 32) < 2 ^ 256 := by
    have hlt := @ofLe_lt (digest.take 32)
    rw [List.length_take, h] at hlt
    exact hlt
  have hhigh : ofLe ((digest.drop 32).take 32) < 2 ^ 256 := by
    have hlt := @ofLe_lt ((digest.drop 32).take 32)
    rw [List.length_take, List.length_drop, h] at hlt
    exact hlt
  have hsplit : ofLe digest = ofLe (digest.take 32) + 2 ^ 256 * ofLe ((digest.drop 32).take 32) := by
    have hdrop : (digest.drop 32).take 32 = digest.drop 32 :=
      List.take_of_length_le (by rw [List.length_drop]; omega)
    conv_lhs => rw [← List.take_append_drop 32 digest, ofLe_append]
    rw [hdrop, List.length_take, h]
    rfl
  have hconstant : two256ModR.residue = 2 ^ 256 := by decide +kernel
  have hreduced : ∀ k : Nat, Word.residue (BitVec.ofNat 256 (k % scalarModulus)) = (k : Fr) := by
    intro k
    have hlt : k % scalarModulus < 2 ^ 256 := (Nat.mod_lt k (by decide)).trans (by decide)
    rw [Word.residue, BitVec.toNat_ofNat, Nat.mod_eq_of_lt hlt, ZMod.natCast_mod]
  rw [leBytes64ToScalar]
  refine (eq_frWord (addmod_lt ..) ?_).trans (eq_frWord (reduced_lt _) (hreduced _)).symm
  simp only [SumcheckVerifier.residue_addmod, residue_mulmod, hconstant, hreduced]
  rw [Word.residue, BitVec.toNat_ofNat, BitVec.toNat_ofNat, Nat.mod_eq_of_lt hlow, Nat.mod_eq_of_lt hhigh, hsplit]
  push_cast
  ring

/-! ## The challenge -/

section Challenge

variable {precompile : List U8 → Option (List U8)} {F : Compression} {mem : HashMemory} {state : Blake2bState}

theorem updateLoop_nil (fuel : Nat) : updateLoop precompile fuel mem state [] = .some (mem, state) := by
  cases fuel <;> rfl

/-- Data that the buffer has room for is copied. -/
theorem updateLoop_room (hbuf : state.bufLen < 128) {data : List U8} (hdata : data ≠ [])
    (hroom : state.bufLen + data.length ≤ 128) (fuel : Nat) :
    updateLoop precompile (fuel + 1) mem state data = .some (mem, state.copyIn data) := by
  have hmin : min (128 - state.bufLen) data.length = data.length := by omega
  rw [updateLoop, if_neg hdata, flushFull, if_neg hbuf.ne]
  simp only [Option.bind_eq_bind, Option.bind_some, hmin, List.take_length, List.drop_length, updateLoop_nil]

/-- The state after a full buffer is compressed and data copied. -/
def Blake2bState.next (state : Blake2bState) (data : List U8) : Blake2bState :=
  ({ state with t := state.t + 128, bufLen := 0 } : Blake2bState).copyIn data

/-- Before a full buffer takes data it is compressed. -/
theorem updateLoop_full (hF : Computes precompile F) (hfits : state.Fits) (hfull : state.bufLen = 128)
    {data : List U8} (hdata : data ≠ []) (hroom : data.length ≤ 128) (fuel : Nat) :
    updateLoop precompile (fuel + 1) mem state data = if state.t + 128 < 2 ^ 128 then
      .some (Function.update mem state.h (F 12 (mem state.h) (blockWords state.pending) (state.t + 128) false),
        state.next data) else .none := by
  have hpending : state.pending = state.buf := by
    rw [Blake2bState.pending, hfull, List.take_of_length_le hfits.buf.le]
  have hmin : min (128 - 0) data.length = data.length := by omega
  rw [updateLoop, if_neg hdata, flushFull_eq hF hfits.buf, if_pos hfull, hpending]
  split_ifs with hcount
  · simp only [Option.bind_eq_bind, Option.bind_some, hmin, List.take_length, List.drop_length, updateLoop_nil]
    rfl
  · rfl

theorem copyIn_nil (hfits : state.Fits) (hfull : state.bufLen = 128) : state.copyIn [] = state := by
  have htake : state.buf.take 128 = state.buf := List.take_of_length_le hfits.buf.le
  have hdrop : state.buf.drop 128 = [] := List.drop_of_length_le hfits.buf.le
  cases state
  simp only at hfull htake hdrop
  subst hfull
  simp only [Blake2bState.copyIn, List.length_nil, Nat.add_zero, htake, hdrop, List.append_nil]

/-- Data beyond the room of the buffer: the buffer is filled up, compressed, and takes the rest. -/
theorem updateLoop_beyond (hF : Computes precompile F) (hfits : state.Fits) {data : List U8}
    (hbeyond : 128 < state.bufLen + data.length) (hshort : data.length ≤ 128) (fuel : Nat) :
    updateLoop precompile (fuel + 2) mem state data = if state.t + 128 < 2 ^ 128 then
      .some (Function.update mem state.h
          (F 12 (mem state.h) (blockWords ((state.pending ++ data).take 128)) (state.t + 128) false),
        (state.copyIn (data.take (128 - state.bufLen))).next (data.drop (128 - state.bufLen))) else .none := by
  have hle := hfits.bufLen
  have hlen := length_pending hfits
  have hfirst : (data.take (128 - state.bufLen)).length = 128 - state.bufLen := by
    rw [List.length_take]
    omega
  have hrest : data.drop (128 - state.bufLen) ≠ [] := by
    refine List.ne_nil_of_length_pos ?_
    rw [List.length_drop]
    omega
  have hcopied := @fits_copyIn state hfits (data.take (128 - state.bufLen)) (by omega)
  have hfull : (state.copyIn (data.take (128 - state.bufLen))).bufLen = 128 := by
    show state.bufLen + (data.take (128 - state.bufLen)).length = 128
    rw [hfirst]
    omega
  have hblock : (state.copyIn (data.take (128 - state.bufLen))).pending = (state.pending ++ data).take 128 := by
    rw [pending_copyIn hfits, List.take_append, List.take_of_length_le (by omega : state.pending.length ≤ 128), hlen]
  have hcompressed (k : Nat) := @updateLoop_full precompile F mem (state.copyIn (data.take (128 - state.bufLen))) hF
    hcopied hfull _ hrest (by rw [List.length_drop]; omega) k
  rw [hblock] at hcompressed
  by_cases hroom : state.bufLen = 128
  · have hsame : state.copyIn (data.take (128 - state.bufLen)) = state := by
      rw [hroom]
      exact copyIn_nil hfits hroom
    have hall : data.drop (128 - state.bufLen) = data := by
      rw [hroom]
      rfl
    have hloop := hcompressed (fuel + 1)
    rw [hsame, hall] at hloop ⊢
    exact hloop
  · have hmin : min (128 - state.bufLen) data.length = 128 - state.bufLen := by omega
    have hdata : data ≠ [] := List.ne_nil_of_length_pos (by omega)
    rw [updateLoop, if_neg hdata, flushFull, if_neg hroom]
    simp only [Option.bind_eq_bind, Option.bind_some, hmin]
    exact hcompressed fuel

/-- What the digest leaves of the hash does not depend on the rest of the memory. -/
theorem update_digest (hF : Computes precompile F) (hfits : state.Fits) {digest : List U8} (hlen : digest.length = 64) :
    ∃ state', ∀ mem, blake2bUpdate precompile mem state digest =
      if state.bufLen + 64 ≤ 128 then .some (mem, state')
      else if state.t + 128 < 2 ^ 128 then
        .some (Function.update mem state.h
          (F 12 (mem state.h) (blockWords ((state.pending ++ digest).take 128)) (state.t + 128) false), state')
      else .none := by
  have hle := hfits.bufLen
  by_cases hroom : state.bufLen + 64 ≤ 128
  · refine ⟨state.copyIn digest, fun mem => ?_⟩
    rw [if_pos hroom, blake2bUpdate, hlen]
    exact updateLoop_room (by omega) (List.ne_nil_of_length_pos (by omega)) (by omega) 63
  · refine ⟨(state.copyIn (digest.take (128 - state.bufLen))).next (digest.drop (128 - state.bufLen)), fun mem => ?_⟩
    rw [if_neg hroom, blake2bUpdate, hlen]
    exact updateLoop_beyond hF hfits (by omega) (by omega) 62

/-- **The challenge** is the scalar of the digest of all that is absorbed, and the state goes on from its own
hash exactly where that survives the finalisation of the clone, which shares the array. -/
theorem challengeScalar_eq_iff (hF : Computes precompile F) (hfits : state.Fits) (label : List U8) :
    (challengeScalar precompile mem state label).map Prod.fst =
        (expectedChallenge precompile F mem state label).map Prod.fst ∧
      (challengeScalar precompile mem state label = expectedChallenge precompile F mem state label ↔
        ∀ mem1 state1 final, blake2bUpdate precompile mem state label = .some (mem1, state1) →
          hashFrom F (mem1 state1.h) state1.t state1.pending = .some final →
          state1.Survives F (mem1 state1.h) final) := by
  rw [challengeScalar, expectedChallenge]
  rcases @blake2bUpdate_absorbs precompile F mem state hF hfits label with
    ⟨mem1, state1, hupdate, habsorbs⟩ | ⟨hupdate, -⟩
  swap
  · simp [hupdate]
  have hfinalize := @blake2bFinalize_eq precompile F mem1 state1.zeroed hF (fits_zeroed habsorbs.fits)
  rw [pending_zeroed habsorbs.fits] at hfinalize
  change blake2bFinalize precompile mem1 state1.zeroed = (hashFrom F (mem1 state1.h) state1.t state1.pending).map
    fun h => (wordBytes h.toList, Function.update mem1 state1.h h) at hfinalize
  simp only [hupdate, Option.bind_eq_bind, Option.bind_some, hfinalize, digestOf, Option.some.injEq, Prod.mk.injEq]
  cases hhash : hashFrom F (mem1 state1.h) state1.t state1.pending with
  | none =>
    simp only [Option.map_none, Option.bind_none, true_and, true_iff]
    rintro mem1' state1' final ⟨rfl, rfl⟩ hfinal
    rw [hhash] at hfinal
    cases hfinal
  | some final =>
    have hlen : (wordBytes final.toList).length = 64 := by rw [length_wordBytes, Vector.length_toList]
    obtain ⟨state2, hresume⟩ := @update_digest precompile F state1 hF habsorbs.fits _ hlen
    have hright : (∀ mem1' state1' final', mem1 = mem1' ∧ state1 = state1' →
        hashFrom F (mem1' state1'.h) state1'.t state1'.pending = .some final' →
        state1'.Survives F (mem1' state1'.h) final') ↔ state1.Survives F (mem1 state1.h) final := by
      constructor
      · intro h
        exact h mem1 state1 final ⟨rfl, rfl⟩ hhash
      · rintro h mem1' state1' final' ⟨rfl, rfl⟩ hfinal
        rw [hhash] at hfinal
        cases hfinal
        exact h
    rw [hright]
    simp only [Option.map_some, Option.bind_some, leBytes64ToScalar_eq hlen, hresume, Blake2bState.Survives]
    by_cases hroom : state1.bufLen + 64 ≤ 128
    · simp only [if_pos hroom, Option.bind_some, Option.map_some, Option.some.injEq, Prod.mk.injEq, true_and, and_true]
      rw [Function.update_eq_self_iff]
    by_cases hcount : state1.t + 128 < 2 ^ 128
    · simp only [if_neg hroom, hcount, if_true, Option.bind_some, Option.map_some, Option.some.injEq, Prod.mk.injEq,
        true_and, and_true, Function.update_self, Function.update_idem, true_implies]
      constructor
      · intro h
        have hat := congrFun h state1.h
        rwa [Function.update_self, Function.update_self] at hat
      · intro h
        rw [h]
    · simp only [if_neg hroom, if_neg hcount, Option.bind_none, Option.map_none, true_and, true_iff]
      exact fun h => absurd h hcount

end Challenge

/-! ## The precompile -/

/-- The precompile of EIP-152, of a compression function. -/
def eip152 (F : Compression) (input : List U8) : Option (List U8) :=
  if input.length = 213 ∧ (input.getD 212 0 = 0 ∨ input.getD 212 0 = 1) then
    .some (wordBytes (F (ofBe (input.take 4)) (parseWords ((input.drop 4).take 64))
      (blockWords ((input.drop 68).take 128)) (ofLe ((input.drop 196).take 16)) (input.getD 212 0 = 1)).toList)
  else .none

theorem eip152_computes (F : Compression) : Computes (eip152 F) F := by
  intro rounds h m t last hrounds ht
  have hh : (wordBytes h.toList).length = 64 := by rw [length_wordBytes, Vector.length_toList]
  have hm : (wordBytes m.toList).length = 128 := by rw [length_wordBytes, Vector.length_toList]
  have hr : (beBytes 4 rounds).length = 4 := length_beBytes
  have hcounter : ofLe (leBytes 8 (t % 2 ^ 64) ++ leBytes 8 (t / 2 ^ 64)) = t := by
    rw [ofLe_append, ofLe_leBytes (by omega), ofLe_leBytes (by omega), length_leBytes]
    omega
  have hcounterLen : (leBytes 8 (t % 2 ^ 64) ++ leBytes 8 (t / 2 ^ 64)).length = 16 := by
    rw [List.length_append, length_leBytes, length_leBytes]
  -- the input cut at the ends of its parts
  have hparts : beBytes 4 rounds ++ wordBytes h.toList ++ wordBytes m.toList ++ leBytes 8 (t % 2 ^ 64) ++
      leBytes 8 (t / 2 ^ 64) ++ [if last then (1 : U8) else 0] =
      beBytes 4 rounds ++ (wordBytes h.toList ++ (wordBytes m.toList ++
        ((leBytes 8 (t % 2 ^ 64) ++ leBytes 8 (t / 2 ^ 64)) ++ [if last then (1 : U8) else 0]))) := by
    simp only [List.append_assoc]
  rw [hparts]
  generalize leBytes 8 (t % 2 ^ 64) ++ leBytes 8 (t / 2 ^ 64) = counter at *
  generalize hinput : beBytes 4 rounds ++ (wordBytes h.toList ++ (wordBytes m.toList ++
    (counter ++ [if last then (1 : U8) else 0]))) = input
  have hlen : input.length = 213 := by
    rw [← hinput]
    simp only [List.length_append, hr, hh, hm, hcounterLen, List.length_singleton]
  have h4 : input.drop 4 = wordBytes h.toList ++ (wordBytes m.toList ++ (counter ++ [if last then (1 : U8) else 0])) := by
    rw [← hinput, List.drop_left' hr]
  have h68 : input.drop 68 = wordBytes m.toList ++ (counter ++ [if last then (1 : U8) else 0]) := by
    have hdrop : input.drop 68 = (input.drop 4).drop 64 := by rw [List.drop_drop]
    rw [hdrop, h4, List.drop_left' hh]
  have h196 : input.drop 196 = counter ++ [if last then (1 : U8) else 0] := by
    have hdrop : input.drop 196 = (input.drop 68).drop 128 := by rw [List.drop_drop]
    rw [hdrop, h68, List.drop_left' hm]
  have hflag : input.getD 212 0 = if last then 1 else 0 := by
    have hget : input.getD 212 0 = (input.drop 196).getD 16 0 := by
      rw [List.getD_eq_getElem?_getD, List.getD_eq_getElem?_getD, List.getElem?_drop]
    rw [hget, h196, List.getD_append_right _ _ _ _ hcounterLen.le, hcounterLen]
    rfl
  have htake : input.take 4 = beBytes 4 rounds := by rw [← hinput, List.take_left' hr]
  rw [eip152, htake, h4, h68, h196, hflag, ofBe_beBytes hrounds, List.take_left' hh, List.take_left' hm,
    List.take_left' hcounterLen, parseWords_wordBytes, blockWords_wordBytes, hcounter]
  cases last with
  | true => exact if_pos ⟨hlen, .inr rfl⟩
  | false => exact if_pos ⟨hlen, .inl rfl⟩

/-! ## The personalization -/

theorem leWord_zero {bytes : List U8} (hlen : bytes.length = 8) : leWord bytes = 0 ↔ ∀ b ∈ bytes, b = 0 := by
  constructor
  · intro hzero b hb
    rw [← leBytes_leWord hlen, hzero] at hb
    have hzeros : leBytes 8 (0 : Word64).toNat = List.replicate 8 0 := by decide
    rw [hzeros] at hb
    exact List.eq_of_mem_replicate hb
  · intro hzero
    rw [List.eq_replicate_of_mem hzero, leWord, ofLe_replicate]
    rfl

theorem initial_eq_iff (personal : List U8) : initial personal = initial [] ↔ ∀ b ∈ personal.take 16, b = 0 := by
  have hlen : (personal.take 16 ++ List.replicate (16 - personal.length) (0 : U8)).length = 16 := by
    rw [List.length_append, List.length_take, List.length_replicate]
    omega
  have hfirst : ((personal.take 16 ++ List.replicate (16 - personal.length) (0 : U8)).take 8).length = 8 := by
    rw [List.length_take, hlen]
    rfl
  have hsecond : ((personal.take 16 ++ List.replicate (16 - personal.length) (0 : U8)).drop 8).length = 8 := by
    rw [List.length_drop, hlen]
  have hbytes : (∀ b ∈ personal.take 16, b = 0) ↔
      leWord ((personal.take 16 ++ List.replicate (16 - personal.length) (0 : U8)).take 8) = 0 ∧
        leWord ((personal.take 16 ++ List.replicate (16 - personal.length) (0 : U8)).drop 8) = 0 := by
    rw [leWord_zero hfirst, leWord_zero hsecond, ← List.forall_mem_append, List.take_append_drop,
      List.forall_mem_append]
    exact ⟨fun h => ⟨h, fun b hb => List.eq_of_mem_replicate hb⟩, fun h => h.1⟩
  rw [hbytes, initial_zeros, initial]
  constructor
  · intro h
    have h6 := congrArg (fun v : HashWords => v[6]) h
    have h7 := congrArg (fun v : HashWords => v[7]) h
    simp only [Vector.getElem_set_self, Vector.getElem_set_ne, ne_eq, Nat.reduceEqDiff,
      not_false_eq_true, BitVec.xor_right_inj] at h6 h7
    exact ⟨h6, h7⟩
  · rintro ⟨h6, h7⟩
    simp only [h6, h7]
    rfl

theorem digest_nil (F : Compression) (personal : List U8) :
    digest F personal [] = .some (wordBytes (F 12 (initial personal) (blockWords (padded [])) 0 true).toList) := by
  have hle : ([] : List U8).length ≤ 128 := Nat.zero_le 128
  rw [digest, hashFrom_of_le hle, if_pos (by decide)]
  rfl

/-- The hash is the personalized digest, whatever the compression function, exactly for a personalization of
zeros. -/
theorem hash_personalized_iff (personalization : List U8) :
    (∀ (F : Compression) (precompile : List U8 → Option (List U8)), Computes precompile F →
      ∀ (mem : HashMemory) (h : Ref) (pieces : List (List U8)),
        hash precompile mem h personalization pieces = digest F personalization pieces.flatten) ↔
      ∀ b ∈ personalization.take 16, b = 0 := by
  rw [← initial_eq_iff]
  constructor
  · intro h
    -- a compression that keeps the hash shows the parameter block
    have hkeeps := h (fun _ hash _ _ _ => hash) _ (eip152_computes _) (fun _ => iv) 0 []
    rw [hash_eq (eip152_computes _), List.flatten_nil, digest_nil, digest_nil, Option.some.injEq] at hkeeps
    exact (wordBytes_injective hkeeps).symm
  · intro hinitial F precompile hF mem h pieces
    rw [hash_eq hF, digest, digest, hinitial]

/-- **The contract's hasher** is BLAKE2b without a personalization: its digest is the one asked for exactly
for a personalization of zeros, and does not depend on how the bytes are split. A challenge is the scalar of
the digest of all that is absorbed, and leaves the state with label and digest absorbed exactly where the
hash survives the finalisation of the clone. -/
theorem hasher_meets_iff (personalization : List U8) :
    ((∀ (F : Compression) (precompile : List U8 → Option (List U8)), Computes precompile F →
      ∀ (mem : HashMemory) (h : Ref) (pieces : List (List U8)),
        hash precompile mem h personalization pieces = digest F personalization pieces.flatten) ↔
      ∀ b ∈ personalization.take 16, b = 0) ∧
    ∀ (F : Compression) (precompile : List U8 → Option (List U8)), Computes precompile F →
      (∀ (mem : HashMemory) (h : Ref) (pieces pieces' : List (List U8)), pieces.flatten = pieces'.flatten →
        hash precompile mem h personalization pieces = hash precompile mem h personalization pieces') ∧
      ∀ (mem : HashMemory) (state : Blake2bState) (label : List U8), state.Fits →
        (challengeScalar precompile mem state label).map Prod.fst =
            (expectedChallenge precompile F mem state label).map Prod.fst ∧
          (challengeScalar precompile mem state label = expectedChallenge precompile F mem state label ↔
            ∀ mem1 state1 final, blake2bUpdate precompile mem state label = .some (mem1, state1) →
              hashFrom F (mem1 state1.h) state1.t state1.pending = .some final →
              state1.Survives F (mem1 state1.h) final) := by
  refine ⟨hash_personalized_iff personalization, fun F precompile hF => ⟨?_, ?_⟩⟩
  · intro mem h pieces pieces' hflatten
    rw [hash_eq hF, hash_eq hF, hflatten]
  · intro mem state label hfits
    exact challengeScalar_eq_iff hF hfits label

/-- With BLAKE2b itself: the digest of no bytes with a personalization of one byte, and the state after a first
challenge. -/
theorem hasher_diverges :
    hash (eip152 compress) (fun _ => iv) 0 [1] [] ≠ digest compress [1] [] ∧
      challengeScalar (eip152 compress) (blake2bInit (fun _ => iv) 0 []).1 (blake2bInit (fun _ => iv) 0 []).2 [] ≠
        expectedChallenge (eip152 compress) compress (blake2bInit (fun _ => iv) 0 []).1
          (blake2bInit (fun _ => iv) 0 []).2 [] := by
  constructor
  · rw [hash_eq (eip152_computes _), List.flatten_nil, digest_nil, digest_nil]
    decide +kernel
  · intro h
    have hle : (blake2bInit (fun _ => iv) 0 []).2.pending.length ≤ 128 := Nat.zero_le 128
    have hfinal := @hashFrom_of_le compress ((blake2bInit (fun _ => iv) 0 []).1 (blake2bInit (fun _ => iv) 0 []).2.h)
      (blake2bInit (fun _ => iv) 0 []).2.t _ hle
    rw [if_pos (by decide)] at hfinal
    have hsurvives := (challengeScalar_eq_iff (eip152_computes compress) (fits_init (fun _ => iv) 0 []) []).2.mp h _ _ _
      rfl hfinal
    rw [Blake2bState.Survives, if_pos (by decide)] at hsurvives
    revert hsurvives
    decide +kernel

end DoryFiatShamir

end LightningJolt
