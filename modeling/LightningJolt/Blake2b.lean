/-
BLAKE2b with a digest of 64 bytes: the compression function, the parameter
block with its personalization, and the digest of a message, over an arbitrary
compression function.
-/
import LightningJolt.ByteStrings
import Mathlib.Data.List.OfFn

namespace LightningJolt

namespace Blake2b

/-- Words of 64 bits. -/
abbrev Word64 := BitVec 64

abbrev HashWords := Vector Word64 8

abbrev BlockWords := Vector Word64 16

/-- A compression function: of the rounds, the hash, the block, the counter and the last-block flag. -/
abbrev Compression := Nat → HashWords → BlockWords → Nat → Bool → HashWords

def iv : HashWords :=
  #v[0x6a09e667f3bcc908, 0xbb67ae8584caa73b, 0x3c6ef372fe94f82b, 0xa54ff53a5f1d36f1,
    0x510e527fade682d1, 0x9b05688c2b3e6c1f, 0x1f83d9abfb41bd6b, 0x5be0cd19137e2179]

/-! ## The compression function -/

/-- The message schedule, of which round `i` uses row `i % 10`. -/
def sigma : List (List Nat) :=
  [[0, 1, 2, 3, 4, 5, 6, 7, 8, 9, 10, 11, 12, 13, 14, 15],
    [14, 10, 4, 8, 9, 15, 13, 6, 1, 12, 0, 2, 11, 7, 5, 3],
    [11, 8, 12, 0, 5, 2, 15, 13, 10, 14, 3, 6, 7, 1, 9, 4],
    [7, 9, 3, 1, 13, 12, 11, 14, 2, 6, 5, 10, 4, 0, 15, 8],
    [9, 0, 5, 7, 2, 4, 10, 15, 14, 1, 11, 12, 6, 8, 3, 13],
    [2, 12, 6, 10, 0, 11, 8, 3, 4, 13, 7, 5, 15, 14, 1, 9],
    [12, 5, 1, 15, 14, 13, 4, 10, 0, 7, 6, 3, 9, 2, 8, 11],
    [13, 11, 7, 14, 12, 1, 3, 9, 5, 0, 15, 4, 8, 6, 2, 10],
    [6, 15, 14, 9, 11, 3, 0, 8, 12, 2, 13, 7, 1, 4, 10, 5],
    [10, 2, 8, 4, 7, 6, 1, 5, 15, 11, 9, 14, 3, 12, 13, 0]]

/-- The mixing of two message words into four words of the local state. -/
def mix (v : BlockWords) (a b c d : Fin 16) (x y : Word64) : BlockWords :=
  let v := v.set a (v[a] + v[b] + x)
  let v := v.set d ((v[d] ^^^ v[a]).rotateRight 32)
  let v := v.set c (v[c] + v[d])
  let v := v.set b ((v[b] ^^^ v[c]).rotateRight 24)
  let v := v.set a (v[a] + v[b] + y)
  let v := v.set d ((v[d] ^^^ v[a]).rotateRight 16)
  let v := v.set c (v[c] + v[d])
  v.set b ((v[b] ^^^ v[c]).rotateRight 63)

/-- One round: the columns, then the diagonals. -/
def round (m : BlockWords) (v : BlockWords) (i : Nat) : BlockWords :=
  let word := fun k => m.toList.getD ((sigma.getD (i % 10) []).getD k 0) 0
  let v := mix v 0 4 8 12 (word 0) (word 1)
  let v := mix v 1 5 9 13 (word 2) (word 3)
  let v := mix v 2 6 10 14 (word 4) (word 5)
  let v := mix v 3 7 11 15 (word 6) (word 7)
  let v := mix v 0 5 10 15 (word 8) (word 9)
  let v := mix v 1 6 11 12 (word 10) (word 11)
  let v := mix v 2 7 8 13 (word 12) (word 13)
  mix v 3 4 9 14 (word 14) (word 15)

/-- The compression function `F`. -/
def compress : Compression := fun rounds h m t last =>
  let v : BlockWords := h ++ iv
  let v := v.set 12 (v[12] ^^^ BitVec.ofNat 64 t)
  let v := v.set 13 (v[13] ^^^ BitVec.ofNat 64 (t / 2 ^ 64))
  let v := if last then v.set 14 (~~~v[14]) else v
  let v := (List.range rounds).foldl (round m) v
  Vector.ofFn fun i : Fin 8 => h[i] ^^^ v[i.val] ^^^ v[i.val + 8]

/-! ## The digest -/

/-- A word read little-endian. -/
def leWord (bytes : List (BitVec 8)) : Word64 := BitVec.ofNat 64 (ofLe bytes)

/-- The words of a block of 128 bytes. -/
def blockWords (block : List (BitVec 8)) : BlockWords :=
  Vector.ofFn fun i : Fin 16 => leWord ((block.drop (8 * i.val)).take 8)

/-- A last block, filled up with zeros. -/
def padded (rest : List (BitVec 8)) : List (BitVec 8) := rest ++ List.replicate (128 - rest.length) 0

/-- The bytes of the words, little-endian. -/
def wordBytes (words : List Word64) : List (BitVec 8) := words.flatMap fun w => leBytes 8 w.toNat

/-- The hash before the first block: a digest of 64 bytes, no key, one leaf, and the personalization,
of sixteen bytes filled up with zeros, in the last two words of the parameter block. -/
def initial (personal : List (BitVec 8)) : HashWords :=
  let person := personal.take 16 ++ List.replicate (16 - personal.length) 0
  ((iv.set 0 (iv[0] ^^^ 0x01010040)).set 6 (iv[6] ^^^ leWord (person.take 8))).set 7
    (iv[7] ^^^ leWord (person.drop 8))

/-- The initialization vector with the first parameter word only. -/
def unpersonalized : HashWords := iv.set 0 (iv[0] ^^^ 0x01010040)

theorem initial_nil : initial [] = unpersonalized := by decide

theorem initial_zeros : initial [] = (unpersonalized.set 6 (iv[6] ^^^ 0)).set 7 (iv[7] ^^^ 0) := by decide

variable (F : Compression)

/-- The hash after the rest of a message, `t` bytes of which are absorbed: the last block is the one that
ends the message, full or not. There is none past the counter of 128 bits. -/
def hashFrom (h : HashWords) (t : Nat) (msg : List (BitVec 8)) : Option HashWords :=
  if msg.length ≤ 128 then
    if t + msg.length < 2 ^ 128 then .some (F 12 h (blockWords (padded msg)) (t + msg.length) true) else .none
  else if t + 128 < 2 ^ 128 then
    hashFrom (F 12 h (blockWords (msg.take 128)) (t + 128) false) (t + 128) (msg.drop 128)
  else .none
termination_by msg.length
decreasing_by
  rw [List.length_drop]
  omega

/-- The digest of a message. -/
def digest (personal msg : List (BitVec 8)) : Option (List (BitVec 8)) :=
  (hashFrom F (initial personal) 0 msg).map fun h => wordBytes h.toList

/-! ## Words and bytes -/

theorem leBytes_leWord {bytes : List (BitVec 8)} (h : bytes.length = 8) : leBytes 8 (leWord bytes).toNat = bytes := by
  have hlt : ofLe bytes < 2 ^ 64 := by
    have hbound := @ofLe_lt bytes
    rw [h] at hbound
    exact hbound
  have hbytes := @leBytes_ofLe bytes
  rw [h] at hbytes
  rw [leWord, BitVec.toNat_ofNat, Nat.mod_eq_of_lt hlt, hbytes]

theorem leWord_leBytes (w : Word64) : leWord (leBytes 8 w.toNat) = w := by
  rw [leWord, ofLe_leBytes w.isLt, BitVec.ofNat_toNat, BitVec.setWidth_eq]

@[simp] theorem length_wordBytes (words : List Word64) : (wordBytes words).length = 8 * words.length := by
  induction words with
  | nil => rfl
  | cons w words ih =>
    rw [wordBytes, List.flatMap_cons, List.length_append, length_leBytes, List.length_cons]
    rw [wordBytes] at ih
    omega

/-- Words read from bytes have these bytes. -/
theorem wordBytes_ofFn {n : Nat} {bytes : List (BitVec 8)} (h : bytes.length = 8 * n) :
    wordBytes (List.ofFn fun i : Fin n => leWord ((bytes.drop (8 * i.val)).take 8)) = bytes := by
  induction n generalizing bytes with
  | zero =>
    rw [List.length_eq_zero_iff.mp h]
    rfl
  | succ n ih =>
    have hdrop : (bytes.drop 8).length = 8 * n := by
      rw [List.length_drop]
      omega
    have hrest : (fun i : Fin n => leWord ((bytes.drop (8 * i.succ.val)).take 8)) =
        fun i : Fin n => leWord (((bytes.drop 8).drop (8 * i.val)).take 8) := by
      funext i
      rw [List.drop_drop, Fin.val_succ, Nat.mul_succ, Nat.add_comm]
    have hhead : leBytes 8 (leWord (bytes.take 8)).toNat = bytes.take 8 := by
      refine leBytes_leWord ?_
      rw [List.length_take]
      omega
    have htail := ih hdrop
    rw [wordBytes] at htail
    rw [List.ofFn_succ, hrest, wordBytes, List.flatMap_cons, htail, Fin.val_zero, Nat.mul_zero, List.drop_zero, hhead,
      List.take_append_drop]

theorem wordBytes_blockWords {block : List (BitVec 8)} (h : block.length = 128) :
    wordBytes (blockWords block).toList = block := by
  rw [blockWords, Vector.toList_ofFn, wordBytes_ofFn h]

/-- Bytes of words are read as these words. -/
theorem leWord_wordBytes {words : List Word64} {i : Nat} (hi : i < words.length) :
    leWord (((wordBytes words).drop (8 * i)).take 8) = words[i] := by
  induction words generalizing i with
  | nil => exact absurd hi (Nat.not_lt_zero i)
  | cons w words ih =>
    have hcons : wordBytes (w :: words) = leBytes 8 w.toNat ++ wordBytes words := List.flatMap_cons ..
    rw [hcons]
    cases i with
    | zero =>
      rw [Nat.mul_zero, List.drop_zero, List.take_left' length_leBytes, leWord_leBytes]
      rfl
    | succ i =>
      rw [Nat.mul_succ, Nat.add_comm, ← List.drop_drop, List.drop_left' length_leBytes]
      exact ih (Nat.lt_of_succ_lt_succ hi)

theorem blockWords_wordBytes (m : BlockWords) : blockWords (wordBytes m.toList) = m := by
  refine Vector.ext fun i hi => ?_
  have hword := @leWord_wordBytes m.toList i (by simpa using hi)
  rw [blockWords, Vector.getElem_ofFn, hword]
  simp

theorem wordBytes_injective {g h : HashWords} (heq : wordBytes g.toList = wordBytes h.toList) : g = h := by
  refine Vector.ext fun i hi => ?_
  have hg := @leWord_wordBytes g.toList i (by simpa using hi)
  have hh := @leWord_wordBytes h.toList i (by simpa using hi)
  rw [heq, hh] at hg
  simpa using hg.symm

/-! ## Absorbing -/

variable {F}

theorem hashFrom_of_le {h : HashWords} {t : Nat} {msg : List (BitVec 8)} (hlen : msg.length ≤ 128) :
    hashFrom F h t msg = if t + msg.length < 2 ^ 128 then
      .some (F 12 h (blockWords (padded msg)) (t + msg.length) true) else .none := by
  rw [hashFrom, if_pos hlen]

/-- A full block with more behind it is absorbed. -/
theorem hashFrom_block {h : HashWords} {t : Nat} {block rest : List (BitVec 8)} (hblock : block.length = 128)
    (hrest : rest ≠ []) :
    hashFrom F h t (block ++ rest) = if t + 128 < 2 ^ 128 then
      hashFrom F (F 12 h (blockWords block) (t + 128) false) (t + 128) rest else .none := by
  have hpos : 0 < rest.length := List.length_pos_iff.mpr hrest
  rw [hashFrom, if_neg (by rw [List.length_append]; omega), List.take_left' hblock, List.drop_left' hblock]

end Blake2b

end LightningJolt
