/-
Codecs of byte strings: an encoder that may fail, a decoder that leaves what it
does not read, and the size of the encoding. What it takes that decoding undoes
encoding, and that only encodings are decoded; both carry over to pairs, sums,
options, vectors and images of codecs.
-/
import LightningJolt.ByteStrings

namespace LightningJolt

structure Codec (α : Type) where
  encode : α → Option (List (BitVec 8))
  decode : List (BitVec 8) → Option (α × List (BitVec 8))
  size : α → Nat

namespace Codec

variable {α β : Type}

/-- Decoding undoes encoding, whatever follows, and the size is that of the bytes. -/
structure Faithful (c : Codec α) : Prop where
  decode_encode : ∀ {a bs}, c.encode a = .some bs → ∀ rest, c.decode (bs ++ rest) = .some (a, rest)
  length_encode : ∀ {a bs}, c.encode a = .some bs → bs.length = c.size a

/-- What is decoded is encoded as the bytes that were read. -/
structure Canonical (c : Codec α) : Prop where
  encode_decode : ∀ {bs a rest}, c.decode bs = .some (a, rest) →
    ∃ used, c.encode a = .some used ∧ bs = used ++ rest

/-- No encoding is the beginning of another. -/
theorem Faithful.prefix_free {c : Codec α} (h : c.Faithful) {a b : α} {bs cs : List (BitVec 8)}
    (ha : c.encode a = .some bs) (hb : c.encode b = .some cs) (hbegins : bs <+: cs) : a = b := by
  obtain ⟨rest, rfl⟩ := hbegins
  have hfirst := h.decode_encode ha rest
  have hsecond := h.decode_encode hb []
  rw [List.append_nil, hfirst] at hsecond
  cases hsecond
  rfl

theorem Faithful.injective {c : Codec α} (h : c.Faithful) {a b : α} {bs : List (BitVec 8)}
    (ha : c.encode a = .some bs) (hb : c.encode b = .some bs) : a = b :=
  h.prefix_free ha hb List.prefix_rfl

/-- The values that `fits` are those with an encoding; decoding undoes it and accepts
nothing else, and no two of them share one or begin with one another's. -/
structure Exact (c : Codec α) (fits : α → Prop) : Prop where
  encodes : ∀ a, (c.encode a).isSome ↔ fits a
  decode_encode : ∀ {a bs}, c.encode a = .some bs → ∀ rest, c.decode (bs ++ rest) = .some (a, rest)
  length_encode : ∀ {a bs}, c.encode a = .some bs → bs.length = c.size a
  injective : ∀ {a b bs}, c.encode a = .some bs → c.encode b = .some bs → a = b
  prefix_free : ∀ {a b bs cs}, c.encode a = .some bs → c.encode b = .some cs → bs <+: cs → a = b
  encode_decode : ∀ {bs a rest}, c.decode bs = .some (a, rest) →
    ∃ used, c.encode a = .some used ∧ bs = used ++ rest

theorem Faithful.exact {c : Codec α} {fits : α → Prop} (h : c.Faithful) (hcanonical : c.Canonical)
    (hencodes : ∀ a, (c.encode a).isSome ↔ fits a) : c.Exact fits where
  encodes := hencodes
  decode_encode := h.decode_encode
  length_encode := h.length_encode
  injective := h.injective
  prefix_free := h.prefix_free
  encode_decode := hcanonical.encode_decode

/-! ## Numbers -/

/-- A number that fits a byte. -/
def byte : Codec Nat where
  encode n := if n < 256 then .some [BitVec.ofNat 8 n] else .none
  decode
    | [] => .none
    | b :: rest => .some (b.toNat, rest)
  size _ := 1

theorem byte_faithful : byte.Faithful where
  decode_encode {n bs} h rest := by
    simp only [byte] at h ⊢
    split_ifs at h with hn
    cases h
    change Option.some ((BitVec.ofNat 8 n).toNat, rest) = _
    rw [BitVec.toNat_ofNat, Nat.mod_eq_of_lt hn]
  length_encode {n bs} h := by
    simp only [byte] at h ⊢
    split_ifs at h
    cases h
    rfl

theorem byte_canonical : byte.Canonical where
  encode_decode {bs n rest} h := by
    cases bs with
    | nil => cases h
    | cons b bs =>
      cases h
      refine ⟨[b], ?_, rfl⟩
      simp only [byte]
      rw [if_pos b.isLt]
      simp

/-- The eight bytes of a word, the lowest first. -/
def word : Codec (BitVec 64) where
  encode x := .some (leBytes 8 x.toNat)
  decode bs := if 8 ≤ bs.length then .some (BitVec.ofNat 64 (ofLe (bs.take 8)), bs.drop 8) else .none
  size _ := 8

theorem word_faithful : word.Faithful where
  decode_encode {x bs} h rest := by
    cases h
    have hlength : (leBytes 8 x.toNat).length = 8 := length_leBytes
    simp only [word]
    rw [if_pos (by rw [List.length_append]; omega), List.take_left' hlength,
      List.drop_left' hlength, ofLe_leBytes x.isLt, BitVec.ofNat_toNat, BitVec.setWidth_eq]
  length_encode h := by
    cases h
    exact length_leBytes

/-! ## Combinations -/

section Combine

variable (c : Codec α) (d : Codec β)

/-- One after the other. -/
def pair : Codec (α × β) where
  encode p := do
    let bs ← c.encode p.1
    let cs ← d.encode p.2
    .some (bs ++ cs)
  decode bs := do
    let (a, bs) ← c.decode bs
    let (b, bs) ← d.decode bs
    .some ((a, b), bs)
  size p := c.size p.1 + d.size p.2

/-- A byte tells the side. -/
def either : Codec (α ⊕ β) where
  encode
    | .inl a => do .some (0 :: (← c.encode a))
    | .inr b => do .some (1 :: (← d.encode b))
  decode
    | [] => .none
    | tag :: bs =>
      if tag = 0 then (c.decode bs).map fun p => (.inl p.1, p.2)
      else if tag = 1 then (d.decode bs).map fun p => (.inr p.1, p.2)
      else .none
  size
    | .inl a => 1 + c.size a
    | .inr b => 1 + d.size b

/-- A byte tells whether there is a value. -/
def option : Codec (Option α) where
  encode
    | .none => .some [0]
    | .some a => do .some (1 :: (← c.encode a))
  decode
    | [] => .none
    | tag :: bs =>
      if tag = 0 then .some (.none, bs)
      else if tag = 1 then (c.decode bs).map fun p => (.some p.1, p.2)
      else .none
  size
    | .none => 1
    | .some a => 1 + c.size a

/-- The values of another type, in those of `c`. -/
def xmap (make : α → β) (parts : β → α) : Codec β where
  encode b := c.encode (parts b)
  decode bs := (c.decode bs).map fun p => (make p.1, p.2)
  size b := c.size (parts b)

/-- Encodings one after the other. -/
def encodeAll : List α → Option (List (BitVec 8))
  | [] => .some []
  | a :: as => do
    let bs ← c.encode a
    let cs ← encodeAll as
    .some (bs ++ cs)

def decodeAll : Nat → List (BitVec 8) → Option (List α × List (BitVec 8))
  | 0, bs => .some ([], bs)
  | n + 1, bs => do
    let (a, bs) ← c.decode bs
    let (as, bs) ← decodeAll n bs
    .some (a :: as, bs)

/-- The length, and the elements. -/
def vec : Codec (List α) where
  encode as := do
    let bs ← c.encodeAll as
    if as.length < 2 ^ 64 then .some (leBytes 8 as.length ++ bs) else .none
  decode bs := do
    let (n, bs) ← word.decode bs
    c.decodeAll n.toNat bs
  size as := 8 + (as.map c.size).sum

variable {c d}

theorem pair_faithful (hc : c.Faithful) (hd : d.Faithful) : (c.pair d).Faithful where
  decode_encode {p bs} h rest := by
    obtain ⟨xs, hxs, h⟩ := Option.bind_eq_some_iff.mp h
    obtain ⟨ys, hys, h⟩ := Option.bind_eq_some_iff.mp h
    cases h
    simp only [pair, List.append_assoc, hc.decode_encode hxs, hd.decode_encode hys,
      Option.bind_eq_bind, Option.bind_some]
  length_encode {p bs} h := by
    obtain ⟨xs, hxs, h⟩ := Option.bind_eq_some_iff.mp h
    obtain ⟨ys, hys, h⟩ := Option.bind_eq_some_iff.mp h
    cases h
    rw [List.length_append, hc.length_encode hxs, hd.length_encode hys]
    rfl

theorem either_faithful (hc : c.Faithful) (hd : d.Faithful) : (c.either d).Faithful where
  decode_encode {p bs} h rest := by
    cases p with
    | inl a =>
      obtain ⟨xs, hxs, h⟩ := Option.bind_eq_some_iff.mp h
      cases h
      simp [either, hc.decode_encode hxs]
    | inr b =>
      obtain ⟨xs, hxs, h⟩ := Option.bind_eq_some_iff.mp h
      cases h
      simp [either, hd.decode_encode hxs]
  length_encode {p bs} h := by
    cases p with
    | inl a =>
      obtain ⟨xs, hxs, h⟩ := Option.bind_eq_some_iff.mp h
      cases h
      rw [List.length_cons, hc.length_encode hxs, Nat.add_comm]
      rfl
    | inr b =>
      obtain ⟨xs, hxs, h⟩ := Option.bind_eq_some_iff.mp h
      cases h
      rw [List.length_cons, hd.length_encode hxs, Nat.add_comm]
      rfl

theorem option_faithful (hc : c.Faithful) : c.option.Faithful where
  decode_encode {p bs} h rest := by
    cases p with
    | none =>
      cases h
      rfl
    | some a =>
      obtain ⟨xs, hxs, h⟩ := Option.bind_eq_some_iff.mp h
      cases h
      simp [option, hc.decode_encode hxs]
  length_encode {p bs} h := by
    cases p with
    | none =>
      cases h
      rfl
    | some a =>
      obtain ⟨xs, hxs, h⟩ := Option.bind_eq_some_iff.mp h
      cases h
      rw [List.length_cons, hc.length_encode hxs, Nat.add_comm]
      rfl

theorem xmap_faithful {make : α → β} {parts : β → α} (hc : c.Faithful)
    (hmake : ∀ b, make (parts b) = b) : (c.xmap make parts).Faithful where
  decode_encode {b bs} h rest := by
    simp only [xmap] at h ⊢
    rw [hc.decode_encode h, Option.map_some, hmake]
  length_encode h := hc.length_encode h

theorem decodeAll_encodeAll (hc : c.Faithful) {as : List α} {bs : List (BitVec 8)}
    (h : c.encodeAll as = .some bs) (rest : List (BitVec 8)) :
    c.decodeAll as.length (bs ++ rest) = .some (as, rest) := by
  induction as generalizing bs with
  | nil =>
    cases h
    rfl
  | cons a as ih =>
    obtain ⟨xs, hxs, h⟩ := Option.bind_eq_some_iff.mp h
    obtain ⟨ys, hys, h⟩ := Option.bind_eq_some_iff.mp h
    cases h
    simp only [List.length_cons, decodeAll, List.append_assoc, hc.decode_encode hxs, ih hys,
      Option.bind_eq_bind, Option.bind_some]

theorem length_encodeAll (hc : c.Faithful) {as : List α} {bs : List (BitVec 8)}
    (h : c.encodeAll as = .some bs) : bs.length = (as.map c.size).sum := by
  induction as generalizing bs with
  | nil =>
    cases h
    rfl
  | cons a as ih =>
    obtain ⟨xs, hxs, h⟩ := Option.bind_eq_some_iff.mp h
    obtain ⟨ys, hys, h⟩ := Option.bind_eq_some_iff.mp h
    cases h
    rw [List.length_append, hc.length_encode hxs, ih hys, List.map_cons, List.sum_cons]

theorem vec_faithful (hc : c.Faithful) : c.vec.Faithful where
  decode_encode {as bs} h rest := by
    obtain ⟨xs, hxs, h⟩ := Option.bind_eq_some_iff.mp h
    split_ifs at h with hlt
    cases h
    have hvalue : (BitVec.ofNat 64 as.length).toNat = as.length := by
      rw [BitVec.toNat_ofNat, Nat.mod_eq_of_lt hlt]
    have hword : word.encode (BitVec.ofNat 64 as.length) = .some (leBytes 8 as.length) := by
      change Option.some (leBytes 8 (BitVec.ofNat 64 as.length).toNat) = _
      rw [hvalue]
    simp only [vec, List.append_assoc, word_faithful.decode_encode hword, Option.bind_eq_bind,
      Option.bind_some, hvalue]
    exact decodeAll_encodeAll hc hxs rest
  length_encode {as bs} h := by
    obtain ⟨xs, hxs, h⟩ := Option.bind_eq_some_iff.mp h
    split_ifs at h with hlt
    cases h
    rw [List.length_append, length_leBytes, length_encodeAll hc hxs]
    rfl

end Combine

end Codec

end LightningJolt
