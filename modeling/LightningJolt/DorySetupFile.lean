/-
The files in which the Dory setups are kept: a compressed one with the prover's and the verifier's
setup, an uncompressed one of the prover's for fast loading, and the calls that read and write them.
-/
import LightningJolt.Codec
import LightningJolt.DorySetup

namespace LightningJolt.Dory

/-! ## Encodings -/

abbrev Bytes := List (BitVec 8)

/-- The codecs of the group elements in one of the two forms, compressed or not. -/
structure SetupCodecs (G1 G2 GT : Type) where
  g1 : Codec G1
  g2 : Codec G2
  gt : Codec GT

namespace SetupCodecs

variable {G1 G2 GT : Type} (c : SetupCodecs G1 G2 GT)

/-- A prover's setup: each vector after its length, then the other generators. -/
def prover : Codec (ProverSetup G1 G2 GT) :=
  (c.g1.vec.pair (c.g2.vec.pair (c.g1.pair (c.g2.pair c.gt)))).xmap
    (fun (g1Vec, g2Vec, h1, h2, ht) => { g1Vec, g2Vec, h1, h2, ht })
    (fun s => (s.g1Vec, s.g2Vec, s.h1, s.h2, s.ht))

/-- `serialize_with_mode` of a verifier's setup. -/
def encodeVerifier (s : VerifierSetup G1 G2 GT) : Option Bytes := do
  let delta1l ← c.gt.encodeAll s.delta1l
  let delta1r ← c.gt.encodeAll s.delta1r
  let delta2l ← c.gt.encodeAll s.delta2l
  let delta2r ← c.gt.encodeAll s.delta2r
  let chi ← c.gt.encodeAll s.chi
  let g1First ← c.g1.encode s.g1First
  let g2First ← c.g2.encode s.g2First
  let h1 ← c.g1.encode s.h1
  let h2 ← c.g2.encode s.h2
  let ht ← c.gt.encode s.ht
  let maxLogN ← Codec.word.encode (BitVec.ofNat 64 s.maxLogN)
  return delta1l ++ delta1r ++ delta2l ++ delta2r ++ chi ++ g1First ++ g2First ++ h1 ++ h2 ++ ht ++ maxLogN

/-- `deserialize_with_mode` of a verifier's setup. -/
def decodeVerifier (bs : Bytes) : Option (VerifierSetup G1 G2 GT × Bytes) := do
  let (delta1l, bs) ← c.gt.vec.decode bs
  let (delta1r, bs) ← c.gt.vec.decode bs
  let (delta2l, bs) ← c.gt.vec.decode bs
  let (delta2r, bs) ← c.gt.vec.decode bs
  let (chi, bs) ← c.gt.vec.decode bs
  let (g1First, bs) ← c.g1.decode bs
  let (g2First, bs) ← c.g2.decode bs
  let (h1, bs) ← c.g1.decode bs
  let (h2, bs) ← c.g2.decode bs
  let (ht, bs) ← c.gt.decode bs
  let (maxLogN, bs) ← Codec.word.decode bs
  return ({ delta1l, delta1r, delta2l, delta2r, chi, g1First, g2First, h1, h2, ht, maxLogN := maxLogN.toNat }, bs)

end SetupCodecs

/-! ## The files -/

/-- The two files of one `max_log_n`. -/
structure Disk where
  urs : Option Bytes
  fast : Option Bytes
deriving DecidableEq

/-- What a load does. Of the text of an error the callers read whether it says that the file is not there. -/
inductive Loaded (α : Type)
  | ok (a : α)
  | notFound
  | failed
  | panic
deriving DecidableEq

variable {G1 G2 GT : Type}

/-- Elements of chunks of `size` bytes each, a chunk's last bytes being left over. -/
def decodeChunks {α : Type} (c : Codec α) (size : Nat) : Nat → Bytes → Option (List α)
  | 0, _ => .some []
  | n + 1, bs => do
    let (a, _) ← c.decode (bs.take size)
    let as ← decodeChunks c size n (bs.drop size)
    return a :: as

/-- The number of chunks that cover so many bytes. -/
def numChunks (size len : Nat) : Nat := (len + size - 1) / size

/-- `load_fast_prover`. -/
def loadFastProver (c : SetupCodecs G1 G2 GT) (d : Disk) : Loaded (ProverSetup G1 G2 GT) :=
  match d.fast with
  | .none => .notFound
  | .some data =>
    if data.length < 8 then .failed
    else
      let g1Len := ofLe (data.take 8)
      if g1Len = 0 then
        match c.prover.decode data with
        | .some (p, _) => .ok p
        | .none => .failed
      else
        match c.g1.decode (data.drop 8) with
        | .none => .failed
        | .some (_, rest) =>
          let g1ElemSize := (data.drop 8).length - rest.length
          let g1DataEnd := 8 + g1Len * g1ElemSize
          if data.length < g1DataEnd + 8 then .failed
          else
            let g2Len := ofLe ((data.drop g1DataEnd).take 8)
            let g2DataStart := g1DataEnd + 8
            match c.g2.decode (data.drop g2DataStart) with
            | .none => .failed
            | .some (_, rest) =>
              let g2ElemSize := (data.drop g2DataStart).length - rest.length
              let g2DataEnd := g2DataStart + g2Len * g2ElemSize
              -- slices past the end, chunks of no bytes and elements that do not parse panic
              if data.length < g2DataEnd ∨ g1ElemSize = 0 ∨ g2ElemSize = 0 then .panic
              else
                match decodeChunks c.g1 g1ElemSize (numChunks g1ElemSize (g1DataEnd - 8))
                    ((data.take g1DataEnd).drop 8),
                  decodeChunks c.g2 g2ElemSize (numChunks g2ElemSize (g2DataEnd - g2DataStart))
                    ((data.take g2DataEnd).drop g2DataStart) with
                | .some g1Vec, .some g2Vec =>
                  match (c.g1.pair (c.g2.pair c.gt)).decode (data.drop g2DataEnd) with
                  | .some ((h1, h2, ht), _) => .ok { g1Vec, g2Vec, h1, h2, ht }
                  | .none => .failed
                | _, _ => .panic

/-- `load_prover_setup`. -/
def loadProverSetup (c : SetupCodecs G1 G2 GT) (d : Disk) : Loaded (ProverSetup G1 G2 GT) :=
  match d.urs with
  | .none => .notFound
  | .some data =>
    match c.prover.decode data with
    | .some (p, _) => .ok p
    | .none => .failed

/-- `load_setup`. -/
def loadSetup (c : SetupCodecs G1 G2 GT) (d : Disk) : Loaded (ProverSetup G1 G2 GT × VerifierSetup G1 G2 GT) :=
  match d.urs with
  | .none => .notFound
  | .some data =>
    match c.prover.decode data with
    | .none => .failed
    | .some (p, rest) =>
      match c.decodeVerifier rest with
      | .none => .failed
      | .some (v, _) => .ok (p, v)

/-- `save_setup`, which panics when a part has no encoding. -/
def saveSetup (c : SetupCodecs G1 G2 GT) (p : ProverSetup G1 G2 GT) (v : VerifierSetup G1 G2 GT) (d : Disk) :
    Option Disk := do
  let bs ← c.prover.encode p
  let cs ← c.encodeVerifier v
  return { d with urs := .some (bs ++ cs) }

/-- `save_fast_prover`, of elements that have an encoding. -/
def saveFastProver (c : SetupCodecs G1 G2 GT) (p : ProverSetup G1 G2 GT) (d : Disk) : Disk :=
  { d with fast := c.prover.encode p }

/-! ## The calls -/

section Calls

variable {F : Type} [Field F] [AddCommGroup G1] [Module F G1] [AddCommGroup G2] [Module F G2] [AddCommGroup GT]
  [Module F GT]

/-- How setups are stored: the pairing, and the codecs of the two files. -/
structure Store (F G1 G2 GT : Type) [Field F] [AddCommGroup G1] [Module F G1] [AddCommGroup G2] [Module F G2]
    [AddCommGroup GT] [Module F GT] where
  pair : G1 →ₗ[F] G2 →ₗ[F] GT
  compressed : SetupCodecs G1 G2 GT
  uncompressed : SetupCodecs G1 G2 GT

namespace Store

variable (store : Store F G1 G2 GT)

/-- `setup_prover_only`, with the setup that it generates when no file is there; it may panic. -/
def setupProverOnly (fresh : ProverSetup G1 G2 GT) (d : Disk) : Option (ProverSetup G1 G2 GT × Disk) :=
  match loadFastProver store.uncompressed d with
  | .ok p => .some (p, d)
  | .panic => .none
  | _ =>
    match loadProverSetup store.compressed d with
    | .ok p => .some (p, saveFastProver store.uncompressed p d)
    | .notFound =>
      match fresh.toVerifierSetup store.pair with
      | .ok v => do
        let d ← saveSetup store.compressed fresh v d
        return (fresh, saveFastProver store.uncompressed fresh d)
      | _ => .none
    | _ => .none

/-- `setup`, with the setup that it generates when no file is there; it may panic. -/
def setup (fresh : ProverSetup G1 G2 GT) (d : Disk) :
    Option ((ProverSetup G1 G2 GT × VerifierSetup G1 G2 GT) × Disk) :=
  match loadSetup store.compressed d with
  | .ok saved => .some (saved, d)
  | .notFound =>
    match fresh.toVerifierSetup store.pair with
    | .ok v => do
      let d ← saveSetup store.compressed fresh v d
      return ((fresh, v), d)
    | _ => .none
  | _ => .none

/-- `generate_urs`, with the setup that it generates; it may panic. -/
def generateUrs (fresh : ProverSetup G1 G2 GT) (d : Disk) :
    Option ((ProverSetup G1 G2 GT × VerifierSetup G1 G2 GT) × Disk) :=
  match fresh.toVerifierSetup store.pair with
  | .ok v => do
    let d ← saveSetup store.compressed fresh v d
    return ((fresh, v), d)
  | _ => .none

end Store

end Calls

/-! ## Reading back what was written -/

/-- Every element has an encoding, of the same number of bytes, and a decoder reads as many. -/
structure Elements {α : Type} (c : Codec α) (size : Nat) : Prop where
  faithful : c.Faithful
  encodes : ∀ a, (c.encode a).isSome
  size_eq : ∀ a, c.size a = size
  size_pos : 0 < size
  consumes : ∀ {bs a rest}, c.decode bs = .some (a, rest) → bs.length = size + rest.length

namespace Elements

variable {α : Type} {c : Codec α} {size : Nat}

theorem length_encode (h : Elements c size) {a : α} {bs : Bytes} (ha : c.encode a = .some bs) : bs.length = size := by
  rw [h.faithful.length_encode ha, h.size_eq]

theorem length_encodeAll (h : Elements c size) {as : List α} {bs : Bytes} (has : c.encodeAll as = .some bs) :
    bs.length = as.length * size := by
  rw [Codec.length_encodeAll h.faithful has, List.map_congr_left fun a _ => h.size_eq a, List.map_const',
    List.sum_replicate, smul_eq_mul]

theorem encodeAll_isSome (h : Elements c size) (as : List α) : (c.encodeAll as).isSome := by
  induction as with
  | nil => rfl
  | cons a as ih =>
    obtain ⟨bs, hbs⟩ := Option.isSome_iff_exists.mp (h.encodes a)
    obtain ⟨cs, hcs⟩ := Option.isSome_iff_exists.mp ih
    simp [Codec.encodeAll, hbs, hcs]

/-- What a vector reads: its length, and the elements. -/
theorem consumes_vec (h : Elements c size) {bs rest : Bytes} {as : List α} (hdecode : c.vec.decode bs = .some (as, rest)) :
    bs.length = 8 + as.length * size + rest.length := by
  have hall (n : Nat) (bs : Bytes) (as : List α) (hdecode : c.decodeAll n bs = .some (as, rest)) :
      bs.length = as.length * size + rest.length := by
    induction n generalizing bs as with
    | zero =>
      cases hdecode
      simp
    | succ n ih =>
      obtain ⟨⟨a, bs'⟩, ha, hdecode⟩ := Option.bind_eq_some_iff.mp hdecode
      obtain ⟨⟨as', bs''⟩, has, hdecode⟩ := Option.bind_eq_some_iff.mp hdecode
      cases hdecode
      rw [h.consumes ha, ih _ _ has, List.length_cons, Nat.succ_mul]
      omega
  obtain ⟨⟨n, bs'⟩, hn, hdecode⟩ := Option.bind_eq_some_iff.mp hdecode
  simp only [Codec.word] at hn
  split_ifs at hn with hlen
  cases hn
  have hrest := hall _ _ _ hdecode
  rw [List.length_drop] at hrest
  omega

/-- The chunks of a vector's bytes. -/
theorem decodeChunks_encodeAll (h : Elements c size) {as : List α} {bs : Bytes} (has : c.encodeAll as = .some bs) :
    decodeChunks c size (numChunks size bs.length) bs = .some as := by
  have hchunks : numChunks size bs.length = as.length := by
    have hpos := h.size_pos
    rw [numChunks, h.length_encodeAll has, Nat.add_sub_assoc (by omega), Nat.add_comm, Nat.mul_comm,
      Nat.add_mul_div_left _ _ hpos, Nat.div_eq_of_lt (by omega), Nat.zero_add]
  rw [hchunks]
  clear hchunks
  induction as generalizing bs with
  | nil => rfl
  | cons a as ih =>
    obtain ⟨xs, hxs, has⟩ := Option.bind_eq_some_iff.mp has
    obtain ⟨ys, hys, has⟩ := Option.bind_eq_some_iff.mp has
    cases has
    have hlen := h.length_encode hxs
    have hdecode := h.faithful.decode_encode hxs []
    rw [List.append_nil] at hdecode
    rw [List.length_cons, decodeChunks, List.take_left' hlen, List.drop_left' hlen, hdecode]
    simp [ih hys]

/-- The first element of a vector tells the size of all. -/
theorem probe (h : Elements c size) {as : List α} {bs : Bytes} (has : c.encodeAll as = .some bs)
    (hpos : 0 < as.length) (tail : Bytes) :
    ∃ a rest, c.decode (bs ++ tail) = .some (a, rest) ∧ (bs ++ tail).length - rest.length = size := by
  cases as with
  | nil => simp at hpos
  | cons a as =>
    obtain ⟨xs, hxs, has⟩ := Option.bind_eq_some_iff.mp has
    obtain ⟨ys, hys, has⟩ := Option.bind_eq_some_iff.mp has
    cases has
    refine ⟨a, ys ++ tail, ?_, ?_⟩
    · rw [List.append_assoc]
      exact h.faithful.decode_encode hxs _
    · simp [h.length_encode hxs]

end Elements

/-- A prover's setup whose vectors have elements, and not more than a length can tell. -/
structure ProverSetup.Storable (p : ProverSetup G1 G2 GT) : Prop where
  g1_pos : 0 < p.g1Vec.length
  g2_pos : 0 < p.g2Vec.length
  g1_lt : p.g1Vec.length < 2 ^ 64
  g2_lt : p.g2Vec.length < 2 ^ 64

/-- The elements of the groups have encodings of one size each. -/
structure SetupCodecs.Lawful (c : SetupCodecs G1 G2 GT) (size1 size2 sizeT : Nat) : Prop where
  g1 : Elements c.g1 size1
  g2 : Elements c.g2 size2
  gt : Elements c.gt sizeT

namespace SetupCodecs.Lawful

variable {c : SetupCodecs G1 G2 GT} {size1 size2 sizeT : Nat}

theorem prover_faithful (h : c.Lawful size1 size2 sizeT) : c.prover.Faithful :=
  Codec.xmap_faithful (Codec.pair_faithful (Codec.vec_faithful h.g1.faithful) (Codec.pair_faithful
    (Codec.vec_faithful h.g2.faithful) (Codec.pair_faithful h.g1.faithful
      (Codec.pair_faithful h.g2.faithful h.gt.faithful)))) fun _ => rfl

/-- The bytes of a prover's setup, part by part. -/
theorem encode_prover (h : c.Lawful size1 size2 sizeT) {p : ProverSetup G1 G2 GT} (h1 : p.g1Vec.length < 2 ^ 64)
    (h2 : p.g2Vec.length < 2 ^ 64) :
    ∃ g1 g2 b1 b2 bt, c.g1.encodeAll p.g1Vec = .some g1 ∧ c.g2.encodeAll p.g2Vec = .some g2 ∧
      c.g1.encode p.h1 = .some b1 ∧ c.g2.encode p.h2 = .some b2 ∧ c.gt.encode p.ht = .some bt ∧
      c.prover.encode p =
        .some (leBytes 8 p.g1Vec.length ++ g1 ++ (leBytes 8 p.g2Vec.length ++ g2 ++ (b1 ++ (b2 ++ bt)))) := by
  obtain ⟨g1, hg1⟩ := Option.isSome_iff_exists.mp (h.g1.encodeAll_isSome p.g1Vec)
  obtain ⟨g2, hg2⟩ := Option.isSome_iff_exists.mp (h.g2.encodeAll_isSome p.g2Vec)
  obtain ⟨b1, hb1⟩ := Option.isSome_iff_exists.mp (h.g1.encodes p.h1)
  obtain ⟨b2, hb2⟩ := Option.isSome_iff_exists.mp (h.g2.encodes p.h2)
  obtain ⟨bt, hbt⟩ := Option.isSome_iff_exists.mp (h.gt.encodes p.ht)
  refine ⟨g1, g2, b1, b2, bt, hg1, hg2, hb1, hb2, hbt, ?_⟩
  simp only [prover, Codec.xmap, Codec.pair, Codec.vec, hg1, hg2, hb1, hb2, hbt, h1, h2, if_true, Option.bind_eq_bind,
    Option.bind_some]

/-- **The fast file**: the loader that cuts it into chunks gives back what was saved. -/
theorem loadFastProver_saved (h : c.Lawful size1 size2 sizeT) {p : ProverSetup G1 G2 GT} (hp : p.Storable)
    {data : Bytes} (hdata : c.prover.encode p = .some data) {d : Disk} (hd : d.fast = .some data) :
    loadFastProver c d = .ok p := by
  obtain ⟨g1, g2, b1, b2, bt, hg1, hg2, hb1, hb2, hbt, hencode⟩ := h.encode_prover hp.g1_lt hp.g2_lt
  obtain rfl := Option.some.inj (hencode.symm.trans hdata)
  have hl1 := h.g1.length_encodeAll hg1
  have hl2 := h.g2.length_encodeAll hg2
  have hn1 : ofLe (leBytes 8 p.g1Vec.length) = p.g1Vec.length := ofLe_leBytes (by have := hp.g1_lt; omega)
  have hn2 : ofLe (leBytes 8 p.g2Vec.length) = p.g2Vec.length := ofLe_leBytes (by have := hp.g2_lt; omega)
  obtain ⟨a1, rest1, hprobe1, hsize1⟩ := h.g1.probe hg1 hp.g1_pos (leBytes 8 p.g2Vec.length ++ g2 ++ (b1 ++ (b2 ++ bt)))
  obtain ⟨a2, rest2, hprobe2, hsize2⟩ := h.g2.probe hg2 hp.g2_pos (b1 ++ (b2 ++ bt))
  have htail : (c.g1.pair (c.g2.pair c.gt)).decode (b1 ++ (b2 ++ bt)) = .some ((p.h1, p.h2, p.ht), []) := by
    have hrest := h.gt.faithful.decode_encode hbt []
    rw [List.append_nil] at hrest
    simp only [Codec.pair, h.g1.faithful.decode_encode hb1, h.g2.faithful.decode_encode hb2, hrest, Option.bind_eq_bind,
      Option.bind_some]
  have hchunks1 := h.g1.decodeChunks_encodeAll hg1
  have hchunks2 := h.g2.decodeChunks_encodeAll hg2
  have hpos1 := h.g1.size_pos
  have hpos2 := h.g2.size_pos
  have hne := hp.g1_pos
  have hlen1 : (leBytes 8 p.g1Vec.length).length = 8 := length_leBytes
  have hlen2 : (leBytes 8 p.g2Vec.length).length = 8 := length_leBytes
  generalize b1 ++ (b2 ++ bt) = tail at *
  generalize leBytes 8 p.g1Vec.length = n1 at *
  generalize leBytes 8 p.g2Vec.length = n2 at *
  have hstart : n1 ++ g1 ++ (n2 ++ g2 ++ tail) = n1 ++ (g1 ++ (n2 ++ g2 ++ tail)) := List.append_assoc ..
  have hmiddle : n1 ++ g1 ++ (n2 ++ g2 ++ tail) = n1 ++ g1 ++ n2 ++ (g2 ++ tail) := by simp
  have hend : n1 ++ g1 ++ (n2 ++ g2 ++ tail) = n1 ++ g1 ++ n2 ++ g2 ++ tail := by simp
  have hdrop1 : (n1 ++ g1 ++ (n2 ++ g2 ++ tail)).drop 8 = g1 ++ (n2 ++ g2 ++ tail) := by rw [hstart, List.drop_left' hlen1]
  have htake1 : (n1 ++ g1 ++ (n2 ++ g2 ++ tail)).take 8 = n1 := by rw [hstart, List.take_left' hlen1]
  have hfirst : (n1 ++ g1).length = 8 + p.g1Vec.length * size1 := by rw [List.length_append, hlen1, hl1]
  have hsecond : (n1 ++ g1 ++ n2).length = 8 + p.g1Vec.length * size1 + 8 := by rw [List.length_append, hfirst, hlen2]
  have hthird : (n1 ++ g1 ++ n2 ++ g2).length = 8 + p.g1Vec.length * size1 + 8 + p.g2Vec.length * size2 := by
    rw [List.length_append, hsecond, hl2]
  have hlen : (n1 ++ g1 ++ (n2 ++ g2 ++ tail)).length =
      8 + p.g1Vec.length * size1 + 8 + p.g2Vec.length * size2 + tail.length := by rw [hend, List.length_append, hthird]
  unfold loadFastProver
  rw [hd]
  dsimp only
  rw [hlen, htake1, hn1, hdrop1, hprobe1, if_neg (by omega), if_neg (by omega)]
  dsimp only
  rw [hsize1, if_neg (by omega), List.drop_left' hfirst, List.append_assoc n2, List.take_left' hlen2, hn2,
    ← List.append_assoc n2, hmiddle, List.drop_left' hsecond, hprobe2]
  dsimp only
  have hbytes1 : (n1 ++ g1 ++ n2 ++ (g2 ++ tail)).take (8 + p.g1Vec.length * size1) = n1 ++ g1 := by
    rw [List.append_assoc (n1 ++ g1), List.take_left' hfirst]
  have hbytes2 : (n1 ++ g1 ++ n2 ++ (g2 ++ tail)).take (8 + p.g1Vec.length * size1 + 8 + p.g2Vec.length * size2) =
      n1 ++ g1 ++ n2 ++ g2 := by
    rw [← List.append_assoc (n1 ++ g1 ++ n2), List.take_left' hthird]
  rw [hsize2, if_neg (by omega), hbytes1, hbytes2, List.drop_left' hsecond, List.drop_left' hlen1,
    Nat.add_sub_cancel_left, Nat.add_sub_cancel_left, ← hl1, ← hl2, hchunks1, hchunks2]
  dsimp only
  rw [← List.append_assoc (n1 ++ g1 ++ n2), List.drop_left' (by rw [hthird, hl1, hl2]), htail]

end SetupCodecs.Lawful

section VerifierPart

variable {c : SetupCodecs G1 G2 GT} {size1 size2 sizeT : Nat}

/-- The bytes of the parts of a verifier's setup, without the lengths of its vectors. -/
def verifierSize (size1 size2 sizeT : Nat) (v : VerifierSetup G1 G2 GT) : Nat :=
  (v.delta1l.length + v.delta1r.length + v.delta2l.length + v.delta2r.length + v.chi.length) * sizeT +
    2 * size1 + 2 * size2 + sizeT + 8

theorem SetupCodecs.Lawful.length_encodeVerifier (h : c.Lawful size1 size2 sizeT) {v : VerifierSetup G1 G2 GT}
    {bs : Bytes} (hbs : c.encodeVerifier v = .some bs) : bs.length = verifierSize size1 size2 sizeT v := by
  simp only [SetupCodecs.encodeVerifier, Option.bind_eq_bind, Option.bind_eq_some_iff, Option.pure_def,
    Option.some.injEq, Codec.word] at hbs
  obtain ⟨_, hdelta1l, _, hdelta1r, _, hdelta2l, _, hdelta2r, _, hchi, _, hg1, _, hg2, _, hh1, _, hh2, _, hht, _, rfl,
    rfl⟩ := hbs
  simp only [List.length_append, h.gt.length_encodeAll hdelta1l, h.gt.length_encodeAll hdelta1r,
    h.gt.length_encodeAll hdelta2l, h.gt.length_encodeAll hdelta2r, h.gt.length_encodeAll hchi,
    h.g1.length_encode hg1, h.g1.length_encode hh1, h.g2.length_encode hg2, h.g2.length_encode hh2,
    h.gt.length_encode hht, length_leBytes, verifierSize]
  ring

/-- The decoder reads five lengths more than the encoder writes. -/
theorem SetupCodecs.Lawful.consumes_decodeVerifier (h : c.Lawful size1 size2 sizeT) {v : VerifierSetup G1 G2 GT}
    {bs rest : Bytes} (hbs : c.decodeVerifier bs = .some (v, rest)) :
    bs.length = 40 + verifierSize size1 size2 sizeT v + rest.length := by
  simp only [SetupCodecs.decodeVerifier, Option.bind_eq_bind, Option.bind_eq_some_iff, Option.pure_def,
    Option.some.injEq, Prod.mk.injEq, Prod.exists] at hbs
  obtain ⟨_, _, hdelta1l, _, _, hdelta1r, _, _, hdelta2l, _, _, hdelta2r, _, _, hchi, _, _, hg1, _, _, hg2, _, _, hh1,
    _, _, hh2, _, _, hht, _, _, hword, rfl, rfl⟩ := hbs
  simp only [Codec.word] at hword
  split_ifs at hword with hlen
  cases hword
  rw [h.gt.consumes_vec hdelta1l, h.gt.consumes_vec hdelta1r, h.gt.consumes_vec hdelta2l, h.gt.consumes_vec hdelta2r,
    h.gt.consumes_vec hchi, h.g1.consumes hg1, h.g2.consumes hg2, h.g1.consumes hh1, h.g2.consumes hh2,
    h.gt.consumes hht, List.length_drop, verifierSize]
  simp only [Nat.add_mul]
  omega

end VerifierPart

/-! ## What is kept -/

/-- The setups that the two files hold. -/
structure Slots (P : Type) where
  urs : Option P
  fast : Option P

/-- A call on the files, or the removal of one of them. -/
inductive Call (P : Type)
  | setupProverOnly (fresh : P)
  | generateUrs (fresh : P)
  | removeUrs
  | removeFast

/-- The setup that a call generates. -/
def Call.fresh {P : Type} : Call P → Option P
  | setupProverOnly p => .some p
  | generateUrs p => .some p
  | removeUrs => .none
  | removeFast => .none

/-- A call on two slots: the fast one is read first and only a call that read the other fills it. -/
def Slots.call {P : Type} (s : Slots P) : Call P → Option P × Slots P
  | .setupProverOnly fresh =>
    match s.fast, s.urs with
    | .some p, _ => (.some p, s)
    | .none, .some p => (.some p, { s with fast := .some p })
    | .none, .none => (.some fresh, { urs := .some fresh, fast := .some fresh })
  | .generateUrs fresh => (.some fresh, { s with urs := .some fresh })
  | .removeUrs => (.none, { s with urs := .none })
  | .removeFast => (.none, { s with fast := .none })

/-- The results of some calls, each on the slots of its `max_log_n`. -/
def Slots.run {P : Type} (s : Nat → Slots P) : List (Nat × Call P) → List (Option P)
  | [] => []
  | (n, c) :: cs => ((s n).call c).1 :: run (Function.update s n ((s n).call c).2) cs

namespace Store

variable {F : Type} [Field F] [AddCommGroup G1] [Module F G1] [AddCommGroup G2] [Module F G2] [AddCommGroup GT]
  [Module F GT] (store : Store F G1 G2 GT)

/-- A call on the files, with the prover's setup that it returns. -/
def call (d : Disk) : Call (ProverSetup G1 G2 GT) → Option (Option (ProverSetup G1 G2 GT) × Disk)
  | .setupProverOnly fresh => (store.setupProverOnly fresh d).map fun (p, d) => (.some p, d)
  | .generateUrs fresh => (store.generateUrs fresh d).map fun ((p, _), d) => (.some p, d)
  | .removeUrs => .some (.none, { d with urs := .none })
  | .removeFast => .some (.none, { d with fast := .none })

/-- The results of some calls, each with its `max_log_n`, which names the files that it reads and
writes, unless one panics. -/
def run (disks : Nat → Disk) :
    List (Nat × Call (ProverSetup G1 G2 GT)) → Option (List (Option (ProverSetup G1 G2 GT)))
  | [] => .some []
  | (n, c) :: cs => do
    let (p, d) ← store.call (disks n) c
    let ps ← run (Function.update disks n d) cs
    return p :: ps

variable {store}

/-- The files hold the setups of the slots. -/
structure Holds (store : Store F G1 G2 GT) (d : Disk) (s : Slots (ProverSetup G1 G2 GT)) : Prop where
  urs_none : s.urs = .none → d.urs = .none
  urs_some : ∀ p, s.urs = .some p → p.Storable ∧
    ∃ bs cs, store.compressed.prover.encode p = .some bs ∧ d.urs = .some (bs ++ cs)
  fast_none : s.fast = .none → d.fast = .none
  fast_some : ∀ p, s.fast = .some p → p.Storable ∧
    ∃ bs, store.uncompressed.prover.encode p = .some bs ∧ d.fast = .some bs

/-- Both forms of the elements have encodings of one size each. -/
structure Lawful (store : Store F G1 G2 GT) : Prop where
  compressed : ∃ size1 size2 sizeT, store.compressed.Lawful size1 size2 sizeT
  uncompressed : ∃ size1 size2 sizeT, store.uncompressed.Lawful size1 size2 sizeT

theorem storable_of_valid {pair : G1 →ₗ[F] G2 →ₗ[F] GT} {p : ProverSetup G1 G2 GT} {m : Nat} (hv : p.Valid pair m) :
    p.Storable := by
  have hpos := Nat.two_pow_pos m
  have hlt : 2 ^ m < 2 ^ 64 := Nat.pow_lt_pow_right (by omega) hv.lt_width
  obtain ⟨-, hg1, hg2, -⟩ := hv
  exact ⟨by omega, by omega, by omega, by omega⟩

theorem saveSetup_ok (h : store.Lawful) {p : ProverSetup G1 G2 GT} (hp : p.Storable) (v : VerifierSetup G1 G2 GT)
    (d : Disk) :
    ∃ bs cs, store.compressed.prover.encode p = .some bs ∧ store.compressed.encodeVerifier v = .some cs ∧
      saveSetup store.compressed p v d = .some { d with urs := .some (bs ++ cs) } := by
  obtain ⟨size1, size2, sizeT, hc⟩ := h.compressed
  obtain ⟨_, _, _, _, _, _, _, _, _, _, hbs⟩ := hc.encode_prover hp.g1_lt hp.g2_lt
  obtain ⟨cs, hcs⟩ : ∃ cs, store.compressed.encodeVerifier v = .some cs := by
    have hall (as : List GT) := Option.isSome_iff_exists.mp (hc.gt.encodeAll_isSome as)
    obtain ⟨_, hdelta1l⟩ := hall v.delta1l
    obtain ⟨_, hdelta1r⟩ := hall v.delta1r
    obtain ⟨_, hdelta2l⟩ := hall v.delta2l
    obtain ⟨_, hdelta2r⟩ := hall v.delta2r
    obtain ⟨_, hchi⟩ := hall v.chi
    obtain ⟨_, hg1⟩ := Option.isSome_iff_exists.mp (hc.g1.encodes v.g1First)
    obtain ⟨_, hg2⟩ := Option.isSome_iff_exists.mp (hc.g2.encodes v.g2First)
    obtain ⟨_, hh1⟩ := Option.isSome_iff_exists.mp (hc.g1.encodes v.h1)
    obtain ⟨_, hh2⟩ := Option.isSome_iff_exists.mp (hc.g2.encodes v.h2)
    obtain ⟨_, hht⟩ := Option.isSome_iff_exists.mp (hc.gt.encodes v.ht)
    simp [SetupCodecs.encodeVerifier, hdelta1l, hdelta1r, hdelta2l, hdelta2r, hchi, hg1, hg2, hh1, hh2, hht, Codec.word]
  exact ⟨_, cs, hbs, hcs, by simp [saveSetup, hbs, hcs]⟩

theorem saveFastProver_ok (h : store.Lawful) {p : ProverSetup G1 G2 GT} (hp : p.Storable) (d : Disk) :
    ∃ bs, store.uncompressed.prover.encode p = .some bs ∧
      saveFastProver store.uncompressed p d = { d with fast := .some bs } := by
  obtain ⟨_, _, _, hu⟩ := h.uncompressed
  obtain ⟨_, _, _, _, _, _, _, _, _, _, hbs⟩ := hu.encode_prover hp.g1_lt hp.g2_lt
  exact ⟨_, hbs, by rw [saveFastProver, hbs]⟩

theorem Holds.loadFast (h : store.Lawful) {d : Disk} {s : Slots (ProverSetup G1 G2 GT)} (hd : Holds store d s) :
    loadFastProver store.uncompressed d = match s.fast with
      | .some p => .ok p
      | .none => .notFound := by
  obtain ⟨_, _, _, hu⟩ := h.uncompressed
  cases hfast : s.fast with
  | none => rw [loadFastProver, hd.fast_none hfast]
  | some p =>
    obtain ⟨hp, bs, hbs, hfile⟩ := hd.fast_some p hfast
    exact hu.loadFastProver_saved hp hbs hfile

theorem Holds.loadProver (h : store.Lawful) {d : Disk} {s : Slots (ProverSetup G1 G2 GT)} (hd : Holds store d s) :
    loadProverSetup store.compressed d = match s.urs with
      | .some p => .ok p
      | .none => .notFound := by
  obtain ⟨_, _, _, hc⟩ := h.compressed
  cases hurs : s.urs with
  | none => rw [loadProverSetup, hd.urs_none hurs]
  | some p =>
    obtain ⟨-, bs, cs, hbs, hfile⟩ := hd.urs_some p hurs
    rw [loadProverSetup, hfile]
    dsimp only
    rw [hc.prover_faithful.decode_encode hbs]

/-- **A call** returns what the slots hold, and the files hold the slots after it. -/
theorem Holds.call (h : store.Lawful) {d : Disk} {s : Slots (ProverSetup G1 G2 GT)} (hd : Holds store d s)
    {c : Call (ProverSetup G1 G2 GT)} (hc : ∀ p, c.fresh = .some p → ∃ m, p.Valid store.pair m) :
    ∃ d', store.call d c = .some ((s.call c).1, d') ∧ Holds store d' (s.call c).2 := by
  cases c with
  | setupProverOnly fresh =>
    obtain ⟨m, hv⟩ := hc fresh rfl
    rw [Store.call, setupProverOnly, hd.loadFast h, hd.loadProver h, Slots.call]
    cases hfast : s.fast with
    | some p => exact ⟨d, rfl, hd⟩
    | none =>
      cases hurs : s.urs with
      | some p =>
        obtain ⟨hp, bs0, cs0, hbs0, hfile⟩ := hd.urs_some p hurs
        obtain ⟨bs, hbs, hsave⟩ := saveFastProver_ok h hp d
        refine ⟨{ d with fast := .some bs }, by simp [hsave], ?_, ?_, ?_, ?_⟩
        · simp
        · simp only [Option.some.injEq, forall_eq']
          exact ⟨hp, bs0, cs0, hbs0, hfile⟩
        · simp
        · simp [hp, hbs]
      | none =>
        have hp := storable_of_valid hv
        obtain ⟨g1, g2, h1, h2⟩ := hv.exists_first
        obtain ⟨bs, cs, hbs, -, hsave⟩ := saveSetup_ok h hp (fresh.derived store.pair m g1 g2) d
        obtain ⟨bs', hbs', hsave'⟩ := saveFastProver_ok h hp { d with urs := .some (bs ++ cs) }
        refine ⟨{ urs := .some (bs ++ cs), fast := .some bs' }, by simp [hv.toVerifierSetup_eq h1 h2, hsave, hsave'], ?_,
          ?_, ?_, ?_⟩
        · simp
        · simp [hp, hbs]
        · simp
        · simp [hp, hbs']
  | generateUrs fresh =>
    obtain ⟨m, hv⟩ := hc fresh rfl
    have hp := storable_of_valid hv
    obtain ⟨g1, g2, h1, h2⟩ := hv.exists_first
    obtain ⟨bs, cs, hbs, -, hsave⟩ := saveSetup_ok h hp (fresh.derived store.pair m g1 g2) d
    refine ⟨{ d with urs := .some (bs ++ cs) }, by simp [Store.call, generateUrs, hv.toVerifierSetup_eq h1 h2, hsave,
      Slots.call], ?_, ?_, hd.fast_none, hd.fast_some⟩
    · simp [Slots.call]
    · simp [Slots.call, hp, hbs]
  | removeUrs => exact ⟨_, rfl, fun _ => rfl, by simp [Slots.call], hd.fast_none, hd.fast_some⟩
  | removeFast => exact ⟨_, rfl, hd.urs_none, hd.urs_some, fun _ => rfl, by simp [Slots.call]⟩

/-- **Every run of calls** of any sizes returns the setups that two slots for each size would: in
particular a setup that `generate_urs` makes is not what later calls of its size load while the
fast file is there. -/
theorem run_eq_slots (h : store.Lawful) {calls : List (Nat × Call (ProverSetup G1 G2 GT))}
    (hcalls : ∀ c ∈ calls, ∀ p, c.2.fresh = .some p → ∃ m, p.Valid store.pair m) {disks : Nat → Disk}
    {s : Nat → Slots (ProverSetup G1 G2 GT)} (hd : ∀ n, Holds store (disks n) (s n)) :
    store.run disks calls = .some (Slots.run s calls) := by
  induction calls generalizing disks s with
  | nil => rfl
  | cons c calls ih =>
    obtain ⟨n, c⟩ := c
    obtain ⟨d', hcall, hd'⟩ := (hd n).call h (hcalls (n, c) (List.mem_cons_self ..))
    have hdisks : ∀ k, Holds store (Function.update disks n d' k) (Function.update s n ((s n).call c).2 k) := by
      intro k
      by_cases hk : k = n
      · subst hk
        simpa using hd'
      · simpa [hk] using hd k
    have hrest := ih (fun c hc => hcalls c (List.mem_cons_of_mem _ hc)) hdisks
    simp [run, Slots.run, hcall, hrest]

/-- A codec of single bytes for the elements of the field of two. -/
def bitCodec : Codec (ZMod 2) where
  encode a := .some [BitVec.ofNat 8 a.val]
  decode
    | [] => .none
    | b :: rest => .some (b.toNat, rest)
  size _ := 1

theorem bitCodec_elements : Elements bitCodec 1 where
  faithful := {
    decode_encode {a bs} h rest := by
      cases h
      have hlt : a.val < 256 := (ZMod.val_lt a).trans (by norm_num)
      simp [bitCodec, Nat.mod_eq_of_lt hlt]
    length_encode h := by
      cases h
      rfl }
  encodes _ := rfl
  size_eq _ := rfl
  size_pos := Nat.one_pos
  consumes {bs a rest} h := by
    cases bs with
    | nil => cases h
    | cons b bs =>
      cases h
      simp [Nat.add_comm]

/-- A store of setups over the field of two. -/
def bitStore : Store (ZMod 2) (ZMod 2) (ZMod 2) (ZMod 2) where
  pair := LinearMap.mul (ZMod 2) (ZMod 2)
  compressed := { g1 := bitCodec, g2 := bitCodec, gt := bitCodec }
  uncompressed := { g1 := bitCodec, g2 := bitCodec, gt := bitCodec }

theorem bitStore_lawful : bitStore.Lawful where
  compressed := ⟨1, 1, 1, bitCodec_elements, bitCodec_elements, bitCodec_elements⟩
  uncompressed := ⟨1, 1, 1, bitCodec_elements, bitCodec_elements, bitCodec_elements⟩

theorem run_eq_slots_stale :
    let p : ProverSetup (ZMod 2) (ZMod 2) (ZMod 2) := .new bitStore.pair 0 (fun _ => 1) (fun _ => 1) 1 1
    let q : ProverSetup (ZMod 2) (ZMod 2) (ZMod 2) := .new bitStore.pair 0 (fun _ => 0) (fun _ => 1) 1 0
    let r : ProverSetup (ZMod 2) (ZMod 2) (ZMod 2) := .new bitStore.pair 1 (fun _ => 1) (fun _ => 0) 0 1
    bitStore.run (fun _ => { urs := .none, fast := .none })
        [(0, .setupProverOnly p), (0, .generateUrs q), (0, .setupProverOnly q), (1, .setupProverOnly r),
          (0, .removeFast), (0, .setupProverOnly p)] =
      .some [.some p, .some q, .some p, .some r, .none, .some q] := by
  intro p q r
  have hp : p.Valid bitStore.pair 0 := ProverSetup.valid_new _ (by decide) _ _ _ _
  have hq : q.Valid bitStore.pair 0 := ProverSetup.valid_new _ (by decide) _ _ _ _
  have hr : r.Valid bitStore.pair 1 := ProverSetup.valid_new _ (by decide) _ _ _ _
  have hempty : Holds bitStore { urs := .none, fast := .none } { urs := .none, fast := .none } :=
    ⟨fun _ => rfl, by simp, fun _ => rfl, by simp⟩
  rw [run_eq_slots bitStore_lawful ?_ fun _ => hempty]
  · rfl
  · simp only [List.mem_cons, List.not_mem_nil, or_false, forall_eq_or_imp, forall_eq, Call.fresh, Option.some.injEq,
      forall_eq', reduceCtorEq, false_imp_iff, implies_true, true_and]
    exact ⟨⟨0, hp⟩, ⟨0, hq⟩, ⟨0, hq⟩, ⟨1, hr⟩, ⟨0, hp⟩⟩

/-- **A setup that was saved with its verifier's part is never loaded as it was**: `setup` either
panics or returns another verifier's setup. -/
theorem setup_never_saved (h : store.Lawful) {p : ProverSetup G1 G2 GT} {v : VerifierSetup G1 G2 GT} {d d' : Disk}
    (hp : p.Storable) (hsaved : saveSetup store.compressed p v d = .some d') (fresh : ProverSetup G1 G2 GT) (d'' : Disk) :
    store.setup fresh d' ≠ .some ((p, v), d'') := by
  obtain ⟨size1, size2, sizeT, hc⟩ := h.compressed
  obtain ⟨bs, cs, hbs, hcs, hsave⟩ := saveSetup_ok h hp v d
  obtain rfl := Option.some.inj (hsave.symm.trans hsaved)
  intro hsetup
  rw [setup, loadSetup] at hsetup
  dsimp only at hsetup
  rw [hc.prover_faithful.decode_encode hbs] at hsetup
  dsimp only at hsetup
  cases hdecode : store.compressed.decodeVerifier cs with
  | none => simp [hdecode] at hsetup
  | some r =>
    obtain ⟨v', rest⟩ := r
    simp only [hdecode, Option.some.injEq, Prod.mk.injEq] at hsetup
    obtain ⟨⟨-, rfl⟩, -⟩ := hsetup
    have hread := hc.consumes_decodeVerifier hdecode
    have hwritten := hc.length_encodeVerifier hcs
    omega

theorem setup_never_saved_zero :
    let p : ProverSetup (ZMod 2) (ZMod 2) (ZMod 2) := .new bitStore.pair 0 (fun _ => 1) (fun _ => 1) 1 1
    ∃ v d, p.toVerifierSetup bitStore.pair = .ok v ∧
      saveSetup bitStore.compressed p v { urs := .none, fast := .none } = .some d ∧
      ∀ d', bitStore.setup p d ≠ .some ((p, v), d') := by
  intro p
  have hp : p.Valid bitStore.pair 0 := ProverSetup.valid_new _ (by decide) _ _ _ _
  obtain ⟨g1, g2, h1, h2⟩ := hp.exists_first
  obtain ⟨bs, cs, -, -, hsave⟩ := saveSetup_ok bitStore_lawful (storable_of_valid hp)
    (p.derived bitStore.pair 0 g1 g2) { urs := .none, fast := .none }
  exact ⟨_, _, hp.toVerifierSetup_eq h1 h2, hsave,
    fun d' => setup_never_saved bitStore_lawful (storable_of_valid hp) hsave p d'⟩

end Store

end LightningJolt.Dory
