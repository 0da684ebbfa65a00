/-
The words of the program image (`jolt-core/src/zkvm/ram/mod.rs`): the bytes of the
image are packed run by run, a run being the bytes of one doubleword that stand next
to each other in the list, and each run assigns its word.
-/
import LightningJolt.RamInit
import LightningJolt.WordPaths

namespace LightningJolt

open Fallible

/-! ## Packing -/

/-- A byte of the image with its address. -/
abbrev ImageByte := U64 × U8

namespace RAMPreprocessing

def doubleword (e : ImageByte) : Nat := e.1.toNat / 8

/-- The bytes of a run in the array of eight they are put in. -/
def chunkBytes (chunk : List ImageByte) : List U8 :=
  chunk.foldl (fun word e => word.set (e.1.toNat % 8) e.2) (List.replicate 8 0)

/-- The loop over the runs. -/
def packChunks (minAddress : Nat) : List (List ImageByte) → List U64 → Option (List U64)
  | [], words => .some words
  | chunk :: chunks, words => do
    let first ← chunk.head?
    let words ← setWord words (doubleword first - minAddress / 8) (fromLeBytes (chunkBytes chunk))
    packChunks minAddress chunks words

/-- `RAMPreprocessing::preprocess`. The sums wrap; a vector too long to be allocated and
an index out of range are panics. -/
def preprocess (memoryInit : List ImageByte) : Option RAMPreprocessing := do
  let addresses := memoryInit.map (·.1.toNat)
  let minAddress := addresses.min?.getD 0
  let maxAddress := (addresses.max?.getD 0 + 3) % 2 ^ 64
  let numWords := (divCeil maxAddress 8 + 2 ^ 64 - minAddress / 8 + 1) % 2 ^ 64
  guard (numWords * 8 < 2 ^ 63)
  let words ← packChunks minAddress (memoryInit.splitBy fun a b => doubleword a == doubleword b)
    (List.replicate numWords 0)
  .some ⟨BitVec.ofNat 64 minAddress, words⟩

/-! ## The runs -/

/-- The word of the last run of a doubleword. -/
def lastWord (d : Nat) : List (List ImageByte) → Option (List U8)
  | [] => .none
  | chunk :: chunks =>
    (lastWord d chunks).or
      (if chunk.head?.map doubleword = .some d then .some (chunkBytes chunk) else .none)

/-- The entries of a doubleword are in front of those of the others. -/
def Settled (d : Nat) : List ImageByte → Prop
  | [] => True
  | e :: rest => if doubleword e = d then Settled d rest else ∀ f ∈ rest, doubleword f ≠ d

instance (d : Nat) : (l : List ImageByte) → Decidable (Settled d l)
  | [] => isTrue trivial
  | e :: rest =>
    have := instDecidableSettled d rest
    inferInstanceAs (Decidable (if doubleword e = d then Settled d rest else ∀ f ∈ rest, doubleword f ≠ d))

/-- Every byte but zero is in the last run of its doubleword. -/
def LastRuns : List ImageByte → Prop
  | [] => True
  | e :: rest => (e.2 = 0 ∨ Settled (doubleword e) rest) ∧ LastRuns rest

/-- The byte of an address in a list, zero where there is none. -/
def listedByte (address : Nat) (memoryInit : List ImageByte) : U8 :=
  ((memoryInit.find? (·.1.toNat = address)).map (·.2)).getD 0

/-- The byte that the last run of its doubleword has of an address. -/
def keptByte (address : Nat) : List ImageByte → U8
  | [] => 0
  | e :: rest =>
    if e.1.toNat = address ∧ Settled (address / 8) rest then e.2 else keptByte address rest

/-- `chunk_by`. -/
abbrev runs (memoryInit : List ImageByte) : List (List ImageByte) :=
  memoryInit.splitBy fun a b => doubleword a == doubleword b

variable {e f : ImageByte} {rest c : List ImageByte} {cs : List (List ImageByte)} {d k : Nat}

/-- The runs of a list behind an entry. -/
theorem runs_cons (e : ImageByte) (rest : List ImageByte) :
    runs (e :: rest) =
      match runs rest with
      | [] => [[e]]
      | c :: cs =>
        if c.head?.map doubleword = .some (doubleword e) then (e :: c) :: cs else [e] :: c :: cs := by
  rcases rest with _ | ⟨f, rest⟩
  · rfl
  have hne : runs (f :: rest) ≠ [] :=
    List.splitBy_ne_nil.mpr (List.cons_ne_nil _ _)
  obtain ⟨c, cs, hsplit⟩ := List.exists_cons_of_ne_nil hne
  obtain ⟨hflat, hnil, hruns, hbreaks⟩ := List.splitBy_eq_iff.mp hsplit
  have hc : c ≠ [] := fun h => hnil (h ▸ List.mem_cons_self ..)
  obtain ⟨g, c, rfl⟩ := List.exists_cons_of_ne_nil hc
  rw [List.flatten_cons, List.cons_append, List.cons.injEq] at hflat
  obtain ⟨rfl, hrest⟩ := hflat
  rw [hsplit]
  simp only [List.head?_cons, Option.map_some, Option.some.injEq]
  split_ifs with hsame
  · refine List.splitBy_eq_iff.mpr ⟨?_, ?_, ?_, ?_⟩
    · rw [hrest]
      rfl
    · intro h
      rcases List.mem_cons.mp h with h | h
      · cases h
      · exact hnil (List.mem_cons_of_mem _ h)
    · intro run hrun
      rcases List.mem_cons.mp hrun with rfl | hrun
      · exact List.isChain_cons_cons.mpr ⟨by simp [hsame], hruns _ (List.mem_cons_self ..)⟩
      · exact hruns run (List.mem_cons_of_mem _ hrun)
    · rcases cs with _ | ⟨c', cs⟩
      · exact List.isChain_singleton _
      · obtain ⟨⟨h1, h2, h12⟩, htail⟩ := List.isChain_cons_cons.mp hbreaks
        refine List.isChain_cons_cons.mpr ⟨⟨List.cons_ne_nil _ _, h2, ?_⟩, htail⟩
        rwa [List.getLast_cons (List.cons_ne_nil _ _)]
  · have happend := List.splitBy_append_cons (r := fun a b => doubleword a == doubleword b) (l := [e])
      (a := f) rest (by simpa using Ne.symm hsame)
    change runs (e :: f :: rest) = _ ++ runs (f :: rest) at happend
    rw [hsplit] at happend
    exact happend

/-- The first run starts as the list does and is of one doubleword. -/
theorem runs_eq_cons (h : runs rest = c :: cs) :
    c.head? = rest.head? ∧ ∀ f ∈ c, f ∈ rest ∧ c.head?.map doubleword = .some (doubleword f) := by
  induction rest generalizing c cs with
  | nil => cases h
  | cons e rest ih =>
    rw [runs_cons] at h
    rcases hrest : runs rest with _ | ⟨c', cs'⟩
    · rw [hrest] at h
      cases h
      exact ⟨rfl, fun f hf => by simp_all⟩
    · rw [hrest] at h
      dsimp only at h
      split_ifs at h with hsame
      · cases h
        refine ⟨rfl, fun f hf => ?_⟩
        rcases List.mem_cons.mp hf with rfl | hf
        · exact ⟨List.mem_cons_self .., rfl⟩
        · obtain ⟨hmem, hhead⟩ := (ih hrest).2 f hf
          exact ⟨List.mem_cons_of_mem _ hmem, hsame.symm.trans hhead⟩
      · cases h
        exact ⟨rfl, fun f hf => by simp_all⟩

theorem runs_eq_nil (h : runs rest = []) : rest = [] := by
  rcases rest with _ | ⟨e, rest⟩
  · rfl
  · exact absurd h (List.splitBy_ne_nil.mpr (List.cons_ne_nil _ _))

/-- There is a last run where there is an entry. -/
theorem lastWord_runs (d : Nat) (l : List ImageByte) :
    lastWord d (runs l) = .none ↔ ∀ f ∈ l, doubleword f ≠ d := by
  induction l with
  | nil => exact ⟨fun _ f hf => absurd hf List.not_mem_nil, fun _ => rfl⟩
  | cons e rest ih =>
    rw [runs_cons, List.forall_mem_cons, ← ih]
    rcases runs rest with _ | ⟨c, cs⟩
    · simp [lastWord]
    · dsimp only
      split_ifs with hsame
      · simp [lastWord, hsame]
      · simp [lastWord]
        tauto

/-- What is settled is in the first run. -/
theorem settled_runs (h : runs rest = c :: cs) (hd : c.head?.map doubleword = .some d) :
    Settled d rest ↔ lastWord d cs = .none := by
  induction rest generalizing c cs with
  | nil => cases h
  | cons e rest ih =>
    have hhead := (runs_eq_cons h).1
    rw [hhead] at hd
    obtain rfl : doubleword e = d := Option.some.inj hd
    rw [runs_cons] at h
    rw [Settled, if_pos rfl]
    rcases hrest : runs rest with _ | ⟨c', cs'⟩
    · rw [hrest] at h
      cases h
      rw [runs_eq_nil hrest]
      exact ⟨fun _ => rfl, fun _ => trivial⟩
    · rw [hrest] at h
      dsimp only at h
      split_ifs at h with hsame
      · cases h
        exact ih hrest hsame
      · cases h
        rw [← hrest, lastWord_runs]
        rw [(runs_eq_cons hrest).1] at hsame
        rcases rest with _ | ⟨f, rest⟩
        · exact ⟨fun _ f hf => absurd hf List.not_mem_nil, fun _ => trivial⟩
        · have hf : doubleword f ≠ doubleword e := fun hf => hsame (congrArg _ hf)
          rw [Settled, if_neg hf, List.forall_mem_cons]
          exact ⟨fun h => ⟨hf, h⟩, And.right⟩

/-! ## The bytes of a run -/

@[simp] theorem length_foldl_set (chunk : List ImageByte) (word : List U8) :
    (chunk.foldl (fun word e => word.set (e.1.toNat % 8) e.2) word).length = word.length := by
  induction chunk generalizing word with
  | nil => rfl
  | cons e chunk ih => rw [List.foldl_cons, ih, List.length_set]

theorem getD_set_byte (word : List U8) (i : Nat) (b : U8) (k : Nat) (hi : i < word.length) :
    (word.set i b).getD k 0 = if k = i then b else word.getD k 0 := by
  simp only [List.getD_eq_getElem?_getD, List.getElem?_set]
  grind

/-- A run leaves the bytes it does not have. -/
theorem foldl_set_miss (hmem : ∀ e ∈ c, e.1.toNat % 8 ≠ k) {word : List U8}
    (hword : word.length = 8) :
    (c.foldl (fun word e => word.set (e.1.toNat % 8) e.2) word).getD k 0 = word.getD k 0 := by
  induction c generalizing word with
  | nil => rfl
  | cons e c ih =>
    obtain ⟨he, hc⟩ := List.forall_mem_cons.mp hmem
    rw [List.foldl_cons, ih hc (by rw [List.length_set, hword]),
      getD_set_byte _ _ _ _ (by omega), if_neg (Ne.symm he)]

/-- A run determines the bytes it has. -/
theorem foldl_set_hit (hmem : ∃ e ∈ c, e.1.toNat % 8 = k) {word word' : List U8}
    (hword : word.length = 8) (hword' : word'.length = 8) :
    (c.foldl (fun word e => word.set (e.1.toNat % 8) e.2) word).getD k 0 =
      (c.foldl (fun word e => word.set (e.1.toNat % 8) e.2) word').getD k 0 := by
  induction c generalizing word word' with
  | nil => exact absurd hmem (by simp)
  | cons e c ih =>
    rw [List.foldl_cons, List.foldl_cons]
    by_cases hc : ∃ f ∈ c, f.1.toNat % 8 = k
    · exact ih hc (by rw [List.length_set, hword]) (by rw [List.length_set, hword'])
    · replace hc : ∀ f ∈ c, f.1.toNat % 8 ≠ k := fun f hf hk => hc ⟨f, hf, hk⟩
      have he : k = e.1.toNat % 8 := by
        obtain ⟨f, hf, hk⟩ := hmem
        rcases List.mem_cons.mp hf with rfl | hf
        · exact hk.symm
        · exact absurd hk (hc f hf)
      rw [foldl_set_miss hc (by rw [List.length_set, hword]),
        foldl_set_miss hc (by rw [List.length_set, hword']),
        getD_set_byte _ _ _ _ (by omega), getD_set_byte _ _ _ _ (by omega), if_pos he, if_pos he]

theorem chunkBytes_cons (hd : ∀ f ∈ e :: c, doubleword f = d) (hnew : ∀ f ∈ c, f.1 ≠ e.1) :
    (chunkBytes (e :: c)).getD k 0 =
      if e.1.toNat = 8 * d + k then e.2 else (chunkBytes c).getD k 0 := by
  obtain ⟨he, hc⟩ := List.forall_mem_cons.mp hd
  have hkey {f : ImageByte} (hf : doubleword f = d) : f.1.toNat % 8 = k ↔ f.1.toNat = 8 * d + k := by
    rw [doubleword] at hf
    omega
  rw [chunkBytes, List.foldl_cons, chunkBytes]
  by_cases hmem : ∃ f ∈ c, f.1.toNat % 8 = k
  · obtain ⟨f, hf, hfk⟩ := id hmem
    have hne : e.1.toNat ≠ 8 * d + k := fun h =>
      hnew f hf (BitVec.eq_of_toNat_eq (((hkey (hc f hf)).mp hfk).trans h.symm))
    rw [if_neg hne]
    exact foldl_set_hit hmem (by simp) (by simp)
  · replace hmem : ∀ f ∈ c, f.1.toNat % 8 ≠ k := fun f hf hk => hmem ⟨f, hf, hk⟩
    rw [foldl_set_miss hmem (by simp), foldl_set_miss hmem (by simp),
      getD_set_byte _ _ _ _ (by rw [List.length_replicate]; omega)]
    exact if_congr (eq_comm.trans (hkey he)) rfl rfl

/-- Distinct addresses. -/
abbrev Distinct (memoryInit : List ImageByte) : Prop := (memoryInit.map Prod.fst).Nodup

theorem distinct_cons : Distinct (e :: rest) ↔ (∀ f ∈ rest, f.1 ≠ e.1) ∧ Distinct rest := by
  rw [Distinct, List.map_cons, List.nodup_cons]
  simp only [List.mem_map, not_exists, not_and]

theorem settled_of_absent (h : ∀ f ∈ rest, doubleword f ≠ d) : Settled d rest := by
  rcases rest with _ | ⟨f, rest⟩
  · trivial
  · obtain ⟨hf, hrest⟩ := List.forall_mem_cons.mp h
    rwa [Settled, if_neg hf]

theorem chunkBytes_nil (k : Nat) : (chunkBytes []).getD k 0 = 0 := by
  rw [chunkBytes, List.foldl_nil, List.getD_eq_getElem?_getD, List.getElem?_replicate]
  split_ifs <;> rfl

/-- An entry that another run of its doubleword follows changes nothing. -/
theorem lastWord_unsettled (h : ¬ (doubleword e = d ∧ Settled d rest)) :
    lastWord d (runs (e :: rest)) = lastWord d (runs rest) := by
  rw [runs_cons]
  rcases hruns : runs rest with _ | ⟨c, cs⟩
  · rw [runs_eq_nil hruns] at h
    have hd : doubleword e ≠ d := fun hd => h ⟨hd, trivial⟩
    simp [lastWord, hd]
  · dsimp only
    split_ifs with hsame
    · rw [lastWord, lastWord, hsame, List.head?_cons, Option.map_some]
      by_cases hd : doubleword e = d
      · have hlater : lastWord d cs ≠ .none := fun hnone =>
          h ⟨hd, (settled_runs hruns (hsame.trans (congrArg _ hd))).mpr hnone⟩
        obtain ⟨word, hword⟩ := Option.ne_none_iff_exists'.mp hlater
        rw [hword, Option.some_or, Option.some_or]
      · rw [if_neg fun h => hd (Option.some.inj h), if_neg fun h => hd (Option.some.inj h)]
    · rw [lastWord, List.head?_cons, Option.map_some]
      by_cases hd : doubleword e = d
      · have hlater : lastWord d (c :: cs) ≠ .none := fun hnone => by
          rw [← hruns, lastWord_runs] at hnone
          exact h ⟨hd, settled_of_absent hnone⟩
        obtain ⟨word, hword⟩ := Option.ne_none_iff_exists'.mp hlater
        rw [hword, Option.some_or]
      · rw [if_neg fun h => hd (Option.some.inj h), Option.or_none]

/-- An entry of the last run of its doubleword is the first of what is left of the run. -/
theorem lastWord_settled (hd : doubleword e = d) (hsettled : Settled d rest) :
    ∃ c, (∀ f ∈ c, f ∈ rest ∧ doubleword f = d) ∧
      lastWord d (runs (e :: rest)) = .some (chunkBytes (e :: c)) ∧
      ∀ k, ((lastWord d (runs rest)).getD []).getD k 0 = (chunkBytes c).getD k 0 := by
  rw [runs_cons]
  rcases hruns : runs rest with _ | ⟨c, cs⟩
  · refine ⟨[], by simp, by simp [lastWord, hd], fun k => ?_⟩
    rw [chunkBytes_nil]
    rfl
  · dsimp only
    split_ifs with hsame
    · rw [hd] at hsame
      have hnone := (settled_runs hruns hsame).mp hsettled
      refine ⟨c, fun f hf => ?_, ?_, fun k => ?_⟩
      · obtain ⟨hmem, hhead⟩ := (runs_eq_cons hruns).2 f hf
        exact ⟨hmem, (Option.some.inj (hsame.symm.trans hhead)).symm⟩
      · rw [lastWord, hnone, List.head?_cons, Option.map_some, hd, if_pos rfl, Option.none_or]
      · rw [lastWord, hnone, if_pos hsame, Option.none_or, Option.getD_some]
    · have hnone : lastWord d (c :: cs) = .none := by
        rw [(runs_eq_cons hruns).1] at hsame
        rw [← hruns, lastWord_runs]
        rcases rest with _ | ⟨f, rest⟩
        · exact fun f hf => absurd hf List.not_mem_nil
        · have hf : doubleword f ≠ d := fun hf => hsame (congrArg _ (hf.trans hd.symm))
          rw [Settled, if_neg hf] at hsettled
          exact List.forall_mem_cons.mpr ⟨hf, hsettled⟩
      refine ⟨[], by simp, ?_, fun k => ?_⟩
      · rw [lastWord, hnone, List.head?_cons, Option.map_some, hd, if_pos rfl, Option.none_or]
      · rw [hnone, chunkBytes_nil]
        rfl

/-- The last run of a doubleword has the bytes that are kept. -/
theorem getD_lastWord {l : List ImageByte} (hdistinct : Distinct l) (d : Nat) (hk : k < 8) :
    ((lastWord d (runs l)).getD []).getD k 0 = keptByte (8 * d + k) l := by
  induction l with
  | nil => rfl
  | cons e rest ih =>
    obtain ⟨hnew, hrest⟩ := distinct_cons.mp hdistinct
    have hd : (8 * d + k) / 8 = d := by omega
    have haddress (h : e.1.toNat = 8 * d + k) : doubleword e = d := by
      rw [doubleword, h, hd]
    rw [keptByte, hd, ← ih hrest]
    by_cases hlast : doubleword e = d ∧ Settled d rest
    · obtain ⟨c, hc, hword, hbytes⟩ := lastWord_settled hlast.1 hlast.2
      have hrun : ∀ f ∈ e :: c, doubleword f = d :=
        List.forall_mem_cons.mpr ⟨hlast.1, fun f hf => (hc f hf).2⟩
      rw [hword, Option.getD_some, chunkBytes_cons hrun fun f hf => hnew f (hc f hf).1, hbytes]
      exact if_congr (and_iff_left hlast.2).symm rfl rfl
    · rw [lastWord_unsettled hlast, if_neg fun h => hlast ⟨haddress h.1, h.2⟩]

/-! ## The bytes that are kept -/

theorem keptByte_absent {address : Nat} (h : ∀ f ∈ rest, f.1.toNat ≠ address) :
    keptByte address rest = 0 := by
  induction rest with
  | nil => rfl
  | cons e rest ih =>
    obtain ⟨he, hrest⟩ := List.forall_mem_cons.mp h
    rw [keptByte, if_neg fun h => he h.1, ih hrest]

theorem listedByte_cons (address : Nat) (e : ImageByte) (rest : List ImageByte) :
    listedByte address (e :: rest) = if e.1.toNat = address then e.2 else listedByte address rest := by
  rw [listedByte, List.find?_cons]
  by_cases h : e.1.toNat = address
  · simp [h]
  · simp [h, listedByte]

theorem listedByte_absent {address : Nat} (h : ∀ f ∈ rest, f.1.toNat ≠ address) :
    listedByte address rest = 0 := by
  induction rest with
  | nil => rfl
  | cons e rest ih =>
    obtain ⟨he, hrest⟩ := List.forall_mem_cons.mp h
    rw [listedByte_cons, if_neg he, ih hrest]

/-- All that is listed is kept exactly where no byte but zero is in an earlier run. -/
theorem kept_iff {l : List ImageByte} (hdistinct : Distinct l) :
    (∀ address, keptByte address l = listedByte address l) ↔ LastRuns l := by
  induction l with
  | nil => exact ⟨fun _ => trivial, fun _ _ => rfl⟩
  | cons e rest ih =>
    obtain ⟨hnew, hrest⟩ := distinct_cons.mp hdistinct
    have habsent : ∀ f ∈ rest, f.1.toNat ≠ e.1.toNat := fun f hf h => hnew f hf (BitVec.eq_of_toNat_eq h)
    have hfirst : (∀ address, keptByte address (e :: rest) = listedByte address (e :: rest)) ↔
        (e.2 = 0 ∨ Settled (doubleword e) rest) ∧
          ∀ address, keptByte address rest = listedByte address rest := by
      simp only [keptByte, listedByte_cons]
      constructor
      · intro h
        refine ⟨?_, fun address => ?_⟩
        · have he := h e.1.toNat
          rw [if_pos rfl, keptByte_absent habsent] at he
          by_cases hsettled : Settled (doubleword e) rest
          · exact .inr hsettled
          · rw [if_neg fun h => hsettled h.2] at he
            exact .inl he.symm
        · by_cases he : e.1.toNat = address
          · rw [← he, keptByte_absent habsent, listedByte_absent habsent]
          · have h := h address
            rwa [if_neg fun h => he h.1, if_neg he] at h
      · rintro ⟨he, h⟩ address
        by_cases hadd : e.1.toNat = address
        · subst hadd
          rw [if_pos rfl]
          rcases he with he | he
          · rw [he, keptByte_absent habsent, ite_self]
          · exact if_pos ⟨rfl, he⟩
        · rw [if_neg fun h => hadd h.1, if_neg hadd, h address]
    rw [hfirst, ih hrest, LastRuns]

/-! ## The loop -/

theorem packChunks_eq {minAddress : Nat} {chunks : List (List ImageByte)} {words : List U64}
    (h : ∀ c ∈ chunks, ∃ f, c.head? = .some f ∧ minAddress / 8 ≤ doubleword f ∧
      doubleword f - minAddress / 8 < words.length) :
    ∃ words', packChunks minAddress chunks words = .some words' ∧ ∀ i, words'.getD i 0 =
      ((lastWord (minAddress / 8 + i) chunks).map fromLeBytes).getD (words.getD i 0) := by
  induction chunks generalizing words with
  | nil => exact ⟨words, rfl, fun _ => rfl⟩
  | cons c chunks ih =>
    obtain ⟨⟨f, hf, hlow, hhigh⟩, hchunks⟩ := List.forall_mem_cons.mp h
    have hset : setWord words (doubleword f - minAddress / 8) (fromLeBytes (chunkBytes c)) =
        .some (words.set (doubleword f - minAddress / 8) (fromLeBytes (chunkBytes c))) := if_pos hhigh
    obtain ⟨words', hrun, hwords⟩ := @ih (words.set (doubleword f - minAddress / 8)
      (fromLeBytes (chunkBytes c))) (by rwa [List.length_set])
    refine ⟨words', ?_, fun i => ?_⟩
    · rw [packChunks, hf, Option.bind_eq_bind, Option.bind_some, hset]
      exact hrun
    · rw [hwords, lastWord, hf, Option.map_some, getD_set _ _ _ hhigh]
      rcases lastWord (minAddress / 8 + i) chunks with _ | word
      · by_cases hi : i = doubleword f - minAddress / 8
        · rw [if_pos hi, if_pos (by rw [hi]; congr 1; omega)]
          rfl
        · rw [if_neg hi, if_neg fun h => hi (by have := Option.some.inj h; omega)]
          rfl
      · rfl

/-- Where the loop ends, each run has its word. -/
theorem packChunks_fits {minAddress : Nat} {chunks : List (List ImageByte)} {words words' : List U64}
    (h : packChunks minAddress chunks words = .some words') :
    ∀ c ∈ chunks, ∃ f, c.head? = .some f ∧ doubleword f - minAddress / 8 < words.length := by
  induction chunks generalizing words with
  | nil => exact fun c hc => absurd hc List.not_mem_nil
  | cons c chunks ih =>
    obtain ⟨f, hf, h⟩ := Option.bind_eq_some_iff.mp h
    obtain ⟨mid, hset, h⟩ := Option.bind_eq_some_iff.mp h
    obtain ⟨hlt, rfl⟩ := setWord_eq_some hset
    refine List.forall_mem_cons.mpr ⟨⟨f, hf, hlt⟩, fun c hc => ?_⟩
    obtain ⟨f, hf, hlt⟩ := ih h c hc
    exact ⟨f, hf, by rwa [List.length_set] at hlt⟩

/-! ## The image -/

/-- The least and the greatest address, zero where there is none. -/
def minAddress (memoryInit : List ImageByte) : Nat := (memoryInit.map (·.1.toNat)).min?.getD 0

def maxAddress (memoryInit : List ImageByte) : Nat := (memoryInit.map (·.1.toNat)).max?.getD 0

/-- The sum of the last address does not wrap and the vector of words can be allocated. -/
def Fits (memoryInit : List ImageByte) : Prop :=
  maxAddress memoryInit + 3 < 2 ^ 64 ∧
    (divCeil (maxAddress memoryInit + 3) 8 - minAddress memoryInit / 8 + 1) * 8 < 2 ^ 63

/-- Every run starts at an entry of the list, and every entry is in a run of its doubleword. -/
theorem head_runs (l : List ImageByte) : (∀ c ∈ runs l, ∃ f ∈ l, c.head? = .some f) ∧
    ∀ f ∈ l, ∃ c ∈ runs l, c.head?.map doubleword = .some (doubleword f) := by
  induction l with
  | nil => exact ⟨fun c hc => absurd hc List.not_mem_nil, fun f hf => absurd hf List.not_mem_nil⟩
  | cons e rest ih =>
    obtain ⟨hheads, hruns⟩ := ih
    have hold : ∀ c ∈ runs rest, ∃ f ∈ e :: rest, c.head? = .some f := fun c hc => by
      obtain ⟨f, hf, hhead⟩ := hheads c hc
      exact ⟨f, List.mem_cons_of_mem _ hf, hhead⟩
    have hfirst : ∃ f ∈ e :: rest, Option.some e = .some f := ⟨e, List.mem_cons_self .., rfl⟩
    rw [runs_cons]
    rcases hrest : runs rest with _ | ⟨c, cs⟩
    · obtain rfl := runs_eq_nil hrest
      refine ⟨fun c hc => ?_, fun f hf => ?_⟩
      · obtain rfl := List.mem_singleton.mp hc
        exact hfirst
      · obtain rfl := List.mem_singleton.mp hf
        exact ⟨_, List.mem_singleton_self _, rfl⟩
    · rw [hrest] at hold hruns
      obtain ⟨hc, hcs⟩ := List.forall_mem_cons.mp hold
      dsimp only
      split_ifs with hsame
      · refine ⟨List.forall_mem_cons.mpr ⟨hfirst, hcs⟩, fun f hf => ?_⟩
        rcases List.mem_cons.mp hf with rfl | hf
        · exact ⟨_, List.mem_cons_self .., rfl⟩
        · obtain ⟨c', hc', hhead⟩ := hruns f hf
          rcases List.mem_cons.mp hc' with rfl | hc'
          · exact ⟨_, List.mem_cons_self .., hsame.symm.trans hhead⟩
          · exact ⟨c', List.mem_cons_of_mem _ hc', hhead⟩
      · refine ⟨List.forall_mem_cons.mpr ⟨hfirst, hold⟩, fun f hf => ?_⟩
        rcases List.mem_cons.mp hf with rfl | hf
        · exact ⟨_, List.mem_cons_self .., rfl⟩
        · obtain ⟨c', hc', hhead⟩ := hruns f hf
          exact ⟨c', List.mem_cons_of_mem _ hc', hhead⟩

theorem minAddress_le {l : List ImageByte} (hf : f ∈ l) : minAddress l ≤ f.1.toNat :=
  List.min?_getD_le_of_mem (List.mem_map_of_mem hf)

theorem le_maxAddress {l : List ImageByte} (hf : f ∈ l) : f.1.toNat ≤ maxAddress l :=
  List.le_max?_getD_of_mem (List.mem_map_of_mem hf)

theorem exists_maxAddress {l : List ImageByte} (hl : l ≠ []) : ∃ f ∈ l, f.1.toNat = maxAddress l := by
  have hne : l.map (·.1.toNat) ≠ [] := fun h => hl (List.map_eq_nil_iff.mp h)
  obtain ⟨a, ha⟩ := Option.ne_none_iff_exists'.mp fun h => hne (List.max?_eq_none_iff.mp h)
  obtain ⟨f, hf, hfa⟩ := List.mem_map.mp (List.max?_mem ha)
  exact ⟨f, hf, by rw [maxAddress, ha]; exact hfa⟩

theorem minAddress_le_maxAddress (l : List ImageByte) : minAddress l ≤ maxAddress l := by
  rcases l with _ | ⟨e, rest⟩
  · exact Nat.le_refl 0
  · exact (minAddress_le (List.mem_cons_self ..)).trans (le_maxAddress (List.mem_cons_self ..))

/-- The number of words, of a list that fits. -/
def numWords (memoryInit : List ImageByte) : Nat :=
  divCeil (maxAddress memoryInit + 3) 8 - minAddress memoryInit / 8 + 1

/-- Where the code returns, it has not wrapped: a list whose last sum wraps has an entry
that is out of range. -/
theorem fits_of_preprocess {l : List ImageByte} {ram : RAMPreprocessing} (h : preprocess l = .some ram) :
    Fits l := by
  rcases hl : l with _ | ⟨e, rest⟩
  · exact ⟨by decide, by decide⟩
  rw [← hl]
  obtain ⟨_, hguard, h⟩ := Option.bind_eq_some_iff.mp h
  have hguard := (Option.guard_eq_some' ()).mp hguard
  obtain ⟨words, hwords, -⟩ := Option.bind_eq_some_iff.mp h
  obtain ⟨f, hf, hmax⟩ := exists_maxAddress (l := l) (by rw [hl]; exact List.cons_ne_nil _ _)
  obtain ⟨c, hc, hhead⟩ := (head_runs l).2 f hf
  obtain ⟨g, hg, hlt⟩ := packChunks_fits hwords c hc
  rw [hg] at hhead
  have hd : doubleword g = doubleword f := Option.some.inj hhead
  have hmin := minAddress_le hf
  have hbound := f.1.isLt
  rw [hd, doubleword, List.length_replicate] at hlt
  change f.1.toNat / 8 - minAddress l / 8 <
    (divCeil ((maxAddress l + 3) % 2 ^ 64) 8 + 2 ^ 64 - minAddress l / 8 + 1) % 2 ^ 64 at hlt
  change (divCeil ((maxAddress l + 3) % 2 ^ 64) 8 + 2 ^ 64 - minAddress l / 8 + 1) % 2 ^ 64 * 8 < 2 ^ 63
    at hguard
  rw [Fits]
  unfold divCeil at *
  omega

/-- What the code returns for a list that fits. -/
theorem preprocess_eq {l : List ImageByte} (hdistinct : Distinct l) (hfits : Fits l) :
    ∃ words, preprocess l = .some ⟨BitVec.ofNat 64 (minAddress l), words⟩ ∧ ∀ i k, k < 8 →
      leByte (words.getD i 0) k = keptByte (8 * (minAddress l / 8) + 8 * i + k) l := by
  have hnum : (divCeil ((maxAddress l + 3) % 2 ^ 64) 8 + 2 ^ 64 - minAddress l / 8 + 1) % 2 ^ 64 =
      numWords l := by
    obtain ⟨hlt, hsize⟩ := hfits
    have hle := minAddress_le_maxAddress l
    rw [numWords]
    unfold divCeil at *
    omega
  have hchunks : ∀ c ∈ runs l, ∃ f, c.head? = .some f ∧ minAddress l / 8 ≤ doubleword f ∧
      doubleword f - minAddress l / 8 < (List.replicate (numWords l) (0 : U64)).length := by
    intro c hc
    obtain ⟨f, hf, hhead⟩ := (head_runs l).1 c hc
    have hmin := minAddress_le hf
    have hmax := le_maxAddress hf
    refine ⟨f, hhead, Nat.div_le_div_right hmin, ?_⟩
    rw [List.length_replicate, numWords, divCeil, doubleword]
    omega
  obtain ⟨words, hrun, hwords⟩ := packChunks_eq hchunks
  refine ⟨words, ?_, fun i k hk => ?_⟩
  · refine Option.bind_eq_some_iff.mpr ⟨(), (Option.guard_eq_some' ()).mpr ?_, ?_⟩
    · change (divCeil ((maxAddress l + 3) % 2 ^ 64) 8 + 2 ^ 64 - minAddress l / 8 + 1) % 2 ^ 64 * 8 < 2 ^ 63
      rw [hnum]
      exact hfits.2
    · change (packChunks (minAddress l) (runs l) (List.replicate ((divCeil ((maxAddress l + 3) % 2 ^ 64) 8 +
        2 ^ 64 - minAddress l / 8 + 1) % 2 ^ 64) 0)).bind _ = _
      rw [hnum, hrun]
      rfl
  · have haddress : 8 * (minAddress l / 8) + 8 * i + k = 8 * (minAddress l / 8 + i) + k := by omega
    have hzero : (List.replicate (numWords l) (0 : U64)).getD i 0 = 0 :=
      clear_replicate _ i (i + 1) i (Nat.le_refl i) (Nat.lt_succ_self i)
    rw [hwords, hzero, haddress, ← getD_lastWord hdistinct _ hk]
    rcases lastWord (minAddress l / 8 + i) (runs l) with _ | word
    · exact leByte_fromLeBytes [] hk
    · exact leByte_fromLeBytes word hk

/-! ## The tracer's memory -/

/-- `setup_bytecode`. -/
def setupByte (layout : Option MemoryLayout) (e : ImageByte) : MemM Unit := do
  guard (ramStartAddress ≤ e.1.toNat ∧ ∀ l ∈ layout, e.1.toNat ≤ l.stackEnd)
  Memory.writeByte (e.1.toNat - ramStartAddress) e.2

/-- The loop of `setup_program` over the bytes of the image. -/
def setupBytecode (layout : Option MemoryLayout) (memoryInit : List ImageByte) : MemM Unit :=
  memoryInit.forM (setupByte layout)

theorem setupByte_eq_some {layout : Option MemoryLayout} {m m' : MemoryData}
    (h : setupByte layout e m = .some (⟨⟩, m')) :
    m'.numDoublewords = m.numDoublewords ∧
      ∀ a, m'.byte a = if e.1.toNat = a + ramStartAddress then e.2 else m.byte a := by
  obtain ⟨⟨⟨hlow, -⟩, -⟩, -, hput⟩ := (Acts.guard_bind _ (f := fun _ =>
    Memory.writeByte (e.1.toNat - ramStartAddress) e.2) (Memory.writeByte_acts _ e.2)).some h
  refine ⟨hput.2.symm, fun a => ?_⟩
  have hsame := m.byte_putByte (e.1.toNat - ramStartAddress) e.2 a
  rw [MemoryData.byte, MemoryData.dword, ← hput.1]
  refine hsame.trans (if_congr ?_ rfl rfl)
  omega

theorem setupBytecode_eq_some {layout : Option MemoryLayout} {l : List ImageByte} {m m' : MemoryData}
    (hdistinct : Distinct l) (h : setupBytecode layout l m = .some (⟨⟩, m')) :
    m'.numDoublewords = m.numDoublewords ∧ ∀ a, m'.byte a =
      ((l.find? (·.1.toNat = a + ramStartAddress)).map (·.2)).getD (m.byte a) := by
  induction l generalizing m with
  | nil =>
    cases h
    exact ⟨rfl, fun _ => rfl⟩
  | cons e rest ih =>
    obtain ⟨hnew, hrest⟩ := distinct_cons.mp hdistinct
    obtain ⟨⟨⟨⟩, m1⟩, hstep, h⟩ := Option.bind_eq_some_iff.mp h
    obtain ⟨hnum1, hbytes1⟩ := setupByte_eq_some hstep
    obtain ⟨hnum, hbytes⟩ := ih hrest h
    refine ⟨hnum.trans hnum1, fun a => ?_⟩
    rw [hbytes, hbytes1, List.find?_cons]
    by_cases he : e.1.toNat = a + ramStartAddress
    · have hnone : rest.find? (·.1.toNat = a + ramStartAddress) = .none := by
        refine List.find?_eq_none.mpr fun f hf hfa => hnew f hf (BitVec.eq_of_toNat_eq ?_)
        rw [of_decide_eq_true hfa, he]
      rw [hnone, if_pos he]
      simp [he]
    · simp [he]

end RAMPreprocessing

open RAMPreprocessing

/-- The words hold the bytes of the list, as the memory does that they are loaded into. -/
structure RAMPreprocessing.Packs (memoryInit : List ImageByte) (ram : RAMPreprocessing) : Prop where
  min : ram.minBytecodeAddress.toNat = minAddress memoryInit
  bytes : ∀ i k, k < 8 → leByte (ram.bytecodeWords.getD i 0) k =
    listedByte (8 * (ram.minBytecodeAddress.toNat / 8) + 8 * i + k) memoryInit
  loaded : ∀ layout m m', (∀ a, m.byte a = 0) → setupBytecode layout memoryInit m = .some (⟨⟩, m') →
    ∀ i k a, k < 8 → a + ramStartAddress = 8 * (ram.minBytecodeAddress.toNat / 8) + 8 * i + k →
      m.Covers a → Memory.byteAt m' a = .some (leByte (ram.bytecodeWords.getD i 0) k)

/-- **The words are those of the listed bytes exactly where no byte is lost**: a byte is,
where it is not zero and its doubleword is run through again behind it. -/
theorem RAMPreprocessing.preprocess_packs (memoryInit : List ImageByte) (hdistinct : Distinct memoryInit) :
    (∃ ram, preprocess memoryInit = .some ram ∧ Packs memoryInit ram) ↔
      Fits memoryInit ∧ LastRuns memoryInit := by
  have hmin : (BitVec.ofNat 64 (minAddress memoryInit)).toNat = minAddress memoryInit := by
    rw [BitVec.toNat_ofNat, Nat.mod_eq_of_lt]
    rcases memoryInit with _ | ⟨e, rest⟩
    · decide
    · exact (minAddress_le (List.mem_cons_self ..)).trans_lt e.1.isLt
  constructor
  · rintro ⟨ram, hram, hpacks⟩
    have hfits := fits_of_preprocess hram
    obtain ⟨words, hrun, hwords⟩ := preprocess_eq hdistinct hfits
    obtain rfl := Option.some.inj (hrun.symm.trans hram)
    refine ⟨hfits, (kept_iff hdistinct).mp fun address => ?_⟩
    by_cases hlow : 8 * (minAddress memoryInit / 8) ≤ address
    · have hbytes := hpacks.bytes ((address - 8 * (minAddress memoryInit / 8)) / 8) (address % 8) (by omega)
      have haddress : 8 * (minAddress memoryInit / 8) +
          8 * ((address - 8 * (minAddress memoryInit / 8)) / 8) + address % 8 = address := by omega
      rwa [hwords _ _ (by omega), hmin, haddress] at hbytes
    · have habsent : ∀ f ∈ memoryInit, f.1.toNat ≠ address := fun f hf h => by
        have := minAddress_le hf
        omega
      rw [keptByte_absent habsent, listedByte_absent habsent]
  · rintro ⟨hfits, hruns⟩
    obtain ⟨words, hrun, hwords⟩ := preprocess_eq hdistinct hfits
    have hbytes : ∀ i k, k < 8 → leByte (words.getD i 0) k =
        listedByte (8 * (minAddress memoryInit / 8) + 8 * i + k) memoryInit := fun i k hk => by
      rw [hwords i k hk, (kept_iff hdistinct).mpr hruns]
    refine ⟨_, hrun, hmin, by rwa [hmin], fun layout m m' hzero hload i k a hk ha hcovers => ?_⟩
    obtain ⟨hnum, hloaded⟩ := setupBytecode_eq_some hdistinct hload
    have hcovers' : m'.Covers a := by
      rwa [MemoryData.Covers, hnum]
    rw [hmin] at ha
    rw [Memory.byteAt_eq, if_pos hcovers', hloaded, hzero, ha, hbytes i k hk]
    rfl

/-- The second byte of the first doubleword comes behind the other doubleword. -/
def splitImage : List ImageByte := [(0x80000000, 1), (0x80000008, 2), (0x80000001, 3)]

theorem RAMPreprocessing.splitImage_lost : Distinct splitImage ∧ Fits splitImage ∧
    ¬ ∃ ram, preprocess splitImage = .some ram ∧ Packs splitImage ram := by
  refine ⟨by decide, ⟨by decide, by decide⟩, ?_⟩
  rintro ⟨ram, hram, hpacks⟩
  have hmin : ram.minBytecodeAddress.toNat = 0x80000000 := hpacks.min
  have hwords : (preprocess splitImage).map (·.bytecodeWords) = .some [0x300, 2, 0] := by
    decide
  rw [hram] at hwords
  have hwords : ram.bytecodeWords = [0x300, 2, 0] := Option.some.inj hwords
  have hbyte := hpacks.bytes 0 0 (by decide)
  rw [hwords, hmin] at hbyte
  revert hbyte
  decide

theorem RAMPreprocessing.preprocess_packs_sorted :
    ∃ ram, preprocess [(0x80000000, 1), (0x80000001, 3), (0x80000008, 2)] = .some ram ∧
      Packs [(0x80000000, 1), (0x80000001, 3), (0x80000008, 2)] ram :=
  (preprocess_packs [(0x80000000, 1), (0x80000001, 3), (0x80000008, 2)] (by decide)).mpr
    ⟨⟨by decide, by decide⟩, by simp [LastRuns, Settled, doubleword]⟩

end LightningJolt
