/-
Merging two sorted runs of sparse entries that carry the values before and after them: one entry after
the other, and by divide and conquer into a buffer whose length a dry run finds.
-/
import Mathlib

namespace LightningJolt

/-- What two runs hold at one place. -/
inductive MergeCell (E : Type) where
  | both (even odd : E)
  | even (e : E)
  | odd (o : E)
deriving DecidableEq

/-- What a merge reads of an entry: its place, and the values before and after it. -/
structure MergeKeys (E C : Type) where
  key : E → Nat
  prevVal : E → C
  nextVal : E → C

section Merge

variable {E C O : Type} (κ : MergeKeys E C) (emit : MergeCell E → C → C → O)

/-! ## One entry after the other -/

/-- Each place in order, with the last value of either run before it; once a run has ended the
other's value is no longer followed. -/
def seqMerge (ce co : C) : List E → List E → List O
  | [], odd => odd.map fun o => emit (.odd o) ce co
  | e :: es, [] => (e :: es).map fun e => emit (.even e) ce co
  | e :: es, o :: os =>
    if κ.key e = κ.key o then emit (.both e o) ce co :: seqMerge (κ.nextVal e) (κ.nextVal o) es os
    else if κ.key e < κ.key o then emit (.even e) ce co :: seqMerge (κ.nextVal e) co es (o :: os)
    else emit (.odd o) ce co :: seqMerge ce (κ.nextVal o) (e :: es) os
termination_by even odd => even.length + odd.length

/-- The merge into a buffer; a dry run only counts. A buffer of another length panics. -/
def seqMergeInto (ce co : C) (even odd : List E) (out : List (Option O)) (dryRun : Bool) :
    Option (Nat × List (Option O)) :=
  let merged := seqMerge κ emit ce co even odd
  if dryRun then .some (merged.length, out)
  else if out.length = merged.length then .some (merged.length, merged.map .some)
  else .none

/-! ## Divide and conquer -/

/-- `partition_point` of the entries before a place. -/
def partitionPoint (xs : List E) (pivot : Nat) : Nat := (xs.takeWhile fun x => κ.key x < pivot).length

/-- The middle of the longer run, and where its place falls in the other. -/
def pivots (even odd : List E) : Option (Nat × Nat) :=
  if odd.length < even.length then
    (even[even.length / 2]?).map fun e => (even.length / 2, partitionPoint κ odd (κ.key e))
  else (odd[odd.length / 2]?).map fun o => (partitionPoint κ even (κ.key o), odd.length / 2)

/-- The value a run has come to at an index. -/
def checkpointAt (xs : List E) (pivot : Nat) (c : C) : C :=
  if pivot = 0 then (xs.head?.map κ.prevVal).getD c else ((xs.take pivot).getLast?.map κ.nextVal).getD c

/-- The recursive merge into a buffer, with `zero` for what a dry run does not read. -/
def parMergeInto (threshold : Nat) (zero : C) :
    Nat → C → C → List E → List E → List (Option O) → Bool → Option (Nat × List (Option O))
  | 0, _, _, _, _, _, _ => .none
  | fuel + 1, ce, co, even, odd, out, dryRun => do
    if even.length + odd.length ≤ threshold then seqMergeInto κ emit ce co even odd out dryRun
    else
      let (ep, op) ← pivots κ even odd
      let mid := if dryRun then 0 else ep + op
      guard (mid ≤ out.length)
      let (leftLen, _) ←
        parMergeInto threshold zero fuel zero zero (even.take ep) (odd.take op) (out.take mid) true
      let (rightLen, _) ←
        parMergeInto threshold zero fuel zero zero (even.drop ep) (odd.drop op) (out.drop mid) true
      if dryRun then .some (leftLen + rightLen, out)
      else
        guard (out.length = leftLen + rightLen)
        let (_, leftOut) ←
          parMergeInto threshold zero fuel ce co (even.take ep) (odd.take op) (out.take leftLen) false
        let (_, rightOut) ← parMergeInto threshold zero fuel (checkpointAt κ even ep ce) (checkpointAt κ odd op co)
          (even.drop ep) (odd.drop op) (out.drop leftLen) false
        .some (leftLen + rightLen, leftOut ++ rightOut)

/-- The recursive sum of what the places give. -/
def parMergeSum [AddCommMonoid O] (threshold : Nat) : Nat → C → C → List E → List E → Option O
  | 0, _, _, _, _ => .none
  | fuel + 1, ce, co, even, odd => do
    if even.length + odd.length ≤ threshold then .some (seqMerge κ emit ce co even odd).sum
    else
      let (ep, op) ← pivots κ even odd
      let left ← parMergeSum threshold fuel ce co (even.take ep) (odd.take op)
      let right ← parMergeSum threshold fuel (checkpointAt κ even ep ce) (checkpointAt κ odd op co)
        (even.drop ep) (odd.drop op)
      .some (left + right)

/-! ## Runs -/

/-- Sorted, with one entry for a place. -/
def SortedRun (xs : List E) : Prop := xs.Pairwise fun x y => κ.key x < κ.key y

/-- Each entry's value before is the one after the entry before it, the first one's what the run starts from. -/
def Linked (c : C) : List E → Prop
  | [] => True
  | x :: xs => κ.prevVal x = c ∧ Linked (κ.nextVal x) xs

/-- The value after a run. -/
def lastVal (c : C) (xs : List E) : C := xs.foldl (fun _ x => κ.nextVal x) c

/-- An entry alone at its place does not read the value of its own run. -/
structure OwnUnread : Prop where
  even : ∀ e ce ce' co, emit (.even e) ce co = emit (.even e) ce' co
  odd : ∀ o ce co co', emit (.odd o) ce co = emit (.odd o) ce co'

variable {κ emit} {ce co : C} {even odd : List E}

theorem seqMerge_nil_right : seqMerge κ emit ce co even [] = even.map fun e => emit (.even e) ce co := by
  cases even with
  | nil => rw [seqMerge]; rfl
  | cons e es => rw [seqMerge]

/-- Entries of the second run before all of the first. -/
theorem seqMerge_odd_first (h : OwnUnread emit) {os : List E} (hlt : ∀ o ∈ os, ∀ e ∈ even, κ.key o < κ.key e) :
    seqMerge κ emit ce co even (os ++ odd) =
      (os.map fun o => emit (.odd o) ce co) ++ seqMerge κ emit ce (lastVal κ co os) even odd := by
  induction os generalizing co with
  | nil => rfl
  | cons o os ih =>
    have hrest := @ih (κ.nextVal o) fun o' ho' => hlt o' (List.mem_cons_of_mem _ ho')
    have hunread : (os.map fun o' => emit (.odd o') ce (κ.nextVal o)) = os.map fun o' => emit (.odd o') ce co :=
      List.map_congr_left fun o' _ => h.odd o' ce _ co
    cases even with
    | nil =>
      rw [seqMerge, seqMerge, List.map_append]
      exact congrArg _ (List.map_congr_left fun o' _ => h.odd o' ce _ _)
    | cons e es =>
      have hoe := hlt o (List.mem_cons_self ..) e (List.mem_cons_self ..)
      rw [List.cons_append, seqMerge, if_neg (by omega), if_neg (by omega), hrest, hunread]
      rfl

/-- Entries of the first run before all of the second. -/
theorem seqMerge_even_first (h : OwnUnread emit) {es : List E} (hlt : ∀ e ∈ es, ∀ o ∈ odd, κ.key e < κ.key o) :
    seqMerge κ emit ce co (es ++ even) odd =
      (es.map fun e => emit (.even e) ce co) ++ seqMerge κ emit (lastVal κ ce es) co even odd := by
  induction es generalizing ce with
  | nil => rfl
  | cons e es ih =>
    have hrest := @ih (κ.nextVal e) fun e' he' => hlt e' (List.mem_cons_of_mem _ he')
    have hunread : (es.map fun e' => emit (.even e') (κ.nextVal e) co) = es.map fun e' => emit (.even e') ce co :=
      List.map_congr_left fun e' _ => h.even e' _ ce co
    cases odd with
    | nil =>
      rw [seqMerge_nil_right, seqMerge_nil_right, List.map_append]
      exact congrArg _ (List.map_congr_left fun e' _ => h.even e' ce _ co)
    | cons o os =>
      have heo := hlt e (List.mem_cons_self ..) o (List.mem_cons_self ..)
      rw [List.cons_append, seqMerge, if_neg (by omega), if_pos heo, hrest, hunread]
      rfl

/-- **A merge splits** where all before one place is parted from all that is not. -/
theorem seqMerge_append (h : OwnUnread emit) {es os : List E} (heo : ∀ e ∈ es, ∀ o ∈ odd, κ.key e < κ.key o)
    (hoe : ∀ o ∈ os, ∀ e ∈ even, κ.key o < κ.key e) :
    seqMerge κ emit ce co (es ++ even) (os ++ odd) =
      seqMerge κ emit ce co es os ++ seqMerge κ emit (lastVal κ ce es) (lastVal κ co os) even odd := by
  fun_induction seqMerge κ emit ce co es os with
  | case1 ce co os => exact seqMerge_odd_first h hoe
  | case2 ce co e es => exact seqMerge_even_first h heo
  | case3 ce co e es o os heq ih =>
    rw [List.cons_append, List.cons_append, seqMerge, if_pos heq,
      ih (fun e he => heo e (List.mem_cons_of_mem _ he)) fun o ho => hoe o (List.mem_cons_of_mem _ ho)]
    rfl
  | case4 ce co e es o os hne hlt ih =>
    have hrest := ih (fun e he => heo e (List.mem_cons_of_mem _ he)) hoe
    rw [List.cons_append] at hrest ⊢
    rw [List.cons_append, seqMerge, if_neg hne, if_pos hlt, hrest]
    rfl
  | case5 ce co e es o os hne hlt ih =>
    have hrest := ih heo fun o ho => hoe o (List.mem_cons_of_mem _ ho)
    rw [List.cons_append] at hrest ⊢
    rw [List.cons_append, seqMerge, if_neg hne, if_neg hlt, hrest]
    rfl

/-! ## Lengths -/

theorem length_seqMerge {P : Type} {emit' : MergeCell E → C → C → P} (ce' co' : C) :
    (seqMerge κ emit ce co even odd).length = (seqMerge κ emit' ce' co' even odd).length := by
  fun_induction seqMerge κ emit ce co even odd generalizing ce' co' with
  | case1 ce co odd => rw [seqMerge, List.length_map, List.length_map]
  | case2 ce co e es => rw [seqMerge, List.length_map, List.length_map]
  | case3 ce co e es o os heq ih => rw [seqMerge, if_pos heq, List.length_cons, List.length_cons, ih]
  | case4 ce co e es o os hne hlt ih => rw [seqMerge, if_neg hne, if_pos hlt, List.length_cons, List.length_cons, ih]
  | case5 ce co e es o os hne hlt ih => rw [seqMerge, if_neg hne, if_neg hlt, List.length_cons, List.length_cons, ih]

theorem le_length_seqMerge (emit : MergeCell E → C → C → O) (ce co : C) (even odd : List E) :
    even.length ≤ (seqMerge κ emit ce co even odd).length ∧
      odd.length ≤ (seqMerge κ emit ce co even odd).length := by
  fun_induction seqMerge κ emit ce co even odd with
  | case1 ce co odd => simp
  | case2 ce co e es => simp
  | case3 ce co e es o os heq ih | case4 ce co e es o os hne hlt ih | case5 ce co e es o os hne hlt ih =>
    simp only [List.length_cons] at ih ⊢
    omega

/-- The parts' lengths add up, whatever is given out. -/
theorem length_seqMerge_append {es os : List E} (heo : ∀ e ∈ es, ∀ o ∈ odd, κ.key e < κ.key o)
    (hoe : ∀ o ∈ os, ∀ e ∈ even, κ.key o < κ.key e) (ce1 co1 ce2 co2 : C) :
    (seqMerge κ emit ce co (es ++ even) (os ++ odd)).length =
      (seqMerge κ emit ce1 co1 es os).length + (seqMerge κ emit ce2 co2 even odd).length := by
  have hunread : OwnUnread fun (_ : MergeCell E) (_ _ : C) => () := ⟨fun _ _ _ _ => rfl, fun _ _ _ _ => rfl⟩
  have hbefore : (seqMerge κ (fun _ _ _ => ()) ce co es os).length = (seqMerge κ emit ce1 co1 es os).length :=
    length_seqMerge ce1 co1
  have hafter : (seqMerge κ (fun _ _ _ => ()) (lastVal κ ce es) (lastVal κ co os) even odd).length =
      (seqMerge κ emit ce2 co2 even odd).length := length_seqMerge ce2 co2
  have hwhole : (seqMerge κ emit ce co (es ++ even) (os ++ odd)).length =
      (seqMerge κ (fun _ _ _ => ()) ce co (es ++ even) (os ++ odd)).length := length_seqMerge ce co
  rw [hwhole, seqMerge_append hunread heo hoe, List.length_append, hbefore, hafter]

/-! ## Pivots -/

/-- Where two runs are parted: all before one place, both parts shorter, and no more entries before it
than the merge has places. -/
structure Parted (κ : MergeKeys E C) (even odd : List E) (ep op : Nat) : Prop where
  place : ∃ p, (∀ x ∈ even.take ep, κ.key x < p) ∧ (∀ x ∈ even.drop ep, p ≤ κ.key x) ∧
    (∀ x ∈ odd.take op, κ.key x < p) ∧ ∀ x ∈ odd.drop op, p ≤ κ.key x
  left : (even.take ep).length + (odd.take op).length < even.length + odd.length
  right : (even.drop ep).length + (odd.drop op).length < even.length + odd.length
  even_le : ep ≤ even.length
  odd_le : op ≤ odd.length
  balanced : ep + op ≤ op + (even.length - ep) ∨ ep + op ≤ ep + (odd.length - op)

theorem take_length_takeWhile (p : E → Bool) (xs : List E) : xs.take (xs.takeWhile p).length = xs.takeWhile p :=
  (List.prefix_iff_eq_take.mp (List.takeWhile_prefix _)).symm

theorem drop_length_takeWhile (p : E → Bool) (xs : List E) : xs.drop (xs.takeWhile p).length = xs.dropWhile p := by
  have hsplit := List.take_append_drop (xs.takeWhile p).length xs
  rw [take_length_takeWhile] at hsplit
  exact List.append_cancel_left (hsplit.trans (List.takeWhile_append_dropWhile ..).symm)

/-- Where all before an entry that passes pass too, none does after the first that does not. -/
theorem eq_false_of_mem_dropWhile {p : E → Bool} {xs : List E} (h : xs.Pairwise fun x y => p y = true → p x = true) :
    ∀ x ∈ xs.dropWhile p, p x = false := by
  induction xs with
  | nil => exact fun x hx => absurd hx List.not_mem_nil
  | cons y ys ih =>
    obtain ⟨hfirst, hrest⟩ := List.pairwise_cons.mp h
    rw [List.dropWhile_cons]
    split_ifs with hy
    · exact ih hrest
    · intro x hx
      rw [Bool.eq_false_iff]
      rcases List.mem_cons.mp hx with rfl | hx
      · exact hy
      · exact fun hpass => hy (hfirst x hx hpass)

theorem SortedRun.parted_at {xs : List E} (h : SortedRun κ xs) {i : Nat} (hi : i < xs.length) :
    (∀ x ∈ xs.take i, κ.key x < κ.key xs[i]) ∧ ∀ x ∈ xs.drop i, κ.key xs[i] ≤ κ.key x := by
  have hsplit : xs = xs.take i ++ xs[i] :: xs.drop (i + 1) := by
    rw [← List.drop_eq_getElem_cons hi, List.take_append_drop]
  have hpair := h
  rw [SortedRun, hsplit, List.pairwise_append, List.pairwise_cons] at hpair
  obtain ⟨-, ⟨hlater, -⟩, hbefore⟩ := hpair
  refine ⟨fun x hx => hbefore x hx _ (List.mem_cons_self ..), fun x hx => ?_⟩
  rw [List.drop_eq_getElem_cons hi, List.mem_cons] at hx
  rcases hx with rfl | hx
  · exact le_rfl
  · exact (hlater x hx).le

theorem SortedRun.partitionPoint {xs : List E} (h : SortedRun κ xs) (p : Nat) :
    partitionPoint κ xs p ≤ xs.length ∧ (∀ x ∈ xs.take (partitionPoint κ xs p), κ.key x < p) ∧
      ∀ x ∈ xs.drop (partitionPoint κ xs p), p ≤ κ.key x := by
  rw [LightningJolt.partitionPoint, take_length_takeWhile, drop_length_takeWhile]
  refine ⟨(List.takeWhile_prefix _).length_le, fun x hx => ?_, fun x hx => ?_⟩
  · exact of_decide_eq_true (List.mem_takeWhile_imp (p := fun x => κ.key x < p) hx)
  · have hdown : xs.Pairwise fun x y => decide (κ.key y < p) = true → decide (κ.key x < p) = true :=
      h.imp fun hxy hy => decide_eq_true (hxy.trans (of_decide_eq_true hy))
    exact Nat.not_lt.mp (of_decide_eq_false (eq_false_of_mem_dropWhile hdown x hx))

/-- **Of three entries or more** the pivots leave two shorter parts. -/
theorem pivots_parted (heven : SortedRun κ even) (hodd : SortedRun κ odd) (hlen : 2 < even.length + odd.length) :
    ∃ ep op, pivots κ even odd = .some (ep, op) ∧ Parted κ even odd ep op := by
  rw [pivots]
  split_ifs with hlt
  · have hmid : even.length / 2 < even.length := by omega
    obtain ⟨hbefore, hafter⟩ := heven.parted_at hmid
    obtain ⟨hle, hbefore', hafter'⟩ := hodd.partitionPoint (κ.key even[even.length / 2])
    refine ⟨_, _, by rw [List.getElem?_eq_getElem hmid]; rfl,
      ⟨⟨_, hbefore, hafter, hbefore', hafter'⟩, ?_, ?_, hmid.le, hle, .inl (by omega)⟩⟩
    · rw [List.length_take, List.length_take]
      omega
    · rw [List.length_drop, List.length_drop]
      omega
  · have hmid : odd.length / 2 < odd.length := by omega
    obtain ⟨hbefore, hafter⟩ := hodd.parted_at hmid
    obtain ⟨hle, hbefore', hafter'⟩ := heven.partitionPoint (κ.key odd[odd.length / 2])
    refine ⟨_, _, by rw [List.getElem?_eq_getElem hmid]; rfl,
      ⟨⟨_, hbefore', hafter', hbefore, hafter⟩, ?_, ?_, hle, hmid.le, .inr (by omega)⟩⟩
    · rw [List.length_take, List.length_take]
      omega
    · rw [List.length_drop, List.length_drop]
      omega

namespace Parted

variable {ep op : Nat}

theorem even_odd (h : Parted κ even odd ep op) : ∀ e ∈ even.take ep, ∀ o ∈ odd.drop op, κ.key e < κ.key o := by
  obtain ⟨p, hel, -, -, hor⟩ := h.place
  exact fun e he o ho => (hel e he).trans_le (hor o ho)

theorem odd_even (h : Parted κ even odd ep op) : ∀ o ∈ odd.take op, ∀ e ∈ even.drop ep, κ.key o < κ.key e := by
  obtain ⟨p, -, her, hol, -⟩ := h.place
  exact fun o ho e he => (hol o ho).trans_le (her e he)

theorem length_add (h : Parted κ even odd ep op) (ce1 co1 ce2 co2 : C) :
    (seqMerge κ emit ce1 co1 (even.take ep) (odd.take op)).length +
        (seqMerge κ emit ce2 co2 (even.drop ep) (odd.drop op)).length =
      (seqMerge κ emit ce co even odd).length := by
  have hadd : (seqMerge κ emit ce co (even.take ep ++ even.drop ep) (odd.take op ++ odd.drop op)).length = _ :=
    length_seqMerge_append h.even_odd h.odd_even ce1 co1 ce2 co2
  rw [List.take_append_drop, List.take_append_drop] at hadd
  exact hadd.symm

/-- The first split of the buffer is in range. -/
theorem split_le (h : Parted κ even odd ep op) : ep + op ≤ (seqMerge κ emit ce co even odd).length := by
  have hadd : _ = (seqMerge κ emit ce co even odd).length := h.length_add ce co ce co
  have hleft := @le_length_seqMerge _ _ _ κ emit ce co (even.take ep) (odd.take op)
  have hright := @le_length_seqMerge _ _ _ κ emit ce co (even.drop ep) (odd.drop op)
  rw [List.length_take, List.length_take, Nat.min_eq_left h.even_le, Nat.min_eq_left h.odd_le] at hleft
  rw [List.length_drop, List.length_drop] at hright
  rcases h.balanced with hle | hle <;> omega

theorem seqMerge_eq (h : Parted κ even odd ep op) (hunread : OwnUnread emit) :
    seqMerge κ emit ce co even odd = seqMerge κ emit ce co (even.take ep) (odd.take op) ++
      seqMerge κ emit (lastVal κ ce (even.take ep)) (lastVal κ co (odd.take op)) (even.drop ep) (odd.drop op) := by
  have happend : seqMerge κ emit ce co (even.take ep ++ even.drop ep) (odd.take op ++ odd.drop op) = _ :=
    seqMerge_append hunread h.even_odd h.odd_even
  rw [List.take_append_drop, List.take_append_drop] at happend
  exact happend

end Parted

/-! ## The two merges agree -/

variable {c : C} {xs ys : List E}

theorem linked_append : Linked κ c (xs ++ ys) ↔ Linked κ c xs ∧ Linked κ (lastVal κ c xs) ys := by
  induction xs generalizing c with
  | nil => exact ⟨fun h => ⟨trivial, h⟩, And.right⟩
  | cons x xs ih =>
    rw [List.cons_append, Linked, ih, Linked, and_assoc]
    rfl

theorem lastVal_eq_getLast? (c : C) (xs : List E) : lastVal κ c xs = (xs.getLast?.map κ.nextVal).getD c := by
  induction xs using List.reverseRecOn with
  | nil => rfl
  | append_singleton xs x => rw [lastVal, List.foldl_append, List.getLast?_concat]; rfl

/-- Where the values are linked, the value at an index is that of the entries before it. -/
theorem checkpointAt_eq (h : Linked κ c xs) (i : Nat) : checkpointAt κ xs i c = lastVal κ c (xs.take i) := by
  rw [checkpointAt]
  split_ifs with hzero
  · rw [hzero, List.take_zero]
    cases xs with
    | nil => rfl
    | cons x xs => exact h.1
  · exact (lastVal_eq_getLast? c _).symm

theorem linked_drop (h : Linked κ c xs) (i : Nat) : Linked κ (lastVal κ c (xs.take i)) (xs.drop i) := by
  rw [← List.take_append_drop i xs] at h
  exact (linked_append.mp h).2

theorem linked_take (h : Linked κ c xs) (i : Nat) : Linked κ c (xs.take i) := by
  rw [← List.take_append_drop i xs] at h
  exact (linked_append.mp h).1

variable {threshold fuel : Nat} {zero : C} {out : List (Option O)}

/-- **A dry run** counts the places of the merge. -/
theorem parMergeInto_dry (ht : 2 ≤ threshold) (heven : SortedRun κ even) (hodd : SortedRun κ odd)
    (hfuel : even.length + odd.length < fuel) :
    parMergeInto κ emit threshold zero fuel ce co even odd out true =
      .some ((seqMerge κ emit ce co even odd).length, out) := by
  induction fuel generalizing even odd ce co out with
  | zero => omega
  | succ fuel ih =>
    by_cases hle : even.length + odd.length ≤ threshold
    · rw [parMergeInto, if_pos hle]
      rfl
    · obtain ⟨ep, op, hpivots, hparted⟩ := pivots_parted heven hodd (by omega)
      have hleft := hparted.left
      have hright := hparted.right
      have hdryl := fun out => @ih zero zero (even.take ep) (odd.take op) out (heven.sublist (List.take_sublist ..))
        (hodd.sublist (List.take_sublist ..)) (by omega)
      have hdryr := fun out => @ih zero zero (even.drop ep) (odd.drop op) out (heven.sublist (List.drop_sublist ..))
        (hodd.sublist (List.drop_sublist ..)) (by omega)
      have hadd : _ = (seqMerge κ emit ce co even odd).length := hparted.length_add zero zero zero zero
      rw [parMergeInto, if_neg hle, hpivots]
      simp only [Option.bind_eq_bind, Option.bind_some, if_true, guard, Nat.zero_le, Option.pure_def, hdryl, hdryr]
      rw [hadd]

/-- The two halves of a buffer, written apart. -/
theorem parMergeInto_split (hle : ¬ even.length + odd.length ≤ threshold) {ep op l r : Nat}
    (hpivots : pivots κ even odd = .some (ep, op)) (hmid : ep + op ≤ out.length)
    (hdryl : ∀ out, parMergeInto κ emit threshold zero fuel zero zero (even.take ep) (odd.take op) out true =
      .some (l, out))
    (hdryr : ∀ out, parMergeInto κ emit threshold zero fuel zero zero (even.drop ep) (odd.drop op) out true =
      .some (r, out))
    (hout : out.length = l + r) {outl outr : List (Option O)}
    (hleft : parMergeInto κ emit threshold zero fuel ce co (even.take ep) (odd.take op) (out.take l) false =
      .some (l, outl))
    (hright : parMergeInto κ emit threshold zero fuel (checkpointAt κ even ep ce) (checkpointAt κ odd op co)
      (even.drop ep) (odd.drop op) (out.drop l) false = .some (r, outr)) :
    parMergeInto κ emit threshold zero (fuel + 1) ce co even odd out false = .some (l + r, outl ++ outr) := by
  rw [hout] at hmid
  rw [parMergeInto, if_neg hle, hpivots]
  simp only [Option.bind_eq_bind, Option.bind_some, Bool.false_eq_true, if_false, guard, hmid, if_true,
    Option.pure_def, hdryl, hdryr, hout, hleft, hright]

/-- **The recursive merge is the sequential one**, every slot of its buffer written. -/
theorem parMergeInto_eq (ht : 2 ≤ threshold) (hunread : OwnUnread emit) (heven : SortedRun κ even)
    (hodd : SortedRun κ odd) (hce : Linked κ ce even) (hco : Linked κ co odd)
    (hout : out.length = (seqMerge κ emit ce co even odd).length) (hfuel : even.length + odd.length < fuel) :
    parMergeInto κ emit threshold zero fuel ce co even odd out false =
      .some ((seqMerge κ emit ce co even odd).length, (seqMerge κ emit ce co even odd).map .some) := by
  induction fuel generalizing even odd ce co out with
  | zero => omega
  | succ fuel ih =>
    by_cases hle : even.length + odd.length ≤ threshold
    · rw [parMergeInto, if_pos hle, seqMergeInto, if_neg (by decide), if_pos hout]
    · obtain ⟨ep, op, hpivots, hparted⟩ := pivots_parted heven hodd (by omega)
      have hleft := hparted.left
      have hright := hparted.right
      have hevenl := heven.sublist (List.take_sublist ep even)
      have hoddl := hodd.sublist (List.take_sublist op odd)
      have hevenr := heven.sublist (List.drop_sublist ep even)
      have hoddr := hodd.sublist (List.drop_sublist op odd)
      -- the lengths the dry runs find are those of the parts as they are merged
      have hlenl : (seqMerge κ emit zero zero (even.take ep) (odd.take op)).length =
          (seqMerge κ emit ce co (even.take ep) (odd.take op)).length := length_seqMerge ce co
      have hlenr : (seqMerge κ emit zero zero (even.drop ep) (odd.drop op)).length = (seqMerge κ emit
          (lastVal κ ce (even.take ep)) (lastVal κ co (odd.take op)) (even.drop ep) (odd.drop op)).length :=
        length_seqMerge _ _
      have hdryl := fun out =>
        @parMergeInto_dry _ _ _ κ emit zero zero _ _ threshold fuel zero out ht hevenl hoddl (by omega)
      have hdryr := fun out =>
        @parMergeInto_dry _ _ _ κ emit zero zero _ _ threshold fuel zero out ht hevenr hoddr (by omega)
      simp only [hlenl] at hdryl
      simp only [hlenr] at hdryr
      have hadd : _ = (seqMerge κ emit ce co even odd).length := hparted.length_add ce co
        (lastVal κ ce (even.take ep)) (lastVal κ co (odd.take op))
      have hmid : ep + op ≤ out.length := hout ▸ hparted.split_le
      have hwhole : seqMerge κ emit ce co even odd = _ := hparted.seqMerge_eq hunread
      have hrunl := @ih ce co (even.take ep) (odd.take op) (out.take _) hevenl hoddl (linked_take hce ep)
        (linked_take hco op) (by rw [List.length_take, hout, ← hadd, Nat.min_eq_left (Nat.le_add_right _ _)]) (by omega)
      have hrunr := @ih (lastVal κ ce (even.take ep)) (lastVal κ co (odd.take op)) (even.drop ep) (odd.drop op)
        (out.drop (seqMerge κ emit ce co (even.take ep) (odd.take op)).length) hevenr hoddr (linked_drop hce ep)
        (linked_drop hco op) (by rw [List.length_drop, hout, ← hadd, Nat.add_sub_cancel_left]) (by omega)
      rw [← checkpointAt_eq hce, ← checkpointAt_eq hco] at hrunr hdryr hadd hwhole
      rw [parMergeInto_split hle hpivots hmid hdryl hdryr (hout.trans hadd.symm) hrunl hrunr, hadd, hwhole,
        List.map_append]

/-- **The recursive sum is the sequential one.** -/
theorem parMergeSum_eq [AddCommMonoid O] (ht : 2 ≤ threshold) (hunread : OwnUnread emit) (heven : SortedRun κ even)
    (hodd : SortedRun κ odd) (hce : Linked κ ce even) (hco : Linked κ co odd)
    (hfuel : even.length + odd.length < fuel) :
    parMergeSum κ emit threshold fuel ce co even odd = .some (seqMerge κ emit ce co even odd).sum := by
  induction fuel generalizing even odd ce co with
  | zero => omega
  | succ fuel ih =>
    by_cases hle : even.length + odd.length ≤ threshold
    · rw [parMergeSum, if_pos hle]
    · obtain ⟨ep, op, hpivots, hparted⟩ := pivots_parted heven hodd (by omega)
      have hleft := hparted.left
      have hright := hparted.right
      have hwhole : seqMerge κ emit ce co even odd = _ := hparted.seqMerge_eq hunread
      have hrunl := @ih ce co (even.take ep) (odd.take op) (heven.sublist (List.take_sublist ..))
        (hodd.sublist (List.take_sublist ..)) (linked_take hce ep) (linked_take hco op) (by omega)
      have hrunr := @ih (lastVal κ ce (even.take ep)) (lastVal κ co (odd.take op)) (even.drop ep) (odd.drop op)
        (heven.sublist (List.drop_sublist ..)) (hodd.sublist (List.drop_sublist ..)) (linked_drop hce ep)
        (linked_drop hco op) (by omega)
      rw [← checkpointAt_eq hce, ← checkpointAt_eq hco] at hrunr hwhole
      rw [parMergeSum, if_neg hle, hpivots]
      simp only [Option.bind_eq_bind, Option.bind_some, hrunl, hrunr]
      rw [hwhole, List.sum_append]

/-! ## What a merge gives out -/

/-- What is given out for a place has that place. -/
structure KeepsKey (κ : MergeKeys E C) (emit : MergeCell E → C → C → O) (key : O → Nat) : Prop where
  both : ∀ e o ce co, key (emit (.both e o) ce co) = κ.key e
  even : ∀ e ce co, key (emit (.even e) ce co) = κ.key e
  odd : ∀ o ce co, key (emit (.odd o) ce co) = κ.key o

variable {key : O → Nat}

/-- One entry for each place that either run has. -/
theorem mem_keys_seqMerge (h : KeepsKey κ emit key) {k : Nat} :
    k ∈ (seqMerge κ emit ce co even odd).map key ↔ k ∈ even.map κ.key ∨ k ∈ odd.map κ.key := by
  fun_induction seqMerge κ emit ce co even odd with
  | case1 ce co odd => simp [h.odd]
  | case2 ce co e es => simp [h.even]
  | case3 ce co e es o os heq ih =>
    simp only [List.map_cons, List.mem_cons, ih, h.both, ← heq]
    tauto
  | case4 ce co e es o os hne hlt ih =>
    simp only [List.map_cons, List.mem_cons, h.even] at ih ⊢
    tauto
  | case5 ce co e es o os hne hlt ih =>
    simp only [List.map_cons, List.mem_cons, h.odd] at ih ⊢
    tauto

/-- **A merge of sorted runs is sorted**, with one entry for a place. -/
theorem sorted_seqMerge (h : KeepsKey κ emit key) (heven : SortedRun κ even) (hodd : SortedRun κ odd) :
    ((seqMerge κ emit ce co even odd).map key).Pairwise (· < ·) := by
  have hlater {k : Nat} {ce co : C} {even odd : List E} (he : ∀ e ∈ even, k < κ.key e)
      (ho : ∀ o ∈ odd, k < κ.key o) :
      ∀ k' ∈ (seqMerge κ emit ce co even odd).map key, k < k' := fun k' hk' => by
    rcases (mem_keys_seqMerge h).mp hk' with hmem | hmem
    · obtain ⟨e, hin, rfl⟩ := List.mem_map.mp hmem
      exact he e hin
    · obtain ⟨o, hin, rfl⟩ := List.mem_map.mp hmem
      exact ho o hin
  fun_induction seqMerge κ emit ce co even odd with
  | case1 ce co odd =>
    rw [List.map_map, List.pairwise_map]
    simpa only [Function.comp_apply, h.odd, SortedRun] using hodd
  | case2 ce co e es =>
    rw [List.map_map, List.pairwise_map]
    simpa only [Function.comp_apply, h.even, SortedRun] using heven
  | case3 ce co e es o os heq ih =>
    have he := List.pairwise_cons.mp heven
    have ho := List.pairwise_cons.mp hodd
    rw [List.map_cons, List.pairwise_cons, h.both]
    exact ⟨hlater he.1 fun o' ho' => heq ▸ ho.1 o' ho', ih he.2 ho.2⟩
  | case4 ce co e es o os hne hlt ih =>
    have he := List.pairwise_cons.mp heven
    have ho := List.pairwise_cons.mp hodd
    rw [List.map_cons, List.pairwise_cons, h.even]
    refine ⟨hlater he.1 fun o' ho' => ?_, ih he.2 hodd⟩
    rcases List.mem_cons.mp ho' with rfl | ho'
    · exact hlt
    · exact hlt.trans (ho.1 o' ho')
  | case5 ce co e es o os hne hlt ih =>
    have he := List.pairwise_cons.mp heven
    have ho := List.pairwise_cons.mp hodd
    have hoe : κ.key o < κ.key e := by omega
    rw [List.map_cons, List.pairwise_cons, h.odd]
    refine ⟨hlater (fun e' he' => ?_) ho.1, ih heven ho.2⟩
    rcases List.mem_cons.mp he' with rfl | he'
    · exact hoe
    · exact hoe.trans (he.1 e' he')

/-! ## A threshold of one entry or none -/

/-- **One entry each, at one place**, is split into nothing and itself again. -/
theorem parMergeInto_loops (ht : threshold ≤ 1) {e o : E} (hkey : κ.key e = κ.key o) (dryRun : Bool) :
    parMergeInto κ emit threshold zero fuel ce co [e] [o] out dryRun = .none := by
  induction fuel generalizing ce co out dryRun with
  | zero => rfl
  | succ fuel ih =>
    have hpivots : pivots κ [e] [o] = .some (0, 0) := by
      simp [pivots, partitionPoint, hkey]
    rw [parMergeInto, if_neg (by rw [List.length_singleton, List.length_singleton]; omega), hpivots]
    cases fuel with
    | zero => cases dryRun <;> simp [parMergeInto, guard]
    | succ fuel =>
      simp only [Option.bind_eq_bind, Option.bind_some, List.drop_zero, ih, Option.bind_none]
      cases dryRun <;> simp [guard]

end Merge

end LightningJolt
