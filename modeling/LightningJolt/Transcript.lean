/-
What the proof system is generic in: the scalar field, the challenge type a
transcript hands out, and the transcript itself, whose hash is a parameter.
-/
import Mathlib

namespace LightningJolt

/-! The numerals of the formulas over a field, each with one proof that it is a numeral. -/

instance atLeastTwo_two : Nat.AtLeastTwo 2 := ⟨le_refl 2⟩

instance atLeastTwo_three : Nat.AtLeastTwo 3 := ⟨by decide⟩

instance atLeastTwo_four : Nat.AtLeastTwo 4 := ⟨by decide⟩

instance atLeastTwo_five : Nat.AtLeastTwo 5 := ⟨by decide⟩

instance atLeastTwo_six : Nat.AtLeastTwo 6 := ⟨by decide⟩

/-- A scalar field: `two_inv` is precomputed, so two is invertible. -/
class JoltField (F : Type) extends Field F where
  two_ne_zero : (2 : F) ≠ 0

/-- `F::Challenge` and its conversion into the field. -/
class Challenge (C F : Type) where
  into : C → F

/-- The methods an implementor of a transcript provides. -/
structure Transcript (T F C : Type) where
  rawAppendLabel : T → String → T
  rawAppendLabelWithLen : T → String → Nat → T
  rawAppendScalar : T → F → T
  challengeScalar : T → F × T
  challengeScalarOptimized : T → C × T

namespace Transcript

variable {T F C : Type} (tr : Transcript T F C)

/-- `append_scalar`. -/
def appendScalar (t : T) (label : String) (scalar : F) : T :=
  tr.rawAppendScalar (tr.rawAppendLabel t label) scalar

/-- `append_scalars`: the label and the count, then the scalars. -/
def appendScalars (t : T) (label : String) (scalars : List F) : T :=
  scalars.foldl tr.rawAppendScalar (tr.rawAppendLabelWithLen t label scalars.length)

/-- `challenge_vector`: so many calls of `challenge_scalar`. -/
def challengeVector (t : T) : Nat → List F × T
  | 0 => ([], t)
  | len + 1 =>
    let (c, t) := tr.challengeScalar t
    let (cs, t) := challengeVector t len
    (c :: cs, t)

theorem length_challengeVector (t : T) (len : Nat) : (tr.challengeVector t len).1.length = len := by
  induction len generalizing t with
  | zero => rfl
  | succ len ih => simp [challengeVector, ih]

end Transcript

/-! A small field, with a transcript that keeps the scalars appended to it. -/

instance fact_prime_seven : Fact (Nat.Prime 7) := ⟨by norm_num⟩

instance : JoltField (ZMod 7) where
  two_ne_zero := by decide

instance : Challenge (ZMod 7) (ZMod 7) := ⟨id⟩

def scalarTranscript : Transcript (List (ZMod 7)) (ZMod 7) (ZMod 7) where
  rawAppendLabel t _ := t
  rawAppendLabelWithLen t _ _ := t
  rawAppendScalar t x := t ++ [x]
  challengeScalar t := (2, t)
  challengeScalarOptimized t := (2, t)

end LightningJolt
