/-
Numbers as byte strings of a given length, in either order.
-/
import Mathlib

namespace LightningJolt

/-- The `n` low bytes of a number, the lowest first. -/
def leBytes : Nat → Nat → List (BitVec 8)
  | 0, _ => []
  | n + 1, x => BitVec.ofNat 8 x :: leBytes n (x / 256)

/-- The number of a byte string, the lowest byte first. -/
def ofLe : List (BitVec 8) → Nat
  | [] => 0
  | b :: bs => b.toNat + 256 * ofLe bs

/-- The `n` low bytes of a number, the highest first. -/
def beBytes (n x : Nat) : List (BitVec 8) := (leBytes n x).reverse

/-- The number of a byte string, the highest byte first. -/
def ofBe (bs : List (BitVec 8)) : Nat := ofLe bs.reverse

variable {n x y : Nat} {bs cs : List (BitVec 8)}

@[simp] theorem length_leBytes : (leBytes n x).length = n := by
  induction n generalizing x with
  | zero => rfl
  | succ n ih => rw [leBytes, List.length_cons, ih]

@[simp] theorem length_beBytes : (beBytes n x).length = n := by
  rw [beBytes, List.length_reverse, length_leBytes]

theorem ofLe_lt : ofLe bs < 256 ^ bs.length := by
  induction bs with
  | nil => exact Nat.one_pos
  | cons b bs ih =>
    have hb := b.isLt
    rw [ofLe, List.length_cons, pow_succ']
    omega

theorem ofBe_lt : ofBe bs < 256 ^ bs.length := by
  have h := @ofLe_lt bs.reverse
  rwa [List.length_reverse] at h

theorem ofLe_append : ofLe (bs ++ cs) = ofLe bs + 256 ^ bs.length * ofLe cs := by
  induction bs with
  | nil => simp [ofLe]
  | cons b bs ih =>
    rw [List.cons_append, ofLe, ofLe, ih, List.length_cons, pow_succ']
    ring

theorem ofBe_append : ofBe (bs ++ cs) = ofBe bs * 256 ^ cs.length + ofBe cs := by
  rw [ofBe, List.reverse_append, ofLe_append, List.length_reverse, ← ofBe, ← ofBe]
  ring

theorem ofLe_leBytes (hx : x < 256 ^ n) : ofLe (leBytes n x) = x := by
  induction n generalizing x with
  | zero =>
    rw [pow_zero] at hx
    rw [leBytes, ofLe]
    omega
  | succ n ih =>
    have hhigh : x / 256 < 256 ^ n := by
      rw [pow_succ] at hx
      exact Nat.div_lt_of_lt_mul (by omega)
    rw [leBytes, ofLe, ih hhigh, BitVec.toNat_ofNat]
    exact Nat.mod_add_div x 256

theorem ofBe_beBytes (hx : x < 256 ^ n) : ofBe (beBytes n x) = x := by
  rw [ofBe, beBytes, List.reverse_reverse, ofLe_leBytes hx]

theorem leBytes_ofLe : leBytes bs.length (ofLe bs) = bs := by
  induction bs with
  | nil => rfl
  | cons b bs ih =>
    have hb := b.isLt
    have hlow : BitVec.ofNat 8 (b.toNat + 256 * ofLe bs) = b := by
      refine BitVec.eq_of_toNat_eq ?_
      rw [BitVec.toNat_ofNat]
      omega
    have hhigh : (b.toNat + 256 * ofLe bs) / 256 = ofLe bs := by omega
    rw [List.length_cons, leBytes, ofLe, hlow, hhigh, ih]

theorem beBytes_ofBe : beBytes bs.length (ofBe bs) = bs := by
  have h := @leBytes_ofLe bs.reverse
  rw [List.length_reverse] at h
  rw [beBytes, ofBe, h, List.reverse_reverse]

/-- A byte string is given by its length and its number. -/
theorem eq_beBytes (hlen : bs.length = n) (hx : ofBe bs = x) : beBytes n x = bs := by
  rw [← hlen, ← hx, beBytes_ofBe]

theorem ofLe_replicate (k : Nat) : ofLe (List.replicate k 0) = 0 := by
  induction k with
  | zero => rfl
  | succ k ih => rw [List.replicate_succ, ofLe, ih]; rfl

theorem ofBe_replicate (k : Nat) : ofBe (List.replicate k 0) = 0 := by
  rw [ofBe, List.reverse_replicate, ofLe_replicate]

/-- A small number in a wide string is led by zeros. -/
theorem beBytes_of_lt (k : Nat) (hx : x < 256 ^ n) :
    beBytes (k + n) x = List.replicate k 0 ++ beBytes n x := by
  refine eq_beBytes (by simp) ?_
  rw [ofBe_append, ofBe_replicate, ofBe_beBytes hx]
  omega

/-- The two halves of a string. -/
theorem beBytes_split (k : Nat) (hx : x < 256 ^ k) (hy : y < 256 ^ n) :
    beBytes (k + n) (x * 256 ^ n + y) = beBytes k x ++ beBytes n y := by
  refine eq_beBytes (by simp) ?_
  rw [ofBe_append, ofBe_beBytes hx, ofBe_beBytes hy, length_beBytes]

/-- The leading bytes are those of the high part. -/
theorem take_beBytes (k : Nat) (hx : x < 256 ^ (k + n)) :
    (beBytes (k + n) x).take k = beBytes k (x / 256 ^ n) := by
  have hhigh : x / 256 ^ n < 256 ^ k := by
    rw [Nat.div_lt_iff_lt_mul (by positivity), ← pow_add]
    exact hx
  have hlow : x % 256 ^ n < 256 ^ n := Nat.mod_lt _ (by positivity)
  have hsplit := @beBytes_split n (x / 256 ^ n) (x % 256 ^ n) k hhigh hlow
  rw [Nat.div_add_mod'] at hsplit
  rw [hsplit]
  exact List.take_left' (by simp)

/-- The bits of a number are those of its bytes. -/
theorem testBit_ofLe {j k : Nat} (hk : k < 8) :
    (ofLe bs).testBit (8 * j + k) = (bs.getD j 0).getLsbD k := by
  induction bs generalizing j with
  | nil => simp [ofLe]
  | cons b bs ih =>
    have hb : b.toNat < 2 ^ 8 := b.isLt
    have hcons : ofLe (b :: bs) = 2 ^ 8 * ofLe bs + b.toNat := by
      rw [ofLe]
      omega
    rw [hcons, Nat.testBit_two_pow_mul_add _ hb]
    cases j with
    | zero =>
      rw [if_pos (by omega), Nat.mul_zero, Nat.zero_add]
      rfl
    | succ j =>
      have hindex : 8 * (j + 1) + k - 8 = 8 * j + k := by omega
      rw [if_neg (by omega), hindex, ih]
      rfl

end LightningJolt
