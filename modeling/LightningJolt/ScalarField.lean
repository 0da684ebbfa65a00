/-
The scalar field of BN254: its order is prime, by a chain of certificates
whose powers the kernel computes by repeated squaring.
-/
import LightningJolt.Transcript

namespace LightningJolt

/-! ## Certificates -/

/-- The power modulo `m`, by squaring; `fuel` bounds the bits of the exponent. -/
def powMod (m : Nat) : Nat → Nat → Nat → Nat
  | 0, _, _ => 1 % m
  | fuel + 1, a, e =>
    let rest := powMod m fuel (a * a % m) (e / 2)
    if e % 2 = 1 then a * rest % m else rest

theorem cast_powMod (m : Nat) (fuel a e : Nat) (he : e < 2 ^ fuel) :
    ((powMod m fuel a e : Nat) : ZMod m) = (a : ZMod m) ^ e := by
  induction fuel generalizing a e with
  | zero =>
    have hzero : e = 0 := by omega
    rw [powMod, hzero, pow_zero, ZMod.natCast_mod, Nat.cast_one]
  | succ fuel ih =>
    have hhalf : e / 2 < 2 ^ fuel := by omega
    have hrest := ih (a * a % m) (e / 2) hhalf
    rw [ZMod.natCast_mod, Nat.cast_mul, ← pow_two (a : ZMod m), ← pow_mul] at hrest
    rw [powMod]
    split_ifs with hodd
    · rw [ZMod.natCast_mod, Nat.cast_mul, hrest, ← pow_succ']
      congr 1
      omega
    · rw [hrest]
      congr 1
      omega

/-- A primitive root and the prime factors of `p - 1`. -/
theorem prime_of_certificate {p : Nat} (a : Nat) (factors : List Nat) (hp : p < 2 ^ 256)
    (hprime : ∀ q ∈ factors, q.Prime) (hprod : factors.prod = p - 1)
    (hone : powMod p 256 a (p - 1) = 1)
    (hroot : ∀ q ∈ factors, powMod p 256 a ((p - 1) / q) % p ≠ 1) : p.Prime := by
  have hlt : 1 < p := by
    by_contra hle
    have hzero : p - 1 = 0 := by omega
    rw [hzero, List.prod_eq_zero_iff] at hprod
    exact Nat.not_prime_zero (hprime 0 hprod)
  have hpow (e : Nat) (he : e < p) : ((powMod p 256 a e : Nat) : ZMod p) = (a : ZMod p) ^ e :=
    cast_powMod p 256 a e (he.trans hp)
  refine lucas_primality p (a : ZMod p) ?_ fun q hq hdvd heq => ?_
  · rw [← hpow (p - 1) (by omega), hone, Nat.cast_one]
  · rw [← hprod] at hdvd
    obtain ⟨f, hf, hqf⟩ := (Prime.dvd_prod_iff hq.prime).mp hdvd
    have hsame : q = f := (Nat.prime_dvd_prime_iff_eq hq (hprime f hf)).mp hqf
    have hle : (p - 1) / q < p := (Nat.div_le_self _ _).trans_lt (by omega)
    rw [← hpow _ hle] at heq
    refine hroot f hf ?_
    rw [← hsame]
    have : Fact (1 < p) := ⟨hlt⟩
    have hval := congrArg ZMod.val heq
    rwa [ZMod.val_natCast, ZMod.val_one] at hval

/-- Certificates one after the other: the factors of each are known, or numbers certified before it. -/
def chainChecks : List Nat → List (Nat × Nat × List Nat) → Bool
  | _, [] => true
  | known, (p, a, factors) :: rest =>
    decide (p < 2 ^ 256) && factors.all (· ∈ known) && decide (factors.prod = p - 1) &&
      decide (powMod p 256 a (p - 1) = 1) &&
      factors.all (fun q => decide (powMod p 256 a ((p - 1) / q) % p ≠ 1)) && chainChecks (p :: known) rest

theorem prime_of_chain {known : List Nat} {chain : List (Nat × Nat × List Nat)}
    (hknown : ∀ q ∈ known, q.Prime) (h : chainChecks known chain = true) : ∀ c ∈ chain, c.1.Prime := by
  induction chain generalizing known with
  | nil => nofun
  | cons c chain ih =>
    obtain ⟨p, a, factors⟩ := c
    simp only [chainChecks, Bool.and_eq_true, List.all_eq_true, decide_eq_true_eq] at h
    obtain ⟨⟨⟨⟨⟨hlt, hmem⟩, hprod⟩, hone⟩, hroot⟩, hrest⟩ := h
    have hp : p.Prime := prime_of_certificate a factors hlt (fun q hq => hknown q (hmem q hq)) hprod hone hroot
    intro c hc
    rcases List.mem_cons.mp hc with rfl | hc
    · exact hp
    · refine ih (fun q hq => ?_) hrest c hc
      rcases List.mem_cons.mp hq with rfl | hq
      · exact hp
      · exact hknown q hq

/-! ## The scalar field -/

/-- The order of the BN254 scalar field. -/
def scalarModulus : Nat := 0x30644e72e131a029b85045b68181585d2833e84879b9709143e1f593f0000001

/-- The numbers below, each with a primitive root and the factors of its predecessor. -/
def primeChain : List (Nat × Nat × List Nat) :=
  [(405928799, 22, [2, 11, 3691, 4999]),
    (12048837557, 2, [2, 2, 7, 7, 661, 93001]),
    (5156902474397, 2, [2, 2, 107, 12048837557]),
    (1670836401704629, 2, [2, 2, 3, 3, 3, 3, 5156902474397]),
    (639533339, 2, [2, 229, 853, 1637]),
    (65865678001877903, 5, [2, 83, 379, 1637, 639533339]),
    (13818364434197438864469338081, 3, [2, 2, 2, 2, 2, 5, 823, 1593227, 65865678001877903]),
    (scalarModulus, 5, List.replicate 28 2 ++ [3, 3, 13, 29, 983, 11003, 237073, 405928799,
      1670836401704629, 13818364434197438864469338081])]

set_option maxRecDepth 20000 in
theorem scalarModulus_prime : scalarModulus.Prime := by
  have hsmall : ∀ q ∈ [2, 3, 5, 7, 11, 13, 29, 83, 107, 229, 379, 661, 823, 853, 983, 1637, 3691, 4999,
      11003, 93001, 237073, 1593227], Nat.Prime q := by
    simp only [List.forall_mem_cons, List.not_mem_nil, false_implies, implies_true, and_true]
    norm_num
  exact prime_of_chain hsmall (by decide : chainChecks _ primeChain = true)
    (scalarModulus, 5, _) (List.mem_of_getLast? rfl)

instance fact_scalarModulus : Fact scalarModulus.Prime := ⟨scalarModulus_prime⟩

/-- The scalar field, by canonical representatives. -/
abbrev Fr := ZMod scalarModulus

instance : JoltField Fr where
  two_ne_zero := by decide

end LightningJolt
