/-
Bit vectors in blocks: `m` bits of a sequence, then `m` zeros, and so on.
Spreading a sequence out halves the blocks, step by step, until every other
bit is left; gathering it doubles them again.
-/
import Mathlib

namespace LightningJolt

variable {w m : Nat} {f : Nat → Bool} {x mask : BitVec w}

/-- The bits `f 0`, `f 1`, … in blocks of `m`, with `m` zeros after each block. -/
def Blocks (m : Nat) (f : Nat → Bool) (x : BitVec w) : Prop :=
  ∀ q r, r < 2 * m → 2 * (m * q) + r < w →
    x.getLsbD (2 * (m * q) + r) = (decide (r < m) && f (m * q + r))

/-- The mask of the blocks of `m`. -/
def BlockMask (m : Nat) (mask : BitVec w) : Prop :=
  ∀ q r, r < 2 * m → 2 * (m * q) + r < w → mask.getLsbD (2 * (m * q) + r) = decide (r < m)

theorem blockMask_of_mod (h : ∀ j < w, mask.getLsbD j = decide (j % (2 * m) < m)) :
    BlockMask m mask := by
  intro q r hr hw
  rw [h _ hw, show 2 * (m * q) + r = r + 2 * m * q by ring, Nat.add_mul_mod_self_left,
    Nat.mod_eq_of_lt hr]

/-- One step of spreading: the second half of each block moves up by `m`. -/
theorem Blocks.spread (h : Blocks (2 * m) f x) (hmask : BlockMask m mask) :
    Blocks m f ((x ||| x <<< m) &&& mask) := by
  intro q r hr hw
  rw [BitVec.getLsbD_and, BitVec.getLsbD_or, BitVec.getLsbD_shiftLeft, hmask q r hr hw, Bool.and_comm]
  by_cases hrm : r < m
  swap
  · simp [hrm]
  have hshift : 2 * (m * q) + r < w := hw
  simp only [hrm, decide_true, Bool.true_and, hshift]
  obtain ⟨p, hp⟩ := Nat.even_or_odd' q
  have hassoc : 2 * m * p = 2 * (m * p) := by ring
  rcases hp with rfl | rfl
  · have hpos : 2 * (m * (2 * p)) + r = 2 * (2 * m * p) + r := by ring
    have hseq : m * (2 * p) + r = 2 * m * p + r := by ring
    rw [hpos] at hw
    rw [hpos, hseq, h p r (by omega) hw]
    -- the bit `m` below is a zero between blocks
    have hbelow : 2 * (2 * m * p) + r < m ∨ x.getLsbD (2 * (2 * m * p) + r - m) = false := by
      rcases Nat.eq_zero_or_pos p with rfl | hp
      · exact .inl (by simpa using hrm)
      · obtain ⟨n, rfl⟩ := Nat.exists_eq_add_of_lt hp
        have hgap : 2 * (2 * m * (0 + n + 1)) + r - m = 2 * (2 * m * n) + (3 * m + r) := by
          have : 2 * (2 * m * (0 + n + 1)) = 2 * (2 * m * n) + 4 * m := by ring
          omega
        rw [hgap, h n (3 * m + r) (by omega) (by omega)]
        exact .inr (by simp; omega)
    rcases hbelow with hlt | hzero
    · simp [hlt, show r < 2 * m by omega]
    · simp [hzero, show r < 2 * m by omega]
  · have hpos : 2 * (m * (2 * p + 1)) + r = 2 * (2 * m * p) + (2 * m + r) := by ring
    have hseq : m * (2 * p + 1) + r = 2 * m * p + (m + r) := by ring
    have hbelow : 2 * (2 * m * p) + (2 * m + r) - m = 2 * (2 * m * p) + (m + r) := by omega
    rw [hpos] at hw
    rw [hpos, hseq, h p (2 * m + r) (by omega) hw, hbelow, h p (m + r) (by omega) (by omega)]
    have hge : ¬ 2 * (2 * m * p) + (2 * m + r) < m := by omega
    simp [hge, show m + r < 2 * m by omega]

/-- One step of gathering: every other block moves down by `m`. -/
theorem Blocks.gather (h : Blocks m f x) (hmask : BlockMask (2 * m) mask) (hdvd : 4 * m ∣ w) :
    Blocks (2 * m) f ((x ||| x >>> m) &&& mask) := by
  intro p r hr hw
  rw [BitVec.getLsbD_and, BitVec.getLsbD_or, BitVec.getLsbD_ushiftRight, hmask p r hr hw, Bool.and_comm]
  by_cases hrm : r < 2 * m
  swap
  · simp [hrm]
  simp only [hrm, decide_true, Bool.true_and]
  -- the whole period of the position lies in the vector
  have hperiod : 4 * (m * p) + 4 * m ≤ w := by
    obtain ⟨k, rfl⟩ := hdvd
    have hlt : 4 * m * p < 4 * m * k := by
      have : 2 * (2 * m * p) = 4 * m * p := by ring
      omega
    have hk : p + 1 ≤ k := Nat.lt_of_mul_lt_mul_left hlt
    calc 4 * (m * p) + 4 * m = 4 * m * (p + 1) := by ring
      _ ≤ 4 * m * k := Nat.mul_le_mul_left _ hk
  have hpos : 2 * (2 * m * p) + r = 2 * (m * (2 * p)) + r := by ring
  have hseq : 2 * m * p + r = m * (2 * p) + r := by ring
  have heven : m * (2 * p) = 2 * (m * p) := by ring
  rw [hpos, hseq, h (2 * p) r hrm (by omega)]
  rcases lt_or_ge r m with hlt | hge
  · have habove : m + (2 * (m * (2 * p)) + r) = 2 * (m * (2 * p)) + (m + r) := by omega
    rw [habove, h (2 * p) (m + r) (by omega) (by omega)]
    simp [hlt]
  · have hodd : m * (2 * p + 1) = 2 * (m * p) + m := by ring
    have habove : m + (2 * (m * (2 * p)) + r) = 2 * (m * (2 * p + 1)) + (r - m) := by omega
    have hsame : m * (2 * p + 1) + (r - m) = m * (2 * p) + r := by omega
    rw [habove, h (2 * p + 1) (r - m) (by omega) (by omega), hsame]
    simp [show ¬ r < m by omega, show r - m < m by omega]

end LightningJolt
