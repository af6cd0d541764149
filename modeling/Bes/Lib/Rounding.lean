import Mathlib

/-! Rounding of a positive rational to a binary significand of `p` bits, to the
nearest value and to the even one in a tie. The exponent is unbounded, so this is
the arithmetic of a floating-point format away from overflow and underflow. -/
namespace Bes.Lib.Rounding

def roundHalfEven (x : ℚ) : ℤ :=
  if Int.fract x < 1 / 2 then ⌊x⌋
  else if 1 / 2 < Int.fract x then ⌊x⌋ + 1
  else if ⌊x⌋ % 2 = 0 then ⌊x⌋ else ⌊x⌋ + 1

/-- Unit in the last place of a `p` bit significand at `x`. -/
def unit (p : ℕ) (x : ℚ) : ℚ := 2 ^ (Int.log 2 x - (p - 1 : ℤ))

/-- The value nearest to `x` with a significand of `p` bits. -/
def roundTo (p : ℕ) (x : ℚ) : ℚ := roundHalfEven (x / unit p x) * unit p x

def roundedDiv (p a c : ℕ) : ℚ := roundTo p (roundTo p a / roundTo p c)

/-- The number of blocks of size `c` that `a` items need. -/
def blocks (a c : ℕ) : ℕ := (a + c - 1) / c

theorem blocks_pos {a c : ℕ} (ha : 0 < a) (hc : 0 < c) : 0 < blocks a c := Nat.div_pos (by omega) hc

theorem lt_blocks_iff {a c k : ℕ} (hc : 0 < c) : k < blocks a c ↔ k * c < a := by
  unfold blocks
  rw [Nat.lt_iff_add_one_le, Nat.le_div_iff_mul_le hc, Nat.succ_mul]
  omega

end Bes.Lib.Rounding
