import Mathlib.Tactic.Ring
import Mathlib.Tactic.Linarith

/-!
# Fixed-width casts and checked products

Thirty-two bit signed integers are `Int32`; a `usize` is a natural number
below two to the sixty-four. Narrowing casts wrap, widening casts of a signed
integer extend the sign, and a checked product is refused when it leaves the
range of its type.
-/

set_option autoImplicit false

namespace IthmbPlugin.MachineInt

def usizeMax : ℕ := 2^64-1

def isizeMax : ℕ := 2^63-1

def asI32 (n : ℕ) : Int32 := Int32.ofNat n

/-- `x as usize`: sign extension, then the two's complement bits. -/
def asUsize (x : Int32) : ℕ := (x.toInt % 2^64).toNat

def i32CheckedMul (x y : Int32) : Option Int32 :=
  if -2^31 ≤ x.toInt*y.toInt ∧ x.toInt*y.toInt < 2^31 then some (x*y) else none

def usizeCheckedMul (x y : ℕ) : Option ℕ :=
  if x*y ≤ usizeMax then some (x*y) else none

def usizeCheckedAdd (x y : ℕ) : Option ℕ :=
  if x+y ≤ usizeMax then some (x+y) else none

theorem asI32_toInt (n : ℕ) : (asI32 n).toInt = ((n:ℤ)+2^31) % 2^32-2^31 := by
  have h : (asI32 n).toInt = (n:ℤ).bmod (2^32) := Int32.toInt_ofNat'
  rw [h, Int.bmod_def]
  omega

theorem asI32_exact_iff (n : ℕ) : (asI32 n).toInt = n ↔ n < 2^31 := by
  rw [asI32_toInt]
  omega

theorem asI32_le_of_nonneg (n : ℕ) (h : 0 ≤ (asI32 n).toInt) : (asI32 n).toInt ≤ n := by
  rw [asI32_toInt] at *
  omega

theorem asUsize_of_nonneg (x : Int32) (hx : 0 ≤ x.toInt) : (asUsize x : ℤ) = x.toInt := by
  have hlt := x.toInt_lt
  unfold asUsize
  omega

theorem asUsize_of_neg (x : Int32) (hx : x.toInt < 0) :
    (asUsize x : ℤ) = 2^64+x.toInt := by
  have hle := x.le_toInt
  unfold asUsize
  omega

theorem asUsize_eq_zero_iff (x : Int32) : asUsize x = 0 ↔ x.toInt = 0 := by
  have hlt := x.toInt_lt
  have hle := x.le_toInt
  unfold asUsize
  omega

theorem i32CheckedMul_some {x y z : Int32} (h : i32CheckedMul x y = some z) :
    z.toInt = x.toInt*y.toInt := by
  unfold i32CheckedMul at h
  split_ifs at h with hr
  cases h
  rw [Int32.toInt_mul]
  exact Int.bmod_eq_of_le (by omega) (by omega)

theorem usizeCheckedMul_some {x y n : ℕ} (h : usizeCheckedMul x y = some n) : n = x*y := by
  unfold usizeCheckedMul at h
  split_ifs at h
  exact (Option.some.inj h).symm

theorem negative_factor_large (x y : Int32) (hx : x.toInt < 0) (hy : asUsize y ≠ 0) :
    isizeMax < asUsize x*asUsize y := by
  have hle := x.le_toInt
  have hx' := asUsize_of_neg x hx
  have hpos : 1 ≤ asUsize y := Nat.one_le_iff_ne_zero.mpr hy
  calc isizeMax < asUsize x := by unfold isizeMax; omega
    _ = asUsize x*1 := (Nat.mul_one _).symm
    _ ≤ asUsize x*asUsize y := Nat.mul_le_mul_left _ hpos

theorem extended_factors_positive (x y : Int32) (h0 : asUsize x*asUsize y ≠ 0)
    (hn : asUsize x*asUsize y ≤ isizeMax) : 0 < x.toInt ∧ 0 < y.toInt := by
  have hx0 : asUsize x ≠ 0 := Nat.ne_zero_of_mul_ne_zero_left h0
  have hy0 : asUsize y ≠ 0 := Nat.ne_zero_of_mul_ne_zero_right h0
  have hx : ¬ x.toInt < 0 := by
    intro hneg
    have := negative_factor_large x y hneg hy0
    omega
  have hy : ¬ y.toInt < 0 := by
    intro hneg
    have := negative_factor_large y x hneg hx0
    rw [Nat.mul_comm] at this
    omega
  have hx1 := mt (asUsize_eq_zero_iff x).mpr hx0
  have hy1 := mt (asUsize_eq_zero_iff y).mpr hy0
  omega

theorem extended_product_exact (x y : Int32) (n : ℕ)
    (h : usizeCheckedMul (asUsize x) (asUsize y) = some n) (hn : n ≤ isizeMax) :
    (n:ℤ) = x.toInt*y.toInt := by
  have hmul := usizeCheckedMul_some h
  by_cases h0 : asUsize x*asUsize y = 0
  · rw [hmul, h0]
    rcases Nat.mul_eq_zero.mp h0 with hx | hy
    · simp [(asUsize_eq_zero_iff x).mp hx]
    · simp [(asUsize_eq_zero_iff y).mp hy]
  · obtain ⟨hx, hy⟩ := extended_factors_positive x y h0 (hmul ▸ hn)
    rw [hmul, Nat.cast_mul, asUsize_of_nonneg x (by omega), asUsize_of_nonneg y (by omega)]

end IthmbPlugin.MachineInt
