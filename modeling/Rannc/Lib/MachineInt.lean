import Mathlib.Algebra.BigOperators.Group.List.Basic
import Mathlib.Data.Nat.Sqrt
import Mathlib.Tactic.Linarith
import Mathlib.Tactic.Ring

/-!
# Numbers of fixed width

An expression has the number of its type that agrees with the exact value in the bits the type has.
A square root is taken of a floating-point number: the argument is rounded to 53 bits, and so is
the root before its fraction is cut off.
-/
namespace Rannc

/-- The largest `long`. -/
def LONG_MAX : ℤ := 2 ^ 63 - 1

/-- The number that an expression of type `int` has. -/
def toInt (value : ℤ) : ℤ := value.bmod (2 ^ 32)

/-- The number that an expression of type `long` has. -/
def toLong (value : ℤ) : ℤ := value.bmod (2 ^ 64)

/-- The number that an expression of type `size_t` has. -/
def toSize (value : ℤ) : ℕ := (value % 2 ^ 64).toNat

section Int

theorem toInt_eq_self {value : ℤ} (hle : -2 ^ 31 ≤ value) (hlt : value < 2 ^ 31) :
    toInt value = value :=
  Int.bmod_eq_of_le (by omega) (by omega)

theorem toInt_natCast {n : ℕ} (h : n < 2 ^ 31) : toInt n = n :=
  toInt_eq_self (by omega) (by omega)

end Int

section Size

theorem toSize_cast (a : ℤ) : (toSize a : ℤ) = a % 2 ^ 64 :=
  Int.toNat_of_nonneg (Int.emod_nonneg _ (by decide))

theorem toSize_add_toSize (a b : ℤ) : toSize (toSize a + b) = toSize (a + b) := by
  rw [toSize_cast]
  unfold toSize
  rw [Int.emod_add_emod]

theorem toSize_toSize (a : ℤ) : toSize (toSize a) = toSize a := by
  simpa using toSize_add_toSize a 0

theorem toSize_eq {a : ℤ} (h : 0 ≤ a) (hlt : a < 2 ^ 64) : (toSize a : ℤ) = a := by
  rw [toSize_cast, Int.emod_eq_of_lt h hlt]

theorem toSize_toLong (a : ℤ) : toSize (toLong a) = toSize a :=
  congrArg Int.toNat (Int.bmod_emod (m := 2 ^ 64))

theorem toSize_lt_iff (a : ℤ) (m : ℕ) :
    toSize a < m ↔ ∃ q : ℤ, q * 2 ^ 64 ≤ a ∧ a < q * 2 ^ 64 + m := by
  have hcast := toSize_cast a
  constructor
  · intro h
    exact ⟨a / 2 ^ 64, by omega, by omega⟩
  · rintro ⟨q, hle, hlt⟩
    have hrest : (a - q * 2 ^ 64) % 2 ^ 64 = a % 2 ^ 64 := Int.sub_mul_emod_self_right ..
    have hmod : (a - q * 2 ^ 64) % 2 ^ 64 ≤ a - q * 2 ^ 64 := by omega
    omega

end Size

section Long

theorem toLong_eq_self_iff {value : ℤ} :
    toLong value = value ↔ -LONG_MAX - 1 ≤ value ∧ value ≤ LONG_MAX := by
  unfold toLong LONG_MAX
  constructor
  · intro h
    have hle : -2 ^ 63 ≤ value.bmod (2 ^ 64) := Int.le_bmod (by decide)
    have hlt : value.bmod (2 ^ 64) < 2 ^ 63 := Int.bmod_lt (by decide)
    omega
  · rintro ⟨hle, hlt⟩
    exact Int.bmod_eq_of_le (by omega) (by omega)

theorem toLong_eq_self {value : ℤ} (h : 0 ≤ value) : toLong value = value ↔ value ≤ LONG_MAX := by
  rw [toLong_eq_self_iff]
  refine and_iff_right ?_
  unfold LONG_MAX
  omega

theorem toLong_add_toLong (a b : ℤ) : toLong (toLong a + b) = toLong (a + b) :=
  Int.bmod_add_bmod ..

theorem toLong_toLong (a : ℤ) : toLong (toLong a) = toLong a := by
  simpa using toLong_add_toLong a 0

/-- A sum that is computed one term after the other. -/
def sumLong (l : List ℤ) : ℤ := l.foldl (fun sum x => toLong (sum + x)) 0

theorem sumLong_eq (l : List ℤ) : sumLong l = toLong l.sum := by
  have hfold : ∀ (l : List ℤ) (s : ℤ),
      l.foldl (fun sum x => toLong (sum + x)) (toLong s) = toLong (s + l.sum) := by
    intro l
    induction l with
    | nil => simp
    | cons x l ih =>
      intro s
      rw [List.foldl_cons, toLong_add_toLong, ih, List.sum_cons, add_assoc]
  have hzero : toLong 0 = 0 := by decide
  simpa [sumLong, hzero] using hfold l 0

theorem sumLong_map_toLong (l : List ℤ) : sumLong (l.map toLong) = sumLong l := by
  rw [sumLong_eq, sumLong_eq]
  induction l with
  | nil => rfl
  | cons x l ih =>
    rw [List.map_cons, List.sum_cons, List.sum_cons, toLong_add_toLong, add_comm,
      ← toLong_add_toLong, ih, toLong_add_toLong, add_comm]

end Long

section Double

/-- The `double` for an integer: the nearest number with 53 bits, of two the even one. -/
def roundDouble (n : ℕ) : ℕ :=
  let unit := 2 ^ (Nat.log2 n - 52)
  let low := n / unit
  if unit < 2 * (n % unit) ∨ 2 * (n % unit) = unit ∧ low % 2 = 1 then (low + 1) * unit
  else low * unit

/-- The root of an integer as `long`. The root is rounded to 53 bits first; no root is half way
between two numbers of so many bits. -/
def sqrtDouble (n : ℕ) : ℕ :=
  let m := roundDouble n
  let digits := 52 - Nat.log2 (Nat.sqrt m)
  let root := Nat.sqrt (m * 4 ^ digits)
  (if root * root + root < m * 4 ^ digits then root + 1 else root) / 2 ^ digits

theorem roundDouble_eq_self {n : ℕ} (h : n < 2 ^ 53) : roundDouble n = n := by
  have hlog : Nat.log2 n - 52 = 0 := by
    rcases Nat.eq_zero_or_pos n with rfl | hpos
    · rfl
    · have hlt := (Nat.log2_lt hpos.ne').mpr h
      omega
  simp [roundDouble, hlog, Nat.mod_one]

/-- Below this neither rounding changes the integer part. -/
theorem sqrtDouble_eq {n : ℕ} (h : n < 2 ^ 52) : sqrtDouble n = Nat.sqrt n := by
  unfold sqrtDouble
  rw [roundDouble_eq_self (h.trans (by decide))]
  dsimp only
  have hk : Nat.sqrt n < 2 ^ 26 := Nat.sqrt_lt.mpr h
  have hlog : Nat.log2 (Nat.sqrt n) < 26 := by
    rcases Nat.eq_zero_or_pos (Nat.sqrt n) with hzero | hpos
    · rw [hzero]
      decide
    · exact (Nat.log2_lt hpos.ne').mpr hk
  obtain ⟨digits, hdigits⟩ : ∃ digits, 52 - Nat.log2 (Nat.sqrt n) = digits := ⟨_, rfl⟩
  have hlarge : 2 ^ 27 ≤ 2 ^ digits := Nat.pow_le_pow_right (by decide) (by omega)
  have hsquare : n * 4 ^ digits = n * (2 ^ digits * 2 ^ digits) := by
    rw [← Nat.mul_pow]
  rw [hdigits, hsquare]
  generalize 2 ^ digits = scale at hlarge ⊢
  have hle : Nat.sqrt n * Nat.sqrt n ≤ n := Nat.sqrt_le n
  have hlt : n < (Nat.sqrt n + 1) * (Nat.sqrt n + 1) := Nat.lt_succ_sqrt n
  generalize Nat.sqrt n = k at hk hle hlt ⊢
  have hroot_le : Nat.sqrt (n * (scale * scale)) * Nat.sqrt (n * (scale * scale)) ≤
    n * (scale * scale) := Nat.sqrt_le _
  have hlow : k * scale ≤ Nat.sqrt (n * (scale * scale)) := by
    refine Nat.le_sqrt.mpr ?_
    calc k * scale * (k * scale) = k * k * (scale * scale) := by ring
      _ ≤ n * (scale * scale) := Nat.mul_le_mul_right _ hle
  generalize Nat.sqrt (n * (scale * scale)) = root at hroot_le hlow ⊢
  have hbelow : n * (scale * scale) + scale * scale ≤ (k + 1) * scale * ((k + 1) * scale) := by
    calc n * (scale * scale) + scale * scale = (n + 1) * (scale * scale) := by ring
      _ ≤ (k + 1) * (k + 1) * (scale * scale) := Nat.mul_le_mul_right _ hlt
      _ = (k + 1) * scale * ((k + 1) * scale) := by ring
  have hhigh : root < (k + 1) * scale := by
    by_contra hnot
    have hmul := Nat.mul_le_mul (not_lt.mp hnot) (not_lt.mp hnot)
    have hpos : 0 < scale * scale := by positivity
    omega
  have hdiv : ∀ r, k * scale ≤ r → r < (k + 1) * scale → r / scale = k := fun r hr hr' =>
    Nat.div_eq_of_lt_le hr hr'
  split_ifs with hround
  · refine hdiv _ (by omega) ?_
    -- the root of one less than a square is still more than half a unit below
    by_contra hnot
    have heq : root + 1 = (k + 1) * scale := by omega
    rw [← heq] at hbelow
    have hsq : (root + 1) * (root + 1) = root * root + root + (root + 1) := by ring
    have hless : scale * scale < (k + 1) * scale := by omega
    have hscale := Nat.lt_of_mul_lt_mul_right hless
    omega
  · exact hdiv _ hlow hhigh

end Double

end Rannc
