import Mathlib.Algebra.Ring.Nat
import Mathlib.Data.List.Basic

/- Signed machine integers of the two sizes an `int` can have. A value is the integer it stands
for; arithmetic that leaves the range comes back at the other end. -/
namespace MachineInt

inductive Size
  | bits32
  | bits64
deriving DecidableEq, Repr

namespace Size

/-- The least number above the range. -/
def limit : Size → Int
  | .bits32 => 2147483648
  | .bits64 => 9223372036854775808

/-- How many numbers the type has. -/
def count : Size → Nat
  | .bits32 => 4294967296
  | .bits64 => 18446744073709551616

/-- The value the bits of a result stand for. -/
def wrap (size : Size) (n : Int) : Int := n.bmod size.count

/-- A number the type has. -/
def Fits (size : Size) (n : Int) : Prop := -size.limit ≤ n ∧ n < size.limit

instance (size : Size) (n : Int) : Decidable (size.Fits n) :=
  inferInstanceAs (Decidable (-size.limit ≤ n ∧ n < size.limit))

theorem count_eq (size : Size) : (size.count : Int) = 2 * size.limit := by
  cases size <;> rfl

variable {size : Size}

theorem wrap_of_fits {n : Int} (fits : size.Fits n) : size.wrap n = n := by
  obtain ⟨low, high⟩ := fits
  apply Int.bmod_eq_of_le
  · rw [size.count_eq]
    omega
  rw [size.count_eq]
  omega

theorem fits_wrap (n : Int) : size.Fits (size.wrap n) := by
  cases size
  · exact ⟨Int.le_bmod (by decide), Int.bmod_lt (by decide)⟩
  · exact ⟨Int.le_bmod (by decide), Int.bmod_lt (by decide)⟩

/-- A result that is too large by less than the whole range. -/
theorem wrap_of_over {n : Int} (above : size.limit ≤ n) (below : n < 3 * size.limit) :
    size.wrap n = n - 2 * size.limit := by
  have turned : size.wrap (n - 2 * size.limit) = n - 2 * size.limit :=
    wrap_of_fits ⟨by omega, by omega⟩
  rw [← turned, ← size.count_eq, wrap, wrap, Int.sub_bmod_right]

/-- A power of two that is positive in the machine is the power itself. -/
theorem pow_lt_limit {n : Nat} (positive : 0 < size.wrap (2 ^ n : Nat)) :
    ((2 ^ n : Nat) : Int) < size.limit := by
  by_contra large
  have bits : ∃ bits : Nat, size.limit = (2 ^ bits : Nat) := by
    cases size
    · exact ⟨31, rfl⟩
    · exact ⟨63, rfl⟩
  obtain ⟨bits, limit⟩ := bits
  have count : (size.count : Int) = (2 ^ (bits + 1) : Nat) := by
    rw [count_eq, limit, Nat.pow_succ]
    omega
  have long : bits ≤ n := by
    by_contra short
    have less : 2 ^ n < 2 ^ bits := Nat.pow_lt_pow_right (by omega) (by omega)
    omega
  rcases Nat.eq_or_lt_of_le long with same | longer
  · have filled := Nat.two_pow_pos bits
    rw [← same, ← limit, wrap_of_over (by omega) (by omega)] at positive
    omega
  have divides : (size.count : Int) ∣ (2 ^ n : Nat) := by
    rw [count]
    exact Int.natCast_dvd_natCast.mpr (Nat.pow_dvd_pow 2 longer)
  rw [wrap, Int.bmod_eq_zero_of_dvd divides] at positive
  omega

end Size

/-- The arithmetic that an `int` is taken to have: what becomes of a result, and the magnitudes
that it holds for certain. -/
structure Arith where
  norm : Int → Int
  Holds : Nat → Prop
  mono : ∀ {m n : Nat}, m ≤ n → Holds n → Holds m
  exact : ∀ n : Int, Holds n.natAbs → norm n = n
  zero : Holds 0

/-- Numbers without a bound. -/
def Arith.ideal : Arith := ⟨id, fun _ => True, fun _ _ => trivial, fun _ _ => rfl, trivial⟩

/-- The numbers of a machine. -/
def Size.arith (size : Size) : Arith where
  norm := size.wrap
  Holds n := n < size.limit
  mono le below := by omega
  exact n below := Size.wrap_of_fits ⟨by omega, by omega⟩
  zero := by cases size <;> decide

instance (size : Size) (n : Nat) : Decidable (size.arith.Holds n) :=
  inferInstanceAs (Decidable ((n : Int) < size.limit))

theorem Arith.norm_eq (a : Arith) {m n : Nat} {x : Int} (value : x = n) (le : n ≤ m)
    (holds : a.Holds m) : a.norm x = n := by
  rw [a.exact x, value]
  apply a.mono _ holds
  omega

theorem Arith.norm_add (a : Arith) {i j n : Nat} (le : i + j ≤ n) (holds : a.Holds n) :
    a.norm ((i : Int) + j) = (i + j : Nat) :=
  a.norm_eq (Int.natCast_add i j).symm le holds

theorem Arith.norm_sub (a : Arith) {i j n : Nat} (le : j ≤ i) (small : i - j ≤ n)
    (holds : a.Holds n) : a.norm ((i : Int) - j) = (i - j : Nat) :=
  a.norm_eq (Int.ofNat_sub le).symm small holds

end MachineInt
