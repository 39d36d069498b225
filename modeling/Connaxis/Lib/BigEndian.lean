import Mathlib.Algebra.Ring.Nat
import Mathlib.Data.List.Induction

/- Numbers in network byte order. -/
namespace BigEndian

/-- There are few enough bytes to try them all. -/
instance decidableForallByte {P : UInt8 → Prop} [∀ b, Decidable (P b)] : Decidable (∀ b, P b) :=
  decidable_of_iff (∀ n : Fin 256, P ⟨⟨n⟩⟩) ⟨fun all ⟨⟨n⟩⟩ => all n, fun all _ => all _⟩

open List

/-- The number a byte string stands for, most significant byte first. -/
def value (bytes : List UInt8) : Nat := bytes.foldl (fun n byte => n * 256 + byte.toNat) 0

/-- The last `width` bytes of a number. -/
def encode : Nat → Nat → List UInt8
  | 0, _ => []
  | width + 1, n => encode width (n / 256) ++ [UInt8.ofNat n]

variable (bytes : List UInt8)

theorem value_snoc (last : UInt8) : value (bytes ++ [last]) = value bytes * 256 + last.toNat := by
  simp only [value, foldl_append, foldl_cons, foldl_nil]

@[simp] theorem encode_length (width n : Nat) : (encode width n).length = width := by
  induction width generalizing n with
  | zero => rfl
  | succ width ih => rw [encode, length_append, ih, length_singleton]

theorem value_lt : value bytes < 256 ^ bytes.length := by
  induction bytes using reverseRecOn with
  | nil => exact Nat.one_pos
  | append_singleton bytes last ih =>
    have small := last.toNat_lt
    rw [value_snoc, length_append, length_singleton, Nat.pow_succ]
    omega

theorem value_encode (width n : Nat) (small : n < 256 ^ width) : value (encode width n) = n := by
  induction width generalizing n with
  | zero =>
    rw [Nat.pow_zero] at small
    rw [Nat.lt_one_iff.mp small]
    rfl
  | succ width ih =>
    rw [Nat.pow_succ] at small
    rw [encode, value_snoc, ih (n / 256) (by omega), UInt8.toNat_ofNat']
    omega

theorem encode_value : encode bytes.length (value bytes) = bytes := by
  induction bytes using reverseRecOn with
  | nil => rfl
  | append_singleton bytes last ih =>
    have small := last.toNat_lt
    have high : (value bytes * 256 + last.toNat) / 256 = value bytes := by omega
    have low : UInt8.ofNat (value bytes * 256 + last.toNat) = last := by
      apply UInt8.toNat.inj
      rw [UInt8.toNat_ofNat']
      omega
    rw [length_append, length_singleton, encode, value_snoc, high, low, ih]

end BigEndian
