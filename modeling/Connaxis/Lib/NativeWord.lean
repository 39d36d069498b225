import Connaxis.Lib.BigEndian

/- Words in memory under either byte order. What a program does to a word bit by bit it does to
each of its bytes, so the byte order does not show. -/
namespace NativeWord

open BigEndian List

inductive ByteOrder
  | little
  | big
deriving DecidableEq, Repr

/-- The bytes of a word in memory, most significant first. The same map leads back. -/
def ByteOrder.arrange : ByteOrder → List UInt8 → List UInt8
  | .little, bytes => bytes.reverse
  | .big, bytes => bytes

def load (order : ByteOrder) (bytes : List UInt8) : Nat := value (order.arrange bytes)

def store (order : ByteOrder) (width n : Nat) : List UInt8 := order.arrange (encode width n)

variable (order : ByteOrder) (bytes : List UInt8)

@[simp] theorem arrange_length : (order.arrange bytes).length = bytes.length := by
  cases order with
  | little => exact length_reverse
  | big => rfl

@[simp] theorem arrange_arrange : order.arrange (order.arrange bytes) = bytes := by
  cases order with
  | little => exact reverse_reverse bytes
  | big => rfl

theorem store_load : store order bytes.length (load order bytes) = bytes := by
  have back := encode_value (order.arrange bytes)
  rw [arrange_length] at back
  rw [store, load, back, arrange_arrange]

theorem load_lt : load order bytes < 256 ^ bytes.length := by
  have bound := value_lt (order.arrange bytes)
  rwa [arrange_length] at bound

theorem encode_xor (width a b : Nat) :
    encode width (a ^^^ b) = zipWith (· ^^^ ·) (encode width a) (encode width b) := by
  induction width generalizing a b with
  | zero => rfl
  | succ width ih =>
    have high : (a ^^^ b) / 256 = a / 256 ^^^ b / 256 := Nat.xor_div_two_pow (n := 8)
    have low : UInt8.ofNat (a ^^^ b) = UInt8.ofNat a ^^^ UInt8.ofNat b := by
      simp
    rw [encode, encode, encode, high, low, ih,
      zipWith_append (by rw [encode_length, encode_length])]
    rfl

theorem store_xor (width a b : Nat) :
    store order width (a ^^^ b) =
      zipWith (· ^^^ ·) (store order width a) (store order width b) := by
  cases order with
  | little =>
    simp only [store, ByteOrder.arrange, encode_xor]
    rw [reverse_zipWith (by rw [encode_length, encode_length])]
  | big => exact encode_xor width a b

/-- A number whose low `width` bytes and the ones above are given apart. -/
theorem encode_append (upper width high low : Nat) (small : low < 256 ^ width) :
    encode (upper + width) (high * 256 ^ width + low) = encode upper high ++ encode width low := by
  induction width generalizing low with
  | zero =>
    rw [Nat.pow_zero, Nat.lt_one_iff] at small
    rw [small, Nat.pow_zero, Nat.mul_one, Nat.add_zero, Nat.add_zero, encode, append_nil]
  | succ width ih =>
    have quotient : (high * 256 ^ (width + 1) + low) / 256 = high * 256 ^ width + low / 256 := by
      rw [Nat.pow_succ, ← Nat.mul_assoc]
      omega
    have last : UInt8.ofNat (high * 256 ^ (width + 1) + low) = UInt8.ofNat low := by
      apply UInt8.toNat.inj
      rw [UInt8.toNat_ofNat', UInt8.toNat_ofNat', Nat.pow_succ, ← Nat.mul_assoc]
      omega
    rw [Nat.pow_succ] at small
    rw [← Nat.add_assoc, encode, encode, quotient, last, ih (low / 256) (by omega),
      append_assoc]

/-- Both halves of a word hold the same bytes, whatever the byte order. -/
theorem store_twice (width n : Nat) (small : n < 256 ^ width) :
    store order (width + width) (n * 256 ^ width + n) =
      store order width n ++ store order width n := by
  cases order with
  | little =>
    rw [store, store, ByteOrder.arrange, ByteOrder.arrange, encode_append _ _ _ _ small,
      reverse_append]
  | big => exact encode_append width width n n small

end NativeWord
