import Connaxis.Lib.MachineInt
import Connaxis.Lib.NativeWord
import Connaxis.WebSocket.Reassembly

namespace Connaxis.WebSocket

open Memory MachineInt NativeWord Option List

namespace Native

/-! `cipher` as the machine runs it: indices are `int`s of either size, and words are read and
written in the byte order of the machine. -/

/-- `mask[index]`; no byte is Go's panic. -/
def maskAt (mask : FixedBytes 4) (index : Int) : Option UInt8 :=
  if 0 ≤ index then mask[index.toNat]? else none

/-- `payload[i] ^= mask[(pos+i)%4]` for `count` values of `i`. The sum is an `int`, and the
remainder has its sign. -/
def cipherBytes (size : Size) (mask : FixedBytes 4) (pos : Int) :
    Nat → Nat → Bytes → Option Bytes
  | 0, _, payload => some payload
  | count + 1, i, payload =>
    match payload[i]?, maskAt mask ((size.wrap (pos + i)).tmod 4) with
    | some byte, some key =>
      cipherBytes size mask pos count (i + 1) (payload.set i (byte ^^^ key))
    | _, _ => none

/-- `mask` as a `uint32` in memory, in both halves of a `uint64`. -/
def maskWord (order : ByteOrder) (mask : FixedBytes 4) : UInt64 :=
  let m := UInt32.ofNat (load order mask.toList)
  m.toUInt64 <<< 32 ||| m.toUInt64

/-- The loop over `count` words from `start` on. -/
def cipherWords (order : ByteOrder) (m2 : UInt64) : Nat → Nat → Bytes → Option Bytes
  | 0, _, payload => some payload
  | count + 1, start, payload =>
    let word := (payload.drop start).take 8
    if word.length < 8 then none
    else
      let v := UInt64.ofNat (load order word)
      cipherWords order m2 count (start + 8)
        (overwrite payload start (store order 8 (v ^^^ m2).toNat))

def cipher (size : Size) (order : ByteOrder) (payload : Bytes) (mask : FixedBytes 4)
    (offset : Int) : Option Bytes :=
  let n := payload.length
  if n < 8 then cipherBytes size mask offset n 0 payload
  else
    let mpos := offset.tmod 4
    if mpos < 0 then none
    else match remain[mpos.toNat]? with
      | none => none
      | some ln =>
        let rn := (n - ln) % 8
        match cipherBytes size mask mpos ln 0 payload with
        | none => none
        | some payload =>
          match cipherBytes size mask mpos rn (n - rn) payload with
          | none => none
          | some payload =>
            cipherWords order (maskWord order mask) ((n - ln - rn) >>> 3) ln payload

end Native

/-- The bytes from `low` up to `high` masked, the others as they were. -/
def maskRange (mask : FixedBytes 4) (pos low high : Nat) (payload : Bytes) : Bytes :=
  payload.mapIdx fun i b => if low ≤ i ∧ i < high then b ^^^ maskByte mask (pos + i) else b

section Range

variable (mask : FixedBytes 4) (pos : Nat) (payload : Bytes)

theorem maskRange_length (low high : Nat) :
    (maskRange mask pos low high payload).length = payload.length := length_mapIdx

theorem maskRange_getElem? (low high i : Nat) :
    (maskRange mask pos low high payload)[i]? =
      payload[i]?.map fun b =>
        if low ≤ i ∧ i < high then b ^^^ maskByte mask (pos + i) else b := by
  rw [maskRange, getElem?_mapIdx]

theorem maskRange_none (low : Nat) : maskRange mask pos low low payload = payload := by
  apply ext_getElem?
  intro i
  have outside : ¬ (low ≤ i ∧ i < low) := by omega
  simp only [maskRange_getElem?, if_neg outside, Option.map_id']

theorem maskRange_trans (low mid high : Nat) (first : low ≤ mid) (second : mid ≤ high) :
    maskRange mask pos mid high (maskRange mask pos low mid payload) =
      maskRange mask pos low high payload := by
  apply ext_getElem?
  intro i
  rw [maskRange_getElem?, maskRange_getElem?, maskRange_getElem?, Option.map_map]
  congr 1
  funext b
  dsimp only [Function.comp_apply]
  by_cases before : i < mid
  · rw [if_neg (by omega)]
    by_cases inside : low ≤ i
    · rw [if_pos (by omega), if_pos (by omega)]
    · rw [if_neg (by omega), if_neg (by omega)]
  rw [if_neg (by omega : ¬ (low ≤ i ∧ i < mid))]
  by_cases inside : i < high
  · rw [if_pos (by omega), if_pos (by omega)]
  · rw [if_neg (by omega), if_neg (by omega)]

/-- Both ends first and then what is between them. -/
theorem maskRange_ends (low high : Nat) (ordered : low ≤ high) :
    maskRange mask pos low high
        (maskRange mask pos high payload.length (maskRange mask pos 0 low payload)) =
      payload.mapIdx fun i b => b ^^^ maskByte mask (pos + i) := by
  apply ext_getElem?
  intro i
  rw [maskRange_getElem?, maskRange_getElem?, maskRange_getElem?, getElem?_mapIdx]
  cases found : payload[i]? with
  | none => rfl
  | some b =>
    obtain ⟨inside, _⟩ := List.getElem?_eq_some_iff.mp found
    simp only [map_some]
    by_cases front : i < low
    · rw [if_pos (by omega : 0 ≤ i ∧ i < low), if_neg (by omega), if_neg (by omega)]
    rw [if_neg (by omega : ¬ (0 ≤ i ∧ i < low))]
    by_cases back : high ≤ i
    · rw [if_pos (by omega : high ≤ i ∧ i < payload.length), if_neg (by omega)]
    · rw [if_neg (by omega : ¬ (high ≤ i ∧ i < payload.length)), if_pos (by omega)]

theorem set_maskRange (i high : Nat) (byte : UInt8) (found : payload[i]? = some byte)
    (below : i < high) :
    maskRange mask pos (i + 1) high (payload.set i (byte ^^^ maskByte mask (pos + i))) =
      maskRange mask pos i high payload := by
  apply ext_getElem?
  intro j
  rw [maskRange_getElem?, maskRange_getElem?, List.getElem?_set]
  by_cases same : i = j
  · subst same
    obtain ⟨inside, rfl⟩ := List.getElem?_eq_some_iff.mp found
    rw [if_pos rfl, if_pos inside, found, map_some, map_some, if_neg (by omega),
      if_pos (by omega)]
  rw [if_neg same]
  congr 1
  funext b
  by_cases inside : i + 1 ≤ j ∧ j < high
  · rw [if_pos inside, if_pos (by omega)]
  · rw [if_neg inside, if_neg (by omega)]

end Range

namespace Native

variable {size : Size} {order : ByteOrder} {mask : FixedBytes 4} {payload : Bytes}

theorem maskAt_mod (k : Nat) : maskAt mask ((k : Int).tmod 4) = some (maskByte mask k) := by
  have small : k % 4 < 4 := Nat.mod_lt _ (by decide)
  have index : (k : Int).tmod 4 = ((k % 4 : Nat) : Int) := rfl
  rw [maskAt, index, if_pos (Int.natCast_nonneg _), Int.toNat_natCast, maskByte,
    Vector.getElem?_eq_getElem small]

/-- The first number above the range turns into a multiple of four again. -/
theorem maskAt_wrap {k : Nat} (range : (k : Int) ≤ size.limit) :
    maskAt mask ((size.wrap k).tmod 4) = some (maskByte mask k) := by
  by_cases inside : (k : Int) < size.limit
  · rw [Size.wrap_of_fits ⟨by omega, inside⟩, maskAt_mod]
  have edge : (k : Int) = size.limit := by omega
  have positive : 0 < size.limit := by cases size <;> decide
  have turned : size.wrap k = -size.limit := by
    rw [Size.wrap_of_over (by omega) (by omega)]
    omega
  have multiple : k % 4 = 0 % 4 := by
    cases size <;> simp only [Size.limit] at edge <;> omega
  have zero : (-size.limit).tmod 4 = ((0 : Nat) : Int).tmod 4 := by
    cases size <;> rfl
  rw [turned, zero, maskAt_mod, maskByte_congr mask multiple]

/-- The next one is negative, and so is its remainder. -/
theorem maskAt_over {k : Nat} (range : (k : Int) = size.limit + 1) :
    maskAt mask ((size.wrap k).tmod 4) = none := by
  have positive : 0 < size.limit := by cases size <;> decide
  have turned : size.wrap k = 1 - size.limit := by
    rw [Size.wrap_of_over (by omega) (by omega)]
    omega
  have negative : (1 - size.limit).tmod 4 = -3 := by
    cases size <;> rfl
  rw [turned, negative]
  rfl

theorem cipherBytes_ok (pos count i : Nat) (inside : i + count ≤ payload.length)
    (range : ((pos + i + count : Nat) : Int) ≤ size.limit + 1) :
    cipherBytes size mask pos count i payload =
      some (maskRange mask pos i (i + count) payload) := by
  induction count generalizing i payload with
  | zero => rw [cipherBytes, Nat.add_zero, maskRange_none]
  | succ count ih =>
    have found := getElem?_eq_getElem (show i < payload.length by omega)
    have key : maskAt mask ((size.wrap ((pos : Int) + i)).tmod 4) =
        some (maskByte mask (pos + i)) := by
      rw [← Int.natCast_add]
      exact maskAt_wrap (by omega)
    rw [cipherBytes, found, key]
    dsimp only
    rw [ih (i + 1) (by rw [length_set]; omega) (by omega), Nat.add_assoc i 1,
      Nat.add_comm 1 count, set_maskRange _ _ _ _ _ _ found (by omega)]

theorem cipherBytes_over (pos count i : Nat) (start : ((pos + i : Nat) : Int) ≤ size.limit + 1)
    (range : size.limit + 1 < ((pos + i + count : Nat) : Int)) :
    cipherBytes size mask pos count i payload = none := by
  induction count generalizing i payload with
  | zero => omega
  | succ count ih =>
    rw [cipherBytes]
    by_cases edge : ((pos + i : Nat) : Int) = size.limit + 1
    · rw [← Int.natCast_add, maskAt_over edge]
      cases payload[i]? <;> rfl
    split
    · exact ih (i + 1) (by omega) (by omega)
    · rfl

theorem toList_twice {d : Nat} (small : d < 8) :
    (mask.toList ++ mask.toList)[d]? = some (maskByte mask d) := by
  by_cases first : d < 4
  · rw [getElem?_append_left (by rw [Vector.length_toList]; exact first),
      Vector.getElem?_toList, maskByte, Vector.getElem?_eq_getElem first]
    simp only [Nat.mod_eq_of_lt first]
  rw [getElem?_append_right (by rw [Vector.length_toList]; omega), Vector.length_toList,
    Vector.getElem?_toList, Vector.getElem?_eq_getElem (show d - 4 < 4 by omega), maskByte]
  simp only [show d % 4 = d - 4 by omega]

theorem maskWord_store (order : ByteOrder) (mask : FixedBytes 4) :
    store order 8 (maskWord order mask).toNat = mask.toList ++ mask.toList := by
  have small : load order mask.toList < 256 ^ 4 := by
    have bound := load_lt order mask.toList
    rwa [Vector.length_toList] at bound
  have whole : (maskWord order mask).toNat =
      load order mask.toList * 256 ^ 4 + load order mask.toList := by
    rw [maskWord]
    generalize load order mask.toList = m at small
    have shifted := Nat.two_pow_add_eq_or_of_lt (i := 32) (b := m) (by omega) m
    have word : (UInt32.ofNat m).toUInt64.toNat = m := by
      rw [UInt32.toNat_toUInt64, UInt32.toNat_ofNat']
      omega
    have upper : ((UInt32.ofNat m).toUInt64 <<< 32).toNat = 2 ^ 32 * m := by
      rw [UInt64.toNat_shiftLeft, word, Nat.shiftLeft_eq]
      change m * 2 ^ 32 % 2 ^ 64 = _
      omega
    rw [UInt64.toNat_or, upper, word, ← shifted]
    omega
  have bytes := store_load order mask.toList
  rw [Vector.length_toList] at bytes
  rw [whole, store_twice order 4 _ small, bytes]

/-- One word of the key, at a place where the key starts again. -/
theorem word_eq {pos start : Nat} (aligned : (pos + start) % 4 = 0)
    (inside : start + 8 ≤ payload.length) :
    overwrite payload start (store order 8
        (UInt64.ofNat (load order ((payload.drop start).take 8)) ^^^ maskWord order mask).toNat) =
      maskRange mask pos start (start + 8) payload := by
  have eight : ((payload.drop start).take 8).length = 8 := by
    rw [length_take, length_drop]
    omega
  have small : load order ((payload.drop start).take 8) < 2 ^ 64 := by
    have bound := load_lt order ((payload.drop start).take 8)
    rwa [eight] at bound
  have bytes := store_load order ((payload.drop start).take 8)
  rw [eight] at bytes
  rw [UInt64.toNat_xor, UInt64.toNat_ofNat', Nat.mod_eq_of_lt small, store_xor, bytes,
    maskWord_store]
  have length : (List.zipWith (· ^^^ ·) ((payload.drop start).take 8)
      (mask.toList ++ mask.toList)).length = 8 := by
    rw [length_zipWith, eight, length_append, Vector.length_toList]
    rfl
  apply ext_getElem?
  intro i
  rw [maskRange_getElem?, overwrite_getElem? _ _ _ (by omega), length]
  by_cases here : start ≤ i ∧ i < start + 8
  · have key : (mask.toList ++ mask.toList)[i - start]? = some (maskByte mask (pos + i)) := by
      rw [toList_twice (by omega),
        maskByte_congr mask (show (i - start) % 4 = (pos + i) % 4 by omega)]
    rw [if_pos here, getElem?_zipWith, getElem?_take_of_lt (by omega),
      getElem?_drop, key, Nat.add_sub_cancel' here.1,
      getElem?_eq_getElem (show i < payload.length by omega), map_some, if_pos here]
  · simp only [if_neg here, Option.map_id']

theorem cipherWords_ok {pos : Nat} (count start : Nat) (aligned : (pos + start) % 4 = 0)
    (inside : start + 8 * count ≤ payload.length) :
    cipherWords order (maskWord order mask) count start payload =
      some (maskRange mask pos start (start + 8 * count) payload) := by
  induction count generalizing start payload with
  | zero => rw [cipherWords, Nat.mul_zero, Nat.add_zero, maskRange_none]
  | succ count ih =>
    have whole : ((payload.drop start).take 8).length = 8 := by
      rw [length_take, length_drop]
      omega
    rw [cipherWords]
    dsimp only
    rw [if_neg (by omega), word_eq aligned (by omega),
      ih (start + 8) (by omega) (by rw [maskRange_length]; omega),
      maskRange_trans _ _ _ _ _ _ (by omega) (by omega)]
    congr 2
    omega

/-- No index sum passes the first number above the range: fewer than eight bytes are indexed
from the offset itself, more from its remainder. -/
def Safe (size : Size) (offset : Int) (n : Nat) : Prop :=
  (if n < 8 then offset else offset % 4) + n ≤ size.limit + 1

instance (size : Size) (offset : Int) (n : Nat) : Decidable (Safe size offset n) :=
  inferInstanceAs (Decidable ((if n < 8 then offset else offset % 4) + n ≤ size.limit + 1))

theorem remain_getElem? : ∀ mpos : Fin 4, ∃ ln, remain[mpos.val]? = some ln ∧ ln < 4 ∧
    (mpos.val + ln) % 4 = 0 := by decide

variable {offset : Nat}

/-- From eight bytes on: both ends byte by byte, the words between them whole. -/
theorem cipher_long (long : 8 ≤ payload.length) (fits : (payload.length : Int) < size.limit) :
    cipher size order payload mask offset =
      if ((offset % 4 + payload.length : Nat) : Int) ≤ size.limit + 1 then
        some (payload.mapIdx fun i b => b ^^^ maskByte mask (offset + i))
      else none := by
  obtain ⟨ln, found, few, aligned⟩ := remain_getElem? ⟨offset % 4, Nat.mod_lt _ (by decide)⟩
  dsimp only at found aligned
  have mpos : (offset : Int).tmod 4 = ((offset % 4 : Nat) : Int) := rfl
  have head : cipherBytes size mask ((offset % 4 : Nat) : Int) ln 0 payload =
      some (maskRange mask (offset % 4) 0 ln payload) := by
    rw [cipherBytes_ok (offset % 4) ln 0 (by omega) (by omega), Nat.zero_add]
  rw [cipher]
  dsimp only
  rw [if_neg (by omega), mpos, if_neg (by omega), Int.toNat_natCast, found]
  dsimp only
  rw [head]
  dsimp only
  have rest_lt : (payload.length - ln) % 8 < 8 := Nat.mod_lt _ (by decide)
  have rest_le : (payload.length - ln) % 8 ≤ payload.length - ln := Nat.mod_le _ _
  have words : ln + 8 * ((payload.length - ln - (payload.length - ln) % 8) >>> 3) =
      payload.length - (payload.length - ln) % 8 := by
    rw [Nat.shiftRight_eq_div_pow]
    omega
  -- Only the longest slice there can be runs over, and its last bytes go one by one.
  have tail (over_limit : size.limit + 1 < ((offset % 4 + payload.length : Nat) : Int)) :
      1 ≤ (payload.length - ln) % 8 := by
    cases size <;> simp only [Size.limit] at * <;> omega
  have joined : payload.length - (payload.length - ln) % 8 + (payload.length - ln) % 8 =
      payload.length := by omega
  generalize (payload.length - ln) % 8 = rn at *
  by_cases safe : ((offset % 4 + payload.length : Nat) : Int) ≤ size.limit + 1
  · rw [if_pos safe, cipherBytes_ok _ _ _ (by rw [maskRange_length]; omega) (by omega), joined]
    dsimp only
    rw [cipherWords_ok _ _ aligned (by rw [maskRange_length, maskRange_length]; omega), words]
    have ends := maskRange_ends mask (offset % 4) payload ln (payload.length - rn) (by omega)
    rw [ends]
    congr 2
    funext i b
    rw [maskByte_congr mask (show (offset % 4 + i) % 4 = (offset + i) % 4 by omega)]
  have last := tail (by omega)
  rw [if_neg safe, cipherBytes_over _ _ _ (by omega) (by omega)]

theorem cipher_short (short : payload.length < 8) (range : (offset : Int) < size.limit) :
    cipher size order payload mask offset =
      if ((offset + payload.length : Nat) : Int) ≤ size.limit + 1 then
        some (payload.mapIdx fun i b => b ^^^ maskByte mask (offset + i))
      else none := by
  rw [cipher]
  dsimp only
  rw [if_pos short]
  by_cases safe : ((offset + payload.length : Nat) : Int) ≤ size.limit + 1
  · have ends := maskRange_ends mask offset payload payload.length payload.length (Nat.le_refl _)
    rw [maskRange_none, maskRange_none] at ends
    rw [if_pos safe, cipherBytes_ok _ _ _ (by omega) (by omega), Nat.zero_add, ends]
  · rw [if_neg safe, cipherBytes_over _ _ _ (by omega) (by omega)]

/-- What the machine computes: the bytes the mask gives, or a panic. -/
theorem cipher_eq (range : (offset : Int) < size.limit)
    (fits : (payload.length : Int) < size.limit) :
    cipher size order payload mask offset =
      if Safe size offset payload.length then some (WebSocket.cipher payload mask offset)
      else none := by
  rw [WebSocket.cipher_eq]
  by_cases short : payload.length < 8
  · rw [cipher_short short range]
    refine if_congr ?_ rfl rfl
    rw [Safe, if_pos short, Int.natCast_add]
  rw [cipher_long (Nat.le_of_not_lt short) fits]
  refine if_congr ?_ rfl rfl
  rw [Safe, if_neg short, Int.natCast_add]
  rfl

end Native

theorem cipher_append (p q : Bytes) (mask : FixedBytes 4) (offset : Nat) :
    cipher (p ++ q) mask offset = cipher p mask offset ++ cipher q mask (offset + p.length) := by
  rw [cipher_eq, cipher_eq, cipher_eq, mapIdx_append]
  congr 2
  funext i b
  rw [Nat.add_comm i, Nat.add_assoc]

/-- `cipher` on the machine, for every byte order and size of an `int`: when it masks each byte
with the byte of the key at its place, and what follows for two calls. -/
theorem cipher_masks_iff (size : Size) (order : ByteOrder) (mask : FixedBytes 4) :
    (∀ (payload : Bytes) (offset : Int), 0 ≤ offset → offset < size.limit →
      (payload.length : Int) < size.limit →
      (Native.cipher size order payload mask offset =
          some (payload.mapIdx fun i b => b ^^^ maskByte mask (offset.toNat + i)) ↔
        Native.Safe size offset payload.length)) ∧
    (∀ (payload out : Bytes) (offset : Int), 0 ≤ offset → offset < size.limit →
      (payload.length : Int) < size.limit →
      Native.cipher size order payload mask offset = some out →
        Native.cipher size order out mask offset = some payload) ∧
    (∀ (p q p' q' r : Bytes) (offset : Int), 0 ≤ offset → offset + p.length < size.limit →
      ((p.length + q.length : Nat) : Int) < size.limit →
      Native.cipher size order p mask offset = some p' →
      Native.cipher size order q mask (offset + p.length) = some q' →
      Native.cipher size order (p ++ q) mask offset = some r → r = p' ++ q') := by
  refine ⟨?_, ?_, ?_⟩
  · intro payload offset positive range fits
    obtain ⟨offset, rfl⟩ := Int.eq_ofNat_of_zero_le positive
    rw [Native.cipher_eq range fits, cipher_eq, Int.toNat_natCast]
    simp
  · intro payload out offset positive range fits done
    obtain ⟨offset, rfl⟩ := Int.eq_ofNat_of_zero_le positive
    rw [Native.cipher_eq range fits] at done
    split at done
    · rename_i safe
      cases done
      rw [Native.cipher_eq range (by rwa [cipher_length]), cipher_length, if_pos safe,
        cipher_cipher]
    · cases done
  intro p q p' q' r offset positive range fits first second whole
  obtain ⟨offset, rfl⟩ := Int.eq_ofNat_of_zero_le positive
  rw [Native.cipher_eq (by omega) (by omega)] at first
  rw [← Int.natCast_add, Native.cipher_eq (by omega) (by omega)] at second
  rw [Native.cipher_eq (by omega) (by rw [length_append]; omega), cipher_append] at whole
  split at first
  · split at second
    · split at whole
      · cases first
        cases second
        cases whole
        rfl
      · cases whole
    · cases second
  · cases first

theorem cipher_masks_iff_nine_bytes :
    Native.cipher .bits32 .little [0, 0, 0, 0, 0, 0, 0, 0, 0] #v[1, 2, 3, 4] 2 =
      some [3, 4, 1, 2, 3, 4, 1, 2, 3] :=
  ((cipher_masks_iff .bits32 .little #v[1, 2, 3, 4]).1 [0, 0, 0, 0, 0, 0, 0, 0, 0] 2 (by decide)
    (by decide) (by decide)).mpr (by decide)

/-- Three bytes at the largest offset: the index of the third is negative. -/
theorem cipher_panics_at_limit :
    Native.cipher .bits64 .little [0, 0, 0] #v[1, 2, 3, 4] 9223372036854775807 = none := by
  decide

end Connaxis.WebSocket
