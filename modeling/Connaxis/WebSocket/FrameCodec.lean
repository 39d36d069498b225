import Connaxis.WebSocket.Frame
import Mathlib.Data.List.GetD

namespace Connaxis.WebSocket

open Memory List BigEndian

variable {h : Header} {pl inp : Bytes} {limit : Int}

/-- The seven bits of the length that share a byte with the mask bit. -/
def lengthCode (n : Nat) : UInt8 :=
  if n ≤ 125 then UInt8.ofNat n else if n ≤ 65535 then 126 else 127

/-- The longer forms of the length. -/
def extendedLength (n : Nat) : Bytes :=
  if n ≤ 125 then [] else if n ≤ 65535 then encode 2 n else encode 8 n

def secondByte (h : Header) : UInt8 :=
  if h.masked then lengthCode h.length.toNat ||| 0x80 else lengthCode h.length.toNat

/-- A header as the bytes it is on the wire. -/
def headerBytes (h : Header) : Bytes :=
  firstByte h :: secondByte h :: extendedLength h.length.toNat ++
    if h.masked then h.mask.toList else []

variable {n : Int}

theorem int64_of_small (low : -2 ^ 63 ≤ n) (high : n < 2 ^ 63) : int64 n = n :=
  Int.bmod_eq_of_le (by omega) (by omega)

/-- The three forms of the length. -/
theorem length_forms (n : Nat) :
    n ≤ 125 ∧ lengthCode n = UInt8.ofNat n ∧ extendedLength n = [] ∨
      125 < n ∧ n ≤ 65535 ∧ lengthCode n = 126 ∧ extendedLength n = encode 2 n ∨
      65535 < n ∧ lengthCode n = 127 ∧ extendedLength n = encode 8 n := by
  unfold lengthCode extendedLength
  by_cases short : n ≤ 125
  · exact .inl ⟨short, if_pos short, if_pos short⟩
  rw [if_neg short, if_neg short]
  by_cases middle : n ≤ 65535
  · exact .inr (.inl ⟨by omega, middle, if_pos middle, if_pos middle⟩)
  · exact .inr (.inr ⟨by omega, if_neg middle, if_neg middle⟩)

theorem headerBytes_length (h : Header) : (headerBytes h).length =
    2 + (extendedLength h.length.toNat).length + if h.masked then 4 else 0 := by
  cases masked : h.masked <;>
    simp only [headerBytes, length_cons, length_append, masked, if_true,
      Bool.false_eq_true, if_false, length_nil, Vector.length_toList] <;> omega

theorem headerBytes_length_le (h : Header) : (headerBytes h).length ≤ 14 := by
  have ext : (extendedLength h.length.toNat).length ≤ 8 := by
    rcases length_forms h.length.toNat with ⟨_, _, form⟩ | ⟨_, _, _, form⟩ | ⟨_, _, form⟩ <;>
      simp only [form, length_nil, encode_length] <;> omega
  rw [headerBytes_length]
  split <;> omega

theorem calcPktSize_header (sized : h.length = pl.length) :
    (calcPktSize h).2 = (headerBytes h).length := by
  rw [headerBytes_length]
  unfold calcPktSize
  rcases length_forms h.length.toNat with
    ⟨_, _, form⟩ | ⟨_, _, _, form⟩ | ⟨_, _, form⟩ <;>
    cases h.masked <;>
    simp only [form, length_nil, encode_length, if_true, Bool.false_eq_true,
      if_false] <;> split <;> (try split) <;> omega

theorem calcPktSize_total (sized : h.length = pl.length)
    (fits : (headerBytes h).length + pl.length < 2 ^ 63) :
    (calcPktSize h).1 = (headerBytes h).length + pl.length := by
  change int64 ((calcPktSize h).2 + h.length) = _
  rw [calcPktSize_header sized, sized, int64_of_small (by omega) (by omega)]

/-- Writing right after what has been written. -/
theorem overwrite_next (front fill src : Bytes) (off : Nat) (next : off = front.length) :
    overwrite (front ++ fill) off src = front ++ src ++ fill.drop src.length := by
  rw [next, overwrite, take_left, drop_append, drop_eq_nil_of_le (by omega)]
  rw [nil_append, Nat.add_sub_cancel_left]

theorem ofInt_natCast (sized : h.length = pl.length) :
    UInt8.ofInt h.length = UInt8.ofNat h.length.toNat := by
  apply UInt8.toNat.inj
  rw [UInt8.ofInt, UInt8.toNat_ofNat', UInt8.toNat_ofNat', sized]
  omega

theorem overwrite_second (b0 b1 x : UInt8) (rest : Bytes) :
    overwrite (b0 :: b1 :: rest) 1 [x] = b0 :: x :: rest := rfl

section

variable (sized : h.length = pl.length)
include sized

/-- The header lands in front of what the buffer holds. -/
theorem writeHeader_eq (fill : Bytes) :
    writeHeader h (headerBytes h).length fill =
      headerBytes h ++ fill.drop (headerBytes h).length := by
  have first : overwrite fill 0 [firstByte h] = [firstByte h] ++ fill.drop 1 :=
    overwrite_next [] fill _ 0 rfl
  have second (b : UInt8) : overwrite ([firstByte h] ++ fill.drop 1) 1 [b] =
      [firstByte h, b] ++ fill.drop 2 := by
    rw [overwrite_next _ _ _ 1 rfl, drop_drop]
    rfl
  have third (b : UInt8) (ext : Bytes) : overwrite ([firstByte h, b] ++ fill.drop 2) 2 ext =
      firstByte h :: b :: (ext ++ fill.drop (2 + ext.length)) := by
    rw [overwrite_next _ _ _ 2 rfl, drop_drop]
    rfl
  have lengths :
      (if h.length ≤ 125 then overwrite (overwrite fill 0 [firstByte h]) 1 [UInt8.ofInt h.length]
      else if h.length ≤ 65535 then
        overwrite (overwrite (overwrite fill 0 [firstByte h]) 1 [126]) 2
          (encode 2 h.length.toNat)
      else overwrite (overwrite (overwrite fill 0 [firstByte h]) 1 [127]) 2
        (encode 8 h.length.toNat)) =
      firstByte h :: lengthCode h.length.toNat :: (extendedLength h.length.toNat ++
        fill.drop (2 + (extendedLength h.length.toNat).length)) := by
    rcases length_forms h.length.toNat with
      ⟨short, code, ext⟩ | ⟨long, middle, code, ext⟩ | ⟨long, code, ext⟩
    · rw [if_pos (by omega), first, second, code, ext, ofInt_natCast sized]
      rfl
    · rw [if_neg (by omega), if_pos (by omega), first, second, third, code, ext]
    · rw [if_neg (by omega), if_neg (by omega), first, second, third, code, ext]
  unfold writeHeader
  dsimp only
  rw [lengths, headerBytes_length]
  cases masked : h.masked with
  | false =>
    simp only [headerBytes, secondByte, masked, Bool.false_eq_true, if_false, append_nil,
      Nat.add_zero, cons_append]
  | true =>
    simp only [if_true, getD_cons_succ, getD_cons_zero, overwrite_second, headerBytes,
      secondByte, masked]
    rw [show ∀ (a b : UInt8) (m : Bytes), a :: b :: (m ++ _) = (a :: b :: m) ++ fill.drop _ from
      fun _ _ _ => rfl, overwrite_next _ _ _ _ ?_]
    · rw [drop_drop, Vector.length_toList]
    simp only [length_cons]
    omega

/-- A blank buffer with the header and the payload in it. -/
theorem fill_eq (fits : (headerBytes h).length + pl.length < 2 ^ 63) :
    overwrite (writeHeader h (calcPktSize h).2.toNat
      (replicate (calcPktSize h).1.toNat 0)) (calcPktSize h).2.toNat
      (pl.take ((calcPktSize h).1 - (calcPktSize h).2).toNat) = headerBytes h ++ pl := by
  have rest : ((((headerBytes h).length + pl.length : Nat) : Int) -
      (headerBytes h).length).toNat = pl.length := by omega
  rw [calcPktSize_total sized fits, calcPktSize_header sized, Int.toNat_natCast,
    ← Int.natCast_add, Int.toNat_natCast, writeHeader_eq sized, drop_replicate,
    Nat.add_sub_cancel_left, rest, take_length, overwrite_next _ _ _ _ rfl,
    drop_eq_nil_of_le (by simp), append_nil]

theorem buildFrame_eq (fits : (headerBytes h).length + pl.length < 2 ^ 63) :
    buildFrame h pl = headerBytes h ++ pl := by
  have total := calcPktSize_total sized fits
  have header := calcPktSize_header sized
  have positive : 2 ≤ (headerBytes h).length := by
    rw [headerBytes_length]
    omega
  unfold buildFrame
  dsimp only
  rw [if_neg (by omega), if_neg (by omega)]
  exact fill_eq sized fits

end

/-- The mask bit leaves the seven bits beside it alone. -/
theorem mask_bit : ∀ b : UInt8, b < 128 → b &&& 0x80 = 0 ∧ b &&& 0x7f = b ∧
    (b ||| 0x80) &&& 0x80 ≠ 0 ∧ (b ||| 0x80) &&& 0x7f = b := by
  decide +kernel

theorem lengthCode_toNat (n : Nat) :
    (lengthCode n).toNat = if n ≤ 125 then n else if n ≤ 65535 then 126 else 127 := by
  unfold lengthCode
  split
  · rw [UInt8.toNat_ofNat']
    omega
  · split <;> rfl

theorem lengthCode_lt (n : Nat) : lengthCode n < 128 := by
  rw [UInt8.lt_iff_toNat_lt, lengthCode_toNat]
  change _ < 128
  split
  · omega
  · split <;> omega

theorem secondByte_code (h : Header) : secondByte h &&& 0x7f = lengthCode h.length.toNat := by
  have bits := mask_bit _ (lengthCode_lt h.length.toNat)
  unfold secondByte
  split
  · exact bits.2.2.2
  · exact bits.2.1

theorem secondByte_masked (h : Header) : secondByte h &&& 0x80 ≠ 0 ↔ h.masked = true := by
  have bits := mask_bit _ (lengthCode_lt h.length.toNat)
  unfold secondByte
  cases h.masked with
  | true => exact iff_of_true bits.2.2.1 rfl
  | false => exact iff_of_false (not_not.mpr bits.1) nofun

/-- A short length is not mistaken for one of the longer forms. -/
theorem lengthCode_short {n : Nat} (short : n ≤ 125) :
    UInt8.ofNat n ≠ 126 ∧ UInt8.ofNat n ≠ 127 ∧ (UInt8.ofNat n).toNat = n := by
  have value : (UInt8.ofNat n).toNat = n := by
    rw [UInt8.toNat_ofNat']
    omega
  refine ⟨fun clash => ?_, fun clash => ?_, value⟩ <;>
    · rw [clash] at value
      simp only [UInt8.reduceToNat] at value
      omega

theorem calcHeaderSize_secondByte (h : Header) :
    calcHeaderSize (secondByte h) = (headerBytes h).length := by
  unfold calcHeaderSize
  simp only [secondByte_code, secondByte_masked, headerBytes_length]
  rcases length_forms h.length.toNat with
    ⟨short, code, ext⟩ | ⟨_, _, code, ext⟩ | ⟨_, code, ext⟩
  · obtain ⟨not126, not127, _⟩ := lengthCode_short short
    rw [code, ext, if_neg not126, if_neg not127]
    split <;> rfl
  · rw [code, ext, if_pos rfl, encode_length]
    split <;> rfl
  rw [code, ext, if_neg (by decide), if_pos rfl, encode_length]
  split <;> rfl

/-- What follows the first two bytes of an encoded frame starts with the longer length. -/
theorem headerBytes_extended (h : Header) (rest : Bytes) :
    ((headerBytes h ++ rest).drop 2).take (extendedLength h.length.toNat).length =
      extendedLength h.length.toNat := by
  simp only [headerBytes, cons_append, drop_succ_cons, drop_zero,
    append_assoc, take_left]

theorem frameLength_headerBytes (sized : h.length = pl.length)
    (fits : (headerBytes h).length + pl.length < 2 ^ 63)
    (rest : Bytes) : frameLength (headerBytes h ++ rest) = h.length := by
  have second : (headerBytes h ++ rest).getD 1 0 = secondByte h := rfl
  have extended := headerBytes_extended h rest
  unfold frameLength
  dsimp only
  rw [second, secondByte_code]
  rcases length_forms h.length.toNat with
    ⟨short, code, ext⟩ | ⟨_, middle, code, ext⟩ | ⟨_, code, ext⟩
  · obtain ⟨not126, not127, value⟩ := lengthCode_short short
    rw [code, if_neg not126, if_neg not127, value]
    omega
  · rw [ext, encode_length] at extended
    rw [code, if_pos rfl, extended, value_encode _ _ (by omega)]
    omega
  rw [ext, encode_length] at extended
  rw [code, if_neg (by decide), if_pos rfl, extended, value_encode _ _ (by omega),
    int64_of_small (by omega) (by omega)]
  omega

theorem parseFrame_headerBytes (sized : h.length = pl.length)
    (fits : (headerBytes h).length + pl.length < 2 ^ 63)
    (within : limit > 0 → (pl.length : Int) ≤ limit) (rest : Bytes)
    (whole : n = (headerBytes h ++ pl).length) :
    parseFrame limit (headerBytes h ++ pl ++ rest) = (n, n) := by
  have second : (headerBytes h ++ (pl ++ rest)).getD 1 0 = secondByte h := rfl
  have positive : 2 ≤ (headerBytes h).length := by
    rw [headerBytes_length]
    omega
  rw [length_append] at whole
  have total : int64 ((pl.length : Int) + (headerBytes h).length) = n := by
    rw [int64_of_small (by omega) (by omega)]
    omega
  unfold parseFrame
  dsimp only [WSHeaderMinSize]
  rw [append_assoc, second, calcHeaderSize_secondByte, frameLength_headerBytes sized fits,
    sized, total]
  simp only [length_append]
  rw [if_neg (by omega), if_neg (by omega), if_neg (by omega), if_neg (by omega), if_neg (by omega)]

/-- Every first byte gives back the fields it was made of. -/
theorem firstByte_fields (fin : Bool) (rsv : Fin 8) (op : Fin 16) :
    let b0 := firstByte ⟨fin, UInt8.ofNat rsv, UInt8.ofNat op, false, noMask, 0⟩
    decide (b0 &&& 0x80 ≠ 0) = fin ∧ (b0 &&& 0x70) >>> 4 = UInt8.ofNat rsv ∧
      b0 &&& 0x0f = UInt8.ofNat op := by
  revert fin rsv op
  decide +kernel

theorem mask_cases (mask : FixedBytes 4) : ∃ a b c d, mask = #v[a, b, c, d] :=
  ⟨mask[0], mask[1], mask[2], mask[3], by
    ext i bound
    match i, bound with
    | 0, _ => rfl
    | 1, _ => rfl
    | 2, _ => rfl
    | 3, _ => rfl⟩

theorem maskKey_append (front rest : Bytes) (mask : FixedBytes 4) (size : Nat)
    (ends : size = front.length + 4) : maskKey (front ++ (mask.toList ++ rest)) size = mask := by
  obtain ⟨a, b, c, d, rfl⟩ := mask_cases mask
  have at_ (i : Nat) : (front ++ ([a, b, c, d] ++ rest)).getD (front.length + i) 0 =
      ([a, b, c, d] ++ rest).getD i 0 := by
    rw [getD_append_right _ _ _ _ (by omega), Nat.add_sub_cancel_left]
  unfold maskKey
  rw [ends]
  have zero := at_ 0
  have one := at_ 1
  have two := at_ 2
  have three := at_ 3
  simp only [Nat.add_zero, cons_append, nil_append, getD_cons_zero,
    getD_cons_succ] at zero one two three
  simp only [Nat.add_sub_cancel, Nat.reduceSubDiff]
  simp only [Vector.toList_mk, cons_append, nil_append, zero, one, two, three]

theorem readHeader_headerBytes (sized : h.length = pl.length)
    (fits : (headerBytes h).length + pl.length < 2 ^ 63)
    (rsv : h.rsv < 8) (opCode : h.opCode < 16) (rest : Bytes) :
    readHeader (headerBytes h ++ rest) =
      { h with mask := if h.masked then h.mask else noMask } := by
  have first : (headerBytes h ++ rest).getD 0 0 = firstByte h := rfl
  have second : (headerBytes h ++ rest).getD 1 0 = secondByte h := rfl
  have fields := firstByte_fields h.fin ⟨h.rsv.toNat, UInt8.lt_iff_toNat_lt.mp rsv⟩
    ⟨h.opCode.toNat, UInt8.lt_iff_toNat_lt.mp opCode⟩
  simp only [UInt8.ofNat_toNat] at fields
  obtain ⟨fin, reserved, code⟩ := fields
  have key : (if h.masked = true then maskKey (headerBytes h ++ rest) (headerBytes h).length
      else noMask) = if h.masked then h.mask else noMask := by
    cases masked : h.masked with
    | false => rfl
    | true =>
      rw [if_pos rfl, if_pos rfl, headerBytes_length, masked, if_pos rfl]
      unfold headerBytes
      rw [masked, if_pos rfl, append_assoc]
      apply maskKey_append
      simp only [length_cons]
      omega
  unfold readHeader
  simp only [first, second, secondByte_masked, calcHeaderSize_secondByte,
    frameLength_headerBytes sized fits, key]
  congr 1
  exact Bool.decide_eq_true

/-- Decoding undoes encoding, whatever follows the frame. -/
theorem frame_roundtrip (h : Header) (payload rest : Bytes) (limit : Int) (rsv : h.rsv < 8)
    (opCode : h.opCode < 16) (sized : h.length = payload.length)
    (fits : (calcPktSize h).2 + h.length < 2 ^ 63)
    (within : limit > 0 → (payload.length : Int) ≤ limit) :
    let f := buildFrame h payload
    parseFrame limit (f ++ rest) = ((f.length : Int), (f.length : Int)) ∧
      (calcHeaderSize (f.getD 1 0) : Int) = (calcPktSize h).2 ∧
      readHeader f = { h with mask := if h.masked then h.mask else #v[0, 0, 0, 0] } ∧
      f.drop (calcHeaderSize (f.getD 1 0)) = payload ∧
      (h.fin = true → h.rsv = 0 → h.masked = false → BuildWsPkt payload h.opCode = f) := by
  have header := calcPktSize_header sized
  rw [header, sized] at fits
  have built := buildFrame_eq sized (by omega)
  have second : (headerBytes h ++ payload).getD 1 0 = secondByte h := rfl
  intro f
  have frame : f = headerBytes h ++ payload := built
  refine ⟨?_, ?_, ?_, ?_, fun fin zero bare => ?_⟩
  · rw [frame]
    exact parseFrame_headerBytes sized (by omega) within rest rfl
  · rw [frame, second, calcHeaderSize_secondByte, header]
  · rw [frame]
    exact readHeader_headerBytes sized (by omega) rsv opCode payload
  · rw [frame, second, calcHeaderSize_secondByte, List.drop_left]
  have bytes : headerBytes ⟨true, 0, h.opCode, false, noMask, payload.length⟩ =
      headerBytes h := by
    unfold headerBytes secondByte firstByte
    simp only [fin, zero, bare, sized]
    rfl
  rw [frame, ← bytes]
  refine fill_eq rfl ?_
  rw [bytes]
  omega

/-- A binary frame of three bytes, with another frame behind it. -/
theorem frame_roundtrip_binary :
    parseFrame 16 (buildFrame ⟨true, 0, 2, true, #v[1, 2, 3, 4], 3⟩ [7, 8, 9] ++ [0x89, 0]) =
        (9, 9) ∧
      (readHeader (buildFrame ⟨true, 0, 2, true, #v[1, 2, 3, 4], 3⟩ [7, 8, 9])).mask =
        #v[1, 2, 3, 4] := by
  obtain ⟨parsed, _, header, _⟩ := frame_roundtrip ⟨true, 0, 2, true, #v[1, 2, 3, 4], 3⟩ [7, 8, 9]
    [0x89, 0] 16 (by decide) (by decide) rfl (by decide) (by decide)
  exact ⟨parsed, congrArg Header.mask header⟩

/-- The announced length is in the shortest form that holds it. -/
def MinimalLength (inp : Bytes) : Prop :=
  (inp.getD 1 0 &&& 0x7f = 126 → 125 < frameLength inp) ∧
    (inp.getD 1 0 &&& 0x7f = 127 → 65535 < frameLength inp)

theorem firstByte_readHeader : ∀ b : UInt8, firstByte ⟨decide (b &&& 0x80 ≠ 0), (b &&& 0x70) >>> 4,
    b &&& 0x0f, false, noMask, 0⟩ = b := by
  decide +kernel

theorem second_bits : ∀ b : UInt8, (b &&& 0x7f < 128) ∧
    (b &&& 0x80 ≠ 0 → (b &&& 0x7f) ||| 0x80 = b) ∧ (b &&& 0x80 = 0 → b &&& 0x7f = b) := by
  decide +kernel

theorem calcHeaderSize_bounds (b : UInt8) : 2 ≤ calcHeaderSize b ∧ calcHeaderSize b ≤ 14 := by
  unfold calcHeaderSize
  dsimp only
  split <;> split <;> (try split) <;> omega

theorem frameLength_lt (inp : Bytes) : frameLength inp < 2 ^ 63 := by
  have short := value_lt ((inp.drop 2).take 2)
  have width : ((inp.drop 2).take 2).length ≤ 2 := length_take_le _ _
  have bound : 256 ^ ((inp.drop 2).take 2).length ≤ 256 ^ 2 := Nat.pow_le_pow_right (by omega) width
  have code := (inp.getD 1 0 &&& 0x7f).toNat_lt
  unfold frameLength
  dsimp only
  split
  · omega
  split
  · unfold int64
    have := Int.bmod_lt (x := (value ((inp.drop 2).take 8) : Int)) (m := 2 ^ 64)
    omega
  · omega

/-- Only the longest form can announce a negative length. -/
theorem frameLength_nonneg (inp : Bytes) (short : inp.getD 1 0 &&& 0x7f ≠ 127) :
    0 ≤ frameLength inp := by
  unfold frameLength
  dsimp only
  split <;> omega

/-- With a complete header, what `parseFrame` adds up. It overflows to a negative number
when the announced length is close to the largest one. -/
theorem total_cases (inp : Bytes)
    (fine : ¬ (inp.getD 1 0 &&& 0x7f = 127 ∧ frameLength inp < 0)) :
    let total := int64 (frameLength inp + calcHeaderSize (inp.getD 1 0))
    0 ≤ frameLength inp ∧
      (total < 0 ∨ total = frameLength inp + calcHeaderSize (inp.getD 1 0)) := by
  have bounds := calcHeaderSize_bounds (inp.getD 1 0)
  have high := frameLength_lt inp
  have low : 0 ≤ frameLength inp := by
    by_cases long : inp.getD 1 0 &&& 0x7f = 127
    · exact Int.not_lt.mp fun negative => fine ⟨long, negative⟩
    · exact frameLength_nonneg inp long
  refine ⟨low, ?_⟩
  by_cases small : frameLength inp + calcHeaderSize (inp.getD 1 0) < 2 ^ 63
  · exact .inr (int64_of_small (by omega) small)
  unfold int64
  rw [Int.bmod_def]
  split <;> omega

/-- What it means that a frame was accepted. -/
theorem parseFrame_accepted {m : Int} (accepted : parseFrame limit inp = (n, m))
    (positive : 0 < n) :
    2 ≤ inp.length ∧ calcHeaderSize (inp.getD 1 0) ≤ inp.length ∧ 0 ≤ frameLength inp ∧
      n = frameLength inp + calcHeaderSize (inp.getD 1 0) ∧ n ≤ inp.length ∧ n < 2 ^ 63 := by
  have least : WSHeaderMinSize = 2 := rfl
  unfold parseFrame at accepted
  dsimp only at accepted
  split at accepted
  · cases accepted
    omega
  split at accepted
  · cases accepted
    omega
  split at accepted
  · cases accepted
    omega
  rename_i fine
  obtain ⟨low, wrapped | sum⟩ := total_cases inp fine
  · split at accepted
    · cases accepted
      omega
    split at accepted
    · cases accepted
      omega
    cases accepted
    omega
  split at accepted
  · cases accepted
    omega
  split at accepted
  · cases accepted
    omega
  cases accepted
  refine ⟨by omega, by omega, low, sum, by omega, ?_⟩
  exact Int.lt_of_lt_of_le (Int.bmod_lt (by decide)) (by decide)

theorem maskKey_toList (inp : Bytes) (size : Nat) (four : 4 ≤ size) (within : size ≤ inp.length) :
    (maskKey inp size).toList = (inp.drop (size - 4)).take 4 := by
  have split := take_append_drop (size - 4) inp
  have long : 4 ≤ (inp.drop (size - 4)).length := by
    rw [length_drop]
    omega
  match tail : inp.drop (size - 4), long with
  | a :: b :: c :: d :: rest, _ =>
    have key := maskKey_append (inp.take (size - 4)) rest #v[a, b, c, d] size
      (by rw [length_take]; omega)
    rw [tail] at split
    change inp.take (size - 4) ++ (#v[a, b, c, d].toList ++ rest) = inp at split
    rw [split] at key
    rw [key]
    rfl

/-- How many bytes of length follow the second byte. -/
def extendedSize (b : UInt8) : Nat :=
  if b &&& 0x7f = 126 then 2 else if b &&& 0x7f = 127 then 8 else 0

theorem calcHeaderSize_eq (b : UInt8) :
    calcHeaderSize b = 2 + extendedSize b + if b &&& 0x80 ≠ 0 then 4 else 0 := by
  unfold calcHeaderSize extendedSize
  split <;> split <;> (try split) <;> rfl

variable {b0 b1 : UInt8} {rest : Bytes}

/-- A complete header, part by part. -/
theorem take_header (header : calcHeaderSize b1 ≤ (b0 :: b1 :: rest).length) :
    (b0 :: b1 :: rest).take (calcHeaderSize b1) =
      b0 :: b1 :: rest.take (extendedSize b1) ++
        if b1 &&& 0x80 ≠ 0 then (maskKey (b0 :: b1 :: rest) (calcHeaderSize b1)).toList
        else [] := by
  have size := calcHeaderSize_eq b1
  split
  · rename_i masked
    rw [if_pos masked] at size
    rw [maskKey_toList _ _ (by omega) header,
      show calcHeaderSize b1 = extendedSize b1 + 4 + 2 by omega,
      show extendedSize b1 + 4 + 2 - 4 = extendedSize b1 + 2 by omega]
    simp only [take_succ_cons, drop_succ_cons, cons_append, take_add]
  rename_i bare
  rw [if_neg bare] at size
  rw [show calcHeaderSize b1 = extendedSize b1 + 2 by omega]
  simp only [take_succ_cons, append_nil]

/-- A number that two or eight bytes stand for is written back as those bytes. -/
theorem encode_take (rest : Bytes) (width : Nat) (long : width ≤ rest.length) :
    encode width (value (rest.take width)) = rest.take width ∧
      value (rest.take width) < 256 ^ width := by
  have size : (rest.take width).length = width := length_take_of_le long
  have back := encode_value (rest.take width)
  have small := value_lt (rest.take width)
  rw [size] at back small
  exact ⟨back, small⟩

theorem int64_nonneg {n : Nat} (small : n < 2 ^ 64) (positive : 0 ≤ int64 n) : int64 n = n := by
  by_cases low : n < 2 ^ 63
  · exact int64_of_small (by omega) (by omega)
  unfold int64 at positive
  rw [Int.bmod_def] at positive
  split at positive <;> omega

section

variable (header : calcHeaderSize b1 ≤ (b0 :: b1 :: rest).length)
include header

section

variable (fine : 0 ≤ frameLength (b0 :: b1 :: rest))
include fine

/-- The encoder chooses the form that was used exactly when that is the shortest one, and
then it writes the same length bytes. -/
theorem wire_forms : let n := (frameLength (b0 :: b1 :: rest)).toNat
    (extendedLength n).length ≤ extendedSize b1 ∧
      (MinimalLength (b0 :: b1 :: rest) ↔ lengthCode n = b1 &&& 0x7f) ∧
      (lengthCode n = b1 &&& 0x7f → extendedLength n = rest.take (extendedSize b1)) := by
  have size := calcHeaderSize_eq b1
  simp only [length_cons] at header
  have second : (b0 :: b1 :: rest).getD 1 0 = b1 := rfl
  have tail : (b0 :: b1 :: rest).drop 2 = rest := rfl
  unfold MinimalLength
  rw [second]
  unfold frameLength at fine ⊢
  dsimp only at fine ⊢
  rw [second, tail] at fine ⊢
  unfold extendedSize at size ⊢
  by_cases two : b1 &&& 0x7f = 126
  · simp only [two, if_true] at fine size ⊢
    obtain ⟨back, small⟩ := encode_take rest 2 (by omega)
    generalize value (rest.take 2) = n at back small
    rw [Int.toNat_natCast]
    rcases length_forms n with ⟨short, code, ext⟩ | ⟨long, _, code, ext⟩ | ⟨long, _⟩
    · obtain ⟨other, _⟩ := lengthCode_short short
      rw [code, ext]
      refine ⟨by simp, iff_of_false (fun minimal => ?_) other, fun clash => absurd clash other⟩
      have := minimal.1 trivial
      omega
    · rw [code, ext, back, length_take]
      refine ⟨by omega, iff_of_true ⟨fun _ => by omega, nofun⟩ rfl, fun _ => rfl⟩
    · omega
  by_cases eight : b1 &&& 0x7f = 127
  · simp only [eight, if_true, show (127 : UInt8) ≠ 126 by decide, if_false] at fine size ⊢
    obtain ⟨back, small⟩ := encode_take rest 8 (by omega)
    generalize value (rest.take 8) = n at back small fine
    rw [int64_nonneg small fine, Int.toNat_natCast]
    rcases length_forms n with ⟨short, code, ext⟩ | ⟨_, middle, code, ext⟩ | ⟨long, code, ext⟩
    · obtain ⟨_, other, _⟩ := lengthCode_short short
      rw [code, ext]
      refine ⟨by simp, iff_of_false (fun minimal => ?_) other, fun clash => absurd clash other⟩
      have := minimal.2 trivial
      omega
    · rw [code, ext, encode_length]
      refine ⟨by omega, iff_of_false (fun minimal => ?_) (by decide), fun clash => ?_⟩
      · have := minimal.2 trivial
        omega
      · exact absurd clash (by decide)
    rw [code, ext, back, length_take]
    refine ⟨by omega, iff_of_true ⟨nofun, fun _ => by omega⟩ rfl, fun _ => rfl⟩
  have bits := second_bits b1
  have small : (b1 &&& 0x7f).toNat ≤ 125 := by
    have below := UInt8.lt_iff_toNat_lt.mp bits.1
    have not126 : (b1 &&& 0x7f).toNat ≠ 126 := fun clash => two (UInt8.toNat.inj clash)
    have not127 : (b1 &&& 0x7f).toNat ≠ 127 := fun clash => eight (UInt8.toNat.inj clash)
    change _ < 128 at below
    omega
  simp only [two, eight, if_false, false_implies, and_self, true_iff, Int.toNat_natCast]
  rcases length_forms (b1 &&& 0x7f).toNat with ⟨_, code, ext⟩ | ⟨long, _⟩ | ⟨long, _⟩
  · rw [code, ext, UInt8.ofNat_toNat]
    exact ⟨Nat.le_refl _, rfl, fun _ => (take_zero).symm⟩
  · omega
  · omega

theorem headerBytes_readHeader_length :
    (headerBytes (readHeader (b0 :: b1 :: rest))).length ≤ calcHeaderSize b1 := by
  have masked : (readHeader (b0 :: b1 :: rest)).masked = true ↔ b1 &&& 0x80 ≠ 0 :=
    decide_eq_true_iff
  rw [headerBytes_length, calcHeaderSize_eq]
  simp only [masked]
  exact Nat.add_le_add_right (Nat.add_le_add_left (wire_forms header fine).1 2) _

theorem headerBytes_readHeader :
    headerBytes (readHeader (b0 :: b1 :: rest)) = (b0 :: b1 :: rest).take (calcHeaderSize b1) ↔
      MinimalLength (b0 :: b1 :: rest) := by
  obtain ⟨_, minimal, extended⟩ := wire_forms header fine
  have first : firstByte (readHeader (b0 :: b1 :: rest)) = b0 := firstByte_readHeader b0
  have code := secondByte_code (readHeader (b0 :: b1 :: rest))
  change secondByte (readHeader (b0 :: b1 :: rest)) &&& 0x7f =
    lengthCode (frameLength (b0 :: b1 :: rest)).toNat at code
  rw [take_header header, minimal]
  constructor
  · intro same
    have second : secondByte (readHeader (b0 :: b1 :: rest)) = b1 :=
      (cons.inj (cons.inj same).2).1
    rw [← code, second]
  intro chosen
  have bits := second_bits b1
  unfold headerBytes
  rw [first]
  by_cases masked : b1 &&& 0x80 ≠ 0
  · have flag : (readHeader (b0 :: b1 :: rest)).masked = true := decide_eq_true masked
    have key : (readHeader (b0 :: b1 :: rest)).mask =
        maskKey (b0 :: b1 :: rest) (calcHeaderSize b1) := if_pos masked
    have second : secondByte (readHeader (b0 :: b1 :: rest)) = b1 := by
      rw [secondByte, if_pos flag]
      exact (congrArg (· ||| 0x80) chosen).trans (bits.2.1 masked)
    rw [second, if_pos flag, if_pos masked, key]
    exact congrArg (fun ext => b0 :: b1 :: ext ++ _) (extended chosen)
  have flag : ¬ (readHeader (b0 :: b1 :: rest)).masked = true :=
    fun flag => masked (of_decide_eq_true flag)
  have second : secondByte (readHeader (b0 :: b1 :: rest)) = b1 := by
    rw [secondByte, if_neg flag]
    exact chosen.trans (bits.2.2 (not_not.mp masked))
  rw [second, if_neg flag, if_neg masked]
  exact congrArg (fun ext => b0 :: b1 :: ext ++ _) (extended chosen)

end

end

/-- Encoding undoes decoding on exactly those accepted frames whose length is in its
shortest form. -/
theorem reencode_iff (limit : Int) (inp : Bytes) (n : Nat) (positive : 0 < n)
    (accepted : parseFrame limit inp = ((n : Int), (n : Int))) :
    buildFrame (readHeader inp) ((inp.take n).drop (calcHeaderSize (inp.getD 1 0))) = inp.take n ↔
      MinimalLength inp := by
  obtain ⟨two, header, fine, total, within, small⟩ := parseFrame_accepted accepted (by omega)
  match inp, two with
  | b0 :: b1 :: rest, _ =>
    have second : (b0 :: b1 :: rest).getD 1 0 = b1 := rfl
    rw [second] at header total ⊢
    have whole : (b0 :: b1 :: rest).take n = (b0 :: b1 :: rest).take (calcHeaderSize b1) ++
        ((b0 :: b1 :: rest).take n).drop (calcHeaderSize b1) := by
      conv_lhs => rw [← List.take_append_drop (calcHeaderSize b1) ((b0 :: b1 :: rest).take n)]
      rw [List.take_take, Nat.min_eq_left (by omega)]
    have size : (((b0 :: b1 :: rest).take n).drop (calcHeaderSize b1)).length =
        n - calcHeaderSize b1 := by
      rw [List.length_drop, List.length_take]
      omega
    have sized : (readHeader (b0 :: b1 :: rest)).length =
        (((b0 :: b1 :: rest).take n).drop (calcHeaderSize b1)).length := by
      change frameLength (b0 :: b1 :: rest) = _
      omega
    have shorter := headerBytes_readHeader_length header fine
    generalize ((b0 :: b1 :: rest).take n).drop (calcHeaderSize b1) = payload at whole size sized
    rw [buildFrame_eq sized (by omega), whole, List.append_cancel_right_eq]
    exact headerBytes_readHeader header fine

theorem reencode_iff_short : parseFrame 0 [0x82, 3, 7, 8, 9] = (5, 5) ∧
    buildFrame (readHeader [0x82, 3, 7, 8, 9]) [7, 8, 9] = [0x82, 3, 7, 8, 9] :=
  ⟨by decide,
    (reencode_iff 0 [0x82, 3, 7, 8, 9] 5 (by decide) (by decide)).mpr ⟨by decide, by decide⟩⟩

/-- A frame of one byte that announces its length in two bytes is accepted, and encoding
it again gives another frame. -/
theorem overlong_length_accepted :
    parseFrame 0 [0x82, 126, 0, 1, 7] = (5, 5) ∧
      buildFrame (readHeader [0x82, 126, 0, 1, 7]) [7] = [0x82, 1, 7] := by
  decide

/-- A complete header says the same with more bytes behind it. -/
theorem header_append (x y : Bytes) (two : 2 ≤ x.length)
    (header : calcHeaderSize (x.getD 1 0) ≤ x.length) :
    (x ++ y).getD 1 0 = x.getD 1 0 ∧ frameLength (x ++ y) = frameLength x := by
  match x, two with
  | b0 :: b1 :: rest, _ =>
    refine ⟨rfl, ?_⟩
    have size := calcHeaderSize_eq b1
    have long : extendedSize b1 ≤ rest.length := by
      change calcHeaderSize b1 ≤ rest.length + 2 at header
      omega
    unfold extendedSize at long
    change (if b1 &&& 0x7f = 126 then (value ((rest ++ y).take 2) : Int)
      else if b1 &&& 0x7f = 127 then int64 (value ((rest ++ y).take 8))
      else (b1 &&& 0x7f).toNat) =
      if b1 &&& 0x7f = 126 then (value (rest.take 2) : Int)
      else if b1 &&& 0x7f = 127 then int64 (value (rest.take 8))
      else (b1 &&& 0x7f).toNat
    by_cases short : b1 &&& 0x7f = 126
    · rw [if_pos short] at long
      rw [if_pos short, if_pos short, take_append_of_le_length long]
    rw [if_neg short] at long
    rw [if_neg short, if_neg short]
    by_cases eight : b1 &&& 0x7f = 127
    · rw [if_pos eight] at long
      rw [if_pos eight, if_pos eight, take_append_of_le_length long]
    · rw [if_neg eight, if_neg eight]

theorem parseFrame_tiny (short : inp.length < 2) : parseFrame limit inp = (0, 2) := by
  exact if_pos short

theorem parseFrame_cut (two : 2 ≤ inp.length)
    (short : inp.length < calcHeaderSize (inp.getD 1 0)) :
    parseFrame limit inp = (0, (calcHeaderSize (inp.getD 1 0) : Int)) := by
  have least : WSHeaderMinSize = 2 := rfl
  unfold parseFrame
  rw [if_neg (by omega)]
  exact if_pos short

theorem parseFrame_complete (header : calcHeaderSize (inp.getD 1 0) ≤ inp.length) :
    parseFrame limit inp =
      if inp.getD 1 0 &&& 0x7f = 127 ∧ frameLength inp < 0 then (-1, -1)
      else if limit > 0 ∧ frameLength inp > limit then (-1, -1)
      else if int64 (frameLength inp + calcHeaderSize (inp.getD 1 0)) > inp.length then
        (0, int64 (frameLength inp + calcHeaderSize (inp.getD 1 0)))
      else (int64 (frameLength inp + calcHeaderSize (inp.getD 1 0)),
        int64 (frameLength inp + calcHeaderSize (inp.getD 1 0))) := by
  have least : WSHeaderMinSize = 2 := rfl
  have bounds := calcHeaderSize_bounds (inp.getD 1 0)
  unfold parseFrame
  rw [if_neg (by omega)]
  exact if_neg (by omega)

/-- The second byte is there as soon as two bytes are. -/
theorem second_append (x y : Bytes) (two : 2 ≤ x.length) : (x ++ y).getD 1 0 = x.getD 1 0 :=
  getD_append x y 0 1 two

/-- More bytes never change what has been decided about a frame. -/
theorem parseFrame_append (limit : Int) (x y : Bytes) :
    (0 < (parseFrame limit x).1 → (parseFrame limit x).1 ≤ x.length ∧
        (parseFrame limit (x ++ y)).1 = (parseFrame limit x).1) ∧
      ((parseFrame limit x).1 < 0 → (parseFrame limit (x ++ y)).1 < 0) ∧
      ((parseFrame limit x).1 = 0 → x.length < (parseFrame limit x).2 ∧
        ((x ++ y).length < (parseFrame limit x).2 → (parseFrame limit (x ++ y)).1 = 0)) := by
  have grown : (x ++ y).length = x.length + y.length := length_append
  by_cases two : 2 ≤ x.length
  · by_cases header : calcHeaderSize (x.getD 1 0) ≤ x.length
    · obtain ⟨second, length⟩ := header_append x y two header
      have longer : calcHeaderSize ((x ++ y).getD 1 0) ≤ (x ++ y).length := by
        rw [second]
        omega
      rw [parseFrame_complete header, parseFrame_complete longer, second, length]
      by_cases negative : x.getD 1 0 &&& 0x7f = 127 ∧ frameLength x < 0
      · rw [if_pos negative, if_pos negative]
        exact ⟨nofun, fun _ => by decide, nofun⟩
      have total := total_cases x negative
      have bounds := calcHeaderSize_bounds (x.getD 1 0)
      rw [if_neg negative, if_neg negative]
      generalize int64 (frameLength x + calcHeaderSize (x.getD 1 0)) = sum at total
      split
      · exact ⟨nofun, fun _ => by decide, nofun⟩
      · refine ⟨?_, ?_, ?_⟩ <;> split <;> split <;> dsimp only <;> omega
    rw [parseFrame_cut two (by omega)]
    refine ⟨nofun, nofun, fun _ => ⟨by dsimp only; omega, fun short => ?_⟩⟩
    dsimp only at short
    rw [parseFrame_cut (by omega) (by rw [second_append x y two]; omega)]
  rw [parseFrame_tiny (by omega)]
  refine ⟨nofun, nofun, fun _ => ⟨by dsimp only; omega, fun short => ?_⟩⟩
  dsimp only at short
  rw [parseFrame_tiny (by omega)]

end Connaxis.WebSocket
