import Connaxis.Lib.MachineInt
import Connaxis.RingBufferFrame

namespace Connaxis

open Memory MachineInt Option Heap Slice

/-- A ring buffer whose size and positions are `int`s. -/
structure IntRing where
  buf : Slice
  size : Int
  r : Int
  w : Int
deriving DecidableEq, Repr

namespace IntRing

/-! The operations with the arithmetic of an `int` and with every slice expression and every
division checked as Go checks them; `none` is a panic. -/

variable (a : Arith) (A : Allocator UInt8)

/-- `s[i:j]` of a slice that has no room behind it. -/
def cut (s : Slice) (i j : Int) : Option Slice :=
  if 0 ≤ i ∧ i ≤ j ∧ j ≤ s.len then some ((s.tail i.toNat).front (j - i).toNat) else none

/-- `n % size`, which has the sign of `n`. -/
def rem (n size : Int) : Option Int := if size = 0 then none else some (n.tmod size)

def newRingBuffer : IntRing := ⟨nil, 0, 0, 0⟩

def capacity (r : IntRing) : Int := r.size

def has (r : IntRing) : Int := a.norm (r.w - r.r)

def free (r : IntRing) : Int := a.norm (r.size - a.norm (r.w - r.r))

/-- The copies of `resize` and `AlignBytes`. -/
def unwrap (h : Heap UInt8) (r : IntRing) (buf : Slice) : Option (Heap UInt8) := do
  let n := a.norm (r.w - r.r)
  let start ← rem r.r r.size
  if a.norm (start + n) < r.size then
    let src ← cut r.buf start (a.norm (start + n))
    some (h.copy buf src)
  else
    let copyed := a.norm (r.size - start)
    let src ← cut r.buf start r.size
    let dst ← cut buf copyed buf.len
    let rest ← cut r.buf 0 (a.norm (n - copyed))
    some ((h.copy buf src).copy dst rest)

/-- The inner `none` is the -1 that reports that there is no buffer. -/
def resize (h : Heap UInt8) (r : IntRing) (resize : Int) :
    Option (Option (Heap UInt8 × IntRing)) :=
  match h.alloc A resize.toNat with
  | none => some none
  | some (h, buf) =>
    let n := a.norm (r.w - r.r)
    (if n > 0 then unwrap a h r buf else some h).map fun h =>
      some (h.put A r.buf, ⟨buf, buf.len, 0, if n > 0 then n else 0⟩)

/-- `Write` and `PeekWrite` see to it that there is room for `length` bytes. -/
def grow (h : Heap UInt8) (r : IntRing) (length : Int) : Option (Option (Heap UInt8 × IntRing)) :=
  let avail := a.norm (r.size - a.norm (r.w - r.r))
  if avail < length then r.resize a A h (a.norm (a.norm (length - avail) + r.size))
  else some (some (h, r))

/-- `Write` takes a first buffer without a look at the result. -/
def first (h : Heap UInt8) (r : IntRing) (length : Int) : Heap UInt8 × IntRing :=
  if r.size = 0 then
    match h.alloc A length.toNat with
    | some (h, buf) => (h, { r with buf := buf, size := buf.len })
    | none => (h, { r with buf := nil, size := 0 })
  else (h, r)

/-- The copies of `Write` into a ring that has room. -/
def store (h : Heap UInt8) (r : IntRing) (p : Slice) (length : Int) : Option (Heap UInt8) := do
  let start ← rem r.w r.size
  let dst ← cut r.buf start r.buf.len
  if a.norm (start + length) < r.size then some (h.copy dst p)
  else
    let copyed := a.norm (r.size - start)
    let src ← cut p 0 copyed
    let rest ← cut p copyed p.len
    some ((h.copy dst src).copy r.buf rest)

/-- The number of bytes accepted, -1 for a bad argument, -2 when no larger buffer is to be had. -/
def write (h : Heap UInt8) (r : IntRing) (p : Slice) (length : Int) (update : Bool) :
    Option (Heap UInt8 × IntRing × Int) :=
  let (h, r) := r.first A h length
  if p.len = 0 ∨ length > p.len then some (h, r, -1)
  else match r.grow a A h length with
    | none => none
    | some none => some (h, r, -2)
    | some (some (h, r)) => (r.store a h p length).map fun h =>
      (h, if update then { r with w := a.norm (r.w + length) } else r, length)

def forward (r : IntRing) (step : Int) : RingOp → IntRing × Int
  | .opRead =>
    if a.norm (r.r + step) > r.w then (r, -1)
    else if a.norm (r.r + step) = r.w then ({ r with r := 0, w := 0 }, 0)
    else ({ r with r := a.norm (r.r + step) }, 0)
  | .opWrite =>
    if a.norm (a.norm (r.w + step) - r.r) > r.size then (r, -1)
    else ({ r with w := a.norm (r.w + step) }, 0)

def reset (h : Heap UInt8) (r : IntRing) : Heap UInt8 × IntRing :=
  (h.put A r.buf, ⟨nil, 0, 0, 0⟩)

def peek2 (r : IntRing) : Option (Slice × Slice) :=
  if r.size = 0 ∨ r.w = r.r then some (nil, nil)
  else do
    let n := a.norm (r.w - r.r)
    let start ← rem r.r r.size
    if a.norm (start + n) ≤ r.size then
      let head ← cut r.buf start (a.norm (start + n))
      some (head, nil)
    else
      let head ← cut r.buf start r.size
      let tail ← cut r.buf 0 (a.norm (a.norm (start + n) - r.size))
      some (head, tail)

/-- The window that `PeekWrite` returns from a ring that has room. -/
def window (r : IntRing) (length : Int) : Option Slice := do
  let start ← rem r.w r.size
  if a.norm (start + length) ≤ r.size then cut r.buf start (a.norm (start + length))
  else cut r.buf start r.size

def peekWrite (h : Heap UInt8) (r : IntRing) (length : Int) :
    Option (Heap UInt8 × IntRing × Slice) :=
  if length ≤ 0 then some (h, r, nil)
  else
    match if r.size = 0 then
        match h.alloc A length.toNat with
        | some (h, buf) => some (h, (⟨buf, buf.len, 0, 0⟩ : IntRing))
        | none => none
      else some (h, r) with
    | none => some (h, { r with buf := nil }, nil)
    | some (h, r) =>
      match r.grow a A h length with
      | none => none
      | some none => some (h, r, nil)
      | some (some (h, r)) => (r.window a length).map fun s => (h, r, s)

def alignBytes (h : Heap UInt8) (r : IntRing) : Option (Heap UInt8 × IntRing × Slice) := do
  let start ← rem r.r r.size
  if start = 0 then some (h, r, r.buf)
  else
    let (h, buf) := (h.alloc A r.size.toNat).getD (h, nil)
    let n := a.norm (r.w - r.r)
    let h ← if n > 0 then unwrap a h r buf else some h
    some (h.put A r.buf, { r with buf := buf, r := 0, w := if n > 0 then n else 0 }, buf)

def truncate (r : IntRing) : IntRing := { r with r := 0, w := 0 }

/-- The bytes are returned by value; `room` is the length of the caller's slice. -/
def read (h : Heap UInt8) (r : IntRing) (room length : Int) (update : Bool) :
    Option (IntRing × Bytes × Int) :=
  if room = 0 ∨ length > room then some (r, [], -1)
  else if r.w = r.r then some (r, [], 0)
  else do
    let n := if a.norm (r.w - r.r) > length then length else a.norm (r.w - r.r)
    let start ← rem r.r r.size
    let bytes ← (
      if a.norm (start + n) < r.size then do
        let src ← cut r.buf start (a.norm (start + n))
        some (h.read src)
      else do
        let copyed := a.norm (r.size - start)
        let src ← cut r.buf start r.size
        let rest ← cut r.buf 0 (a.norm (n - copyed))
        if 0 ≤ copyed ∧ copyed ≤ room then some (h.read src ++ h.read rest) else none)
    some (if update then { r with r := a.norm (r.r + n) } else r, bytes, n)

theorem cut_nat {s : Slice} {i j : Nat} (le : i ≤ j) (inside : j ≤ s.len) :
    cut s i j = some ((s.tail i).front (j - i)) := by
  rw [cut, if_pos (by omega)]
  congr 2
  omega

theorem rem_nat {size : Nat} (positive : 0 < size) (n : Nat) :
    rem n size = some ((n % size : Nat) : Int) := by
  rw [rem, if_neg (by omega), Int.ofNat_tmod]

end IntRing

namespace RingBuffer

/-- The same ring with its numbers as `int`s. -/
def toInt (r : RingBuffer) : IntRing := ⟨r.buf, r.size, r.r, r.w⟩

@[simp] theorem toInt_buf (r : RingBuffer) : r.toInt.buf = r.buf := rfl
@[simp] theorem toInt_size (r : RingBuffer) : r.toInt.size = r.size := rfl
@[simp] theorem toInt_r (r : RingBuffer) : r.toInt.r = r.r := rfl
@[simp] theorem toInt_w (r : RingBuffer) : r.toInt.w = r.w := rfl

/-- Every buffer is small enough that its size can be counted twice. -/
def Counted (a : Arith) (A : Allocator UInt8) : Prop :=
  ∀ n size bytes, A.get n size = some bytes → a.Holds (2 * bytes.length)

variable {a : Arith} {A : Allocator UInt8} {h h' : Heap UInt8} {r r' : RingBuffer}

theorem has_toInt (valid : Ok h r) (holds : a.Holds r.size) :
    a.norm ((r.w : Int) - r.r) = (r.has : Nat) := by
  exact a.norm_sub valid.ordered valid.fits holds

theorem free_toInt (valid : Ok h r) (holds : a.Holds r.size) :
    a.norm ((r.size : Int) - a.norm ((r.w : Int) - r.r)) = (r.size - (r.w - r.r) : Nat) := by
  rw [has_toInt valid holds]
  exact a.norm_sub valid.fits (Nat.sub_le _ _) holds

theorem unwrap_toInt (valid : Ok h r) (nonempty : 0 < r.has) {buf : Slice} (room : r.has ≤ buf.len)
    (holds : a.Holds (2 * r.size)) (h₁ : Heap UInt8) :
    r.toInt.unwrap a h₁ buf = some (r.unwrap h₁ buf) := by
  have fits : r.has ≤ r.size := valid.fits
  have sized := valid.sized
  have start : r.r % r.size < r.size := Nat.mod_lt _ (by omega)
  have plain : r.unwrap h₁ buf =
      if r.r % r.size + r.has < r.size then h₁.copy buf ((r.buf.tail (r.r % r.size)).front r.has)
      else (h₁.copy buf ((r.buf.tail (r.r % r.size)).front (r.size - r.r % r.size))).copy
        (buf.tail (r.size - r.r % r.size))
        (r.buf.front (r.has - (r.size - r.r % r.size))) := rfl
  rw [plain]
  unfold IntRing.unwrap toInt
  simp only [has_toInt valid (a.mono (by omega) holds), IntRing.rem_nat (show 0 < r.size by omega),
    bind_eq_bind, bind_some]
  rw [a.norm_add (by omega) holds, a.norm_sub (by omega) (by omega) holds]
  by_cases straight : r.r % r.size + r.has < r.size
  · rw [if_pos straight, if_pos (by omega), IntRing.cut_nat (by omega) (by omega), bind_some,
      Nat.add_sub_cancel_left]
  rw [if_neg straight, if_neg (by omega), IntRing.cut_nat (by omega) (by omega), bind_some,
    IntRing.cut_nat (by omega) (by omega), bind_some,
    a.norm_sub (by omega) (by omega) holds, ← Int.natCast_zero,
    IntRing.cut_nat (by omega) (by omega), bind_some]
  rfl

theorem resize_toInt (valid : Ok h r) {n : Nat} (room : r.has ≤ n) (holds : a.Holds (2 * r.size)) :
    r.toInt.resize a A h n =
      some ((r.resize A h n).map fun (h, r) => (h, r.toInt)) := by
  have held := has_toInt valid (a.mono (show r.size ≤ 2 * r.size by omega) holds)
  unfold IntRing.resize resize
  rw [Int.toNat_natCast]
  cases granted : h.alloc A n with
  | none => rfl
  | some pair =>
    obtain ⟨fresh, buf⟩ := pair
    have enough := (alloc_cases granted).2.2.1
    dsimp only
    rw [show r.toInt.w - r.toInt.r = (r.w : Int) - r.r from rfl, held]
    by_cases filled : 0 < r.has
    · have taken : r.w - r.r > 0 := filled
      rw [if_pos (by omega), if_pos (by omega), if_pos taken, if_pos taken,
        unwrap_toInt valid filled (by omega) holds]
      rfl
    have void : ¬ r.w - r.r > 0 := filled
    rw [if_neg (by omega), if_neg (by omega), if_neg void, if_neg void]
    rfl

variable {length : Nat}

theorem store_toInt (valid : Ok h r) (positive : 0 < r.size) {p : Slice}
    (room : r.has + length ≤ r.size) (long : length ≤ p.len) (holds : a.Holds (2 * r.size))
    (h₁ : Heap UInt8) : r.toInt.store a h₁ p length = some (put h₁ r p length) := by
  have sized := valid.sized
  have start : r.w % r.size < r.size := Nat.mod_lt _ positive
  unfold IntRing.store put toInt
  simp only [IntRing.rem_nat positive, bind_eq_bind, bind_some]
  rw [IntRing.cut_nat (by omega) (by omega), bind_some, a.norm_add (by omega) holds,
    a.norm_sub (by omega) (by omega) holds]
  by_cases straight : r.w % r.size + length < r.size
  · rw [if_pos straight, if_pos (by omega)]
    rfl
  rw [if_neg straight, if_neg (by omega), ← Int.natCast_zero,
    IntRing.cut_nat (by omega) (by omega), bind_some,
    IntRing.cut_nat (by omega) (by omega), bind_some]
  rfl

theorem grow_toInt (valid : Ok h r) (count : a.Holds (2 * r.size))
    (reach : a.Holds (r.w + length)) :
    r.toInt.grow a A h length = some ((r.grow A h length).map fun (h, r) => (h, r.toInt)) := by
  have fits := valid.fits
  have avail := free_toInt valid (a.mono (show r.size ≤ 2 * r.size by omega) count)
  unfold IntRing.grow grow
  rw [show r.toInt.size - a.norm (r.toInt.w - r.toInt.r) =
    (r.size : Int) - a.norm ((r.w : Int) - r.r) from rfl, avail]
  by_cases short : r.size - (r.w - r.r) < length
  · rw [if_pos (by omega), if_pos short, a.norm_sub (by omega) (by omega) reach, toInt_size,
      a.norm_add (by omega) reach]
    exact resize_toInt valid (by unfold RingBuffer.has; omega) count
  rw [if_neg (by omega), if_neg short]
  rfl

theorem Moved.counted (moved : Moved A h r h' r') (count : a.Holds (2 * r.size))
    (small : Counted a A) : a.Holds (2 * r'.size) :=
  moved.got.keeps (P := fun n => a.Holds (2 * n)) count (a.mono (Nat.zero_le _) count) small

/-- What making room leads to. -/
theorem grow_room (valid : Ok h r) (count : a.Holds (2 * r.size)) (small : Counted a A)
    (done : r.grow A h length = some (h', r')) :
    Ok h' r' ∧ r'.has + length ≤ r'.size ∧ a.Holds (2 * r'.size) ∧
      (r' = r ∧ h' = h ∨ r'.w = r'.has ∧ 0 < length) := by
  obtain ⟨moved, _, room, same | ⟨zero, filled⟩⟩ := grow_moved done
  · exact ⟨(moved.kept valid).1, room valid, moved.counted count small, .inl same⟩
  refine ⟨(moved.kept valid).1, room valid, moved.counted count small, .inr ⟨?_, filled⟩⟩
  rw [RingBuffer.has, zero, Nat.sub_zero]

theorem first_toInt (h : Heap UInt8) (r : RingBuffer) (length : Nat) :
    r.toInt.first A h length = ((r.first A h length).1, (r.first A h length).2.toInt) := by
  unfold IntRing.first first
  rw [Int.toNat_natCast]
  by_cases unset : r.size = 0
  · rw [if_pos (by rw [toInt_size]; omega), if_pos unset]
    cases h.alloc A length with
    | none | some => rfl
  · rw [if_neg (by rw [toInt_size]; omega), if_neg unset]

theorem first_w (h : Heap UInt8) (r : RingBuffer) (length : Nat) :
    (r.first A h length).2.w = r.w := by
  unfold first
  split
  · cases h.alloc A length <;> rfl
  · rfl

theorem write_toInt (valid : Ok h r) {p : Slice}
    (busy : 0 < length ∨ 0 < (r.first A h length).2.size ∨ p.len = 0)
    (count : a.Holds (2 * r.size)) (reach : a.Holds (r.w + length)) (small : Counted a A)
    (update : Bool) :
    r.toInt.write a A h p length update =
      some ((r.write A h p length update).1, (r.write A h p length update).2.1.toInt,
        (r.write A h p length update).2.2) := by
  rcases opened : r.first A h length with ⟨h₁, r₁⟩
  have same := first_w (A := A) h r length
  have count₁ := (first_moved opened).counted count small
  obtain ⟨valid₁, _⟩ := (first_moved opened).kept valid
  rw [opened] at busy same
  dsimp only at same
  rw [write_eq, IntRing.write, first_toInt, opened]
  dsimp only
  by_cases bad : p.len = 0 ∨ length > p.len
  · rw [if_pos bad, if_pos (by omega)]
  rw [if_neg bad, if_neg (by omega), grow_toInt valid₁ count₁ (by rw [same]; exact reach)]
  cases grown : r₁.grow A h₁ length with
  | none => rfl
  | some pair =>
    obtain ⟨h₂, r₂⟩ := pair
    obtain ⟨valid₂, room, count₂, moved⟩ := grow_room valid₁ count₁ small grown
    have positive₂ : 0 < r₂.size := by
      dsimp only at busy
      rcases moved with ⟨rfl, rfl⟩ | _ <;> omega
    have next : a.norm ((r₂.w : Int) + length) = (r₂.w + length : Nat) := by
      rcases moved with ⟨rfl, rfl⟩ | ⟨start, _⟩
      · exact a.norm_add (by omega) reach
      · exact a.norm_add (by omega) count₂
    simp only [map_some]
    rw [store_toInt valid₂ positive₂ room (by omega) count₂]
    cases update with
    | false => rfl
    | true =>
      simp only [map_some, toInt, if_true]
      rw [next]

theorem forward_read_toInt (r : RingBuffer) {step : Nat} (reach : a.Holds (r.r + step)) :
    r.toInt.forward a step .opRead =
      ((r.forward step .opRead).1.toInt, (r.forward step .opRead).2) := by
  unfold IntRing.forward forward
  dsimp only
  rw [toInt_r, toInt_w, a.norm_add (Nat.le_refl _) reach]
  by_cases above : r.r + step > r.w
  · rw [if_pos above, if_pos (by omega)]
  rw [if_neg above, if_neg (by omega)]
  by_cases all : r.r + step = r.w
  · rw [if_pos all, if_pos (by omega)]
    rfl
  rw [if_neg all, if_neg (by omega)]
  rfl

section

variable (valid : Ok h r)
include valid

theorem forward_write_toInt {step : Nat} (reach : a.Holds (r.w + step)) :
    r.toInt.forward a step .opWrite =
      ((r.forward step .opWrite).1.toInt, (r.forward step .opWrite).2) := by
  have ordered := valid.ordered
  unfold IntRing.forward forward
  dsimp only
  rw [toInt_r, toInt_w, a.norm_add (Nat.le_refl _) reach, a.norm_sub (by omega) (by omega) reach,
    toInt_size]
  by_cases above : r.w + step - r.r > r.size
  · rw [if_pos above, if_pos (by omega)]
  rw [if_neg above, if_neg (by omega)]
  rfl

theorem peek2_toInt (count : a.Holds (2 * r.size)) : r.toInt.peek2 a = some r.peek2 := by
  have fits : r.has ≤ r.size := valid.fits
  have sized := valid.sized
  unfold IntRing.peek2 peek2
  rw [toInt_size, toInt_w, toInt_r]
  by_cases nothing : r.size = 0 ∨ r.w = r.r
  · rw [if_pos nothing, if_pos (by omega)]
  rw [if_neg nothing, if_neg (by omega)]
  have start : r.r % r.size < r.size := Nat.mod_lt _ (by omega)
  simp only [has_toInt valid (a.mono (by omega) count),
    IntRing.rem_nat (show 0 < r.size by omega), bind_eq_bind, bind_some, toInt_buf]
  rw [a.norm_add (by omega) count]
  change _ = some (if r.r % r.size + r.has ≤ r.size then _ else _)
  by_cases straight : r.r % r.size + r.has ≤ r.size
  · rw [if_pos straight, if_pos (by omega), IntRing.cut_nat (by omega) (by omega),
      bind_some, Nat.add_sub_cancel_left]
    rfl
  rw [if_neg straight, if_neg (by omega), IntRing.cut_nat (by omega) (by omega),
    bind_some, a.norm_sub (by omega) (by omega) count, ← Int.natCast_zero,
    IntRing.cut_nat (by omega) (by omega), bind_some]
  rfl

theorem window_toInt (positive : 0 < r.size) (room : r.has + length ≤ r.size)
    (count : a.Holds (2 * r.size)) : r.toInt.window a length = some (r.window length) := by
  have sized := valid.sized
  have start : r.w % r.size < r.size := Nat.mod_lt _ positive
  unfold IntRing.window window toInt
  simp only [IntRing.rem_nat positive, bind_eq_bind, bind_some]
  rw [a.norm_add (by omega) count]
  by_cases straight : r.w % r.size + length ≤ r.size
  · rw [if_pos straight, if_pos (by omega), IntRing.cut_nat (by omega) (by omega),
      Nat.add_sub_cancel_left]
  rw [if_neg straight, if_neg (by omega)]
  exact IntRing.cut_nat (by omega) sized

theorem offer_toInt (positive : 0 < r.size) (count : a.Holds (2 * r.size))
    (reach : a.Holds (r.w + length)) (small : Counted a A) :
    (match r.toInt.grow a A h length with
      | none => none
      | some none => some (h, r.toInt, nil)
      | some (some (h, r)) => (r.window a length).map fun s => (h, r, s)) =
    some ((offer A h r length).1, (offer A h r length).2.1.toInt, (offer A h r length).2.2) := by
  rw [grow_toInt valid count reach, offer]
  cases grown : r.grow A h length with
  | none => rfl
  | some pair =>
    obtain ⟨h₁, r₁⟩ := pair
    obtain ⟨valid₁, room, count₁, moved⟩ := grow_room valid count small grown
    have positive₁ : 0 < r₁.size := by
      rcases moved with ⟨rfl, rfl⟩ | _ <;> omega
    simp only [map_some]
    rw [window_toInt valid₁ positive₁ room count₁]
    rfl

theorem peekWrite_toInt (count : a.Holds (2 * r.size)) (reach : a.Holds (r.w + length))
    (small : Counted a A) :
    r.toInt.peekWrite a A h length =
      some ((r.peekWrite A h length).1, (r.peekWrite A h length).2.1.toInt,
        (r.peekWrite A h length).2.2) := by
  rw [IntRing.peekWrite, peekWrite_eq]
  by_cases nothing : length = 0
  · rw [if_pos nothing, if_pos (by omega)]
  rw [if_neg nothing, if_neg (by omega), toInt_size, Int.toNat_natCast]
  by_cases unset : r.size = 0
  · rw [if_pos unset, if_pos (by omega)]
    cases granted : h.alloc A length with
    | none => rfl
    | some pair =>
      obtain ⟨_, off, enough, live, _⟩ := alloc_cases granted
      obtain ⟨bytes, found, all⟩ := alloc_get granted
      exact offer_toInt (r := ⟨pair.2, pair.2.len, 0, 0⟩)
        ⟨⟨off, Nat.le_refl _, fun _ => live⟩, Nat.le_refl _, Nat.zero_le _⟩
        (show 0 < pair.2.len by omega) (all ▸ small _ _ _ found)
        (a.mono (show 0 + length ≤ r.w + length by omega) reach) small
  rw [if_neg unset, if_neg (by omega)]
  exact offer_toInt valid (by omega) count reach small

/-- A buffer of the ring's own size is to be had. -/
theorem alignBytes_toInt (positive : 0 < r.size) (count : a.Holds (2 * r.size))
    (granted : h.alloc A r.size ≠ none) :
    r.toInt.alignBytes a A h =
      some ((r.alignBytes A h).1, (r.alignBytes A h).2.1.toInt, (r.alignBytes A h).2.2) := by
  have fits : r.has ≤ r.size := valid.fits
  have held := has_toInt valid (a.mono (show r.size ≤ 2 * r.size by omega) count)
  unfold IntRing.alignBytes alignBytes
  simp only [toInt_buf, toInt_size, toInt_r, toInt_w, IntRing.rem_nat positive,
    bind_eq_bind, bind_some, Int.toNat_natCast, held]
  by_cases aligned : r.r % r.size = 0
  · rw [if_pos aligned, if_pos (by omega)]
  rw [if_neg aligned, if_neg (by omega)]
  obtain ⟨⟨fresh, buf⟩, took⟩ := ne_none_iff_exists'.mp granted
  have enough := (alloc_cases took).2.2.1
  rw [took]
  simp only [getD_some]
  by_cases filled : 0 < r.has
  · have taken : r.w - r.r > 0 := filled
    simp only [if_pos taken, if_pos (show ((r.has : Nat) : Int) > 0 by omega)]
    rw [unwrap_toInt valid filled (by omega) count]
    rfl
  have void : ¬ r.w - r.r > 0 := filled
  simp only [if_neg void, if_neg (show ¬ ((r.has : Nat) : Int) > 0 by omega)]
  rfl

theorem read_toInt {room : Nat} (count : a.Holds (2 * r.size)) (reach : a.Holds r.w)
    (update : Bool) :
    r.toInt.read a h room length update =
      some ((r.read h room length update).1.toInt, (r.read h room length update).2) := by
  have ordered := valid.ordered
  have fits : r.has ≤ r.size := valid.fits
  have sized := valid.sized
  unfold IntRing.read read
  rw [toInt_w, toInt_r, toInt_size, toInt_buf]
  by_cases bad : room = 0 ∨ length > room
  · rw [if_pos bad, if_pos (by omega)]
  rw [if_neg bad, if_neg (by omega)]
  by_cases nothing : r.w = r.r
  · rw [if_pos nothing, if_pos (by omega)]
  rw [if_neg nothing, if_neg (by omega)]
  have has : r.has = r.w - r.r := rfl
  have start : r.r % r.size < r.size := Nat.mod_lt _ (by omega)
  have taken : (if ((r.has : Nat) : Int) > length then (length : Int) else (r.has : Nat)) =
      (min (r.w - r.r) length : Nat) := by
    split <;> omega
  generalize amount : min (r.w - r.r) length = n at taken
  have next : a.norm ((r.r : Int) + n) = (r.r + n : Nat) := a.norm_add (by omega) reach
  simp only [has_toInt valid (a.mono (show r.size ≤ 2 * r.size by omega) count), taken]
  simp only [IntRing.rem_nat (show 0 < r.size by omega), bind_eq_bind,
    bind_some, next]
  rw [a.norm_add (by omega) count, a.norm_sub (by omega) (by omega) count]
  by_cases straight : r.r % r.size + n < r.size
  · rw [if_pos straight, if_pos (by omega), IntRing.cut_nat (by omega) (by omega),
      bind_some, bind_some, Nat.add_sub_cancel_left]
    cases update <;> rfl
  rw [if_neg straight, if_neg (by omega), IntRing.cut_nat (by omega) (by omega),
    bind_some, a.norm_sub (by omega) (by omega) count, ← Int.natCast_zero,
    IntRing.cut_nat (by omega) (by omega), bind_some, if_pos (by omega), bind_some]
  cases update <;> rfl

end

end RingBuffer

end Connaxis
