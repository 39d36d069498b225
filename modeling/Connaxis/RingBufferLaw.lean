import Connaxis.Lib.Runs
import Connaxis.RingBufferInt

namespace Connaxis

open Memory MachineInt List Option Runs Heap

variable {size length room : Nat} {n : Int}

namespace RingBuffer

/-- The sizes of buffers are buckets: a request for the size of some buffer is met with a buffer of
that very size. -/
def Bucketed (A : Allocator UInt8) : Prop :=
  ∀ n size bytes, A.get n size = some bytes →
    ∀ m, ∃ other, A.get m bytes.length = some other ∧ other.length = bytes.length

/-- The ring's size is that of some buffer. -/
def OfBucket (A : Allocator UInt8) (size : Nat) : Prop :=
  0 < size → ∃ n asked bytes, A.get n asked = some bytes ∧ bytes.length = size

variable {A : Allocator UInt8} {h h' : Heap UInt8} {r r' : RingBuffer}

theorem ofBucket_zero : OfBucket A 0 := fun impossible => absurd impossible (Nat.lt_irrefl 0)

theorem OfBucket.granted (own : OfBucket A size) (bucketed : Bucketed A) (positive : 0 < size)
    (h : Heap UInt8) : ∃ h' buf, h.alloc A size = some (h', buf) := by
  obtain ⟨n, asked, bytes, found, rfl⟩ := own positive
  obtain ⟨other, got, _⟩ := bucketed n asked bytes found h.next
  unfold alloc
  rw [got]
  exact ⟨_, _, rfl⟩

theorem OfBucket.count {a : Arith} (own : OfBucket A size) (small : Counted a A) :
    a.Holds (2 * size) := by
  rcases size.eq_zero_or_pos with rfl | positive
  · exact a.zero
  obtain ⟨n, asked, bytes, found, rfl⟩ := own positive
  exact small n asked bytes found

theorem Moved.bucket (moved : Moved A h r h' r') (own : OfBucket A r.size) :
    OfBucket A r'.size :=
  moved.got.keeps own ofBucket_zero fun n size bytes found _ => ⟨n, size, bytes, found, rfl⟩

theorem write_bucket (own : OfBucket A r.size) {p : Slice} {update : Bool}
    (done : r.write A h p length update = (h', r', n)) : OfBucket A r'.size := by
  rcases write_moved done with ⟨_, moved⟩ | ⟨_, _, _, h₁, r₁, moved, _, _, rfl, rfl⟩
  · exact moved.bucket own
  have kept := moved.bucket own
  split <;> exact kept

/-- `Write` of a whole slice appends it, or leaves the content as it is. -/
theorem write_law (valid : Ok h r) (own : OfBucket A r.size) {p : Slice} (source : p.Live h)
    (apart : 0 < r.size → p.base ≠ r.buf.base) (done : r.write A h p p.len true = (h', r', n)) :
    Ok h' r' ∧ OfBucket A r'.size ∧
      (n = p.len ∧ content h' r' = content h r ++ h.read p ∨
        n < 0 ∧ content h' r' = content h r) := by
  have bucket := write_bucket own done
  rcases write_moved done with ⟨refused, moved⟩ | ⟨_, positive, _⟩
  · obtain ⟨ok, same⟩ := moved.kept valid
    exact ⟨ok, bucket, .inr ⟨refused, same⟩⟩
  rcases write_queue valid source positive apart done with ⟨refused, moved⟩ | ⟨whole, ok, bytes⟩
  · obtain ⟨ok, same⟩ := moved.kept valid
    exact ⟨ok, bucket, .inr ⟨refused, same⟩⟩
  · exact ⟨ok, bucket, .inl ⟨whole, bytes⟩⟩

theorem read_eq (h : Heap UInt8) (r : RingBuffer) {n : Nat} (positive : 0 < n) (fits : n ≤ room)
    (update : Bool) :
    r.read h room n update =
      (if update then (r.read h n n true).1 else r, (r.read h n n true).2) := by
  have proper : ¬ (room = 0 ∨ n > room) := by omega
  have alone : ¬ (n = 0 ∨ n > n) := by omega
  unfold read
  simp only [if_neg proper, if_neg alone]
  by_cases empty : r.w = r.r
  · simp only [if_pos empty]
    cases update <;> rfl
  simp only [if_neg empty]
  cases update <;> rfl

/-- `Read` hands out the front of the content. -/
theorem read_law (valid : Ok h r) {n : Nat} (filled : 0 < room) (fits : n ≤ room) (update : Bool) :
    Ok h (r.read h room n update).1 ∧ (r.read h room n update).1.size = r.size ∧
      (r.read h room n update).2 = ((content h r).take n, ((min n r.has : Nat) : Int)) ∧
      content h (r.read h room n update).1 =
        if update then (content h r).drop n else content h r := by
  have code : (r.read h room n update).2.2 = ((min n r.has : Nat) : Int) := by
    unfold read
    rw [if_neg (by omega)]
    by_cases empty : r.w = r.r
    · rw [if_pos empty]
      unfold RingBuffer.has
      dsimp only
      omega
    rw [if_neg empty]
    unfold RingBuffer.has
    dsimp only
    omega
  by_cases positive : 0 < n
  · obtain ⟨ok, rest, taken, _, _, size⟩ := read_queue valid positive
    rw [read_eq h r positive fits] at code ⊢
    refine ⟨?_, ?_, Prod.ext taken code, ?_⟩ <;> cases update
    · exact valid
    · exact ok
    · rfl
    · exact size
    · rfl
    · exact rest
  have zero : n = 0 := by omega
  subst zero
  have out : (r.read h room 0 update).1 = r ∧ (r.read h room 0 update).2.1 = [] := by
    unfold read
    rw [if_neg (by omega)]
    by_cases empty : r.w = r.r
    · rw [if_pos empty]
      exact ⟨rfl, rfl⟩
    rw [if_neg empty, Nat.min_zero]
    dsimp only
    refine ⟨by cases update <;> rfl, ?_⟩
    have fits := valid.fits
    have ordered := valid.ordered
    rw [if_pos (by rw [Nat.add_zero]; exact Nat.mod_lt _ (by omega))]
    rfl
  rw [out.1]
  refine ⟨valid, rfl, Prod.ext out.2 code, ?_⟩
  cases update <;> rfl

/-- No cell of the window of `PeekWrite` holds a byte that has not been read. -/
def Clear (r : RingBuffer) (s : Slice) : Prop :=
  ∀ i < r.has, ∀ j < s.len, (r.r + i) % r.size ≠ s.off + j

variable {s : Slice}

theorem peekWrite_clear (valid : Ok h r) (done : r.peekWrite A h length = (h', r', s)) :
    r'.Clear s := by
  obtain ⟨moved, window⟩ := peekWrite_queue valid done
  obtain ⟨ok, _⟩ := moved.kept valid
  intro i unread j inside same
  obtain ⟨place, _, _, room, _⟩ := window (by omega)
  have start : r'.w % r'.size < r'.size := Nat.mod_lt _ (by omega)
  -- counted round the ring from the write position, the cell would be at two distances
  rw [cell_behind ok i, if_pos unread, ← Nat.mod_add_mod, turn _ _ _ start (by omega), place,
    Slice.front_off, Slice.tail_off, ok.start, Nat.zero_add] at same
  split at same <;> omega

/-- Bytes put into the window of `PeekWrite` are appended by `Forward`. -/
theorem fill_law (valid : Ok h r) (own : OfBucket A r.size)
    (done : r.peekWrite A h length = (h', r', s)) (bytes : Bytes) (few : bytes.length ≤ s.len) :
    Ok (h'.store s bytes) (r'.forward bytes.length .opWrite).1 ∧
      OfBucket A (r'.forward bytes.length .opWrite).1.size ∧
      (r'.forward bytes.length .opWrite).2 = 0 ∧
      content (h'.store s bytes) (r'.forward bytes.length .opWrite).1 =
        content h r ++ bytes := by
  obtain ⟨moves, window⟩ := peekWrite_queue valid done
  have kept := moves.bucket own
  obtain ⟨ok, same⟩ := moves.kept valid
  have fits := ok.fits
  have ordered := ok.ordered
  have moved : r'.forward bytes.length .opWrite = ({ r' with w := r'.w + bytes.length }, 0) := by
    have out : r'.forward bytes.length .opWrite =
        if r'.w + bytes.length - r'.r > r'.size then (r', -1)
        else ({ r' with w := r'.w + bytes.length }, 0) := rfl
    rw [out, if_neg]
    by_cases filled : 0 < s.len
    · have room := (window filled).room
      unfold RingBuffer.has at room
      omega
    · omega
  by_cases filled : 0 < bytes.length
  · obtain ⟨ok', appended, _, size⟩ := forward_written ok (window (by omega)) bytes few filled
    rw [← same]
    exact ⟨ok', size ▸ kept, congrArg Prod.snd moved, appended⟩
  have void : bytes = [] := eq_nil_of_length_eq_zero (by omega)
  subst void
  rw [moved, store_nil, append_nil, ← same]
  exact ⟨ok, kept, rfl, rfl⟩

end RingBuffer

namespace BytesAlloctor

variable {step rank : Nat}

/-- The pool's buffers come in buckets. -/
theorem allocator_bucketed (ranked : 0 < rank) (stale : Nat → Nat → UInt8) :
    RingBuffer.Bucketed (allocator step rank stale) := by
  intro n size bytes granted m
  obtain ⟨bucket, found, rfl⟩ := map_eq_some_iff.mp granted
  rw [length_map, length_range]
  refine ⟨(range bucket).map (stale m), ?_, ?_⟩
  · exact map_eq_some_iff.mpr ⟨bucket, target_again ranked found, rfl⟩
  · rw [length_map, length_range]

theorem allocator_counted {w : Size} (ranked : 0 < rank)
    (few : w.arith.Holds (2 * (setup step rank).max)) (stale : Nat → Nat → UInt8) :
    RingBuffer.Counted w.arith (allocator step rank stale) := by
  intro n size bytes granted
  obtain ⟨bucket, found, rfl⟩ := map_eq_some_iff.mp granted
  rw [length_map, length_range]
  exact w.arith.mono (Nat.mul_le_mul_left 2 (target_le_max ranked found)) few

end BytesAlloctor

/-- A ring buffer and the memory it lives in. -/
structure RingState where
  heap : Heap UInt8
  ring : IntRing

/-- The unread bytes of a ring. -/
def IntRing.content (h : Heap UInt8) (r : IntRing) : Bytes :=
  RingBuffer.content h ⟨r.buf, r.size.toNat, r.r.toNat, r.w.toNat⟩

def RingState.content (s : RingState) : Bytes := s.ring.content s.heap

/-- One use of a ring buffer. -/
inductive RingCall
  /-- `Write(&p, len(p), true)` -/
  | write (p : Bytes)
  /-- `Read(&p, n, update)` with a slice of length `room` -/
  | read (room n : Nat) (update : Bool)
  /-- `PeekWrite(n)`; as many of the bytes as there is room for are put into the slice, and
  `Forward` is called with their number -/
  | fill (n : Int) (bytes : Bytes)
  /-- `Forward(k, OpRead)` -/
  | forward (k : Nat)
  | peek2
  /-- `AlignBytes`, when there is a capacity -/
  | alignBytes
  | truncate
  | reset
deriving DecidableEq, Repr

/-- What a call tells its caller: the code it returns, the length of the slice it returns, and the
bytes that were read or put in. -/
structure RingAnswer where
  code : Int
  room : Nat
  bytes : Bytes
deriving DecidableEq, Repr

namespace RingCall

variable (a : Arith) (A : Allocator UInt8)

/-- Positions are taken to have the arithmetic of `a`; `none` is a panic. -/
def exec (s : RingState) : RingCall → Option (RingState × RingAnswer)
  | .write p =>
    let (h, src) := s.heap.lend p
    (s.ring.write a A h src p.length true).map fun (h, r, n) => (⟨h, r⟩, ⟨n, 0, []⟩)
  | .read room n update =>
    (s.ring.read a s.heap room n update).map fun (r, bytes, n) =>
      (⟨s.heap, r⟩, ⟨n, 0, bytes⟩)
  | .fill n bytes =>
    (s.ring.peekWrite a A s.heap n).map fun (h, r, window) =>
      let filled := bytes.take window.len
      let (r, code) := r.forward a filled.length .opWrite
      (⟨h.store window filled, r⟩, ⟨code, window.len, filled⟩)
  | .forward k =>
    let (r, code) := s.ring.forward a k .opRead
    some (⟨s.heap, r⟩, ⟨code, 0, []⟩)
  | .peek2 =>
    (s.ring.peek2 a).map fun (head, tail) =>
      (s, ⟨0, head.len + tail.len, s.heap.read head ++ s.heap.read tail⟩)
  | .alignBytes =>
    if s.ring.capacity > 0 then do
      let (h, r, buf) ← s.ring.alignBytes a A s.heap
      let front ← IntRing.cut buf 0 (r.has a)
      some (⟨h, r⟩, ⟨0, buf.len, h.read front⟩)
    else some (s, ⟨0, 0, []⟩)
  | .truncate => some (⟨s.heap, s.ring.truncate⟩, ⟨0, 0, []⟩)
  | .reset =>
    let (h, r) := s.ring.reset A s.heap
    some (⟨h, r⟩, ⟨0, 0, []⟩)

def step (s : RingState) (call : RingCall) : Option RingState :=
  (call.exec a A s).map Prod.fst

/-- The caller's side: no more is read than the slice has room for. -/
def Fits : RingCall → Prop
  | .read room n _ => n ≤ room
  | _ => True

instance : DecidablePred Fits
  | .read room n _ => inferInstanceAs (Decidable (n ≤ room))
  | .write _ | .fill _ _ | .forward _ | .peek2 | .alignBytes | .truncate | .reset => isTrue trivial

/-- The farthest position that the call may come to. -/
def reach (s : RingState) : RingCall → Nat
  | .write p => s.ring.w.toNat + p.length
  | .read _ _ _ => s.ring.w.toNat
  | .fill n _ => s.ring.w.toNat + n.toNat
  | .forward k => s.ring.r.toNat + k
  | _ => 0

/-- What a call does to a list of bytes, and what it answers. -/
def Effect (before : Bytes) (answer : RingAnswer) (after : Bytes) : RingCall → Prop
  | .write p =>
    answer.code = p.length ∧ after = before ++ p ∨ answer.code < 0 ∧ after = before
  | .read room n update =>
    if room = 0 then answer.code = -1 ∧ after = before
    else answer.code = (min n before.length : Nat) ∧ answer.bytes = before.take n ∧
      after = if update then before.drop n else before
  | .fill _ bytes =>
    answer.code = 0 ∧ answer.bytes = bytes.take answer.room ∧ after = before ++ answer.bytes
  | .forward k =>
    if k ≤ before.length then answer.code = 0 ∧ after = before.drop k
    else answer.code = -1 ∧ after = before
  | .peek2 => answer.bytes = before ∧ after = before
  | .alignBytes => answer.bytes = before ∧ after = before
  | .truncate => after = []
  | .reset => after = []

/-- The slice that `PeekWrite` returns holds no unread byte. -/
def Spares (s : RingState) : RingCall → Prop
  | .fill n _ => ∀ h r window, s.ring.peekWrite a A s.heap n = some (h, r, window) →
      ∀ i < (r.content h).length, ∀ j < window.len,
        (r.r.toNat + i) % r.size.toNat ≠ window.off + j
  | _ => True

/-- A step of a ring that is a queue of bytes. -/
structure Obeys (s : RingState) (call : RingCall) (next : RingState) : Prop where
  effect : ∃ answer, call.exec a A s = some (next, answer) ∧
    call.Effect s.content answer next.content
  spares : call.Spares a A s
  has : next.ring.has a = next.content.length
  free : next.ring.has a + next.ring.free a = next.ring.capacity

end RingCall

namespace RingState

/-- The ring is in order, and its size is that of some buffer. -/
def Sound (A : Allocator UInt8) (s : RingState) : Prop :=
  ∃ r : RingBuffer, s.ring = r.toInt ∧ RingBuffer.Ok s.heap r ∧ RingBuffer.OfBucket A r.size

variable {a : Arith} {A : Allocator UInt8}

theorem Sound.counts {s : RingState} (sound : s.Sound A) (small : RingBuffer.Counted a A) :
    s.ring.has a = s.content.length ∧
      s.ring.has a + s.ring.free a = s.ring.capacity := by
  obtain ⟨r, same, valid, own⟩ := sound
  have count := own.count small
  have has := RingBuffer.has_toInt valid (a.mono (by omega) count)
  have free := RingBuffer.free_toInt valid (a.mono (by omega) count)
  have fits : r.has ≤ r.size := valid.fits
  have length : s.content.length = r.has := by
    unfold content IntRing.content
    rw [same]
    exact RingBuffer.content_length _ _
  unfold IntRing.has IntRing.free IntRing.capacity
  rw [same, RingBuffer.toInt_size, RingBuffer.toInt_w, RingBuffer.toInt_r, free, has, length]
  unfold RingBuffer.has at *
  omega

end RingState

namespace RingCall

open RingBuffer RingState

variable {a : Arith} {A : Allocator UInt8} {h : Heap UInt8} {r : RingBuffer}

/-- A call that goes well: it does not panic, the ring stays sound, and the call does to the
content what it should. -/
def Good (a : Arith) (A : Allocator UInt8) (h : Heap UInt8) (r : RingBuffer) (call : RingCall) :
    Prop :=
  ∃ h' r' answer, call.exec a A ⟨h, r.toInt⟩ = some (⟨h', r'.toInt⟩, answer) ∧ Ok h' r' ∧
    OfBucket A r'.size ∧ call.Effect (content h r) answer (content h' r')

/-- A length that is not positive is taken as zero. -/
theorem peekWrite_toNat (h : Heap UInt8) (r : RingBuffer) (n : Int) :
    r.toInt.peekWrite a A h n = r.toInt.peekWrite a A h (n.toNat : Nat) := by
  by_cases nothing : n ≤ 0
  · rw [IntRing.peekWrite, IntRing.peekWrite, if_pos nothing, if_pos (by omega)]
  · rw [Int.toNat_of_nonneg (by omega)]

section

variable (valid : Ok h r) (own : OfBucket A r.size) (small : Counted a A)
include valid own small

theorem write_good (p : Bytes) (reach : a.Holds (r.w + p.length)) : Good a A h r (.write p) := by
  obtain ⟨valid₁, same, known⟩ := valid.lent p
  have source := lend_live h p
  have bytes := lend_read h p
  rcases done : r.write A (h.lend p).1 (h.lend p).2 p.length true with ⟨h', r', n⟩
  obtain ⟨ok, kept, effect⟩ := write_law valid₁ own source known done
  rw [same, bytes] at effect
  refine ⟨h', r', ⟨n, 0, []⟩, ?_, ok, kept, effect⟩
  have agreed : r.toInt.write a A (h.lend p).1 (h.lend p).2 p.length true = _ :=
    write_toInt valid₁ (p.length.eq_zero_or_pos.symm.imp_right .inr) (own.count small) reach small
      true
  rw [done] at agreed
  rw [exec]
  dsimp only
  rw [agreed]
  rfl

theorem read_good {n : Nat} (fits : n ≤ room) (reach : a.Holds r.w) (update : Bool) :
    Good a A h r (.read room n update) := by
  have agreed : r.toInt.read a h room n update = _ :=
    read_toInt valid (own.count small) reach update
  by_cases void : room = 0
  · have out : r.read h room n update = (r, [], -1) := by
      rw [RingBuffer.read, if_pos (.inl void)]
    rw [out] at agreed
    refine ⟨h, r, ⟨-1, 0, []⟩, ?_, valid, own, ?_⟩
    · rw [exec, agreed]
      rfl
    rw [Effect, if_pos void]
    exact ⟨rfl, rfl⟩
  obtain ⟨ok, size, answer, rest⟩ := read_law valid (by omega) fits update
  refine ⟨h, (r.read h room n update).1, ⟨(min n r.has : Nat), 0, (content h r).take n⟩, ?_, ok,
    size ▸ own, ?_⟩
  · rw [exec, agreed, answer]
    rfl
  rw [Effect, if_neg void, content_length]
  exact ⟨rfl, rfl, rest⟩

/-- The bytes put into the window end within what was asked for, or within the buffer. -/
theorem fill_reach (reach : a.Holds (r.w + length)) {h' : Heap UInt8} {r' : RingBuffer}
    {window : Slice} (done : r.peekWrite A h length = (h', r', window)) (bytes : Bytes) :
    a.Holds (r'.w + (bytes.take window.len).length) := by
  obtain ⟨moved, inside⟩ := peekWrite_queue valid done
  have fits : r.has ≤ r.size := valid.fits
  have few := length_take_le window.len bytes
  have count := own.count small
  have count' := moved.counted count small
  have has := moved.has valid
  rcases moved.turned valid with ⟨_, same, _⟩ | ⟨front, back⟩
  · by_cases filled : 0 < window.len
    · have short := (inside filled).short
      exact a.mono (by omega) reach
    · exact a.mono (by omega) reach
  by_cases filled : 0 < window.len
  · have room := (inside filled).room
    exact a.mono (by omega) count'
  · exact a.mono (by omega) count

theorem fill_good (n : Int) (bytes : Bytes) (reach : a.Holds (r.w + n.toNat)) :
    Good a A h r (.fill n bytes) ∧ (RingCall.fill n bytes).Spares a A ⟨h, r.toInt⟩ := by
  have agreed : r.toInt.peekWrite a A h (n.toNat : Nat) = _ :=
    peekWrite_toInt valid (own.count small) reach small
  rcases done : r.peekWrite A h n.toNat with ⟨h', r', window⟩
  rw [← peekWrite_toNat, done] at agreed
  have moved := forward_write_toInt ((peekWrite_queue valid done).1.kept valid).1
    (fill_reach valid own small reach done bytes)
  obtain ⟨ok', kept, code, appended⟩ := fill_law valid own done (bytes.take window.len)
    (by rw [length_take]; omega)
  refine ⟨⟨_, _, ⟨0, window.len, bytes.take window.len⟩, ?_, ok', kept, rfl, rfl, appended⟩, ?_⟩
  · rw [exec]
    dsimp only
    rw [agreed]
    dsimp only [map_some]
    rw [moved, code]
  intro h₁ r₁ s taken
  rw [agreed] at taken
  cases taken
  have clear := peekWrite_clear valid done
  intro i unread j inside
  exact clear i (by rwa [IntRing.content, content_length] at unread) j inside

omit small in
theorem forward_good (k : Nat) (reach : a.Holds (r.r + k)) : Good a A h r (.forward k) := by
  have agreed := forward_read_toInt r reach
  have ordered := valid.ordered
  by_cases held : k ≤ r.has
  · obtain ⟨ok, rest⟩ := forward_queue valid held
    have within : k ≤ r.w - r.r := held
    have out : r.forward k .opRead = (if r.r + k = r.w then ({ r with r := 0, w := 0 }, 0)
        else ({ r with r := r.r + k }, 0) : RingBuffer × Int) := by
      change (if r.r + k > r.w then _ else _) = _
      rw [if_neg (by omega)]
    have code : (r.forward k .opRead).2 = 0 := by
      rw [out]
      split <;> rfl
    have size : (r.forward k .opRead).1.size = r.size := by
      rw [out]
      split <;> rfl
    refine ⟨h, (r.forward k .opRead).1, ⟨0, 0, []⟩, ?_, ok, size ▸ own, ?_⟩
    · rw [exec]
      rw [agreed, code]
    rw [Effect, content_length, if_pos held]
    exact ⟨rfl, rest⟩
  have beyond : ¬ k ≤ r.w - r.r := held
  have out : r.forward k .opRead = (r, -1) := by
    change (if r.r + k > r.w then _ else _) = _
    rw [if_pos (by omega)]
  refine ⟨h, r, ⟨-1, 0, []⟩, ?_, valid, own, ?_⟩
  · rw [exec]
    rw [agreed, out]
  rw [Effect, content_length, if_neg held]
  exact ⟨rfl, rfl⟩

theorem peek2_good : Good a A h r .peek2 := by
  have agreed := peek2_toInt valid (own.count small)
  refine ⟨h, r, ⟨0, r.peek2.1.len + r.peek2.2.len, h.read r.peek2.1 ++ h.read r.peek2.2⟩, ?_,
    valid, own, (peek2_queue valid).1, rfl⟩
  rw [exec, agreed]
  rfl

theorem align_good (bucketed : Bucketed A) : Good a A h r .alignBytes := by
  by_cases positive : 0 < r.size
  · have fits : r.has ≤ r.size := valid.fits
    obtain ⟨fresh, buf, took⟩ := own.granted bucketed positive h
    have count := own.count small
    have agreed := alignBytes_toInt valid positive count
      (by rw [took]; exact some_ne_none _)
    rcases done : r.alignBytes A h with ⟨h', r', buf⟩
    have aligned := alignBytes_aligned ⟨_, _, took⟩ valid positive done
    obtain ⟨ok, same⟩ := aligned.moved.kept valid
    rw [done] at agreed
    have held := has_toInt ok (a.mono (by rw [aligned.size]; omega) count)
    refine ⟨h', r', ⟨0, buf.len, content h r⟩, ?_, ok, aligned.size ▸ own, rfl, same⟩
    rw [exec, if_pos (by rw [IntRing.capacity, toInt_size]; omega), agreed]
    dsimp only [bind_eq_bind, bind_some]
    rw [IntRing.has, toInt_w, toInt_r, held, aligned.moved.has valid, ← Int.natCast_zero,
      IntRing.cut_nat (Nat.zero_le _) (Nat.le_trans fits aligned.room), bind_some,
      ← aligned.bytes]
    rfl
  have void : r.has = 0 := by
    have fits : r.has ≤ r.size := valid.fits
    omega
  refine ⟨h, r, ⟨0, 0, []⟩, ?_, valid, own, (content_nil h r void).symm, rfl⟩
  rw [exec, if_neg (by rw [IntRing.capacity, toInt_size]; omega)]

theorem call_good (bucketed : Bucketed A) (call : RingCall) (fits : call.Fits)
    (held : a.Holds (call.reach ⟨h, r.toInt⟩)) :
    Good a A h r call ∧ call.Spares a A ⟨h, r.toInt⟩ := by
  cases call with
  | write p => exact ⟨write_good valid own small p held, trivial⟩
  | read room n update => exact ⟨read_good valid own small fits held update, trivial⟩
  | fill n bytes => exact fill_good valid own small n bytes held
  | forward k => exact ⟨forward_good valid own k held, trivial⟩
  | peek2 => exact ⟨peek2_good valid own small, trivial⟩
  | alignBytes => exact ⟨align_good valid own small bucketed, trivial⟩
  | truncate =>
    exact ⟨⟨h, r.truncate, ⟨0, 0, []⟩, rfl, valid.toStorage.truncate, own, rfl⟩, trivial⟩
  | reset =>
    exact ⟨⟨h.put A r.buf, ⟨Slice.nil, 0, 0, 0⟩, ⟨0, 0, []⟩, rfl, new_ok _, ofBucket_zero, rfl⟩,
      trivial⟩

end

theorem step_obeys {s : RingState} (sound : s.Sound A) (bucketed : Bucketed A)
    (small : Counted a A) (call : RingCall) (fits : call.Fits)
    (held : a.Holds (call.reach s)) :
    ∃ next, call.step a A s = some next ∧ next.Sound A ∧ call.Obeys a A s next := by
  obtain ⟨heap, ring⟩ := s
  obtain ⟨r, rfl, valid, own⟩ := sound
  obtain ⟨⟨h', r', answer, done, ok, kept, effect⟩, spares⟩ :=
    call_good valid own small bucketed call fits held
  have after : RingState.Sound A ⟨h', r'.toInt⟩ := ⟨r', rfl, ok, kept⟩
  have counts := after.counts small
  refine ⟨⟨h', r'.toInt⟩, ?_, after, ⟨answer, done, effect⟩, spares, counts.1, counts.2⟩
  rw [step, done]
  rfl

end RingCall

/-- A pool of small buffers, and a ring that has none of them yet. -/
def smallBuffers : Allocator UInt8 := BytesAlloctor.allocator 4 3 fun _ _ => 0

def unused : RingState := ⟨⟨fun _ => [], 1, []⟩, IntRing.newRingBuffer⟩

theorem smallBuffers_counted : RingBuffer.Counted Size.bits32.arith smallBuffers :=
  BytesAlloctor.allocator_counted (by decide) (by decide) _

/-- Bytes go through a ring over a small pool, around its end and into a larger buffer. -/
def traffic : List RingCall :=
  [.write [1, 2, 3], .read 2 2 true, .fill 1 [4, 5, 6], .peek2, .write [7, 8, 9], .alignBytes,
    .forward 9]

end Connaxis
