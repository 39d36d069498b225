import Connaxis.RingBufferLaw
import Mathlib.Data.List.GetD

namespace Connaxis

open Memory MachineInt List Option Runs Heap

/-- A use of a ring buffer, now also `Write(&p, length, update)` of a part of the slice. -/
inductive RingUse
  | call (call : RingCall)
  | part (p : Bytes) (length : Nat) (update : Bool)
deriving DecidableEq, Repr

namespace RingState

variable (a : Arith) (A : Allocator UInt8)

/-- `Write(&p, length, update)` and the code it returns; `none` is a panic. -/
def writePart (s : RingState) (p : Bytes) (length : Nat) (update : Bool) :
    Option (RingState × Int) :=
  let (h, src) := s.heap.lend p
  (s.ring.write a A h src length update).map fun (h, r, n) => (⟨h, r⟩, n)

def use (s : RingState) : RingUse → Option RingState
  | .call call => call.step a A s
  | .part p length update => (s.writePart a A p length update).map Prod.fst

/-- The farthest position that the use may come to. -/
def reach (s : RingState) : RingUse → Nat
  | .call call => call.reach s
  | .part _ length _ => s.ring.w.toNat + length

/-- `Write(&p, length, true)` appends the first `length` bytes of the slice, if it returns
`length`. -/
def Appends (s : RingState) (p : Bytes) (length : Nat) : Prop :=
  ∀ next, s.writePart a A p length true = some (next, (length : Int)) →
    next.content = s.content ++ p.take length

end RingState

/-- Bytes behind the first `length` ones that the copies of `Write` carry into a storage of that
size, from that position on: those that fall on an unread byte, or on one just written, equal it. -/
def Harmless (start size : Nat) (unread p : Bytes) (length : Nat) : Prop :=
  ∀ k, length ≤ k → k < p.length →
    k < (if start + length < size then size - start else size - start + size) →
    (size - unread.length ≤ k → k < size →
      p.getD k 0 = unread.getD (k - (size - unread.length)) 0) ∧
    (size ≤ k → p.getD k 0 = p.getD (k - size) 0)

variable {length : Nat}

namespace RingBuffer

variable {A : Allocator UInt8} {h h' : Heap UInt8} {r r' : RingBuffer}

/-- Position and size of the storage that a write of so many bytes goes to: the ring's own, or the
buffer that the allocator has for it. -/
def place (A : Allocator UInt8) (h : Heap UInt8) (r : RingBuffer) (length : Nat) :
    Option (Nat × Nat) :=
  if r.size = 0 then (A.get h.next length).map fun buf => (r.w % buf.length, buf.length)
  else if length ≤ r.free then some (r.w % r.size, r.size)
  else (A.get h.next (length - r.free + r.size)).map fun buf => (r.has, buf.length)

theorem place_eq (valid : Ok h r) (busy : 0 < length ∨ 0 < (r.first A h length).2.size) :
    r.place A h length = ((r.first A h length).2.grow A (r.first A h length).1 length).map
      fun moved => (moved.2.w % moved.2.size, moved.2.size) := by
  have fits := valid.fits
  by_cases unset : r.size = 0
  · rw [place, if_pos unset]
    cases found : A.get h.next length with
    | none =>
      have opened : r.first A h length = (h, { r with buf := Slice.nil, size := 0 }) := by
        rw [first, if_pos unset, alloc, found]
      rw [opened] at busy ⊢
      dsimp only at busy ⊢
      rw [grow, if_pos (by dsimp only; omega), resize, alloc]
      dsimp only
      rw [show length - (0 - (r.w - r.r)) + 0 = length by omega, found]
      rfl
    | some buf =>
      have enough := A.sized _ _ _ found
      have opened : r.first A h length =
          (⟨Function.update h.mem h.next buf, h.next + 1, h.pooled⟩,
            { r with buf := ⟨h.next, 0, buf.length⟩, size := buf.length }) := by
        rw [first, if_pos unset, alloc, found]
      rw [opened]
      dsimp only
      rw [grow, if_neg (by dsimp only; omega)]
      rfl
  have opened : r.first A h length = (h, r) := if_neg unset
  rw [opened, place, if_neg unset]
  dsimp only
  by_cases short : r.size - (r.w - r.r) < length
  · rw [if_neg (show ¬ length ≤ r.free from Nat.not_le.mpr short), grow, if_pos short, resize,
      alloc]
    cases found : A.get h.next (length - (r.size - (r.w - r.r)) + r.size) with
    | none =>
      rw [free, found]
      rfl
    | some buf =>
      have enough := A.sized _ _ _ found
      rw [free, found]
      simp only [map_some]
      rw [held_eq, Nat.mod_eq_of_lt (by unfold has; omega)]
  rw [if_pos (show length ≤ r.free from Nat.not_lt.mp short), grow, if_neg short]
  rfl

/-- A byte of the content behind the copies of `write`. -/
theorem content_put (valid : Ok h r) {p : Slice} (source : p.Live h) (long : length ≤ p.len)
    (room : r.has + length ≤ r.size) (apart : p.base ≠ r.buf.base) {i : Nat}
    (inside : i < r.has + length) :
    (content (put h r p length) { r with w := r.w + length }).getD i 0 =
      let j := if i < r.has then r.size - r.has + i else i - r.has
      if r.w % r.size + length < r.size then
        if r.w % r.size + j < r.size ∧ j < p.len then (h.read p).getD j 0
        else (content h r).getD i 0
      else if r.w % r.size + j < r.size ∧ j + r.size < p.len then (h.read p).getD (j + r.size) 0
      else if j < p.len then (h.read p).getD j 0
      else (content h r).getD i 0 := by
  have ordered := valid.ordered
  have has : RingBuffer.has { r with w := r.w + length } = r.has + length := by
    unfold RingBuffer.has
    dsimp only
    omega
  rw [getD_eq_getElem _ _ (by rw [content_length, has]; exact inside), content_getElem]
  rw [cell_behind valid i, put_behind valid source long apart (by split <;> omega)]
  by_cases old : i < r.has
  · have cell : (content h r).getD i 0 = (h.mem r.buf.base).getD ((r.w + (r.size - r.has + i)) %
        r.size) 0 := by
      rw [getD_eq_getElem _ _ (by rw [content_length]; exact old), content_getElem,
        cell_behind valid i, if_pos old]
    rw [if_pos old, cell]
  rw [if_neg old]
  by_cases straight : r.w % r.size + length < r.size
  · rw [if_pos straight, if_pos straight, if_pos (by omega), if_pos (by omega)]
  · simp only [if_neg straight, if_pos (show i - r.has < p.len by omega)]

theorem put_exact_iff (valid : Ok h r) {p : Slice} (source : p.Live h) (long : length ≤ p.len)
    (room : r.has + length ≤ r.size) (apart : p.base ≠ r.buf.base) :
    content (put h r p length) { r with w := r.w + length } =
        content h r ++ (h.read p).take length ↔
      Harmless (r.w % r.size) r.size (content h r) (h.read p) length := by
  have ordered := valid.ordered
  have bytes : (h.read p).length = p.len := read_length h p source
  have taken : ((h.read p).take length).length = length := by
    rw [length_take]
    omega
  have old (i : Nat) (inside : i < r.has) :
      (content h r ++ (h.read p).take length).getD i 0 = (content h r).getD i 0 := by
    rw [getD_append _ _ _ _ (by rw [content_length]; exact inside)]
  have new (i : Nat) (inside : i < length) :
      (content h r ++ (h.read p).take length).getD (r.has + i) 0 = (h.read p).getD i 0 := by
    rw [getD_append_right _ _ _ _ (by rw [content_length]; omega), content_length,
      Nat.add_sub_cancel_left, getD_eq_getElem?_getD, getElem?_take_of_lt inside,
      getD_eq_getElem?_getD]
  unfold Harmless
  rw [content_length, bytes]
  constructor
  · intro same k low below reach
    refine ⟨fun used inside => ?_, fun round => ?_⟩
    · have byte := content_put valid source long room apart
        (show k - (r.size - r.has) < r.has + length by omega)
      rw [same, old _ (by omega), if_pos (show k - (r.size - r.has) < r.has by omega),
        show r.size - r.has + (k - (r.size - r.has)) = k by omega] at byte
      rw [byte]
      split at reach
      · rw [if_pos (by assumption), if_pos (by omega)]
      · rw [if_neg (by assumption), if_neg (by omega), if_pos below]
    have wraps : ¬ r.w % r.size + length < r.size := by
      intro straight
      rw [if_pos straight] at reach
      omega
    rw [if_neg wraps] at reach
    have byte := content_put valid source long room apart
      (show r.has + (k - r.size) < r.has + length by omega)
    have apart : ¬ r.has + (k - r.size) < r.has := by omega
    simp only [if_neg apart, if_neg wraps, Nat.add_sub_cancel_left] at byte
    rw [same, new _ (by omega), if_pos (by omega), show k - r.size + r.size = k by omega] at byte
    exact byte.symm
  intro harmless
  have has : RingBuffer.has { r with w := r.w + length } = r.has + length := by
    unfold RingBuffer.has
    dsimp only
    omega
  refine ext_getElem (by rw [length_append, content_length, content_length, taken, has])
    fun i inside also => ?_
  rw [content_length, has] at inside
  have byte := content_put valid source long room apart inside
  rw [getD_eq_getElem _ _ (by rw [content_length, has]; exact inside)] at byte
  rw [byte, ← getD_eq_getElem _ 0 also]
  by_cases unread : i < r.has
  · rw [if_pos unread, old i unread]
    have spared (low : length ≤ r.size - r.has + i) (below : r.size - r.has + i < p.len)
        (reach : r.size - r.has + i < if r.w % r.size + length < r.size then
          r.size - r.w % r.size else r.size - r.w % r.size + r.size) :
        (h.read p).getD (r.size - r.has + i) 0 = (content h r).getD i 0 := by
      have same := (harmless _ low below reach).1 (by omega) (by omega)
      rwa [Nat.add_sub_cancel_left] at same
    by_cases straight : r.w % r.size + length < r.size
    · rw [if_pos straight]
      split
      · exact spared (by omega) (by omega) (by rw [if_pos straight]; omega)
      · rfl
    rw [if_neg straight, if_neg (by omega)]
    split
    · exact spared (by omega) (by omega) (by rw [if_neg straight]; omega)
    · rfl
  have appended := new (i - r.has) (by omega)
  rw [show r.has + (i - r.has) = i by omega] at appended
  rw [if_neg unread, appended]
  by_cases straight : r.w % r.size + length < r.size
  · rw [if_pos straight, if_pos (by omega)]
  rw [if_neg straight, if_pos (show i - r.has < p.len by omega)]
  split
  · have same := (harmless (i - r.has + r.size) (by omega) (by omega)
      (by rw [if_neg straight]; omega)).2 (by omega)
    rwa [Nat.add_sub_cancel_right] at same
  · rfl

end RingBuffer

namespace RingState

open RingBuffer

variable {a : Arith} {A : Allocator UInt8} {h : Heap UInt8} {r : RingBuffer} {s next : RingState}

/-- Where a write of so many bytes goes to, with the slice in the caller's hand. -/
def place (A : Allocator UInt8) (s : RingState) (p : Bytes) (length : Nat) : Option (Nat × Nat) :=
  RingBuffer.place A (s.heap.lend p).1
    ⟨s.ring.buf, s.ring.size.toNat, s.ring.r.toNat, s.ring.w.toNat⟩ length

variable {p : Bytes}

section

variable (valid : Ok h r) (own : OfBucket A r.size) (small : Counted a A)
  (reach : a.Holds (r.w + length))
include valid own small reach

theorem writePart_eq
    (busy : 0 < length ∨ 0 < (r.first A (h.lend p).1 length).2.size ∨ p.length = 0)
    (update : Bool) {h' : Heap UInt8} {r' : RingBuffer} {n : Int}
    (done : r.write A (h.lend p).1 (h.lend p).2 length update = (h', r', n)) :
    writePart a A ⟨h, r.toInt⟩ p length update = some (⟨h', r'.toInt⟩, n) := by
  have agreed : r.toInt.write a A (h.lend p).1 (h.lend p).2 length update = _ :=
    write_toInt (valid.lent p).1 busy (own.count small) reach small update
  rw [done] at agreed
  unfold writePart
  dsimp only
  rw [agreed]
  rfl

/-- With no bytes to write and no storage the position cannot be computed. -/
theorem writePart_panics
    (idle : ¬ (0 < length ∨ 0 < (r.first A (h.lend p).1 length).2.size ∨ p.length = 0))
    (update : Bool) : writePart a A ⟨h, r.toInt⟩ p length update = none := by
  rcases opened : r.first A (h.lend p).1 length with ⟨h₁, r₁⟩
  rw [opened] at idle
  dsimp only at idle
  have moved := first_moved opened
  have same := first_w (A := A) (h.lend p).1 r length
  rw [opened] at same
  obtain ⟨ok, _⟩ := moved.kept (valid.lent p).1
  have proper : ¬ ((h.lend p).2.len = 0 ∨ (length : Int) > (h.lend p).2.len) := by
    change ¬ (p.length = 0 ∨ (length : Int) > p.length)
    omega
  have stays : r₁.grow A h₁ length = some (h₁, r₁) := if_neg (by omega)
  have lost : IntRing.rem r₁.toInt.w r₁.toInt.size = none := by
    rw [toInt_size]
    exact if_pos (by omega)
  unfold writePart
  dsimp only
  rw [IntRing.write, first_toInt, opened]
  dsimp only
  rw [if_neg proper, grow_toInt ok (moved.counted (own.count small) small) (same ▸ reach), stays,
    map_some]
  dsimp only
  rw [IntRing.store, lost]
  rfl

end

theorem part_sound (sound : s.Sound A) (small : Counted a A)
    (reach : a.Holds (s.ring.w.toNat + length)) {update : Bool} {n : Int}
    (done : s.writePart a A p length update = some (next, n)) : next.Sound A := by
  obtain ⟨heap, ring⟩ := s
  obtain ⟨r, rfl, valid, own⟩ := sound
  by_cases busy : 0 < length ∨ 0 < (r.first A (heap.lend p).1 length).2.size ∨ p.length = 0
  · rcases wrote : r.write A (heap.lend p).1 (heap.lend p).2 length update with ⟨h', r', m⟩
    rw [writePart_eq valid own small reach busy update wrote] at done
    cases done
    have lent := (valid.lent p).1
    refine ⟨r', rfl, ?_, write_bucket own wrote⟩
    rcases write_moved wrote with ⟨_, moved⟩ | ⟨_, _, _, h₁, r₁, moved, _, room, rfl, rfl⟩
    · exact (moved.kept lent).1
    obtain ⟨ok, _⟩ := moved.kept lent
    have ordered := ok.ordered
    have space := room lent
    unfold RingBuffer.has at space
    have storage : Storage (put h₁ r₁ (heap.lend p).2 length) r₁ :=
      ⟨ok.start, ok.sized, fun filled => put_live ok filled (ok.live filled) _ _⟩
    cases update with
    | false => exact ⟨storage, ok.ordered, ok.fits⟩
    | true =>
      rw [if_pos rfl]
      exact ⟨⟨storage.start, storage.sized, storage.live⟩, by dsimp only; omega,
        by dsimp only; omega⟩
  rw [writePart_panics valid own small reach busy update] at done
  cases done

theorem use_sound (sound : s.Sound A) (bucketed : Bucketed A) (small : Counted a A) {use : RingUse}
    (held : a.Holds (s.reach use)) (done : s.use a A use = some next) : next.Sound A := by
  cases use with
  | part p length update =>
    obtain ⟨⟨found, n⟩, wrote, rfl⟩ := map_eq_some_iff.mp done
    exact part_sound sound small held wrote
  | call call =>
    by_cases fits : call.Fits
    · obtain ⟨other, taken, kept, _⟩ := RingCall.step_obeys sound bucketed small call fits held
      exact some.inj (taken.symm.trans done) ▸ kept
    -- only a `Read` of more than its slice holds, which is refused
    cases call with
    | read room n update =>
      have long : (n : Int) > room := by
        have := Nat.not_le.mp fits
        omega
      have refused : (RingCall.read room n update).step a A s = some s := by
        rw [RingCall.step, RingCall.exec, IntRing.read, if_pos (.inr long)]
        rfl
      exact some.inj (refused.symm.trans done) ▸ sound
    | _ => exact absurd trivial fits

theorem appends_iff (valid : Ok h r) (own : OfBucket A r.size) (small : Counted a A) (p : Bytes)
    (length : Nat) (reach : a.Holds (r.w + length)) :
    Appends a A ⟨h, r.toInt⟩ p length ↔
      ∀ start size, RingBuffer.place A (h.lend p).1 r length = some (start, size) →
        Harmless start size (RingBuffer.content h r) p length := by
  obtain ⟨lent, same, apart⟩ := valid.lent p
  have source := lend_live h p
  -- Where `Write` does not return `length`, no byte of the slice is copied either.
  have silent
      (never : ∀ next, writePart a A ⟨h, r.toInt⟩ p length true ≠ some (next, (length : Int)))
      (spared : ∀ start size, RingBuffer.place A (h.lend p).1 r length = some (start, size) →
        Harmless start size (RingBuffer.content h r) p length) :
      Appends a A ⟨h, r.toInt⟩ p length ↔
        ∀ start size, RingBuffer.place A (h.lend p).1 r length = some (start, size) →
          Harmless start size (RingBuffer.content h r) p length :=
    ⟨fun _ => spared, fun _ next done => absurd done (never next)⟩
  rcases opened : r.first A (h.lend p).1 length with ⟨h₁, r₁⟩
  by_cases busy : 0 < length ∨ 0 < r₁.size ∨ p.length = 0
  · have steps := write_eq (A := A) (h.lend p).1 r (h.lend p).2 length true
    rw [opened, show (h.lend p).2.len = p.length from rfl] at steps
    dsimp only at steps
    have ready : 0 < length ∨ 0 < (r.first A (h.lend p).1 length).2.size ∨ p.length = 0 := by
      rw [opened]
      exact busy
    by_cases bad : p.length = 0 ∨ length > p.length
    · rw [if_pos bad] at steps
      refine silent (fun next done => ?_) fun start size _ k low below => by omega
      rw [writePart_eq valid own small reach ready true steps] at done
      have code := congrArg Prod.snd (some.inj done)
      omega
    have ready' : 0 < length ∨ 0 < (r.first A (h.lend p).1 length).2.size := by omega
    have somewhere := place_eq lent ready'
    rw [opened] at somewhere
    rw [if_neg bad] at steps
    cases grown : r₁.grow A h₁ length with
    | none =>
      rw [grown] at steps somewhere
      refine silent (fun next done => ?_) fun start size found => ?_
      · rw [writePart_eq valid own small reach ready true steps] at done
        have code := congrArg Prod.snd (some.inj done)
        omega
      rw [somewhere] at found
      cases found
    | some pair =>
      obtain ⟨h₂, r₂⟩ := pair
      rw [grown] at steps somewhere
      obtain ⟨more, large, room, _⟩ := grow_moved grown
      have moved := (first_moved opened).trans more
      obtain ⟨ok, kept⟩ := moved.kept lent
      have positive : 0 < r₂.size := by
        by_cases void : length = 0
        · subst void
          cases grown
          omega
        · omega
      have written := put_exact_iff ok (moved.live source) (show length ≤ p.length by omega)
        (room ((first_moved opened).kept lent).1) (moved.apart source.1 apart positive)
      rw [kept, same, moved.read source, lend_read] at written
      unfold Appends
      rw [writePart_eq valid own small reach ready true steps, somewhere]
      refine Iff.trans ⟨fun all => all _ rfl, fun one next done => ?_⟩
        (written.trans ⟨fun one start size found => ?_, fun all => all _ _ rfl⟩)
      · cases done
        exact one
      cases found
      exact one
  refine silent (fun next done => ?_) fun start size found k low below reach => ?_
  · rw [writePart_panics valid own small reach (by rw [opened]; exact busy)] at done
    cases done
  have unset : r.size = 0 := by
    by_contra set
    rw [first, if_neg set] at opened
    cases opened
    omega
  rw [RingBuffer.place, if_pos unset] at found
  obtain ⟨buf, got, same⟩ := map_eq_some_iff.mp found
  cases same
  rw [first, if_pos unset, alloc, got] at opened
  cases opened
  dsimp only at busy
  split at reach <;> omega

/-- Every use of a ring buffer leaves it in order. -/
theorem uses_sound (bucketed : Bucketed A) (small : Counted a A) (h : Heap UInt8)
    {uses : List RingUse}
    (held : Each (use a A) (fun s use _ => a.Holds (s.reach use)) ⟨h, IntRing.newRingBuffer⟩
      uses)
    (reached : run (use a A) ⟨h, IntRing.newRingBuffer⟩ uses = some s) : s.Sound A :=
  run_invariant (fun _ _ _ done held sound => use_sound sound bucketed small held done)
    reached held ⟨RingBuffer.newRingBuffer, rfl, new_ok h, ofBucket_zero⟩

end RingState

/-- In every reachable state, `Write(&p, length, true)` appends the first `length` bytes of the
slice exactly if those behind them do no harm in the storage it goes to. -/
theorem partial_write_appends_iff (a : Arith) (A : Allocator UInt8)
    (bucketed : RingBuffer.Bucketed A) (small : RingBuffer.Counted a A) (h : Heap UInt8)
    (uses : List RingUse) (s : RingState)
    (held : Each (RingState.use a A) (fun s use _ => a.Holds (s.reach use))
      ⟨h, IntRing.newRingBuffer⟩ uses)
    (reached : run (RingState.use a A) ⟨h, IntRing.newRingBuffer⟩ uses = some s) (p : Bytes)
    (length : Nat) (reach : a.Holds (s.ring.w.toNat + length)) :
    s.Appends a A p length ↔
      ∀ start size, s.place A p length = some (start, size) →
        Harmless start size s.content p length := by
  have sound := RingState.uses_sound bucketed small h held reached
  obtain ⟨heap, ring⟩ := s
  obtain ⟨r, rfl, valid, own⟩ := sound
  exact RingState.appends_iff valid own small p length reach

/-- A ring of four cells holds three bytes. What follows the first byte of a slice goes over two of
them, and is harmless only if it equals them. -/
theorem partial_write_appends_iff_filled :
    ∃ s, run (RingState.use Size.bits32.arith smallBuffers) unused
        [.call (.write [1, 2, 3])] = some s ∧ s.content = [1, 2, 3] ∧
      s.Appends Size.bits32.arith smallBuffers [7, 1, 2] 1 ∧
      ¬ s.Appends Size.bits32.arith smallBuffers [7, 8, 9] 1 := by
  obtain ⟨s, ran, content, few, place⟩ : ∃ s,
      run (RingState.use Size.bits32.arith smallBuffers) unused
        [.call (.write [1, 2, 3])] = some s ∧ s.content = [1, 2, 3] ∧
      Size.bits32.arith.Holds (s.ring.w.toNat + 1) ∧
      s.place smallBuffers [7, 1, 2] 1 = some (3, 4) ∧
      s.place smallBuffers [7, 8, 9] 1 = some (3, 4) := computed
  have exact (p : Bytes) := partial_write_appends_iff Size.bits32.arith smallBuffers
    (BytesAlloctor.allocator_bucketed (by decide) _) smallBuffers_counted _ _ s (by decide) ran p 1
    few
  refine ⟨s, ran, content, (exact _).mpr fun start size found => ?_, fun appends => ?_⟩
  · cases place.1.symm.trans found
    rw [content]
    unfold Harmless
    decide
  have harm := (exact _).mp appends 3 4 place.2 1
  rw [content] at harm
  exact absurd ((harm (by decide) (by decide) (by decide)).1 (by decide) (by decide)) (by decide)

/-- The fifth byte of a slice goes over the first one of the four that were to be written; and a
write of no byte at all goes over an unread one, in a full ring. -/
theorem partial_write_overwrites :
    (unused.writePart Size.bits32.arith smallBuffers [1, 2, 3, 4, 5] 4 true).map
        (fun out => (out.1.content, out.2)) = some ([5, 2, 3, 4], 4) ∧
      (run (RingState.use Size.bits32.arith smallBuffers) unused [.call (.write [1, 2, 3, 4])]).bind
        (fun s => (s.writePart Size.bits32.arith smallBuffers [9] 0 true).map
          fun out => (s.content, out.1.content, out.2)) =
        some ([1, 2, 3, 4], [9, 2, 3, 4], 0) := by
  decide

end Connaxis
