import Connaxis.RingBufferQueue

namespace Connaxis.RingBuffer

open Memory List Heap

variable {A : Allocator UInt8} {h h' : Heap UInt8} {r r' : RingBuffer}

/-- A ring in a buffer that was not written to is as it was. -/
theorem Ok.spares {own : Nat → Prop} (valid : Ok h r) (spares : h.Spares h' own)
    (other : 0 < r.size → ¬ own r.buf.base) : Ok h' r ∧ content h' r = content h r := by
  by_cases positive : 0 < r.size
  · have live := valid.live positive
    have same := spares.same r.buf.base live.1 (other positive)
    exact ⟨⟨valid.toStorage.mono spares.grown (by rw [same]), valid.ordered, valid.fits⟩,
      content_congr same⟩
  have void : r.has = 0 := by
    have fits := valid.fits
    unfold RingBuffer.has
    omega
  refine ⟨⟨⟨valid.start, valid.sized, fun filled => absurd filled positive⟩, valid.ordered,
    valid.fits⟩, ?_⟩
  rw [content_nil h r void, content_nil h' r void]

theorem Ok.only {base : Nat} (valid : Ok h r) (only : h.Only h' base)
    (other : 0 < r.size → r.buf.base ≠ base) : Ok h' r ∧ content h' r = content h r :=
  valid.spares ⟨only.grown, only.same⟩ other

/-- A ring and a slice of its caller's. -/
theorem Ok.lent (valid : Ok h r) (p : Bytes) :
    Ok (h.lend p).1 r ∧ content (h.lend p).1 r = content h r ∧
      (0 < r.size → (h.lend p).2.base ≠ r.buf.base) := by
  have apart (positive : 0 < r.size) : (h.lend p).2.base ≠ r.buf.base :=
    Nat.ne_of_gt (valid.live positive).1
  obtain ⟨ok, same⟩ := valid.only (Only.lend h p (h.lend p).2.base)
    fun positive => (apart positive).symm
  exact ⟨ok, same, apart⟩

theorem Moved.only (moved : Moved A h r h' r') (base : Nat) : h.Only h' base :=
  ⟨moved.grown, fun b known _ => moved.old b known⟩

/-- The copies of `write` stay inside the ring's buffer. -/
theorem put_only (h : Heap UInt8) (r : RingBuffer) (p : Slice) (length : Nat) :
    h.Only (put h r p length) r.buf.base := by
  unfold put
  split
  · exact Only.copy h (r.buf.tail _) p
  · exact (Only.copy h (r.buf.tail _) _).trans (Only.copy _ r.buf _) (.inl rfl)

variable {length : Nat}

/-- `write` touches no buffer but the ring's own, which may be exchanged for a new one. -/
theorem write_only {p : Slice} {n : Int} (positive : 0 < length)
    (done : r.write A h p length true = (h', r', n)) :
    h.Only h' r.buf.base ∧ (r'.buf.base = r.buf.base ∨ r'.buf.base = 0 ∧ r'.size = 0 ∨
      h.next ≤ r'.buf.base ∧ r'.buf.base < h'.next) := by
  rcases write_moved done with ⟨_, moved⟩ | ⟨_, _, _, h₁, r₁, moved, long, _, rfl, rfl⟩
  · have place := moved.place
    exact ⟨moved.only _, by omega⟩
  have place := moved.place
  have same := put_next h₁ r₁ p length
  refine ⟨(moved.only _).trans (put_only h₁ r₁ p length) (by omega), ?_⟩
  rw [same, if_pos rfl]
  dsimp only
  omega

/-- A shorter ring over the same storage holds a front part of the content. -/
theorem content_take (h : Heap UInt8) (r : RingBuffer) (n : Nat) (held : n ≤ r.has) :
    content h { r with w := r.r + n } = (content h r).take n := by
  have has : RingBuffer.has { r with w := r.r + n } = n := by
    unfold RingBuffer.has
    dsimp only
    omega
  apply ext_getElem
  · rw [content_length, has, length_take, content_length, Nat.min_eq_left held]
  intro i _ _
  simp only [content, getElem_take, getElem_map, getElem_range]

/-- Reading takes bytes off the front. -/
theorem read_queue (valid : Ok h r) {len : Nat} (positive : 0 < len) :
    Ok h (r.read h len len true).1 ∧
      content h (r.read h len len true).1 = (content h r).drop len ∧
      (r.read h len len true).2.1 = (content h r).take len ∧
      ((r.read h len len true).2.2 ≤ 0 ↔ r.has = 0) ∧
      (r.read h len len true).1.buf = r.buf ∧ (r.read h len len true).1.size = r.size := by
  have ordered := valid.ordered
  have fits := valid.fits
  by_cases empty : r.w = r.r
  · have void : r.has = 0 := by
      unfold RingBuffer.has
      omega
    have out : r.read h len len true = (r, [], 0) := by
      rw [read, if_neg (by omega), if_pos empty]
    rw [out, content_nil h r void]
    exact ⟨valid, drop_nil.symm, take_nil.symm, iff_of_true (Int.le_refl 0) void, rfl, rfl⟩
  have out : r.read h len len true = ({ r with r := r.r + min r.has len },
      (if r.r % r.size + min r.has len < r.size then
        h.read ((r.buf.tail (r.r % r.size)).front (min r.has len))
      else h.read ((r.buf.tail (r.r % r.size)).front (r.size - r.r % r.size)) ++
        h.read (r.buf.front (min r.has len - (r.size - r.r % r.size)))),
      ((min r.has len : Nat) : Int)) := by
    rw [read, if_neg (by omega), if_neg empty]
    rfl
  have cut : (content h r).take len = (content h r).take (min r.has len) := by
    rw [take_eq_take_min, content_length, Nat.min_comm]
  have rest : (content h r).drop len = (content h r).drop (min r.has len) := by
    rcases Nat.le_total r.has len with short | long
    · rw [Nat.min_eq_left short, drop_eq_nil_of_le (by rw [content_length]; exact short),
        drop_eq_nil_of_le (Nat.le_of_eq (content_length h r))]
    · rw [Nat.min_eq_right long]
  have nonempty : 0 < r.has := by
    unfold RingBuffer.has
    omega
  rw [out, cut, rest, ← content_take h r _ (Nat.min_le_left _ _)]
  have taken : 0 < min r.has len := by omega
  have within : min r.has len ≤ r.w - r.r := Nat.min_le_left _ _
  dsimp only
  generalize min r.has len = n at taken within ⊢
  have part : Ok h { r with w := r.r + n } :=
    ⟨⟨valid.start, valid.sized, valid.live⟩, by dsimp only; omega, by dsimp only; omega⟩
  have has : RingBuffer.has { r with w := r.r + n } = n := by
    unfold RingBuffer.has
    dsimp only
    omega
  refine ⟨⟨⟨valid.start, valid.sized, valid.live⟩, by dsimp only; omega, by dsimp only; omega⟩,
    ?_,
    ?_, iff_of_false (by omega) (by omega), rfl, rfl⟩
  · apply ext_getElem
    · rw [content_length, length_drop, content_length]
      unfold RingBuffer.has
      dsimp only
      omega
    intro i _ _
    simp only [content, getElem_drop, getElem_map, getElem_range, Nat.add_assoc]
  split
  · have window := content_straight h _ part (by rw [has]; exact taken)
      (by rw [has]; dsimp only; omega)
    rw [has] at window
    exact window.symm
  have window := content_wrapped h _ part (by rw [has]; exact taken)
    (by rw [has]; dsimp only; omega)
  rw [has] at window
  exact window.symm

/-- The slice of `peekWrite`, in a ring that has room. -/
def window (r : RingBuffer) (length : Nat) : Slice :=
  if r.w % r.size + length ≤ r.size then (r.buf.tail (r.w % r.size)).front length
  else (r.buf.tail (r.w % r.size)).front (r.size - r.w % r.size)

/-- What is left to do for `peekWrite` in a ring that has a buffer. -/
def offer (A : Allocator UInt8) (h : Heap UInt8) (r : RingBuffer) (length : Nat) :
    Heap UInt8 × RingBuffer × Slice :=
  match r.grow A h length with
  | none => (h, r, Slice.nil)
  | some (h, r) => (h, r, r.window length)

theorem peekWrite_eq (h : Heap UInt8) (r : RingBuffer) (length : Nat) :
    r.peekWrite A h length =
      if length = 0 then (h, r, Slice.nil)
      else if r.size = 0 then
        match h.alloc A length with
        | none => (h, { r with buf := Slice.nil }, Slice.nil)
        | some (h, buf) => offer A h ⟨buf, buf.len, 0, 0⟩ length
      else offer A h r length := by
  have cut (r : RingBuffer) (h : Heap UInt8) : (h, r, r.window length) =
      if r.w % r.size + length ≤ r.size then (h, r, (r.buf.tail (r.w % r.size)).front length)
      else (h, r, (r.buf.tail (r.w % r.size)).front (r.size - r.w % r.size)) := by
    rw [window]
    split <;> rfl
  unfold peekWrite offer grow
  simp only [cut]
  split
  · rfl
  by_cases unset : r.size = 0
  · rw [if_pos unset, if_pos unset]
    cases h.alloc A length <;> rfl
  rw [if_neg unset]
  exact (if_neg unset).symm

/-- A slice of no more than `length` bytes, in the free cells behind the write position. -/
structure Inside (h : Heap UInt8) (r : RingBuffer) (length : Nat) (s : Slice) : Prop where
  place : s = (r.buf.tail (r.w % r.size)).front s.len
  live : s.Live h
  straight : r.w % r.size + s.len ≤ r.size
  room : r.has + s.len ≤ r.size
  short : s.len ≤ length

theorem window_inside (ok : Ok h r) (room : r.has + length ≤ r.size)
    (filled : 0 < (r.window length).len) : Inside h r length (r.window length) := by
  have sized := ok.sized
  have part (k : Nat) (positive : 0 < k) (few : k ≤ length) (inside : r.w % r.size + k ≤ r.size)
      (same : r.window length = (r.buf.tail (r.w % r.size)).front k) :
      Inside h r length (r.window length) := by
    rw [same]
    exact ⟨rfl, ((ok.live (by omega)).tail _ (by omega)).front _ (by rw [Slice.tail_len]; omega),
      inside, by rw [Slice.front_len]; omega, few⟩
  by_cases straight : r.w % r.size + length ≤ r.size
  · have same : r.window length = (r.buf.tail (r.w % r.size)).front length := if_pos straight
    rw [same, Slice.front_len] at filled
    exact part length filled (Nat.le_refl _) straight same
  have same : r.window length = (r.buf.tail (r.w % r.size)).front (r.size - r.w % r.size) :=
    if_neg straight
  rw [same, Slice.front_len] at filled
  exact part _ filled (by omega) (by omega) same

/-- A window to write to leaves the content where it can be read, and lies inside the
room behind it. -/
theorem peekWrite_queue (valid : Ok h r) {s : Slice} (done : r.peekWrite A h length = (h', r', s)) :
    Moved A h r h' r' ∧ (0 < s.len → Inside h' r' length s) := by
  have empty {P : Prop} (filled : 0 < Slice.nil.len) : P := absurd filled (Nat.lt_irrefl 0)
  have offered {h₀ : Heap UInt8} {r₀ : RingBuffer} (moved : Moved A h r h₀ r₀)
      (rest : offer A h₀ r₀ length = (h', r', s)) :
      Moved A h r h' r' ∧ (0 < s.len → Inside h' r' length s) := by
    unfold offer at rest
    split at rest
    · cases rest
      exact ⟨moved, empty⟩
    rename_i grown
    cases rest
    obtain ⟨more, _, room, _⟩ := grow_moved grown
    obtain ⟨ok₀, _⟩ := moved.kept valid
    obtain ⟨ok, _⟩ := more.kept ok₀
    exact ⟨moved.trans more, window_inside ok (room ok₀)⟩
  rw [peekWrite_eq] at done
  split at done
  · cases done
    exact ⟨.refl h r, empty⟩
  split at done
  · rename_i unset
    split at done
    · have moved := none_moved (A := A) (h := h) unset
      rw [← unset] at moved
      cases done
      exact ⟨moved, empty⟩
    rename_i granted
    exact offered (fresh_moved unset granted (.inr ⟨rfl, rfl⟩)) done
  · exact offered (.refl h r) done

/-- Bytes stored in that window are appended once the ring has been moved on. -/
theorem forward_written (valid : Ok h r) {s : Slice} (inside : Inside h r length s) (bytes : Bytes)
    (few : bytes.length ≤ s.len) (filled : 0 < bytes.length) :
    Ok (h.store s bytes) (r.forward bytes.length .opWrite).1 ∧
      content (h.store s bytes) (r.forward bytes.length .opWrite).1 = content h r ++ bytes ∧
      (r.forward bytes.length .opWrite).1.buf = r.buf ∧
      (r.forward bytes.length .opWrite).1.size = r.size := by
  obtain ⟨place, ⟨_, bound⟩, straight, room, _⟩ := inside
  have ordered := valid.ordered
  have storage := valid.toStorage.store s bytes (by omega)
  have moved : (r.forward bytes.length .opWrite).1 = { r with w := r.w + bytes.length } := by
    have out : r.forward bytes.length .opWrite = if r.w + bytes.length - r.r > r.size then (r, -1)
        else ({ r with w := r.w + bytes.length }, 0) := rfl
    unfold RingBuffer.has at room
    rw [out, if_neg (by omega)]
  rw [moved]
  refine ⟨⟨⟨storage.start, storage.sized, storage.live⟩, ?_, ?_⟩, ?_, rfl, rfl⟩
  · dsimp only
    omega
  · dsimp only
    unfold RingBuffer.has at room
    omega
  refine content_append _ valid bytes (by omega) fun j within => ?_
  have base : s.base = r.buf.base := by rw [place]; rfl
  have off : s.off = r.w % r.size := by
    rw [place, Slice.front_off, Slice.tail_off, valid.start, Nat.zero_add]
  have start : r.w % r.size < r.size := Nat.mod_lt _ (by omega)
  rw [← base, ← Nat.mod_add_mod, turn _ j _ start (by omega)]
  simp only [store, Function.update_self]
  rw [overwrite_getD _ _ _ (by omega), off]
  by_cases low : r.w % r.size + j < r.size
  · rw [if_pos low, Nat.add_sub_cancel_left]
    split <;> split <;> first | rfl | omega
  · rw [if_neg low, if_neg (by omega), if_neg (by omega)]

end Connaxis.RingBuffer
