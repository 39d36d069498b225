import Connaxis.RingBuffer

namespace Connaxis.RingBuffer

open Memory List Slice Heap

variable {A : Allocator UInt8} (h : Heap UInt8) (r : RingBuffer)

/-- The unread bytes, position by position. -/
def content : Bytes :=
  (List.range r.has).map fun i => (h.mem r.buf.base).getD ((r.r + i) % r.size) 0

/-- The storage of a ring: all of one buffer, or nothing at all. -/
structure Storage : Prop where
  start : r.buf.off = 0
  sized : r.size ≤ r.buf.len
  live : 0 < r.size → r.buf.Live h

structure Ok : Prop extends Storage h r where
  ordered : r.r ≤ r.w
  fits : r.w - r.r ≤ r.size

theorem new_ok : Ok h newRingBuffer :=
  ⟨⟨rfl, Nat.le_refl 0, fun impossible => absurd impossible (Nat.lt_irrefl 0)⟩,
    Nat.le_refl 0, Nat.le_refl 0⟩

@[simp] theorem content_length : (content h r).length = r.has := by
  simp only [content, length_map, length_range]

theorem content_nil (empty : r.has = 0) : content h r = [] := by
  simp only [content, empty, range_zero, map_nil]

variable {h} {h' : Heap UInt8} {r}

/-- Only the ring's own buffer matters for its content. -/
theorem content_congr (same : h'.mem r.buf.base = h.mem r.buf.base) :
    content h' r = content h r := by
  simp only [content, same]

section

variable (valid : Storage h r)
include valid

theorem Storage.mono (grown : h.next ≤ h'.next)
    (same : (h'.mem r.buf.base).length = (h.mem r.buf.base).length) : Storage h' r := by
  refine ⟨valid.start, valid.sized, fun positive => ⟨?_, ?_⟩⟩
  · exact Nat.lt_of_lt_of_le (valid.live positive).1 grown
  rw [same]
  exact (valid.live positive).2

theorem Storage.alloc {size : Nat} {s : Slice} (granted : h.alloc A size = some (h', s)) :
    Storage h' r :=
  ⟨valid.start, valid.sized, fun positive => (valid.live positive).alloc granted⟩

theorem Storage.store (s : Slice) (bytes : Bytes)
    (fits : s.off + bytes.length ≤ (h.mem s.base).length) : Storage (h.store s bytes) r :=
  ⟨valid.start, valid.sized, fun positive => (valid.live positive).store bytes fits⟩

theorem Storage.truncate : Ok h r.truncate :=
  ⟨⟨valid.start, valid.sized, valid.live⟩, Nat.le_refl 0, Nat.zero_le _⟩

end

theorem window_read (valid : Ok h r) (positive : 0 < r.size) {k n : Nat}
    (inside : k + n ≤ r.size) : h.read ((r.buf.tail k).front n) =
      (range n).map fun i => (h.mem r.buf.base).getD (k + i) 0 := by
  have sized := valid.sized
  have live := valid.live positive
  have bound := live.2
  apply ext_getElem
  · rw [read_length _ _ ((live.tail k (by omega)).front n (by rw [tail_len]; omega)),
      front_len, length_map, length_range]
  intro i hi hj
  rw [length_map, length_range] at hj
  simp only [Heap.read, front_base, front_off, tail_base, tail_off,
    valid.start, Nat.zero_add, getElem_take, getElem_drop, getElem_map,
    getElem_range]
  rw [getD_eq_getElem?_getD, getElem?_eq_getElem (by omega), Option.getD_some]

variable (h) (r) (buf : Slice)

/-- Content that does not reach the end of the storage is one window of it. -/
theorem content_straight (valid : Ok h r) (nonempty : 0 < r.has)
    (straight : r.r % r.size + r.has ≤ r.size) :
    content h r = h.read ((r.buf.tail (r.r % r.size)).front r.has) := by
  rw [window_read valid (by omega) straight]
  refine map_congr_left fun i member => ?_
  have within := mem_range.mp member
  rw [Nat.add_mod, Nat.mod_eq_of_lt (show i < r.size by omega), Nat.mod_eq_of_lt (by omega)]

/-- Content that starts at the head of the storage is a front part of it. -/
theorem content_aligned (valid : Ok h r) (aligned : r.r % r.size = 0) :
    content h r = h.read (r.buf.front r.has) := by
  have fits : r.has ≤ r.size := valid.fits
  by_cases empty : r.has = 0
  · rw [content_nil h r empty, empty, Heap.read, front_len, take_zero]
  have window := content_straight h r valid (by omega) (by omega)
  rw [aligned] at window
  exact window

/-- Content that wraps is the end of the storage followed by its beginning. -/
theorem content_wrapped (valid : Ok h r) (nonempty : 0 < r.has)
    (wraps : r.size ≤ r.r % r.size + r.has) :
    content h r = h.read ((r.buf.tail (r.r % r.size)).front (r.size - r.r % r.size)) ++
      h.read (r.buf.front (r.has - (r.size - r.r % r.size))) := by
  have fits : r.has ≤ r.size := valid.fits
  have positive : 0 < r.size := by omega
  have start : r.r % r.size < r.size := Nat.mod_lt _ positive
  have second := window_read valid positive
    (show 0 + (r.has - (r.size - r.r % r.size)) ≤ r.size by omega)
  have whole : r.has = r.size - r.r % r.size + (r.has - (r.size - r.r % r.size)) := by omega
  change h.read (r.buf.front _) = _ at second
  rw [window_read valid positive (by omega), second, content]
  conv_lhs => rw [whole, range_add, map_append, map_map]
  congr 1
  · refine map_congr_left fun i member => ?_
    have within := mem_range.mp member
    rw [Nat.add_mod, Nat.mod_eq_of_lt (show i < r.size by omega), Nat.mod_eq_of_lt (by omega)]
  refine map_congr_left fun i member => ?_
  have within := mem_range.mp member
  have parts := Nat.mod_add_div r.r r.size
  have round : r.r + (r.size - r.r % r.size + i) = i + r.size * (r.r / r.size + 1) := by
    rw [Nat.mul_succ]
    omega
  rw [Function.comp, round, Nat.add_mul_mod_self_left, Nat.mod_eq_of_lt (by omega), Nat.zero_add]

theorem unwrap_live (target : buf.Live h) (room : r.has ≤ buf.len) {t : Slice}
    (live : t.Live h) : t.Live (r.unwrap h buf) := by
  unfold unwrap
  dsimp only
  split
  · exact live.copy _ target
  rename_i wraps
  have half : r.size - r.r % r.size ≤ buf.len := by
    change ¬ r.r % r.size + r.has < r.size at wraps
    omega
  exact (live.copy _ target).copy _ ((target.tail _ half).copy _ target)

@[simp] theorem unwrap_next : (r.unwrap h buf).next = h.next := by
  unfold unwrap
  dsimp only
  split <;> rfl

theorem unwrap_mem_other (b : Nat) (other : b ≠ buf.base) : (r.unwrap h buf).mem b = h.mem b := by
  unfold unwrap copy
  dsimp only
  split
  · exact store_mem_other _ _ _ _ other
  rw [store_mem_other _ _ _ _ (by simpa only [tail_base] using other),
    store_mem_other _ _ _ _ other]

/-- The two copies put the content, wrapped or not, at the front of the new buffer. -/
theorem unwrap_read (valid : Ok h r) (nonempty : 0 < r.has) (target : buf.Live h)
    (room : r.has ≤ buf.len) (apart : buf.base ≠ r.buf.base) :
    (r.unwrap h buf).read (buf.front r.has) = content h r := by
  have fits : r.has ≤ r.size := valid.fits
  have sized := valid.sized
  have live := valid.live (by omega)
  have start : r.r % r.size < r.size := Nat.mod_lt _ (by omega)
  unfold unwrap
  dsimp only
  split
  · rename_i straight
    change r.r % r.size + r.has < r.size at straight
    have window := content_straight h r valid nonempty (by omega)
    have length : (h.read ((r.buf.tail (r.r % r.size)).front r.has)).length = r.has := by
      rw [← window, content_length]
    have moved := copy_read_front h buf ((r.buf.tail (r.r % r.size)).front r.has) target
      (by rw [length]; exact room)
    rw [length, ← window] at moved
    exact moved
  rename_i wraps
  change ¬ r.r % r.size + r.has < r.size at wraps
  have whole := content_wrapped h r valid nonempty (by omega)
  generalize copyedEq : r.size - r.r % r.size = copyed at whole ⊢
  have firstLength : (h.read ((r.buf.tail (r.r % r.size)).front copyed)).length = copyed := by
    rw [read_length _ _ ((live.tail _ (by omega)).front _ (by rw [tail_len]; omega)),
      front_len]
  have secondLength : (h.read (r.buf.front (r.has - copyed))).length = r.has - copyed := by
    rw [read_length _ _ (live.front _ (by omega)), front_len]
  have first := copy_read_front h buf ((r.buf.tail (r.r % r.size)).front copyed) target
    (by rw [firstLength]; omega)
  rw [firstLength] at first
  have untouched : (h.copy buf ((r.buf.tail (r.r % r.size)).front copyed)).read
      (r.buf.front (r.has - copyed)) = h.read (r.buf.front (r.has - copyed)) :=
    copy_read_other _ _ _ _ (by rw [front_base]; exact Ne.symm apart)
  have targetLive := target.copy ((r.buf.tail (r.r % r.size)).front copyed) target
  have second := store_read_tail (h.copy buf ((r.buf.tail (r.r % r.size)).front copyed))
    buf copyed (h.read (r.buf.front (r.has - copyed))) targetLive (by rw [secondLength]; omega)
  rw [secondLength, show copyed + (r.has - copyed) = r.has by omega,
    ← read_front _ _ _ (by omega), first] at second
  change (copy _ (buf.tail copyed) (r.buf.front (r.has - copyed))).read _ = _
  generalize h.copy buf ((r.buf.tail (r.r % r.size)).front copyed) = halfway at untouched second ⊢
  unfold copy
  rw [untouched, take_of_length_le (by rw [secondLength, tail_len]; omega), second, whole]

end Connaxis.RingBuffer
