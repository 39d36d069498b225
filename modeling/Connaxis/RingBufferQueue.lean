import Connaxis.RingBufferContent

namespace Connaxis.RingBuffer

open Memory List Heap

variable {A : Allocator UInt8} {h h' : Heap UInt8} {r r' : RingBuffer}

/-- A position that is at most one turn ahead. -/
theorem turn (a i size : Nat) (inside : a < size) (le : i ≤ size) :
    (a + i) % size = if a + i < size then a + i else a + i - size := by
  split
  · rename_i straight
    exact Nat.mod_eq_of_lt straight
  · rw [Nat.mod_eq_sub_mod (by omega), Nat.mod_eq_of_lt (by omega)]

/-- A cell of the content, and of the room behind it, counted from the write position. -/
theorem cell_behind (valid : Ok h r) (i : Nat) :
    (r.r + i) % r.size =
      (r.w + if i < r.has then r.size - r.has + i else i - r.has) % r.size := by
  have ordered := valid.ordered
  have fits := valid.fits
  unfold RingBuffer.has
  split
  · rw [show r.w + (r.size - (r.w - r.r) + i) = r.r + i + r.size by omega, Nat.add_mod_right]
  · rw [show r.w + (i - (r.w - r.r)) = r.r + i by omega]

theorem content_getElem (h : Heap UInt8) (r : RingBuffer) {i : Nat}
    (inside : i < (content h r).length) :
    (content h r)[i] = (h.mem r.buf.base).getD ((r.r + i) % r.size) 0 := by
  simp only [content, getElem_map, getElem_range]

/-- Bytes stored from the write position on, round the end of the storage, are appended. -/
theorem content_append (h' : Heap UInt8) (valid : Ok h r) (bytes : Bytes)
    (room : r.has + bytes.length ≤ r.size)
    (stored : ∀ j, j < r.size → (h'.mem r.buf.base).getD ((r.w + j) % r.size) 0 =
      if j < bytes.length then bytes.getD j 0
      else (h.mem r.buf.base).getD ((r.w + j) % r.size) 0) :
    content h' { r with w := r.w + bytes.length } = content h r ++ bytes := by
  have ordered := valid.ordered
  have has : RingBuffer.has { r with w := r.w + bytes.length } = r.has + bytes.length := by
    unfold RingBuffer.has
    dsimp only
    omega
  apply ext_getElem
  · rw [content_length, length_append, content_length, has]
  intro i inside _
  rw [content_length, has] at inside
  rw [content_getElem]
  rw [cell_behind valid i]
  by_cases old : i < r.has
  · rw [getElem_append_left (by rw [content_length]; exact old), content_getElem,
      cell_behind valid i, if_pos old, stored _ (by omega), if_neg (by omega)]
  rw [if_neg old, stored _ (by omega), if_pos (by omega),
    getElem_append_right (by rw [content_length]; omega)]
  simp only [content_length]
  rw [getD_eq_getElem?_getD, getElem?_eq_getElem (by omega)]
  rfl

/-- A length that has stayed, has gone or is that of a buffer of the allocator's. -/
def Lent (A : Allocator UInt8) (n n' : Nat) : Prop :=
  n' = n ∨ n' = 0 ∨ ∃ k size bytes, A.get k size = some bytes ∧ bytes.length = n'

theorem Lent.trans {n n₁ n' : Nat} (first : Lent A n n₁) (second : Lent A n₁ n') : Lent A n n' := by
  rcases second with same | other
  · rw [same]
    exact first
  · exact .inr other

/-- What every buffer of the allocator's has, the ring's has if it had it before. -/
theorem Lent.keeps {n n' : Nat} (lent : Lent A n n') {P : Nat → Prop} (own : P n) (zero : P 0)
    (all : ∀ n size bytes, A.get n size = some bytes → P bytes.length) : P n' := by
  rcases lent with same | void | ⟨n, size, bytes, found, length⟩
  · exact same ▸ own
  · exact void ▸ zero
  · exact length ▸ all n size bytes found

theorem Lent.serves {n n' : Nat} (lent : Lent A n n') (steady : A.Steady) (own : A.Serves n) :
    A.Serves n' :=
  lent.keeps own (own.mono (Nat.zero_le _)) steady

/-- A ring in its buffer or in a new one; no other buffer has changed, and nor has the content. -/
structure Moved (A : Allocator UInt8) (h : Heap UInt8) (r : RingBuffer) (h' : Heap UInt8)
    (r' : RingBuffer) : Prop where
  grown : h.next ≤ h'.next
  old : ∀ b, b < h.next → h'.mem b = h.mem b
  place : r'.buf.base = r.buf.base ∧ r'.size = r.size ∨ r'.buf.base = 0 ∧ r'.size = 0 ∨
    h.next ≤ r'.buf.base ∧ r'.buf.base < h'.next
  turned : Ok h r → r'.r = r.r ∧ r'.w = r.w ∧ (r'.size = r.size ∨ r.size = 0) ∨
    r'.r = 0 ∧ r'.w = r.has
  kept : Ok h r → Ok h' r' ∧ content h' r' = content h r
  got : Lent A r.size r'.size
  lent : Lent A r.buf.len r'.buf.len

theorem Moved.refl (h : Heap UInt8) (r : RingBuffer) : Moved A h r h r :=
  ⟨Nat.le_refl _, fun _ _ => rfl, .inl ⟨rfl, rfl⟩, fun _ => .inl ⟨rfl, rfl, .inl rfl⟩,
    fun valid => ⟨valid, rfl⟩, .inl rfl, .inl rfl⟩

theorem Moved.has (moved : Moved A h r h' r') (valid : Ok h r) : r'.has = r.has := by
  rcases moved.turned valid with ⟨front, back, _⟩ | ⟨front, back⟩
  · simp only [RingBuffer.has, front, back]
  · rw [RingBuffer.has, front, back, Nat.sub_zero]

theorem Moved.trans {h₁ : Heap UInt8} {r₁ : RingBuffer} (first : Moved A h r h₁ r₁)
    (second : Moved A h₁ r₁ h' r') : Moved A h r h' r' := by
  have grown := first.grown
  have more := second.grown
  have placed := first.place
  have placed' := second.place
  refine ⟨by omega, fun b below => (second.old b (by omega)).trans (first.old b below), by omega,
    fun valid => ?_, fun valid => ?_, first.got.trans second.got, first.lent.trans second.lent⟩
  · have has := first.has valid
    have turned := first.turned valid
    have turned' := second.turned (first.kept valid).1
    omega
  · obtain ⟨ok, same⟩ := first.kept valid
    obtain ⟨ok', same'⟩ := second.kept ok
    exact ⟨ok', same'.trans same⟩

variable {t : Slice}

theorem Moved.live (moved : Moved A h r h' r') (live : t.Live h) : t.Live h' := by
  refine ⟨Nat.lt_of_lt_of_le live.1 moved.grown, ?_⟩
  rw [moved.old _ live.1]
  exact live.2

theorem Moved.read (moved : Moved A h r h' r') (live : t.Live h) : h'.read t = h.read t := by
  simp only [Heap.read, moved.old _ live.1]

/-- The content is copied to a new buffer, and the old one goes back. -/
def refill (A : Allocator UInt8) (h : Heap UInt8) (r : RingBuffer) (buf : Slice) : Heap UInt8 :=
  (if r.w - r.r > 0 then r.unwrap h buf else h).put A r.buf

theorem held_eq (r : RingBuffer) : (if r.w - r.r > 0 then r.w - r.r else 0) = r.has := by
  unfold RingBuffer.has
  split <;> omega

section

variable {size n : Nat} {fresh : Heap UInt8} {buf : Slice}
  (granted : h.alloc A size = some (fresh, buf))
include granted

theorem refill_live (room : r.has ≤ size) (live : t.Live fresh) :
    t.Live (refill A fresh r buf) := by
  obtain ⟨_, _, enough, target, _⟩ := alloc_cases granted
  unfold refill
  split
  · exact (unwrap_live fresh r buf target (by omega) live).put A r.buf
  · exact live.put A r.buf

theorem refill_read (valid : Ok h r) (room : r.has ≤ size) :
    (refill A fresh r buf).read (buf.front r.has) = content h r := by
  obtain ⟨base, _, enough, live, _, _, _, same⟩ := alloc_cases granted
  have fits : r.has ≤ r.size := valid.fits
  unfold refill
  rw [put_read]
  split
  · rename_i held
    have filled : 0 < r.has := held
    have there := (valid.live (by omega)).1
    have bytes := unwrap_read fresh r buf
      ⟨valid.toStorage.alloc granted, valid.ordered, valid.fits⟩ filled live (by omega) (by omega)
    exact bytes.trans (content_congr (same _ there))
  rename_i empty
  have void : r.has = 0 := Nat.eq_zero_of_not_pos empty
  rw [content_nil h r void, void]
  exact take_zero

/-- Everything a new buffer does: the content moves to its start. -/
theorem refill_moved (room : Ok h r → r.has ≤ size) (space : Ok h r → r.has ≤ n)
    (inside : n ≤ buf.len) (got : n = r.size ∨ n = buf.len) :
    Moved A h r (refill A fresh r buf) ⟨buf, n, 0, r.has⟩ := by
  obtain ⟨base, off, _, live, next, _, _, same⟩ := alloc_cases granted
  have grown : (refill A fresh r buf).next = h.next + 1 := by
    rw [← next, refill, put_next]
    split
    · exact unwrap_next fresh r buf
    · rfl
  refine ⟨by omega, fun b below => ?_, .inr (.inr ⟨?_, ?_⟩), fun _ => .inr ⟨rfl, rfl⟩,
    fun valid => ?_, ?_, .inr (.inr ⟨_, _, alloc_get granted⟩)⟩
  · rw [refill, put_mem, ← same b below]
    split
    · exact unwrap_mem_other fresh r buf b (by omega)
    · rfl
  · exact Nat.le_of_eq base.symm
  · rw [grown]
    exact Nat.lt_succ_of_le (Nat.le_of_eq base)
  · have ok : Ok (refill A fresh r buf) ⟨buf, n, 0, r.has⟩ :=
      ⟨⟨off, inside, fun _ => refill_live granted (room valid) live⟩, Nat.zero_le _, space valid⟩
    exact ⟨ok, (content_aligned _ _ ok (Nat.zero_mod _)).trans
      (refill_read granted valid (room valid))⟩
  obtain ⟨bytes, found, length⟩ := alloc_get granted
  exact got.imp_right fun all => .inr ⟨_, _, bytes, found, length.trans all.symm⟩

end

theorem resize_moved {size : Nat} (room : Ok h r → r.has ≤ size)
    (done : r.resize A h size = some (h', r')) :
    Moved A h r h' r' ∧ size ≤ r'.size ∧ r'.r = 0 := by
  unfold resize at done
  cases granted : h.alloc A size with
  | none =>
    rw [granted] at done
    cases done
  | some pair =>
    have enough := (alloc_cases granted).2.2.1
    rw [granted] at done
    dsimp only at done
    rw [held_eq] at done
    cases done
    exact ⟨refill_moved granted room (fun valid => Nat.le_trans (room valid) enough) (Nat.le_refl _)
      (.inr rfl), enough, rfl⟩

/-- What `alignBytes` hands to its caller: the ring's whole storage with the
content at the front. -/
structure Aligned (A : Allocator UInt8) (h h' : Heap UInt8) (r r' : RingBuffer) (s : Slice) :
    Prop where
  moved : Moved A h r h' r'
  buf : r'.buf = s
  size : r'.size = r.size
  room : r.size ≤ s.len
  live : s.Live h'
  bytes : h'.read (s.front r.has) = content h r

/-- A buffer of the ring's own size is to be had. -/
theorem alignBytes_aligned {s : Slice} (granted : ∃ fresh buf, h.alloc A r.size = some (fresh, buf))
    (valid : Ok h r) (positive : 0 < r.size) (done : r.alignBytes A h = (h', r', s)) :
    Aligned A h h' r r' s := by
  unfold alignBytes at done
  split at done
  · rename_i already
    cases done
    exact ⟨.refl h r, rfl, rfl, valid.sized, valid.live positive,
      (content_aligned h r valid already).symm⟩
  obtain ⟨fresh, buf, took⟩ := granted
  obtain ⟨_, _, enough, live, _⟩ := alloc_cases took
  rw [took] at done
  dsimp only [Option.getD_some] at done
  rw [held_eq] at done
  cases done
  exact ⟨refill_moved took (fun valid => valid.fits) (fun valid => valid.fits) enough
    (.inl rfl), rfl, rfl, enough, refill_live took valid.fits live,
    refill_read took valid valid.fits⟩

/-- The step of `write` that takes a first buffer. -/
def first (A : Allocator UInt8) (h : Heap UInt8) (r : RingBuffer) (length : Nat) :
    Heap UInt8 × RingBuffer :=
  if r.size = 0 then
    match h.alloc A length with
    | some (h, buf) => (h, { r with buf := buf, size := buf.len })
    | none => (h, { r with buf := Slice.nil, size := 0 })
  else (h, r)

variable {length : Nat}

theorem idle_of_unset (unset : r.size = 0) (valid : Ok h r) : r.has = 0 :=
  Nat.eq_zero_of_le_zero (unset ▸ valid.fits)

/-- A ring without a buffer that gets none. -/
theorem none_moved (unset : r.size = 0) :
    Moved A h r h { r with buf := Slice.nil, size := 0 } := by
  have void (valid : Ok h r) : r.w - r.r = 0 := idle_of_unset unset valid
  refine ⟨Nat.le_refl _, fun _ _ => rfl, .inr (.inl ⟨rfl, rfl⟩),
    fun _ => .inl ⟨rfl, rfl, .inr unset⟩, fun valid => ⟨⟨⟨rfl, Nat.le_refl _,
      fun filled => absurd filled (Nat.lt_irrefl 0)⟩, valid.ordered,
      Nat.le_of_eq (void valid)⟩, ?_⟩,
    .inr (.inl rfl), .inr (.inl rfl)⟩
  rw [content_nil h r (void valid)]
  exact content_nil _ _ (void valid)

/-- A ring without a buffer that gets one. -/
theorem fresh_moved (unset : r.size = 0) {buf : Slice} (granted : h.alloc A length = some (h', buf))
    {front back : Nat} (at_ : front = r.r ∧ back = r.w ∨ front = 0 ∧ back = 0) :
    Moved A h r h' ⟨buf, buf.len, front, back⟩ := by
  obtain ⟨base, off, _, live, next, _, _, same⟩ := alloc_cases granted
  have idle (valid : Ok h r) : r.has = 0 ∧ front = back := by
    have void := idle_of_unset unset valid
    have ordered := valid.ordered
    unfold RingBuffer.has at void ⊢
    omega
  refine ⟨by omega, same, .inr (.inr ⟨Nat.le_of_eq base.symm, live.1⟩), fun valid => ?_,
    fun valid => ⟨⟨⟨off, Nat.le_refl _, fun _ => live⟩, Nat.le_of_eq (idle valid).2, ?_⟩, ?_⟩,
    .inr (.inr ⟨_, _, alloc_get granted⟩), .inr (.inr ⟨_, _, alloc_get granted⟩)⟩
  · rcases at_ with ⟨stays, ends⟩ | ⟨stays, ends⟩
    · exact .inl ⟨stays, ends, .inr unset⟩
    · exact .inr ⟨stays, ends.trans (idle valid).1.symm⟩
  · rw [(idle valid).2, Nat.sub_self]
    exact Nat.zero_le _
  rw [content_nil h r (idle valid).1]
  refine content_nil _ _ ?_
  rw [RingBuffer.has, (idle valid).2, Nat.sub_self]

theorem first_moved {h₁ : Heap UInt8} {r₁ : RingBuffer} (done : r.first A h length = (h₁, r₁)) :
    Moved A h r h₁ r₁ := by
  unfold first at done
  split at done
  · rename_i unset
    split at done
    · rename_i granted
      cases done
      exact fresh_moved unset granted (.inl ⟨rfl, rfl⟩)
    cases done
    exact none_moved unset
  cases done
  exact .refl h r

/-- The step of `write` and `peekWrite` that makes room. -/
def grow (A : Allocator UInt8) (h : Heap UInt8) (r : RingBuffer) (length : Nat) :
    Option (Heap UInt8 × RingBuffer) :=
  if r.size - (r.w - r.r) < length then r.resize A h (length - (r.size - (r.w - r.r)) + r.size)
  else some (h, r)

theorem grow_moved (done : r.grow A h length = some (h', r')) :
    Moved A h r h' r' ∧ length ≤ r'.size ∧ (Ok h r → r'.has + length ≤ r'.size) ∧
      (r' = r ∧ h' = h ∨ r'.r = 0 ∧ 0 < length) := by
  unfold grow at done
  by_cases short : r.size - (r.w - r.r) < length
  · rw [if_pos short] at done
    have space (valid : Ok h r) : r.has ≤ length - (r.size - (r.w - r.r)) + r.size :=
      Nat.le_add_left_of_le valid.fits
    obtain ⟨moved, large, zero⟩ := resize_moved space done
    refine ⟨moved, by omega, fun valid => ?_, .inr ⟨zero, by omega⟩⟩
    have fits := valid.fits
    rw [moved.has valid]
    unfold RingBuffer.has
    omega
  rw [if_neg short] at done
  cases done
  refine ⟨.refl h r, by omega, fun valid => ?_, .inl ⟨rfl, rfl⟩⟩
  have fits := valid.fits
  unfold RingBuffer.has
  omega

/-- The copies of `write`, in one piece or in two. -/
def put (h : Heap UInt8) (r : RingBuffer) (p : Slice) (length : Nat) : Heap UInt8 :=
  if r.w % r.size + length < r.size then h.copy (r.buf.tail (r.w % r.size)) p
  else
    (h.copy (r.buf.tail (r.w % r.size)) (p.front (r.size - r.w % r.size))).copy r.buf
      (p.tail (r.size - r.w % r.size))

theorem put_next (h : Heap UInt8) (r : RingBuffer) (p : Slice) (length : Nat) :
    (put h r p length).next = h.next := by
  unfold put
  split <;> rfl

theorem put_live (valid : Ok h r) (positive : 0 < r.size) (live : t.Live h) (p : Slice)
    (length : Nat) : t.Live (put h r p length) := by
  have own := valid.live positive
  have start : r.w % r.size < r.size := Nat.mod_lt _ positive
  have target : (r.buf.tail (r.w % r.size)).Live h :=
    own.tail _ (Nat.le_trans (Nat.le_of_lt start) valid.sized)
  unfold put
  split
  · exact live.copy p target
  · exact (live.copy _ target).copy _ (own.copy _ target)

variable {p : Slice}

/-- What the copies of `write` leave in a cell. They go on to the end of the source, so those that
wrap may come round to where they began. -/
theorem put_cell (valid : Ok h r) (source : p.Live h) (long : length ≤ p.len)
    (apart : p.base ≠ r.buf.base) {k : Nat} (inside : k < r.size) :
    ((put h r p length).mem r.buf.base).getD k 0 =
      if r.w % r.size + length < r.size then
        if r.w % r.size ≤ k ∧ k - r.w % r.size < p.len then
          (h.read p).getD (k - r.w % r.size) 0
        else (h.mem r.buf.base).getD k 0
      else if k + (r.size - r.w % r.size) < p.len then
        (h.read p).getD (k + (r.size - r.w % r.size)) 0
      else if r.w % r.size ≤ k then (h.read p).getD (k - r.w % r.size) 0
      else (h.mem r.buf.base).getD k 0 := by
  have sized := valid.sized
  have off := valid.start
  have live := valid.live (by omega)
  have bound := live.2
  have start : r.w % r.size < r.size := Nat.mod_lt _ (by omega)
  have bytes : (h.read p).length = p.len := read_length h p source
  have taken (n i : Nat) (low : i < n) : ((h.read p).take n).getD i 0 = (h.read p).getD i 0 := by
    rw [getD_eq_getElem?_getD, getD_eq_getElem?_getD, getElem?_take_of_lt low]
  unfold put
  by_cases straight : r.w % r.size + length < r.size
  · rw [if_pos straight, if_pos straight]
    have short : ((h.read p).take (r.buf.tail (r.w % r.size)).len).length =
        min (r.buf.len - r.w % r.size) p.len := by
      rw [length_take, bytes, Slice.tail_len]
    simp only [Heap.copy, Heap.store, Slice.tail_base, Slice.tail_off, Function.update_self, off,
      Nat.zero_add]
    rw [overwrite_getD _ _ _ (by omega), short]
    by_cases hit : r.w % r.size ≤ k ∧ k - r.w % r.size < p.len
    · rw [if_pos hit, if_pos (by omega), taken _ _ (by rw [Slice.tail_len]; omega)]
    · rw [if_neg hit, if_neg (by omega)]
  rw [if_neg straight, if_neg straight]
  have first : (h.read (p.front (r.size - r.w % r.size))).take (r.buf.tail (r.w % r.size)).len =
      (h.read p).take (r.size - r.w % r.size) := by
    rw [read_front h p _ (by omega), take_take, Slice.tail_len, Nat.min_eq_right (by omega)]
  have rest : (h.copy (r.buf.tail (r.w % r.size)) (p.front (r.size - r.w % r.size))).read
      (p.tail (r.size - r.w % r.size)) = (h.read p).drop (r.size - r.w % r.size) := by
    rw [copy_read_other h _ _ _ (by simpa only [Slice.tail_base] using apart), read_tail]
  have before : ((h.read p).take (r.size - r.w % r.size)).length = r.size - r.w % r.size := by
    rw [length_take]
    omega
  have after : (((h.read p).drop (r.size - r.w % r.size)).take r.buf.len).length =
      min r.buf.len (p.len - (r.size - r.w % r.size)) := by
    rw [length_take, length_drop, bytes]
  unfold Heap.copy at rest ⊢
  rw [rest, first]
  simp only [Heap.store, Slice.tail_base, Slice.tail_off, Function.update_self, off, Nat.zero_add]
  rw [overwrite_getD _ _ _ (by rw [overwrite_length _ _ _ (by omega)]; omega),
    overwrite_getD _ _ _ (by omega), before, after]
  by_cases second : k + (r.size - r.w % r.size) < p.len
  · rw [if_pos second, if_pos (by omega), Nat.sub_zero, getD_eq_getElem?_getD,
      getElem?_take_of_lt (by omega), getElem?_drop, Nat.add_comm,
      getD_eq_getElem?_getD]
  rw [if_neg second, if_neg (by omega)]
  by_cases low : r.w % r.size ≤ k
  · rw [if_pos low, if_pos (by omega), taken _ _ (by omega)]
  · rw [if_neg low, if_neg (by omega)]

/-- The same, counted from the write position. -/
theorem put_behind (valid : Ok h r) (source : p.Live h) (long : length ≤ p.len)
    (apart : p.base ≠ r.buf.base) {j : Nat} (inside : j < r.size) :
    ((put h r p length).mem r.buf.base).getD ((r.w + j) % r.size) 0 =
      if r.w % r.size + length < r.size then
        if r.w % r.size + j < r.size ∧ j < p.len then (h.read p).getD j 0
        else (h.mem r.buf.base).getD ((r.w + j) % r.size) 0
      else if r.w % r.size + j < r.size ∧ j + r.size < p.len then (h.read p).getD (j + r.size) 0
      else if j < p.len then (h.read p).getD j 0
      else (h.mem r.buf.base).getD ((r.w + j) % r.size) 0 := by
  have start : r.w % r.size < r.size := Nat.mod_lt _ (by omega)
  rw [put_cell valid source long apart (Nat.mod_lt _ (by omega)), ← Nat.mod_add_mod,
    turn _ j _ start (by omega)]
  generalize r.w % r.size = first at start ⊢
  by_cases low : first + j < r.size
  · rw [if_pos low, show first + j - first = j by omega,
      show first + j + (r.size - first) = j + r.size by omega]
    simp only [low, Nat.le_add_right, true_and, if_true]
    by_cases straight : first + length < r.size
    · rw [if_pos straight, if_pos straight]
    · rw [if_neg straight, if_neg straight, if_pos (show j < p.len by omega)]
  rw [if_neg low, show first + j - r.size + (r.size - first) = j by omega]
  simp only [low, false_and, if_false, show ¬ first ≤ first + j - r.size by omega]

/-- The copies of a whole source. -/
theorem put_append (valid : Ok h r) (source : p.Live h) (positive : 0 < p.len)
    (room : r.has + p.len ≤ r.size) (apart : p.base ≠ r.buf.base) :
    Ok (put h r p p.len) { r with w := r.w + p.len } ∧
      content (put h r p p.len) { r with w := r.w + p.len } = content h r ++ h.read p := by
  have ordered := valid.ordered
  have bytes : (h.read p).length = p.len := read_length h p source
  unfold RingBuffer.has at room
  refine ⟨⟨⟨valid.start, valid.sized, fun filled =>
    put_live valid filled (valid.live filled) p p.len⟩, ?_, ?_⟩, ?_⟩
  · dsimp only
    omega
  · dsimp only
    omega
  have appended := content_append (put h r p p.len) valid (h.read p)
    (by rw [bytes]; unfold RingBuffer.has; omega) fun j inside => ?_
  · rwa [bytes] at appended
  rw [put_behind valid source (Nat.le_refl _) apart inside, bytes]
  split <;> split <;> split <;> first | rfl | omega

theorem write_eq (h : Heap UInt8) (r : RingBuffer) (p : Slice) (length : Nat) (update : Bool) :
    r.write A h p length update =
      let (h, r) := r.first A h length
      if p.len = 0 ∨ length > p.len then (h, r, -1)
      else match r.grow A h length with
        | none => (h, r, -2)
        | some (h, r) =>
          (put h r p length, if update then { r with w := r.w + length } else r, length) := rfl

theorem grow_refused (refused : r.grow A h length = none) :
    r.size - (r.w - r.r) < length ∧
      ∃ m, A.get m (length - (r.size - (r.w - r.r)) + r.size) = none := by
  unfold grow resize Heap.alloc at refused
  split at refused
  · rename_i short
    cases found : A.get h.next (length - (r.size - (r.w - r.r)) + r.size) with
    | none => exact ⟨short, _, found⟩
    | some bytes =>
      rw [found] at refused
      cases refused
  · cases refused

/-- Everything `write` can do: refuse, or copy into a ring that has room. -/
theorem write_moved {update : Bool} {n : Int} (done : r.write A h p length update = (h', r', n)) :
    n < 0 ∧ Moved A h r h' r' ∨
      n = length ∧ 0 < p.len ∧ length ≤ p.len ∧ ∃ h₁ r₁, Moved A h r h₁ r₁ ∧
      length ≤ r₁.size ∧ (Ok h r → r₁.has + length ≤ r₁.size) ∧ h' = put h₁ r₁ p length ∧
      r' = if update then { r₁ with w := r₁.w + length } else r₁ := by
  rw [write_eq] at done
  rcases opened : r.first A h length with ⟨h₀, r₀⟩
  have moved := first_moved opened
  rw [opened] at done
  dsimp only at done
  by_cases bad : p.len = 0 ∨ length > p.len
  · rw [if_pos bad] at done
    cases done
    exact .inl ⟨by decide, moved⟩
  rw [if_neg bad] at done
  cases grown : r₀.grow A h₀ length with
  | none =>
    rw [grown] at done
    cases done
    exact .inl ⟨by decide, moved⟩
  | some pair =>
    obtain ⟨more, long, room, _⟩ := grow_moved grown
    rw [grown] at done
    cases done
    exact .inr ⟨rfl, by omega, by omega, pair.1, pair.2, moved.trans more, long,
      fun valid => room (moved.kept valid).1, rfl, rfl⟩

/-- A ring asks for what it holds and what it is given, and no more. -/
theorem write_granted (valid : Ok h r) {p : Slice} (positive : 0 < p.len)
    (serves : A.Serves (r.has + p.len)) : 0 ≤ (r.write A h p p.len true).2.2 := by
  rw [write_eq]
  rcases opened : r.first A h p.len with ⟨h₀, r₀⟩
  have moved := first_moved opened
  have fits := (moved.kept valid).1.fits
  have same := moved.has valid
  dsimp only
  rw [if_neg (by omega)]
  split
  · rename_i refused
    obtain ⟨short, m, void⟩ := grow_refused refused
    refine absurd void (serves m _ ?_)
    unfold RingBuffer.has at fits same ⊢
    omega
  · exact Int.natCast_nonneg _

/-- A buffer that was there before is apart from the ring's if it was so before. -/
theorem Moved.apart (moved : Moved A h r h' r') {b : Nat} (known : b < h.next)
    (apart : 0 < r.size → b ≠ r.buf.base) (filled : 0 < r'.size) : b ≠ r'.buf.base := by
  rcases moved.place with ⟨base, size⟩ | ⟨_, void⟩ | ⟨fresh, _⟩
  · rw [base]
    exact apart (size ▸ filled)
  · omega
  · omega

/-- A write that is accepted appends the source. -/
theorem write_queue (valid : Ok h r) (source : p.Live h) (positive : 0 < p.len)
    (apart : 0 < r.size → p.base ≠ r.buf.base) {n : Int}
    (done : r.write A h p p.len true = (h', r', n)) :
    n < 0 ∧ Moved A h r h' r' ∨ n = p.len ∧ Ok h' r' ∧ content h' r' = content h r ++ h.read p := by
  rcases write_moved done with refused | ⟨whole, _, _, h₁, r₁, moved, _, room, rfl, rfl⟩
  · exact .inl refused
  obtain ⟨ok, same⟩ := moved.kept valid
  have space := room valid
  obtain ⟨ok', appended⟩ := put_append ok (moved.live source) positive space
    (moved.apart source.1 apart (by omega))
  rw [same, moved.read source] at appended
  exact .inr ⟨whole, ok', appended⟩

/-- Taking bytes off the front. -/
theorem forward_queue (valid : Ok h r) {step : Nat} (held : step ≤ r.has) :
    Ok h (r.forward step .opRead).1 ∧
      content h (r.forward step .opRead).1 = (content h r).drop step := by
  have ordered := valid.ordered
  have fits := valid.fits
  unfold RingBuffer.has at held
  have out : r.forward step .opRead = if r.r + step > r.w then (r, -1)
      else if r.r + step = r.w then ({ r with r := 0, w := 0 }, 0)
      else ({ r with r := r.r + step }, 0) := rfl
  rw [out, if_neg (by omega)]
  split
  · refine ⟨⟨⟨valid.start, valid.sized, valid.live⟩, Nat.le_refl _, Nat.zero_le _⟩, ?_⟩
    rw [drop_eq_nil_of_le (by rw [content_length]; unfold RingBuffer.has; omega)]
    exact content_nil _ _ rfl
  refine ⟨⟨⟨valid.start, valid.sized, valid.live⟩, by dsimp only; omega, by dsimp only; omega⟩, ?_⟩
  apply ext_getElem
  · rw [content_length, length_drop, content_length]
    unfold RingBuffer.has
    dsimp only
    omega
  intro i _ _
  simp only [content, getElem_drop, getElem_map, getElem_range, Nat.add_assoc]

/-- The two slices of `peek2` hold the content. -/
theorem peek2_queue (valid : Ok h r) :
    h.read r.peek2.1 ++ h.read r.peek2.2 = content h r ∧ r.peek2.1.len + r.peek2.2.len = r.has ∧
      (h.read r.peek2.1).length = r.peek2.1.len ∧ (h.read r.peek2.2).length = r.peek2.2.len := by
  have fits := valid.fits
  have ordered := valid.ordered
  have sized := valid.sized
  unfold peek2
  split
  · have empty : r.has = 0 := by
      unfold RingBuffer.has
      omega
    rw [content_nil h r empty, empty]
    exact ⟨by simp [Heap.read, Slice.nil],
      rfl, by simp [Heap.read, Slice.nil], by simp [Heap.read, Slice.nil]⟩
  have live := valid.live (by omega)
  have start : r.r % r.size < r.size := Nat.mod_lt _ (by omega)
  have nonempty : 0 < r.has := by
    unfold RingBuffer.has
    omega
  dsimp only
  split
  · rename_i straight
    have inside : ((r.buf.tail (r.r % r.size)).front r.has).Live h :=
      (live.tail _ (by omega)).front _ (by rw [Slice.tail_len]; unfold RingBuffer.has; omega)
    refine ⟨?_, rfl, read_length h _ inside, by simp [Heap.read, Slice.nil]⟩
    rw [content_straight h r valid nonempty straight]
    simp [Heap.read, Slice.nil, RingBuffer.has]
  have first : ((r.buf.tail (r.r % r.size)).front (r.size - r.r % r.size)).Live h :=
    (live.tail _ (by omega)).front _ (by rw [Slice.tail_len]; omega)
  have second : (r.buf.front (r.r % r.size + (r.w - r.r) - r.size)).Live h :=
    live.front _ (by omega)
  refine ⟨?_, ?_, read_length h _ first, read_length h _ second⟩
  · rw [content_wrapped h r valid nonempty (by unfold RingBuffer.has; omega),
      show r.has - (r.size - r.r % r.size) = r.r % r.size + (r.w - r.r) - r.size by
        unfold RingBuffer.has; omega]
  simp only [Slice.front_len]
  unfold RingBuffer.has
  omega

end Connaxis.RingBuffer
