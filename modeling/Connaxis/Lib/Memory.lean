import Mathlib.Algebra.Ring.Nat
import Mathlib.Data.List.Basic

/- Byte storage shared through slices. A slice is a window on a buffer, so two
slices may overlap; a copy has the semantics of a move: the source window is
read as a whole before the destination is written. -/
namespace Memory

open List Function

variable {α : Type}

/-- `src` replaces the elements of `dst` that start at `off`. -/
def overwrite (dst : List α) (off : Nat) (src : List α) : List α :=
  dst.take off ++ src ++ dst.drop (off + src.length)

variable (dst : List α) (off : Nat) (src : List α)

theorem overwrite_length (fits : off + src.length ≤ dst.length) :
    (overwrite dst off src).length = dst.length := by
  simp only [overwrite, length_append, length_take, length_drop]
  omega

@[simp] theorem overwrite_nil : overwrite dst off [] = dst := by
  simp only [overwrite, append_nil, length_nil, Nat.add_zero, take_append_drop]

/-- What was written, with everything before it. -/
theorem overwrite_take (fits : off ≤ dst.length) :
    (overwrite dst off src).take (off + src.length) = dst.take off ++ src := by
  have front : (dst.take off ++ src).length = off + src.length := by
    simp only [length_append, length_take]
    omega
  unfold overwrite
  rw [← front, take_left]

theorem overwrite_drop (off n : Nat) (src : List α) (fits : off ≤ dst.length)
    (behind : off + src.length ≤ n) : (overwrite dst off src).drop n = dst.drop n := by
  have front : (dst.take off ++ src).length = off + src.length := by
    simp only [length_append, length_take]
    omega
  unfold overwrite
  rw [show n = (dst.take off ++ src).length + (n - (off + src.length)) by omega, ← drop_drop,
    drop_left, drop_drop, front]

theorem overwrite_getElem? (fits : off + src.length ≤ dst.length) (k : Nat) :
    (overwrite dst off src)[k]? =
      if off ≤ k ∧ k < off + src.length then src[k - off]? else dst[k]? := by
  have front : (dst.take off).length = off := by
    rw [length_take]
    omega
  unfold overwrite
  by_cases before : k < off
  · rw [if_neg (by omega), append_assoc, getElem?_append_left (by omega),
      getElem?_take_of_lt before]
  by_cases inside : k < off + src.length
  · rw [if_pos (by omega), getElem?_append_left (by rw [length_append]; omega),
      getElem?_append_right (by omega), front]
  rw [if_neg (by omega), getElem?_append_right (by rw [length_append]; omega),
    getElem?_drop, length_append, front]
  congr 1
  omega

theorem overwrite_getD (fits : off + src.length ≤ dst.length) (k : Nat) (d : α) :
    (overwrite dst off src).getD k d =
      if off ≤ k ∧ k < off + src.length then src.getD (k - off) d else dst.getD k d := by
  simp only [getD_eq_getElem?_getD, overwrite_getElem? dst off src fits]
  split <;> rfl

structure Slice where
  base : Nat
  off : Nat
  len : Nat
deriving DecidableEq, Repr

/-- `s[k:]`. -/
def Slice.tail (s : Slice) (k : Nat) : Slice := ⟨s.base, s.off + k, s.len - k⟩

/-- `s[:k]`. -/
def Slice.front (s : Slice) (k : Nat) : Slice := ⟨s.base, s.off, k⟩

/-- The empty slice; it points at no buffer that is ever handed out. -/
def Slice.nil : Slice := ⟨0, 0, 0⟩

section

variable (s : Slice)
include s

@[simp] theorem Slice.tail_base (k : Nat) : (s.tail k).base = s.base := rfl
@[simp] theorem Slice.tail_off (k : Nat) : (s.tail k).off = s.off + k := rfl
@[simp] theorem Slice.tail_len (k : Nat) : (s.tail k).len = s.len - k := rfl
@[simp] theorem Slice.front_base (k : Nat) : (s.front k).base = s.base := rfl
@[simp] theorem Slice.front_off (k : Nat) : (s.front k).off = s.off := rfl
@[simp] theorem Slice.front_len (k : Nat) : (s.front k).len = k := rfl

end

/-- Buffers by number. `next` is the number of the next buffer handed out and
`pooled` lists the buffers given back, the latest first. A buffer that was given
back keeps its bytes: handing it out again is handing out a new number. -/
structure Heap (α : Type) where
  mem : Nat → List α
  next : Nat
  pooled : List Nat

/-- A source of buffers. What a fresh buffer holds is left open: it depends on
the number of the request as well as on the size. `keep` tells which lengths are
taken back. -/
structure Allocator (α : Type) where
  get : Nat → Nat → Option (List α)
  keep : Nat → Bool
  sized : ∀ n size bytes, get n size = some bytes → size ≤ bytes.length

namespace Allocator

variable {A : Allocator α} {most : Nat}

/-- There are buffers of up to `most` elements. -/
def Serves (A : Allocator α) (most : Nat) : Prop := ∀ n size, size ≤ most → A.get n size ≠ none

/-- A size that was handed out once is handed out again. -/
def Steady (A : Allocator α) : Prop :=
  ∀ n size bytes, A.get n size = some bytes → A.Serves bytes.length

theorem Serves.mono {less : Nat} (serves : A.Serves most) (within : less ≤ most) :
    A.Serves less :=
  fun n size small => serves n size (Nat.le_trans small within)

end Allocator

def Heap.alloc (A : Allocator α) (h : Heap α) (size : Nat) : Option (Heap α × Slice) :=
  match A.get h.next size with
  | none => none
  | some bytes =>
    some (⟨Function.update h.mem h.next bytes, h.next + 1, h.pooled⟩, ⟨h.next, 0, bytes.length⟩)

def Heap.put (A : Allocator α) (h : Heap α) (s : Slice) : Heap α :=
  if A.keep s.len then { h with pooled := s.base :: h.pooled } else h

def Heap.read (h : Heap α) (s : Slice) : List α := ((h.mem s.base).drop s.off).take s.len

/-- A caller's own buffer, as a slice. -/
def Heap.lend (h : Heap α) (bytes : List α) : Heap α × Slice :=
  (⟨Function.update h.mem h.next bytes, h.next + 1, h.pooled⟩, ⟨h.next, 0, bytes.length⟩)

/-- Store bytes at the start of a slice. -/
def Heap.store (h : Heap α) (s : Slice) (bytes : List α) : Heap α :=
  { h with mem := Function.update h.mem s.base (overwrite (h.mem s.base) s.off bytes) }

/-- `copy(dst, src)`: as many elements as both slices have. -/
def Heap.copy (h : Heap α) (dst src : Slice) : Heap α :=
  h.store dst ((h.read src).take dst.len)

/-- The slice lies inside a buffer that has been handed out. -/
def Slice.Live (s : Slice) (h : Heap α) : Prop :=
  s.base < h.next ∧ s.off + s.len ≤ (h.mem s.base).length

@[simp] theorem Heap.put_mem (A : Allocator α) (h : Heap α) (s : Slice) :
    (h.put A s).mem = h.mem := by
  unfold Heap.put
  split <;> rfl

@[simp] theorem Heap.put_next (A : Allocator α) (h : Heap α) (s : Slice) :
    (h.put A s).next = h.next := by
  unfold Heap.put
  split <;> rfl

@[simp] theorem Heap.put_read (A : Allocator α) (h : Heap α) (s t : Slice) :
    (h.put A s).read t = h.read t := by
  simp only [Heap.read, Heap.put_mem]

open Heap Slice

variable {s : Slice} {h : Heap α}

theorem Slice.Live.put (live : s.Live h) (A : Allocator α) (t : Slice) : s.Live (h.put A t) := by
  simpa only [Slice.Live, put_mem, put_next] using live

theorem Heap.read_length (h : Heap α) (s : Slice) (live : s.Live h) :
    (h.read s).length = s.len := by
  have bound := live.2
  simp only [read, length_take, length_drop]
  omega

theorem Heap.read_front (h : Heap α) (s : Slice) (k : Nat) (within : k ≤ s.len) :
    h.read (s.front k) = (h.read s).take k := by
  simp only [read, front_base, front_off, front_len, take_take,
    Nat.min_eq_left within]

theorem Heap.read_tail (h : Heap α) (s : Slice) (k : Nat) :
    h.read (s.tail k) = (h.read s).drop k := by
  simp only [read, tail_base, tail_off, tail_len, drop_take, drop_drop]

theorem Slice.Live.front (live : s.Live h) (k : Nat) (within : k ≤ s.len) : (s.front k).Live h := by
  obtain ⟨known, bound⟩ := live
  refine ⟨known, ?_⟩
  simp only [front_off, front_len, front_base]
  omega

theorem Slice.Live.tail (live : s.Live h) (k : Nat) (within : k ≤ s.len) : (s.tail k).Live h := by
  obtain ⟨known, bound⟩ := live
  refine ⟨known, ?_⟩
  simp only [tail_off, tail_len, tail_base]
  omega

/-- A store inside a buffer changes no buffer's length. -/
theorem Heap.store_mem_length (h : Heap α) (s : Slice) (bytes : List α) (b : Nat)
    (fits : s.off + bytes.length ≤ (h.mem s.base).length) :
    ((h.store s bytes).mem b).length = (h.mem b).length := by
  simp only [store, update_apply]
  split
  · rename_i same
    rw [same, overwrite_length _ _ _ fits]
  · rfl

theorem Heap.store_mem_other (h : Heap α) (s : Slice) (bytes : List α) (b : Nat)
    (other : b ≠ s.base) : (h.store s bytes).mem b = h.mem b := by
  simp only [store, update_of_ne other]

theorem Heap.copy_read_other (h : Heap α) (dst src t : Slice) (other : t.base ≠ dst.base) :
    (h.copy dst src).read t = h.read t := by
  simp only [read, copy, store_mem_other h dst _ t.base other]

variable {t : Slice}

theorem Slice.Live.store (live : s.Live h) (bytes : List α)
    (fits : t.off + bytes.length ≤ (h.mem t.base).length) : s.Live (h.store t bytes) := by
  refine ⟨live.1, ?_⟩
  rw [store_mem_length h t bytes s.base fits]
  exact live.2

/-- The front of a slice after a store further inside it. -/
theorem Heap.store_read_tail (h : Heap α) (s : Slice) (k : Nat) (bytes : List α)
    (live : s.Live h) (fits : k + bytes.length ≤ s.len) :
    (h.store (s.tail k) bytes).read (s.front (k + bytes.length)) = (h.read s).take k ++ bytes := by
  have bound := live.2
  have whole := overwrite_take (h.mem s.base) (s.off + k) bytes (by omega)
  have cut := congrArg (drop s.off) whole
  rw [drop_take, drop_append_of_le_length (by simp only [length_take]; omega), drop_take] at cut
  simp only [read, store, tail_base, tail_off, front_base,
    front_off, front_len, update_self, take_take]
  rw [show k + bytes.length = s.off + k + bytes.length - s.off by omega, cut,
    Nat.add_sub_cancel_left, Nat.min_eq_left (by omega)]

/-- The rest of a slice after a store at its front. -/
theorem Heap.store_read_behind (h : Heap α) (s : Slice) (k : Nat) (bytes : List α)
    (live : s.Live h) (fits : bytes.length ≤ k) :
    (h.store (s.front k) bytes).read (s.tail k) = h.read (s.tail k) := by
  have bound := live.2
  simp only [read, store, tail_base, tail_off, front_base,
    front_off, update_self]
  rw [overwrite_drop _ _ _ _ (by omega) (by omega)]

/-- The front of a slice after a store at its start. -/
theorem Heap.store_read_front (h : Heap α) (s : Slice) (bytes : List α)
    (live : s.Live h) (fits : bytes.length ≤ s.len) :
    (h.store s bytes).read (s.front bytes.length) = bytes := by
  have moved := store_read_tail h s 0 bytes live (by omega)
  simpa only [Slice.tail, Nat.add_zero, Nat.sub_zero, Nat.zero_add, take_zero,
    nil_append] using moved

/-- A move brings the source's old content to the front of the destination, also
when the two windows overlap. -/
theorem Heap.copy_read_front (h : Heap α) (dst src : Slice) (live : dst.Live h)
    (room : (h.read src).length ≤ dst.len) :
    (h.copy dst src).read (dst.front (h.read src).length) = h.read src := by
  have whole : (h.read src).take dst.len = h.read src := take_of_length_le room
  unfold copy
  rw [whole]
  exact store_read_front h dst (h.read src) live room

/-- The part of a move that both windows have room for. -/
theorem Heap.copy_read_take (h : Heap α) (dst src : Slice) (k : Nat) (target : dst.Live h)
    (source : src.Live h) (room : k ≤ dst.len) (held : k ≤ src.len) :
    (h.copy dst src).read (dst.front k) = (h.read src).take k := by
  have length : ((h.read src).take dst.len).length = min dst.len src.len := by
    rw [length_take, read_length h src source]
  have moved := store_read_front h dst ((h.read src).take dst.len) target (by omega)
  have cut := congrArg (take k) moved
  rw [← read_front _ _ _ (by rw [front_len]; omega), take_take,
    Nat.min_eq_left room] at cut
  exact cut

@[simp] theorem Heap.store_nil (h : Heap α) (s : Slice) : h.store s [] = h := by
  simp only [store, overwrite_nil, update_eq_self]

theorem Heap.copy_empty (h : Heap α) (dst src : Slice) (empty : src.len = 0) :
    h.copy dst src = h := by
  simp only [copy, read, empty, take_zero, take_nil, store_nil]

theorem Heap.copy_fits (h : Heap α) (dst src : Slice) (live : dst.Live h) :
    dst.off + ((h.read src).take dst.len).length ≤ (h.mem dst.base).length := by
  have bound := live.2
  have short := length_take_le dst.len (h.read src)
  omega

theorem Slice.Live.copy {dst : Slice} (live : s.Live h) (src : Slice) (target : dst.Live h) :
    s.Live (h.copy dst src) :=
  live.store _ (copy_fits h dst src target)

theorem Heap.lend_mem_other (h : Heap α) (bytes : List α) (b : Nat) (other : b ≠ h.next) :
    (h.lend bytes).1.mem b = h.mem b :=
  update_of_ne other _ _

theorem Heap.lend_live (h : Heap α) (bytes : List α) :
    (h.lend bytes).2.Live (h.lend bytes).1 := by
  refine ⟨Nat.lt_succ_self _, ?_⟩
  simp only [lend, update_self, Nat.zero_add, Nat.le_refl]

theorem Heap.lend_read (h : Heap α) (bytes : List α) :
    (h.lend bytes).1.read (h.lend bytes).2 = bytes := by
  simp only [lend, read, update_self, drop_zero, take_length]

variable {A : Allocator α} {h' : Heap α} {size : Nat}

theorem Heap.alloc_served (serves : A.Serves size) (h : Heap α) :
    ∃ fresh buf, h.alloc A size = some (fresh, buf) := by
  unfold alloc
  split
  · rename_i refused
    exact absurd refused (serves _ _ (Nat.le_refl _))
  · exact ⟨_, _, rfl⟩

theorem Heap.alloc_none (refused : h.alloc A size = none) : ∃ n size, A.get n size = none := by
  unfold alloc at refused
  split at refused
  · rename_i void
    exact ⟨_, _, void⟩
  · cases refused

section

variable (granted : h.alloc A size = some (h', s))
include granted

/-- Everything an allocation does: a fresh buffer that is large enough, and no
other buffer touched. -/
theorem Heap.alloc_cases :
    s.base = h.next ∧ s.off = 0 ∧ size ≤ s.len ∧ s.Live h' ∧ h'.next = h.next + 1 ∧
      h'.pooled = h.pooled ∧ (h'.mem s.base).length = s.len ∧
      ∀ b, b < h.next → h'.mem b = h.mem b := by
  unfold alloc at granted
  split at granted
  · cases granted
  rename_i bytes found
  cases granted
  refine ⟨rfl, rfl, A.sized _ _ _ found, ⟨?_, ?_⟩, rfl, rfl, ?_, ?_⟩
  · exact Nat.lt_succ_self h.next
  · simp only [update_self, Nat.zero_add, Nat.le_refl]
  · simp only [update_self]
  intro b below
  exact update_of_ne (Nat.ne_of_lt below) _ _

/-- The buffer is one that the allocator had. -/
theorem Heap.alloc_get : ∃ bytes, A.get h.next size = some bytes ∧ bytes.length = s.len := by
  unfold alloc at granted
  split at granted
  · cases granted
  rename_i bytes found
  cases granted
  exact ⟨bytes, found, rfl⟩

theorem Heap.alloc_serves (steady : A.Steady) : A.Serves s.len := by
  obtain ⟨bytes, found, length⟩ := alloc_get granted
  exact length ▸ steady _ _ _ found

theorem Heap.alloc_read (known : t.base < h.next) : h'.read t = h.read t := by
  have same := (alloc_cases granted).2.2.2.2.2.2.2 t.base known
  simp only [read, same]

end

theorem Slice.Live.alloc (live : t.Live h) (granted : h.alloc A size = some (h', s)) :
    t.Live h' := by
  obtain ⟨_, _, _, _, grown, _, _, same⟩ := alloc_cases granted
  refine ⟨?_, ?_⟩
  · rw [grown]
    exact Nat.lt_succ_of_lt live.1
  rw [same t.base live.1]
  exact live.2

/-- Between the two heaps new buffers were handed out, and of the old ones no other than
`base` was written to. -/
structure Heap.Only (h h' : Heap α) (base : Nat) : Prop where
  grown : h.next ≤ h'.next
  same : ∀ b, b < h.next → b ≠ base → h'.mem b = h.mem b

/-- The second part may also write to what the first has handed out. -/
theorem Heap.Only.trans {h₁ h₂ h₃ : Heap α} {base other : Nat} (first : h₁.Only h₂ base)
    (second : h₂.Only h₃ other) (own : other = base ∨ h₁.next ≤ other) : h₁.Only h₃ base := by
  refine ⟨Nat.le_trans first.grown second.grown, fun b known different => ?_⟩
  rw [second.same b (Nat.lt_of_lt_of_le known first.grown) ?_, first.same b known different]
  rcases own with same | fresh
  · rw [same]
    exact different
  · omega

theorem Heap.Only.alloc (granted : h.alloc A size = some (h', s)) (base : Nat) :
    h.Only h' base := by
  obtain ⟨_, _, _, _, next, _, _, same⟩ := alloc_cases granted
  exact ⟨by omega, fun b known _ => same b known⟩

theorem Heap.Only.put (A : Allocator α) (h : Heap α) (s : Slice) (base : Nat) :
    h.Only (h.put A s) base :=
  ⟨Nat.le_of_eq (put_next A h s).symm, fun b _ _ => by rw [put_mem]⟩

theorem Heap.Only.store (h : Heap α) (s : Slice) (bytes : List α) :
    h.Only (h.store s bytes) s.base :=
  ⟨Nat.le_refl _, fun b _ other => store_mem_other h s bytes b other⟩

theorem Heap.Only.copy (h : Heap α) (dst src : Slice) : h.Only (h.copy dst src) dst.base :=
  Heap.Only.store h dst _

theorem Heap.Only.lend (h : Heap α) (bytes : List α) (base : Nat) : h.Only (h.lend bytes).1 base :=
  ⟨Nat.le_succ _, fun b known _ => lend_mem_other h bytes b (Nat.ne_of_lt known)⟩

/-- Between the two heaps new buffers were handed out, and of the old ones only those
`own` names were written to. -/
structure Heap.Spares (h h' : Heap α) (own : Nat → Prop) : Prop where
  grown : h.next ≤ h'.next
  same : ∀ b, b < h.next → ¬ own b → h'.mem b = h.mem b

theorem Heap.Spares.refl (h : Heap α) (own : Nat → Prop) : h.Spares h own :=
  ⟨Nat.le_refl _, fun _ _ _ => rfl⟩

theorem Heap.Spares.trans {h₁ h₂ h₃ : Heap α} {own own' : Nat → Prop} (first : h₁.Spares h₂ own)
    (second : h₂.Spares h₃ own') (less : ∀ b, own' b → own b ∨ h₁.next ≤ b) :
    h₁.Spares h₃ own := by
  refine ⟨Nat.le_trans first.grown second.grown, fun b known spared => ?_⟩
  rw [second.same b (Nat.lt_of_lt_of_le known first.grown) ?_, first.same b known spared]
  intro owned
  rcases less b owned with mine | fresh
  · exact spared mine
  · omega

theorem Heap.Only.spares {base : Nat} {own : Nat → Prop} (only : h.Only h' base)
    (mine : own base ∨ h.next ≤ base) : h.Spares h' own := by
  refine ⟨only.grown, fun b known spared => only.same b known fun same => ?_⟩
  rcases mine with owned | fresh
  · exact spared (same ▸ owned)
  · omega

end Memory
