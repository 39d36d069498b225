import Connaxis.RingBufferQueue

namespace Connaxis.RingBuffer

open Memory Heap Slice

variable {A : Allocator UInt8} {h h' : Heap UInt8} {r r' : RingBuffer} {s : Slice}

/-- Slices that were inside a buffer still are. -/
def Keeps (h h' : Heap UInt8) : Prop := ∀ t : Slice, t.Live h → t.Live h'

theorem Keeps.refl (h : Heap UInt8) : Keeps h h := fun _ live => live

theorem Keeps.trans {h₁ h₂ h₃ : Heap UInt8} (first : Keeps h₁ h₂) (second : Keeps h₂ h₃) :
    Keeps h₁ h₃ := fun t live => second t (first t live)

/-- The copies of `write` into a ring that holds nothing and has room. The source may be a window
of the ring's own storage. -/
theorem put_empty {p : Slice} (valid : Storage h r) (zero : r.w = 0) (room : p.len ≤ r.size)
    (positive : 0 < p.len) (source : p.Live h) :
    (put h r p p.len).read (r.buf.front p.len) = h.read p ∧ Keeps h (put h r p p.len) := by
  have sized := valid.sized
  have live := valid.live (by omega)
  have moved : (h.copy r.buf p).read (r.buf.front p.len) = h.read p := by
    have copied := copy_read_front h r.buf p live (by rw [read_length h p source]; omega)
    rwa [read_length h p source] at copied
  have atStart : r.buf.tail 0 = r.buf := by
    simp only [tail, Nat.add_zero, Nat.sub_zero]
  unfold put
  simp only [zero, Nat.zero_mod, Nat.zero_add, Nat.sub_zero, atStart]
  split
  · exact ⟨moved, fun t inside => inside.copy p live⟩
  have whole : p.front r.size = p := by
    rw [show r.size = p.len by omega, front]
  rw [whole, copy_empty _ _ (p.tail r.size) (by rw [tail_len]; omega)]
  exact ⟨moved, fun t inside => inside.copy p live⟩

/-- Writing into an emptied ring stores exactly the source's bytes, whether the
ring has a buffer, a too small one or none. -/
theorem write_empty {p : Slice} (serves : A.Serves p.len) (valid : Storage h r)
    (rest : r.r = 0 ∧ r.w = 0) (source : p.Live h) (positive : 0 < p.len) {n : Int}
    (done : r.write A h p p.len true = (h', r', n)) :
    Ok h' r' ∧ content h' r' = h.read p ∧ Keeps h h' ∧ Lent A r.buf.len r'.buf.len := by
  have ready : Ok h r := ⟨valid, by omega, by omega⟩
  have taken := write_granted ready positive
    (serves.mono (Nat.le_of_eq (by unfold RingBuffer.has; omega)))
  rw [done] at taken
  rcases write_moved done with ⟨negative, _⟩ | ⟨_, _, _, h₁, r₁, moved, room, _, rfl, rfl⟩
  · exact absurd taken (Int.not_le.mpr negative)
  have zero : r₁.r = 0 ∧ r₁.w = 0 := by
    have turned := moved.turned ready
    unfold RingBuffer.has at turned
    omega
  have storage := (moved.kept ready).1.toStorage
  obtain ⟨bytes, keeps⟩ := put_empty storage zero.2 room positive (moved.live source)
  have ok : Ok (put h₁ r₁ p p.len) { r₁ with w := r₁.w + p.len } :=
    ⟨⟨storage.start, storage.sized, fun filled => keeps _ (storage.live filled)⟩,
      by dsimp only; omega, by dsimp only; omega⟩
  have has : RingBuffer.has { r₁ with w := r₁.w + p.len } = p.len := by
    unfold RingBuffer.has
    dsimp only
    omega
  refine ⟨ok, ?_, fun t live => keeps t (moved.live live), moved.lent⟩
  rw [if_pos rfl, content_aligned _ _ ok (by rw [zero.1, Nat.zero_mod]), has, bytes,
    moved.read source]

end Connaxis.RingBuffer
