import Connaxis.ProcessRead
import Connaxis.RingBufferFrame
import Connaxis.RingBufferSpec

namespace Connaxis

open Memory Heap

namespace RingBuffer

variable {A : Allocator UInt8} {shared : Slice} {h h' h₁ : Heap UInt8} {r r' r₁ : RingBuffer}

/-- The buffers that reading a connection may write to: the loop's shared one and the
connection's own. -/
def Mine (shared : Slice) (r : RingBuffer) (b : Nat) : Prop :=
  b = shared.base ∨ 0 < r.size ∧ b = r.buf.base

/-- What reading a connection does to the buffers. Its own one may be exchanged for a new
one; nobody else's is written to. -/
structure Worked (A : Allocator UInt8) (shared : Slice) (h h' : Heap UInt8) (r r' : RingBuffer) :
    Prop where
  spares : h.Spares h' (Mine shared r)
  place : 0 < r'.size → 0 < r.size ∧ r'.buf.base = r.buf.base ∨ h.next ≤ r'.buf.base
  kept : Keeps h h'
  ok : Ok h' r'
  lent : Lent A r.buf.len r'.buf.len

theorem Worked.refl (valid : Ok h r) : Worked A shared h h r r :=
  ⟨Heap.Spares.refl h _, fun positive => .inl ⟨positive, rfl⟩, Keeps.refl h, valid, .inl rfl⟩

theorem Worked.trans (first : Worked A shared h h₁ r r₁) (second : Worked A shared h₁ h' r₁ r') :
    Worked A shared h h' r r' := by
  have grown := first.spares.grown
  refine ⟨first.spares.trans second.spares fun b mine => ?_, fun positive => ?_,
    first.kept.trans second.kept, second.ok, first.lent.trans second.lent⟩
  · rcases mine with common | ⟨positive, rfl⟩
    · exact .inl (.inl common)
    rcases first.place positive with ⟨before, same⟩ | fresh
    · exact .inl (.inr ⟨before, same⟩)
    · exact .inr fresh
  rcases second.place positive with ⟨before, same⟩ | fresh
  · rw [same]
    exact first.place before
  · exact .inr (Nat.le_trans grown fresh)

/-- Storing bytes in one of these buffers. -/
theorem Worked.store {s : Slice} {bytes : Bytes} (valid : Ok h r) (mine : Mine shared r s.base)
    (fits : s.off + bytes.length ≤ (h.mem s.base).length) :
    Worked A shared h (h.store s bytes) r r where
  spares := (Heap.Only.store h s bytes).spares (Or.inl mine)
  place positive := Or.inl ⟨positive, rfl⟩
  kept _ live := live.store bytes fits
  ok := ⟨valid.toStorage.store s bytes fits, valid.ordered, valid.fits⟩
  lent := .inl rfl

/-- The ring forgets its content and gives its buffer back. -/
theorem Worked.reset (h : Heap UInt8) (r : RingBuffer) :
    Worked A shared h (r.reset A h).1 r (r.reset A h).2 := by
  refine ⟨(Heap.Only.put A h r.buf shared.base).spares (.inl (.inl rfl)), ?_,
    fun t live => live.put A r.buf, new_ok _, .inr (.inl rfl)⟩
  intro positive
  exact absurd positive (Nat.lt_irrefl 0)

/-- A ring that can be read into: it is in order, and so is the shared buffer, and the pool has
more buffers of their sizes. -/
structure Ready (A : Allocator UInt8) (shared : Slice) (h : Heap UInt8) (r : RingBuffer) :
    Prop where
  valid : Ok h r
  window : shared.Live h
  common : A.Serves shared.len
  own : A.Serves r.buf.len

theorem Worked.ready (worked : Worked A shared h h' r r') (steady : A.Steady)
    (ready : Ready A shared h r) : Ready A shared h' r' :=
  ⟨worked.ok, worked.kept _ ready.window, ready.common, worked.lent.serves steady ready.own⟩

/-- Aligning moves the content to a new buffer or leaves it where it is. -/
theorem Aligned.worked {s : Slice} (aligned : Aligned A h h' r r' s) (valid : Ok h r)
    (positive : 0 < r.size) (shared : Slice) : Worked A shared h h' r r' := by
  refine ⟨(aligned.moved.only shared.base).spares (.inl (.inl rfl)), fun filled => ?_,
    fun t => aligned.moved.live, (aligned.moved.kept valid).1, aligned.moved.lent⟩
  rcases aligned.moved.place with ⟨same, _⟩ | ⟨_, void⟩ | ⟨fresh, _⟩
  · exact .inl ⟨positive, same⟩
  · omega
  · exact .inr fresh

/-- The window that `chooseBuf` hands out has what the ring holds at its front. -/
structure Chosen (A : Allocator UInt8) (shared : Slice) (h h' : Heap UInt8) (r r' : RingBuffer)
    (buf : Slice) : Prop where
  worked : Worked A shared h h' r r'
  served : A.Serves buf.len
  live : buf.Live h'
  mine : Mine shared r' buf.base
  room : r.has ≤ buf.len
  space : 0 < shared.len → r.has < buf.len
  bytes : h'.read (buf.front r.has) = content h r

/-- The ring is brought over to a buffer of twice the size. -/
theorem doubled_chosen {fresh aligned : Heap UInt8} {buf s : Slice} (steady : A.Steady)
    (ready : Ready A shared h r) (nonempty : 0 < r.has)
    (took : h.alloc A (r.size * 2) = some (fresh, buf))
    (moved : r.alignBytes A fresh = (aligned, r₁, s)) :
    Chosen A shared h ((aligned.copy buf s).put A r₁.buf) r
      ((⟨buf, buf.len, 0, 0⟩ : RingBuffer).forward s.len .opWrite).1 buf := by
  have valid := ready.valid
  obtain ⟨base, off, enough, inside, next, _, _, same⟩ := alloc_cases took
  have fits : r.has ≤ r.size := valid.fits
  have old := valid.live (by omega)
  have fresher : Ok fresh r := ⟨valid.toStorage.alloc took, valid.ordered, valid.fits⟩
  have there := alignBytes_aligned (alloc_served (ready.own.mono valid.sized) fresh) fresher
    (by omega) moved
  have target := there.moved.live inside
  have known := there.moved.grown
  -- Wherever the content went, only new buffers were written to.
  have first : h.Spares aligned (Mine shared r) :=
    ((Heap.Only.alloc took shared.base).spares (.inl (.inl rfl))).trans
      (there.worked fresher (by omega) shared).spares fun b mine => .inl mine
  have copied : aligned.Spares (aligned.copy buf s) fun b => b = buf.base :=
    (Heap.Only.copy aligned buf s).spares (.inl rfl)
  have returned : (aligned.copy buf s).Spares ((aligned.copy buf s).put A r₁.buf) fun _ => False :=
    ⟨Nat.le_of_eq (Heap.put_next A _ _).symm, fun b _ _ => by rw [put_mem]⟩
  have second : h.Spares ((aligned.copy buf s).put A r₁.buf) (Mine shared r) := by
    refine (first.trans copied fun b new => .inr ?_).trans returned fun _ void => void.elim
    rw [new, base]
  have live : buf.Live ((aligned.copy buf s).put A r₁.buf) := (target.copy s target).put A r₁.buf
  have shape : ((⟨buf, buf.len, 0, 0⟩ : RingBuffer).forward s.len .opWrite).1 =
      ⟨buf, buf.len, 0, if s.len > buf.len then 0 else s.len⟩ := by
    unfold forward
    dsimp only
    rw [Nat.zero_add, Nat.sub_zero]
    split <;> rfl
  rw [shape]
  refine ⟨⟨second, fun _ => .inr (Nat.le_of_eq base.symm), ?_, ?_,
      .inr (.inr ⟨_, _, alloc_get took⟩)⟩, alloc_serves took steady, live,
    .inr ⟨?_, rfl⟩, by omega, fun _ => by omega, ?_⟩
  · exact fun t held => ((there.moved.live (held.alloc took)).copy s target).put A r₁.buf
  · refine ⟨⟨off, Nat.le_refl _, fun _ => live⟩, Nat.zero_le _, ?_⟩
    dsimp only
    split <;> omega
  · dsimp only
    omega
  have copied := copy_read_take aligned buf s r.has target there.live (by omega)
    (Nat.le_trans fits there.room)
  have room := there.room
  rw [put_read, copied, ← read_front _ _ _ (by omega), there.bytes]
  exact content_congr (same _ old.1)

/-- A window is found, unless the pool has no buffer of twice the size. -/
theorem chooseBuf_chosen (steady : A.Steady) (ready : Ready A shared h r) :
    (∃ h' r' buf, chooseBuf A shared h r = some (h', r', buf) ∧ Chosen A shared h h' r r' buf ∧
      (r.has = 0 → r' = r)) ∨
    chooseBuf A shared h r = none ∧ ∃ n size, A.get n size = none := by
  have valid := ready.valid
  have fits : r.has ≤ r.size := valid.fits
  unfold chooseBuf
  by_cases nonempty : r.has > 0
  · rcases moved : r.alignBytes A h with ⟨h₁, r₁, s⟩
    have aligned := alignBytes_aligned (alloc_served (ready.own.mono valid.sized) h) valid
      (by omega) moved
    have room := aligned.room
    have size := aligned.size
    have worked := aligned.worked valid (by omega) shared
    have private_ (more : r.has < r.size) : Chosen A shared h h₁ r r₁ s :=
      ⟨worked, aligned.buf ▸ (worked.ready steady ready).own, aligned.live,
        .inr ⟨by omega, by rw [aligned.buf]⟩, by omega, fun _ => by omega, aligned.bytes⟩
    dsimp only
    rw [if_pos nonempty]
    split
    · rename_i larger
      refine .inl ⟨_, _, _, rfl, ?_, fun void => by omega⟩
      have target := aligned.moved.live ready.window
      have source := aligned.live.front r.has (by omega)
      have long : r.has < shared.len := by
        unfold capacity at larger
        omega
      have copied := copy_read_take h₁ shared (s.front r.has) r.has target source
        (Nat.le_of_lt long) (Nat.le_refl _)
      refine ⟨worked.trans (.store worked.ok (.inl rfl) (copy_fits _ _ _ target)),
        ready.common, target.copy _ target, .inl rfl, Nat.le_of_lt long, fun _ => long, ?_⟩
      rw [copied, aligned.bytes, List.take_of_length_le (Nat.le_of_eq (content_length h r))]
    split
    · rename_i full
      rcases took : h.alloc A (r.capacity * 2) with _ | ⟨fresh, buf⟩
      · exact .inr ⟨rfl, alloc_none took⟩
      dsimp only
      rcases again : r.alignBytes A fresh with ⟨h₂, r₂, s₂⟩
      have doubled := doubled_chosen steady ready nonempty took again
      dsimp only [update]
      have start : ((⟨buf, buf.len, 0, 0⟩ : RingBuffer).forward s₂.len .opWrite).1.r %
          ((⟨buf, buf.len, 0, 0⟩ : RingBuffer).forward s₂.len .opWrite).1.size = 0 := by
        unfold forward
        dsimp only
        split <;> exact Nat.zero_mod _
      have place : ((⟨buf, buf.len, 0, 0⟩ : RingBuffer).forward s₂.len .opWrite).1.buf =
          buf := by
        unfold forward
        dsimp only
        split <;> rfl
      refine .inl ⟨_, _, _, congrArg some (if_pos start), ?_, fun void => by omega⟩
      rw [place]
      exact doubled
    rename_i notFull
    have more : r.has < r.size := by
      unfold free at notFull
      unfold RingBuffer.has
      omega
    exact .inl ⟨_, _, _, rfl, private_ more, fun void => by omega⟩
  have void : r.has = 0 := by omega
  rw [if_neg nonempty]
  refine .inl ⟨h, r, shared, rfl, ⟨.refl valid, ready.common, ready.window, .inl rfl, by omega,
    fun _ => by omega, ?_⟩, fun _ => rfl⟩
  rw [void, content_nil h r void]
  exact List.take_zero

/-- Writing into an emptied ring, which then holds exactly what was written. -/
theorem write_worked (shared : Slice) {p : Slice} (serves : A.Serves p.len)
    (valid : Storage h r) (empty : r.r = 0 ∧ r.w = 0) (source : p.Live h) (positive : 0 < p.len)
    {n : Int} (done : r.write A h p p.len true = (h', r', n)) :
    Worked A shared h h' r r' ∧ content h' r' = h.read p := by
  obtain ⟨ok, bytes, kept, lent⟩ := write_empty serves valid empty source positive done
  refine ⟨?_, bytes⟩
  by_cases unset : r.size = 0
  · obtain ⟨fresh, buf, took⟩ := alloc_served serves h
    obtain ⟨base, _, enough, _, _, _, _, _⟩ := alloc_cases took
    have stored : ({ r with buf := buf, size := buf.len } : RingBuffer).write A fresh p p.len true =
        (h', r', n) := by
      have sized : buf.len ≠ 0 := by omega
      rw [← done]
      unfold write
      simp only [if_pos unset, took, if_neg sized]
    obtain ⟨only, place⟩ := write_only positive stored
    have first := Heap.Only.alloc took buf.base
    refine ⟨(first.trans only (.inl rfl)).spares (.inr (by omega)),
      fun filled => .inr ?_, kept, ok, lent⟩
    dsimp only at place
    omega
  obtain ⟨only, place⟩ := write_only positive done
  refine ⟨only.spares (.inl (.inr ⟨by omega, rfl⟩)), fun filled => ?_, kept, ok, lent⟩
  rcases place with same | ⟨_, void⟩ | ⟨fresh, _⟩
  · exact .inl ⟨by omega, same⟩
  · omega
  · exact .inr fresh

/-- An emptied ring over the same storage, or over a new one. -/
theorem Worked.truncate (valid : Ok h r) : Worked A shared h h r r.truncate :=
  ⟨Heap.Spares.refl h _, fun positive => .inl ⟨positive, rfl⟩, Keeps.refl h,
    valid.toStorage.truncate, .inl rfl⟩

theorem Worked.update {fresh : Heap UInt8} {buf : Slice} {size : Nat}
    (took : h.alloc A size = some (fresh, buf)) :
    Worked A shared h (r.update A fresh buf).1 r (r.update A fresh buf).2 := by
  obtain ⟨base, off, _, live, _, _, _, _⟩ := alloc_cases took
  have only := (Heap.Only.alloc took shared.base).trans
    (Heap.Only.put A fresh r.buf shared.base) (.inl rfl)
  exact ⟨only.spares (.inl (.inl rfl)), fun _ => .inr (Nat.le_of_eq base.symm),
    fun t held => (held.alloc took).put A r.buf,
    ⟨⟨off, Nat.le_refl _, fun _ => live.put A r.buf⟩, Nat.le_refl _, Nat.zero_le _⟩,
    .inr (.inr ⟨_, _, alloc_get took⟩)⟩

end RingBuffer

end Connaxis
