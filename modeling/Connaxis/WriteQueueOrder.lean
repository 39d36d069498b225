import Connaxis.WriteQueue

namespace Connaxis

open Memory List

/-- An entry with something left to send, inside its owner. -/
def WriteEntry.Ok (item : WriteEntry) : Prop :=
  item.off < item.size ∧ item.size ≤ item.owner.bytes.length

theorem WriteEntry.live_length (item : WriteEntry) (valid : item.Ok) :
    item.live.length = item.size - item.off := by
  obtain ⟨_, inside⟩ := valid
  simp only [WriteEntry.live, length_take, length_drop]
  omega

/-- Sending `n` bytes of an entry leaves the rest of it. -/
theorem WriteEntry.live_advance (item : WriteEntry) (n : Nat) :
    WriteEntry.live { item with off := item.off + n } = item.live.drop n := by
  simp only [WriteEntry.live, drop_take, drop_drop, Nat.sub_add_eq]

variable (t : Tuning)

theorem WriteEntry.compact_ok (item : WriteEntry) (size : Nat) (valid : item.Ok) :
    (item.compact t size).Ok := by
  obtain ⟨filled, inside⟩ := valid
  unfold WriteEntry.compact
  dsimp only
  split
  · split
    · have length := item.live_length ⟨filled, inside⟩
      refine ⟨by dsimp only; omega, ?_⟩
      dsimp only
      rw [overwrite_length _ _ _ (by omega)]
      omega
    · exact ⟨filled, inside⟩
  · exact ⟨filled, inside⟩

/-- Compacting moves the bytes that wait, and changes none of them. -/
theorem WriteEntry.compact_live (item : WriteEntry) (size : Nat) (valid : item.Ok) :
    (item.compact t size).live = item.live := by
  have length := item.live_length valid
  unfold WriteEntry.compact
  dsimp only
  split
  · split
    · have front := overwrite_take item.owner.bytes 0 item.live (Nat.zero_le _)
      rw [Nat.zero_add, take_zero, nil_append, length] at front
      change ((overwrite item.owner.bytes 0 item.live).drop 0).take (item.size - item.off - 0) = _
      rw [drop_zero, Nat.sub_zero, front]
    · rfl
  · rfl

namespace WriteQueue

/-- Everything that waits to be sent, in order. -/
def content (q : WriteQueue) : Bytes := ((q.items.drop q.head).map WriteEntry.live).flatten

structure Ok (q : WriteQueue) : Prop where
  head_le : q.head ≤ q.items.length
  entries : ∀ item ∈ q.items.drop q.head, item.Ok
  bytes_eq : q.bytes = q.content.length
  tight : q.items = [] ∨ q.head < q.items.length

theorem empty_ok : empty.Ok := by
  refine ⟨Nat.le_refl 0, ?_, rfl, .inl rfl⟩
  intro item member
  simp only [empty, drop_nil, not_mem_nil] at member

@[simp] theorem empty_content : empty.content = [] := rfl

variable {q : WriteQueue}

theorem Ok.pending_eq (valid : q.Ok) : q.pending = q.content.length :=
  valid.bytes_eq

theorem push_ok (q : WriteQueue) (owner : Buf) (size : Nat) (valid : q.Ok) (positive : 0 < size)
    (fits : size ≤ owner.bytes.length) :
    (q.push owner size).Ok ∧ (q.push owner size).content = q.content ++ owner.bytes.take size := by
  have split : (q.push owner size).items.drop q.head = q.items.drop q.head ++
    [⟨owner, size, 0⟩] := by
    simp only [push, drop_append_of_le_length valid.head_le]
  have content : (q.push owner size).content = q.content ++ owner.bytes.take size := by
    change (((q.push owner size).items.drop q.head).map WriteEntry.live).flatten = _
    rw [split]
    simp only [map_append, map_cons, map_nil, flatten_append,
      flatten_cons, flatten_nil, append_nil, WriteEntry.live, drop_zero,
      Nat.sub_zero, WriteQueue.content]
  refine ⟨⟨?_, ?_, ?_, ?_⟩, content⟩
  · have bound := valid.head_le
    simp only [push, length_append, length_singleton]
    omega
  · intro item member
    change item ∈ (q.push owner size).items.drop q.head at member
    rw [split, mem_append, mem_singleton] at member
    rcases member with old | rfl
    · exact valid.entries item old
    · exact ⟨positive, fits⟩
  · rw [content, length_append, length_take, Nat.min_eq_left fits, ← valid.bytes_eq]
    rfl
  have bound := valid.head_le
  simp only [push, length_append, length_singleton]
  omega

/-- Replacing the last entry, seen from `head`. -/
theorem replaceLast_drop (valid : q.Ok) {last : WriteEntry} (found : q.items.getLast? = some last)
    (tail : WriteEntry) :
    q.items.drop q.head = (q.items.drop q.head).dropLast ++ [last] ∧
      (q.items.dropLast ++ [tail]).drop q.head = (q.items.drop q.head).dropLast ++ [tail] ∧
      q.head < q.items.length := by
  have filled : q.items ≠ [] := by
    intro void
    rw [void] at found
    cases found
  have inside : q.head < q.items.length := valid.tight.resolve_left filled
  have lastDrop : (q.items.drop q.head).getLast? = Option.some last := by
    rw [getLast?_drop, if_neg (by omega), found]
  refine ⟨?_, ?_, inside⟩
  · exact (dropLast_append_getLast? last lastDrop).symm
  rw [drop_append_of_le_length (by rw [length_dropLast]; omega)]
  simp only [dropLast_eq_take, drop_take, length_drop, Nat.sub_right_comm]

/-- The last entry may grow by bytes at its end: they go behind everything that
already waits. -/
theorem replaceLast_ok (q' : WriteQueue) (valid : q.Ok) {last : WriteEntry}
    (found : q.items.getLast? = some last) (tail : WriteEntry) (tailOk : tail.Ok) (added : Bytes)
    (live : tail.live = last.live ++ added) (items : q'.items = q.items.dropLast ++ [tail])
    (head : q'.head = q.head) (bytes : q'.bytes = q.bytes + added.length) :
    q'.Ok ∧ q'.content = q.content ++ added := by
  obtain ⟨before, after, inside⟩ := replaceLast_drop valid found tail
  have content : q'.content = q.content ++ added := by
    unfold content
    rw [items, head, after, before]
    simp only [dropLast_concat, map_append, map_cons, map_nil,
      flatten_append, flatten_cons, flatten_nil, append_nil, live,
      append_assoc]
  have length : q'.items.length = q.items.length := by
    rw [items, length_append, length_dropLast, length_singleton]
    omega
  refine ⟨⟨?_, ?_, ?_, ?_⟩, content⟩
  · rw [head, length]
    exact valid.head_le
  · intro item member
    rw [items, head, after, mem_append, mem_singleton] at member
    rcases member with old | rfl
    · exact valid.entries item (dropLast_subset _ old)
    · exact tailOk
  · rw [content, length_append, bytes, valid.bytes_eq]
  apply Or.inr
  rw [head, length]
  exact inside

/-- Bytes copied behind an entry's own, inside its owner. -/
theorem grow_ok (tail : WriteEntry) (added : Bytes) (valid : tail.Ok)
    (room : tail.size + added.length ≤ tail.owner.bytes.length) :
    let grown : WriteEntry := ⟨{ tail.owner with
      bytes := overwrite tail.owner.bytes tail.size added }, tail.size + added.length, tail.off⟩
    grown.Ok ∧ grown.live = tail.live ++ added := by
  obtain ⟨filled, within⟩ := valid
  refine ⟨⟨?_, ?_⟩, ?_⟩
  · dsimp only
    omega
  · rw [overwrite_length _ _ _ room]
    exact room
  have front := overwrite_take tail.owner.bytes tail.size added within
  have cut := congrArg (drop tail.off) front
  rw [drop_take, drop_append_of_le_length (by rw [length_take]; omega), drop_take] at cut
  exact cut

/-- Enqueueing appends exactly the payload, whichever way it is stored. -/
theorem enqueue_ok (q : WriteQueue) (owner : Buf) (size : Nat) (valid : q.Ok)
    (fits : size ≤ owner.bytes.length) :
    (q.enqueue t owner size).Ok ∧
      (q.enqueue t owner size).content = q.content ++ owner.bytes.take size := by
  have added : (owner.bytes.take size).length = size := by
    rw [length_take, Nat.min_eq_left fits]
  unfold enqueue
  split
  · rename_i void
    subst void
    simp only [take_zero, append_nil]
    exact ⟨⟨valid.head_le, valid.entries, valid.bytes_eq, valid.tight⟩, rfl⟩
  rename_i nonzero
  have positive : 0 < size := Nat.pos_of_ne_zero nonzero
  split
  · split
    · exact push_ok q owner size valid positive fits
    rename_i last found
    obtain ⟨before, _, _⟩ := replaceLast_drop valid found last
    have lastOk : last.Ok := valid.entries last (by rw [before]; simp)
    have tailOk := last.compact_ok t size lastOk
    have tailLive := last.compact_live t size lastOk
    dsimp only
    generalize last.compact t size = tail at tailOk tailLive ⊢
    split
    · have grown := grow_ok tail (owner.bytes.take size) tailOk (by omega)
      rw [added] at grown
      exact replaceLast_ok _ valid found _ grown.1 (owner.bytes.take size)
        (by rw [grown.2, tailLive]) rfl rfl (by rw [added])
    have kept := replaceLast_ok { q with items := q.items.dropLast ++ [tail] } valid
      found tail tailOk [] (by rw [tailLive, append_nil]) rfl rfl rfl
    have pushed := push_ok _ owner size kept.1 positive fits
    rwa [kept.2, append_nil] at pushed
  · exact push_ok q owner size valid positive fits

theorem enqueue_pending (q : WriteQueue) (owner : Buf) (size : Nat) :
    (q.enqueue t owner size).pending = q.pending + size := by
  unfold enqueue
  split
  · rename_i void
    rw [void]
    rfl
  split
  · split
    · rfl
    dsimp only
    split <;> rfl
  · rfl

theorem set_head_drop {α : Type} (items : List α) (head : Nat) (item : α)
    (inside : head < items.length) :
    (items.set head item).drop head = item :: items.drop (head + 1) := by
  rw [drop_eq_getElem_cons (by rw [length_set]; exact inside), getElem_set_self,
    drop_set_of_lt (Nat.lt_succ_self head)]

section Front

variable {q : WriteQueue} (valid : q.Ok) (inside : q.head < q.items.length)
include valid

theorem front_ok : q.items[q.head].Ok :=
  valid.entries _ (by rw [drop_eq_getElem_cons inside]; exact mem_cons_self)

include inside in
theorem rest_ok (item : WriteEntry) (later : item ∈ q.items.drop (q.head + 1)) : item.Ok :=
  valid.entries item (by
    rw [drop_eq_getElem_cons inside]
    exact mem_cons_of_mem _ later)

omit valid in
theorem content_front : q.content = q.items[q.head].live ++
    ((q.items.drop (q.head + 1)).map WriteEntry.live).flatten := by
  rw [content, drop_eq_getElem_cons inside, map_cons, flatten_cons]

/-- The front entry outlasts a request for fewer bytes than it has. -/
theorem advance_ok (n : Nat) (short : n < q.items[q.head].size - q.items[q.head].off)
    {q' : WriteQueue} (head : q'.head = q.head) (bytes : q'.bytes = q.bytes - n)
    (items : q'.items = q.items.set q.head
      { q.items[q.head] with off := q.items[q.head].off + n }) :
    q'.Ok ∧ q'.content = q.content.drop n := by
  have entry := front_ok valid inside
  have length := q.items[q.head].live_length entry
  have rest : q'.items.drop q'.head =
      { q.items[q.head] with off := q.items[q.head].off + n } :: q.items.drop (q.head + 1) := by
    rw [items, head, set_head_drop _ _ _ inside]
  have content : q'.content = q.content.drop n := by
    rw [WriteQueue.content, rest, map_cons, flatten_cons, WriteEntry.live_advance,
      content_front inside, drop_append_of_le_length (by omega)]
  have room : q'.head < q'.items.length := by
    rw [head, items, length_set]
    exact inside
  refine ⟨⟨Nat.le_of_lt room, ?_, ?_, .inr room⟩, content⟩
  · intro item member
    rw [rest] at member
    rcases mem_cons.mp member with rfl | later
    · refine ⟨?_, entry.2⟩
      dsimp only
      omega
    · exact rest_ok valid inside item later
  · rw [content, length_drop, bytes, valid.bytes_eq]

/-- The front entry is used up and another follows it. -/
theorem retire_ok (more : q.head + 1 < q.items.length) (spent : WriteEntry) (q' : WriteQueue)
    (head : q'.head = q.head + 1) (items : q'.items = q.items.set q.head spent)
    (bytes : q'.bytes = q.bytes - (q.items[q.head].size - q.items[q.head].off)) :
    q'.Ok ∧ q'.content = q.content.drop (q.items[q.head].size - q.items[q.head].off) := by
  have length := q.items[q.head].live_length (front_ok valid inside)
  have rest : q'.items.drop q'.head = q.items.drop (q.head + 1) := by
    rw [items, head, drop_set_of_lt (Nat.lt_succ_self q.head)]
  have content : q'.content = q.content.drop (q.items[q.head].size - q.items[q.head].off) := by
    rw [WriteQueue.content, rest, content_front inside, ← length, drop_left]
  have room : q'.head < q'.items.length := by
    rw [head, items, length_set]
    exact more
  refine ⟨⟨Nat.le_of_lt room, ?_, ?_, .inr room⟩, content⟩
  · intro item member
    rw [rest] at member
    exact rest_ok valid inside item member
  · rw [content, length_drop, bytes, valid.bytes_eq]

end Front

theorem resetEmpty_ok (q : WriteQueue) : q.resetEmpty.Ok ∧ q.resetEmpty.content = [] := by
  refine ⟨⟨Nat.le_refl 0, ?_, rfl, .inl rfl⟩, rfl⟩
  intro item member
  simp only [resetEmpty, drop_nil, not_mem_nil] at member

/-- The loop drops exactly `n` bytes from the front, across entry boundaries. -/
theorem consumeLoop_ok (rounds : Nat) (q : WriteQueue) (n : Nat)
    (enough : rounds = q.items.length - q.head) (valid : q.Ok)
    (inside : q.head < q.items.length) (bound : n ≤ q.bytes) :
    (consumeLoop rounds q n).1.Ok ∧ (consumeLoop rounds q n).1.content = q.content.drop n := by
  induction rounds generalizing q n with
  | zero => omega
  | succ rounds ih =>
    have length := q.items[q.head].live_length (front_ok valid inside)
    unfold consumeLoop
    split
    · rw [getElem?_eq_getElem inside]
      dsimp only
      split
      · rename_i short
        exact advance_ok valid inside n short rfl rfl rfl
      rename_i covered
      rw [length_set]
      split
      · rename_i last
        refine ⟨(resetEmpty_ok _).1, ?_⟩
        have all := valid.bytes_eq
        rw [content_front inside, drop_eq_nil_of_le last, map_nil, flatten_nil,
          append_nil, length] at all
        rw [(resetEmpty_ok _).2, drop_eq_nil_of_le]
        rw [← valid.bytes_eq]
        omega
      rename_i more
      have next := retire_ok valid inside (Nat.lt_of_not_le more)
        ⟨⟨q.items[q.head].owner.id, []⟩, 0, 0⟩
        ⟨_, _, _, q.put ++ [q.items[q.head].owner.id]⟩ rfl rfl rfl
      have looped := ih _ (n - (q.items[q.head].size - q.items[q.head].off))
        (by dsimp only; rw [length_set]; omega) next.1
        (by dsimp only; rw [length_set]; omega) (by dsimp only; omega)
      rw [next.2, drop_drop, Nat.add_sub_cancel' (Nat.le_of_not_lt covered)] at looped
      exact looped
    have nothing : n = 0 := by omega
    rw [nothing, drop_zero]
    exact ⟨valid, rfl⟩

/-- Moving the live entries to the front of `items` changes nothing that waits. -/
theorem shift_ok (valid : q.Ok) :
    WriteQueue.Ok { q with items := q.items.drop q.head, head := 0 } ∧
      WriteQueue.content { q with items := q.items.drop q.head, head := 0 } = q.content := by
  refine ⟨⟨Nat.zero_le _, ?_, ?_, ?_⟩, ?_⟩
  · intro item member
    rw [drop_zero] at member
    exact valid.entries item member
  · simpa only [content, drop_zero] using valid.bytes_eq
  · rcases valid.tight with void | inside
    · apply Or.inl
      rw [void, drop_nil]
    apply Or.inr
    rw [length_drop]
    exact Nat.sub_pos_of_lt inside
  · simp only [content, drop_zero]

theorem consume_ok (q : WriteQueue) (n : Int) (valid : q.Ok) :
    (q.consume n).Ok ∧ (q.consume n).content = q.content.drop n.toNat := by
  unfold consume
  split
  · rename_i idle
    refine ⟨valid, ?_⟩
    rcases idle with nothing | void
    · rw [Int.toNat_of_nonpos nothing, drop_zero]
    have waiting : q.content = [] := eq_nil_of_length_eq_zero (valid.bytes_eq ▸ void)
    rw [waiting, drop_nil]
  rename_i busy
  have filled : q.items ≠ [] := by
    intro void
    have length := valid.bytes_eq
    rw [content, void, drop_nil] at length
    exact busy (.inr length)
  have looped := consumeLoop_ok (q.items.length - q.head) q (min n.toNat q.bytes) rfl valid
    (valid.tight.resolve_left filled) (Nat.min_le_right _ _)
  have all : q.content.drop (min n.toNat q.bytes) = q.content.drop n.toNat := by
    rcases Nat.le_total n.toNat q.bytes with less | more
    · rw [Nat.min_eq_left less]
    have length := valid.bytes_eq
    rw [Nat.min_eq_right more, drop_eq_nil_of_le (by omega), drop_eq_nil_of_le (by omega)]
  rw [all] at looped
  split
  · rename_i early
    rw [early] at looped
    exact looped
  rename_i done
  rw [done] at looped
  split
  · have shifted := shift_ok looped.1
    rw [looped.2] at shifted
    exact shifted
  · exact looped

end WriteQueue

end Connaxis
