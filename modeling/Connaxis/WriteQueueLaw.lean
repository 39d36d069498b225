import Connaxis.Lib.Runs
import Connaxis.WriteQueueOrder

namespace Connaxis

open Memory List Runs

/-- `b[i:j]` of a buffer that was never resliced; `none` is Go's panic. -/
def sliceOf (b : Bytes) (i j : Int) : Option Bytes :=
  if 0 ≤ i ∧ i ≤ j ∧ j ≤ b.length then some ((b.drop i.toNat).take (j - i).toNat) else none

namespace WriteQueue.Checked

/-! The operations of the queue with every index and slice expression checked as Go checks it.
A counter that would fall below zero counts as out of range too. -/

def compact (t : Tuning) (tail : WriteEntry) (size : Int) : Option WriteEntry :=
  let avail : Int := tail.owner.bytes.length - tail.size + tail.off
  if avail ≥ size ∧ tail.off > 0 ∧ (tail.owner.bytes.length : Int) - tail.size < size then
    if (tail.size : Int) - tail.off ≤ t.writeQueueCompactMaxBytes then
      match sliceOf tail.owner.bytes tail.off tail.size with
      | none => none
      | some live =>
        some ⟨{ tail.owner with bytes := overwrite tail.owner.bytes 0 live },
          tail.size - tail.off, 0⟩
    else some tail
  else some tail

def enqueue (t : Tuning) (q : WriteQueue) (owner : Buf) (size : Int) : Option WriteQueue :=
  if size ≤ 0 then some { q with put := q.put ++ [owner.id] }
  else if t.writeQueueCoalesceMaxBytes > 0 ∧ size ≤ t.writeQueueCoalesceMaxBytes ∧
      q.items.length > 0 then
    match q.items[q.items.length - 1]? with
    | none => none
    | some last =>
      match compact t last size with
      | none => none
      | some tail =>
        if (tail.owner.bytes.length : Int) - tail.size ≥ size then
          match sliceOf tail.owner.bytes tail.size tail.owner.bytes.length,
              sliceOf owner.bytes 0 size with
          | some _, some src =>
            some { q with
              items := q.items.set (q.items.length - 1)
                ⟨{ tail.owner with bytes := overwrite tail.owner.bytes tail.size src },
                  tail.size + size.toNat, tail.off⟩
              bytes := q.bytes + size.toNat
              put := q.put ++ [owner.id] }
          | _, _ => none
        else
          some ({ q with items := q.items.set (q.items.length - 1) tail }.push owner
            size.toNat)
  else some (q.push owner size.toNat)

def peek (q : WriteQueue) : Option Bytes :=
  if q.bytes = 0 then some []
  else match q.items[q.head]? with
    | none => none
    | some item =>
      if item.off ≥ item.size then some [] else sliceOf item.owner.bytes item.off item.size

/-- `none` also when the loop has not ended after `rounds` rounds. -/
def consumeLoop : Nat → WriteQueue → Nat → Option (WriteQueue × Bool)
  | 0, q, n => if n > 0 ∧ q.bytes > 0 then none else some (q, false)
  | rounds + 1, q, n =>
    if n > 0 ∧ q.bytes > 0 then
      match q.items[q.head]? with
      | none => none
      | some item =>
        let remain := item.size - item.off
        if item.size < item.off ∨ q.bytes < min n remain then none
        else if n < remain then
          some ({ q with items := q.items.set q.head { item with off := item.off + n },
                         bytes := q.bytes - n }, true)
        else
          let q : WriteQueue :=
            ⟨q.items.set q.head ⟨⟨item.owner.id, []⟩, 0, 0⟩, q.head + 1, q.bytes - remain,
              q.put ++ [item.owner.id]⟩
          if q.head ≥ q.items.length then some (q.resetEmpty, true)
          else consumeLoop rounds q (n - remain)
    else some (q, false)

def consume (q : WriteQueue) (n : Int) : Option WriteQueue :=
  if n ≤ 0 ∨ q.bytes = 0 then some q
  else match consumeLoop (q.items.length - q.head) q (min n.toNat q.bytes) with
    | none => none
    | some (q, true) => some q
    | some (q, false) =>
      if q.head > 0 ∧ q.head * 2 ≥ q.items.length then
        if q.head ≤ q.items.length then some { q with items := q.items.drop q.head, head := 0 }
        else none
      else some q

end WriteQueue.Checked

variable {q : WriteQueue}

namespace WriteQueue

theorem sliceOf_live {item : WriteEntry} (valid : item.Ok) :
    sliceOf item.owner.bytes item.off item.size = some item.live := by
  obtain ⟨filled, inside⟩ := valid
  rw [sliceOf, if_pos (by omega), WriteEntry.live]
  congr 2
  omega

theorem checked_compact (t : Tuning) {tail : WriteEntry} (valid : tail.Ok) (size : Nat) :
    Checked.compact t tail size = some (tail.compact t size) := by
  unfold Checked.compact WriteEntry.compact
  dsimp only
  rw [sliceOf_live valid]
  split
  · split <;> rfl
  · rfl

/-- Writing the last entry in place. -/
theorem set_last {items : List WriteEntry} {last : WriteEntry} (found : items.getLast? = some last)
    (tail : WriteEntry) : items.set (items.length - 1) tail = items.dropLast ++ [tail] := by
  have split := dropLast_append_getLast? last found
  have length := congrArg length split
  conv_lhs => rw [← split]
  simp

theorem content_length (valid : q.Ok) :
    q.content.length = ((q.items.drop q.head).map fun item => item.size - item.off).sum := by
  rw [content, length_flatten, map_map]
  congr 1
  apply map_congr_left
  intro item member
  exact item.live_length (valid.entries item member)

theorem checked_enqueue (t : Tuning) (valid : q.Ok) (owner : Buf) {size : Int}
    (fits : size ≤ owner.bytes.length) :
    Checked.enqueue t q owner size = some (q.enqueue t owner size.toNat) := by
  unfold Checked.enqueue
  by_cases void : size ≤ 0
  · rw [if_pos void, WriteQueue.enqueue, if_pos (Int.toNat_of_nonpos void)]
  obtain ⟨k, rfl⟩ := Int.eq_ofNat_of_zero_le (by omega : 0 ≤ size)
  rw [if_neg void, Int.toNat_natCast, WriteQueue.enqueue, if_neg (by omega : k ≠ 0)]
  cases found : q.items.getLast? with
  | none =>
    have empty := getLast?_eq_none_iff.mp found
    rw [if_neg (by rw [empty]; simp)]
    split <;> rfl
  | some last =>
    obtain ⟨split, _, inside⟩ := replaceLast_drop valid found last
    have entry : last.Ok := by
      apply valid.entries
      rw [split]
      exact mem_append_right _ mem_cons_self
    have index : q.items[q.items.length - 1]? = Option.some last := by
      rw [← getLast?_eq_getElem?, found]
    have filled : q.items.length > 0 := by omega
    by_cases small : t.writeQueueCoalesceMaxBytes > 0 ∧ (k : Int) ≤ t.writeQueueCoalesceMaxBytes
    · rw [if_pos ⟨small.1, small.2, filled⟩, if_pos small, index]
      dsimp only
      rw [checked_compact t entry]
      have after := last.compact_ok t k entry
      generalize last.compact t k = tail at after
      dsimp only
      by_cases room : (tail.owner.bytes.length : Int) - tail.size ≥ k
      · have rest : sliceOf tail.owner.bytes tail.size tail.owner.bytes.length =
            Option.some ((tail.owner.bytes.drop tail.size).take
              (tail.owner.bytes.length - tail.size)) := by
          rw [sliceOf, if_pos (by omega)]
          congr 2
          omega
        have source : sliceOf owner.bytes 0 k = Option.some (owner.bytes.take k) := by
          rw [sliceOf, if_pos (by omega)]
          simp
        rw [if_pos room, if_pos room, rest, source]
        dsimp only
        rw [set_last found]
      · rw [if_neg room, if_neg room, set_last found]
    · rw [if_neg fun all => small ⟨all.1, all.2.1⟩, if_neg small]

theorem checked_peek (valid : q.Ok) :
    Checked.peek q = some q.peek ∧ q.peek <+: q.content ∧ (q.pending > 0 → q.peek ≠ []) := by
  unfold Checked.peek WriteQueue.peek
  by_cases void : q.bytes = 0
  · rw [if_pos void, if_pos void]
    exact ⟨rfl, nil_prefix, fun filled => absurd void (Nat.ne_of_gt filled)⟩
  have inside : q.head < q.items.length := by
    rcases valid.tight with empty | inside
    · have length := valid.bytes_eq
      rw [content, empty, drop_nil] at length
      exact absurd length void
    · exact inside
  have entry := front_ok valid inside
  have live : q.items[q.head].live ≠ [] := by
    intro nothing
    have length := q.items[q.head].live_length entry
    rw [nothing, length_nil] at length
    have ahead := entry.1
    omega
  rw [if_neg void, if_neg void, getElem?_eq_getElem inside]
  dsimp only
  rw [if_neg (Nat.not_le.mpr entry.1), if_neg (Nat.not_le.mpr entry.1), sliceOf_live entry,
    content_front inside]
  exact ⟨rfl, prefix_append _ _, fun _ => live⟩

theorem checked_consumeLoop (rounds : Nat) (q : WriteQueue) (n : Nat)
    (enough : rounds = q.items.length - q.head) (valid : q.Ok)
    (inside : q.head < q.items.length) (bound : n ≤ q.bytes) :
    Checked.consumeLoop rounds q n = some (WriteQueue.consumeLoop rounds q n) := by
  induction rounds generalizing q n with
  | zero => omega
  | succ rounds ih =>
    have entry := front_ok valid inside
    have length := q.items[q.head].live_length entry
    have total := valid.bytes_eq
    unfold Checked.consumeLoop WriteQueue.consumeLoop
    split
    · rw [getElem?_eq_getElem inside]
      dsimp only
      have order := entry.1
      rw [if_neg (by omega)]
      split
      · rfl
      rw [length_set]
      split
      · rfl
      rename_i more
      have next := retire_ok valid inside (Nat.lt_of_not_le more)
        ⟨⟨q.items[q.head].owner.id, []⟩, 0, 0⟩
        ⟨_, _, _, q.put ++ [q.items[q.head].owner.id]⟩ rfl rfl rfl
      exact ih _ (n - (q.items[q.head].size - q.items[q.head].off))
        (by dsimp only; rw [length_set]; omega) next.1
        (by dsimp only; rw [length_set]; omega) (by dsimp only; omega)
    · rfl

theorem checked_consume (valid : q.Ok) (n : Int) : Checked.consume q n = some (q.consume n) := by
  unfold Checked.consume WriteQueue.consume
  split
  · rfl
  rename_i busy
  have inside : q.head < q.items.length := by
    rcases valid.tight with empty | inside
    · have length := valid.bytes_eq
      rw [content, empty, drop_nil] at length
      exact absurd (.inr length) busy
    · exact inside
  have looped := consumeLoop_ok (q.items.length - q.head) q (min n.toNat q.bytes) rfl valid
    inside (Nat.min_le_right _ _)
  rw [checked_consumeLoop _ q _ rfl valid inside (Nat.min_le_right _ _)]
  generalize WriteQueue.consumeLoop (q.items.length - q.head) q (min n.toNat q.bytes) = ended
    at looped
  obtain ⟨next, stopped⟩ := ended
  cases stopped with
  | true => rfl
  | false =>
    dsimp only
    split
    · rw [if_pos looped.1.head_le]
    · rfl

end WriteQueue

/-- One call on a queue. The tuning globals may change between calls. -/
inductive QueueOp
  | enqueue (t : Tuning) (owner : Buf) (size : Int)
  | consume (n : Int)
  | peek
  | clear

namespace QueueOp

def step (q : WriteQueue) : QueueOp → Option WriteQueue
  | .enqueue t owner size => WriteQueue.Checked.enqueue t q owner size
  | .consume n => WriteQueue.Checked.consume q n
  | .peek => (WriteQueue.Checked.peek q).map fun _ => q
  | .clear => some q.clear

/-- What a call does to the bytes that wait. -/
def effect (waiting : Bytes) : QueueOp → Bytes
  | .enqueue _ owner size => waiting ++ owner.bytes.take size.toNat
  | .consume n => waiting.drop n.toNat
  | .peek => waiting
  | .clear => []

/-- The caller's side: no more than the buffer has is enqueued. -/
def Fits : QueueOp → Prop
  | .enqueue _ owner size => size ≤ owner.bytes.length
  | _ => True

/-- No call panics, each keeps the invariant and acts on the waiting bytes as `effect` has it. -/
theorem step_ok (valid : q.Ok) (op : QueueOp) (fits : op.Fits) :
    ∃ next, op.step q = some next ∧ next.Ok ∧ next.content = effect q.content op := by
  cases op with
  | enqueue t owner size =>
    have short : size.toNat ≤ owner.bytes.length := by
      change size ≤ owner.bytes.length at fits
      omega
    have kept := q.enqueue_ok t owner size.toNat valid short
    exact ⟨_, WriteQueue.checked_enqueue t valid owner fits, kept.1, kept.2⟩
  | consume n =>
    have kept := q.consume_ok n valid
    exact ⟨_, WriteQueue.checked_consume valid n, kept.1, kept.2⟩
  | peek =>
    refine ⟨q, ?_, valid, rfl⟩
    rw [step, (WriteQueue.checked_peek valid).1]
    rfl
  | clear => exact ⟨_, rfl, (WriteQueue.resetEmpty_ok _).1, (WriteQueue.resetEmpty_ok _).2⟩

theorem run_ok (valid : q.Ok) (ops : List QueueOp) (fits : ∀ op ∈ ops, op.Fits) :
    ∃ final, run step q ops = some final ∧ final.Ok ∧
      final.content = ops.foldl effect q.content := by
  induction ops generalizing q with
  | nil => exact ⟨q, rfl, valid, rfl⟩
  | cons op rest ih =>
    obtain ⟨next, taken, kept, changed⟩ := step_ok valid op (fits op mem_cons_self)
    obtain ⟨final, done, ended, total⟩ :=
      ih kept fun later member => fits later (mem_cons_of_mem _ member)
    refine ⟨final, ?_, ended, ?_⟩
    · rw [run_cons q next op rest taken]
      exact done
    rw [foldl_cons, ← changed]
    exact total

end QueueOp

/-- The queue after any calls: no index was out of range on the way, the cursors and the counter
agree, and what waits is what the calls make of it as a list of bytes. -/
theorem write_queue_law (ops : List QueueOp) (fits : ∀ op ∈ ops, op.Fits) :
    ∃ q, run QueueOp.step WriteQueue.empty ops = some q ∧
      q.head ≤ q.items.length ∧
      (∀ item ∈ q.items.drop q.head,
        item.off < item.size ∧ item.size ≤ item.owner.bytes.length) ∧
      q.bytes = ((q.items.drop q.head).map fun item => item.size - item.off).sum ∧
      (q.bytes = 0 → q.items = []) ∧
      q.content = ops.foldl QueueOp.effect [] ∧
      ∃ shown, WriteQueue.Checked.peek q = some shown ∧ shown <+: q.content ∧
        (q.pending > 0 → shown ≠ []) := by
  obtain ⟨q, done, valid, content⟩ := QueueOp.run_ok WriteQueue.empty_ok ops fits
  refine ⟨q, done, valid.head_le, valid.entries, ?_, ?_, content, q.peek,
    WriteQueue.checked_peek valid⟩
  · rw [valid.bytes_eq, WriteQueue.content_length valid]
  intro drained
  rcases valid.tight with empty | inside
  · exact empty
  -- an entry from `head` on has a byte left
  have entry := WriteQueue.front_ok valid inside
  have left := q.items[q.head].live_length entry
  have order := entry.1
  have total := valid.bytes_eq
  rw [WriteQueue.content_front inside, List.length_append, left] at total
  omega

/-- A tail that is partly sent, compacted, appended to and sent across the boundary. -/
def mixedCalls : List QueueOp :=
  let t : Tuning := ⟨0, 0, 0, 0, 0, 4, 4⟩
  [.enqueue t ⟨0, [1, 2, 3, 4]⟩ 4, .consume 2, .enqueue t ⟨1, [5, 6, 7]⟩ 2,
    .enqueue t ⟨2, [8, 9, 10, 11, 12]⟩ 5, .peek, .consume 6, .consume (-1),
    .enqueue t ⟨3, [13]⟩ 0]

theorem write_queue_law_mixedCalls :
    (∀ op ∈ mixedCalls, op.Fits) ∧
      ∃ q, run QueueOp.step WriteQueue.empty mixedCalls = some q ∧
        q.content = [10, 11, 12] := by
  have fits : ∀ op ∈ mixedCalls, op.Fits := by
    simp [mixedCalls, QueueOp.Fits]
  obtain ⟨q, done, _, _, _, _, content, _⟩ := write_queue_law mixedCalls fits
  exact ⟨fits, q, done, content⟩

end Connaxis
