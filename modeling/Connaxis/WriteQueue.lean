import Connaxis.Pool

namespace Connaxis

open Memory

/-- The live tuning globals the loop and its connections read. -/
structure Tuning where
  maxAcceptPerEvent : Int
  maxReadBytesPerEvent : Int
  maxFlushBytesPerEvent : Int
  maxCmdPerEvent : Int
  maxCmdFlushConnsPerEvent : Int
  writeQueueCoalesceMaxBytes : Int
  writeQueueCompactMaxBytes : Int
deriving Repr

/-- A buffer of the send path. It is passed from hand to hand and never shared,
so it is modelled by its bytes; `id` tells buffers with equal bytes apart. -/
structure Buf where
  id : Nat
  bytes : Bytes
deriving DecidableEq, Repr

structure WriteEntry where
  owner : Buf
  size : Nat
  off : Nat
deriving DecidableEq, Repr

/-- `put` lists the owners the queue has handed back to the pool, in order. -/
structure WriteQueue where
  items : List WriteEntry
  head : Nat
  bytes : Nat
  put : List Nat
deriving DecidableEq, Repr

/-- `owner[off:size]`. -/
def WriteEntry.live (item : WriteEntry) : Bytes :=
  (item.owner.bytes.drop item.off).take (item.size - item.off)

/-- Move the live bytes of the last entry to the start of its owner when that
makes room for `size` more. -/
def WriteEntry.compact (t : Tuning) (tail : WriteEntry) (size : Nat) : WriteEntry :=
  let avail : Int := tail.owner.bytes.length - tail.size + tail.off
  if avail ≥ size ∧ tail.off > 0 ∧ (tail.owner.bytes.length : Int) - tail.size < size then
    if (tail.size : Int) - tail.off ≤ t.writeQueueCompactMaxBytes then
      ⟨{ tail.owner with bytes := overwrite tail.owner.bytes 0 tail.live }, tail.size - tail.off, 0⟩
    else tail
  else tail

namespace WriteQueue

def empty : WriteQueue := ⟨[], 0, 0, []⟩

def pending (q : WriteQueue) : Nat := q.bytes

def push (q : WriteQueue) (owner : Buf) (size : Nat) : WriteQueue :=
  { q with items := q.items ++ [⟨owner, size, 0⟩], bytes := q.bytes + size }

def enqueue (t : Tuning) (q : WriteQueue) (owner : Buf) (size : Nat) : WriteQueue :=
  if size = 0 then { q with put := q.put ++ [owner.id] }
  else if t.writeQueueCoalesceMaxBytes > 0 ∧ (size : Int) ≤ t.writeQueueCoalesceMaxBytes then
    match q.items.getLast? with
    | none => q.push owner size
    | some last =>
      let tail := last.compact t size
      if (tail.owner.bytes.length : Int) - tail.size ≥ size then
        let grown : WriteEntry :=
          ⟨{ tail.owner with
              bytes := overwrite tail.owner.bytes tail.size (owner.bytes.take size) },
            tail.size + size, tail.off⟩
        { q with items := q.items.dropLast ++ [grown], bytes := q.bytes + size,
                 put := q.put ++ [owner.id] }
      else { q with items := q.items.dropLast ++ [tail] }.push owner size
  else q.push owner size

def peek (q : WriteQueue) : Bytes :=
  if q.bytes = 0 then []
  else match q.items[q.head]? with
    | none => []
    | some item => if item.off ≥ item.size then [] else item.live

/-- Both branches of the source leave no entry; they differ in the capacity that
is kept for later, which nothing here depends on. -/
def resetEmpty (q : WriteQueue) : WriteQueue := { q with items := [], head := 0, bytes := 0 }

/-- The loop of `consume`. The flag tells that the source returned from inside
it. There is one round for each entry from `head` on. -/
def consumeLoop : Nat → WriteQueue → Nat → WriteQueue × Bool
  | 0, q, _ => (q, false)
  | rounds + 1, q, n =>
    if n > 0 ∧ q.bytes > 0 then
      match q.items[q.head]? with
      | none => (q, true)
      | some item =>
        let remain := item.size - item.off
        if n < remain then
          ({ q with items := q.items.set q.head { item with off := item.off + n },
                    bytes := q.bytes - n }, true)
        else
          let q : WriteQueue :=
            ⟨q.items.set q.head ⟨⟨item.owner.id, []⟩, 0, 0⟩, q.head + 1, q.bytes - remain,
              q.put ++ [item.owner.id]⟩
          if q.head ≥ q.items.length then (q.resetEmpty, true)
          else consumeLoop rounds q (n - remain)
    else (q, false)

def consume (q : WriteQueue) (n : Int) : WriteQueue :=
  if n ≤ 0 ∨ q.bytes = 0 then q
  else match consumeLoop (q.items.length - q.head) q (min n.toNat q.bytes) with
    | (q, true) => q
    | (q, false) =>
      if q.head > 0 ∧ q.head * 2 ≥ q.items.length then
        { q with items := q.items.drop q.head, head := 0 }
      else q

def clear (q : WriteQueue) : WriteQueue :=
  resetEmpty { q with put := q.put ++ (q.items.drop q.head).map fun item => item.owner.id }

end WriteQueue

end Connaxis
