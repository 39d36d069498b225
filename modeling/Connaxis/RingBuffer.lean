import Connaxis.Pool

namespace Connaxis

open Memory Slice

/-- `r` and `w` are the next positions to read and to write; they are taken
modulo `size` only when the storage is touched. -/
structure RingBuffer where
  buf : Slice
  size : Nat
  r : Nat
  w : Nat
deriving DecidableEq, Repr

inductive RingOp
  | opRead
  | opWrite
deriving DecidableEq, Repr

namespace RingBuffer

def newRingBuffer : RingBuffer := ⟨nil, 0, 0, 0⟩

variable (A : Allocator UInt8) (h : Heap UInt8) (r : RingBuffer)

def capacity : Nat := r.size

def has : Nat := r.w - r.r

def free : Nat := r.size - (r.w - r.r)

/-- The bytes from `r` to `w`, copied to the start of another buffer. -/
def unwrap (buf : Slice) : Heap UInt8 :=
  let n := r.w - r.r
  let start := r.r % r.size
  if start + n < r.size then
    h.copy buf ((r.buf.tail start).front n)
  else
    let copyed := r.size - start
    let h := h.copy buf ((r.buf.tail start).front copyed)
    h.copy (buf.tail copyed) (r.buf.front (n - copyed))

def resize (resize : Nat) : Option (Heap UInt8 × RingBuffer) :=
  match h.alloc A resize with
  | none => none
  | some (h, buf) =>
    let n := r.w - r.r
    let h := if n > 0 then r.unwrap h buf else h
    some (h.put A r.buf, ⟨buf, buf.len, 0, if n > 0 then n else 0⟩)

/-- The number of bytes accepted, -1 for a bad argument, -2 when no larger
buffer is to be had. -/
def write (p : Slice) (length : Nat) (update : Bool) : Heap UInt8 × RingBuffer × Int :=
  let (h, r) :=
    if r.size = 0 then
      match h.alloc A length with
      | some (h, buf) => (h, { r with buf := buf, size := buf.len })
      | none => (h, { r with buf := nil, size := 0 })
    else (h, r)
  if p.len = 0 ∨ length > p.len then (h, r, -1)
  else
    let avail := r.size - (r.w - r.r)
    match if avail < length then r.resize A h (length - avail + r.size) else some (h, r) with
    | none => (h, r, -2)
    | some (h, r) =>
      let start := r.w % r.size
      let h :=
        if start + length < r.size then h.copy (r.buf.tail start) p
        else
          let copyed := r.size - start
          let h := h.copy (r.buf.tail start) (p.front copyed)
          h.copy r.buf (p.tail copyed)
      (h, if update then { r with w := r.w + length } else r, length)

def forward (step : Nat) : RingOp → RingBuffer × Int
  | .opRead =>
    if r.r + step > r.w then (r, -1)
    else if r.r + step = r.w then ({ r with r := 0, w := 0 }, 0)
    else ({ r with r := r.r + step }, 0)
  | .opWrite =>
    if r.w + step - r.r > r.size then (r, -1)
    else ({ r with w := r.w + step }, 0)

def reset : Heap UInt8 × RingBuffer := (h.put A r.buf, ⟨nil, 0, 0, 0⟩)

/-- The readable bytes as up to two slices. -/
def peek2 : Slice × Slice :=
  if r.size = 0 ∨ r.w = r.r then (nil, nil)
  else
    let n := r.w - r.r
    let start := r.r % r.size
    if start + n ≤ r.size then ((r.buf.tail start).front n, nil)
    else ((r.buf.tail start).front (r.size - start), r.buf.front (start + n - r.size))

/-- A contiguous slice of writable bytes, `none` when there is no room to be had. -/
def peekWrite (length : Nat) : Heap UInt8 × RingBuffer × Slice :=
  if length = 0 then (h, r, nil)
  else
    match if r.size = 0 then
        match h.alloc A length with
        | some (h, buf) => some (h, (⟨buf, buf.len, 0, 0⟩ : RingBuffer))
        | none => none
      else some (h, r) with
    | none => (h, { r with buf := nil }, nil)
    | some (h, r) =>
      let avail := r.size - (r.w - r.r)
      match if avail < length then r.resize A h (length - avail + r.size) else some (h, r) with
      | none => (h, r, nil)
      | some (h, r) =>
        let start := r.w % r.size
        if start + length ≤ r.size then (h, r, (r.buf.tail start).front length)
        else (h, r, (r.buf.tail start).front (r.size - start))

/-- Move the content to the start of the storage and return all of it. -/
def alignBytes : Heap UInt8 × RingBuffer × Slice :=
  if r.r % r.size = 0 then (h, r, r.buf)
  else
    -- The result of `Get` is not checked: without a buffer the content is lost.
    let (h, buf) := (h.alloc A r.size).getD (h, nil)
    let n := r.w - r.r
    let h := if n > 0 then r.unwrap h buf else h
    (h.put A r.buf, { r with buf := buf, r := 0, w := if n > 0 then n else 0 }, buf)

def update (buf : Slice) : Heap UInt8 × RingBuffer :=
  (h.put A r.buf, ⟨buf, buf.len, 0, 0⟩)

def truncate : RingBuffer := { r with r := 0, w := 0 }

/-- `Read`: copy out at most `length` bytes and drop them when `update` is set. The
bytes are returned by value; a negative count reports a bad argument. -/
def read (room length : Nat) (update : Bool) : RingBuffer × Bytes × Int :=
  if room = 0 ∨ length > room then (r, [], -1)
  else if r.w = r.r then (r, [], 0)
  else
    let n := min (r.w - r.r) length
    let start := r.r % r.size
    let bytes :=
      if start + n < r.size then h.read ((r.buf.tail start).front n)
      else h.read ((r.buf.tail start).front (r.size - start)) ++
        h.read (r.buf.front (n - (r.size - start)))
    (if update then { r with r := r.r + n } else r, bytes, n)

end RingBuffer

end Connaxis
