import Connaxis.RingBuffer
import Connaxis.Socket

namespace Connaxis

open Memory

/-- What `crypto/tls` does to its transport during one call, ending in `α`. The
library is any such program: nothing about the record protocol is assumed. -/
inductive Bio (α : Type)
  | done (result : α)
  | read (len : Nat) (next : Bytes × Option Err → Bio α)
  | write (p : Bytes) (next : Nat × Option Err → Bio α)

/-- The calls of `tls.Conn` that a connection makes after the handshake. -/
structure TlsLib (π : Type) where
  read : π → Nat → Bio (π × Bytes × Option Err)
  write : π → Bytes → Bio (π × Nat × Option Err)
  close : π → Bio π

/-- `tlsBufferConn` without the handshake's `direct` connection, which is gone before
the loop sees the connection. Its rings live in buffers of their own. -/
structure TlsBufferConn where
  heap : Heap UInt8
  cin : RingBuffer
  cout : RingBuffer

/-- `tls` and `buf` are nil on connections whose records are all left to the kernel. -/
structure ATLSConn (π : Type) where
  tls : Option π
  buf : Option TlsBufferConn
  ktls : Bool
  ktlsRX : Bool
  preRead : Bytes
  preReadOff : Nat

def tlsCipherReadSize : Nat := 32 * 1024
def tlsWriteChunkSize : Nat := 16 * 1024

namespace TlsBufferConn

variable (A : Allocator UInt8)

def read (b : TlsBufferConn) (len : Nat) : TlsBufferConn × Bytes × Option Err :=
  if len = 0 then (b, [], none)
  else if b.cin.has = 0 then (b, [], some .wouldBlock)
  else
    let (cin, bytes, n) := b.cin.read b.heap len len true
    if n ≤ 0 then ({ b with cin := cin }, [], some .wouldBlock)
    else ({ b with cin := cin }, bytes, none)

def write (b : TlsBufferConn) (p : Bytes) : TlsBufferConn × Nat × Option Err :=
  if p.length = 0 then (b, 0, none)
  else
    let (heap, data) := b.heap.lend p
    let (heap, cout, n) := b.cout.write A heap data data.len true
    if n < 0 then ({ b with heap := heap, cout := cout }, 0, some .ENOMEM)
    else ({ b with heap := heap, cout := cout }, p.length, none)

/-- Run one library call on the in-memory transport. -/
def serve {α : Type} (b : TlsBufferConn) : Bio α → TlsBufferConn × α
  | .done result => (b, result)
  | .read len next =>
    let (b, bytes, err) := b.read len
    b.serve (next (bytes, err))
  | .write p next =>
    let (b, n, err) := b.write A p
    b.serve (next (n, err))

/-- `readCiphertext`, given the kernel's answer. -/
def readCiphertext (b : TlsBufferConn) (answer : SysRead) : TlsBufferConn × Option Err :=
  let (heap, cin, buf) := b.cin.peekWrite A b.heap tlsCipherReadSize
  let b := { b with heap := heap, cin := cin }
  if buf.len = 0 then (b, some .ENOMEM)
  else match answer with
    | .fail err => (b, some err)
    | .data bytes =>
      let bytes := bytes.take buf.len
      if bytes.length = 0 then (b, some .eof)
      else
        ({ b with heap := b.heap.store buf bytes,
                  cin := (b.cin.forward bytes.length .opWrite).1 }, none)

end TlsBufferConn

/-- The variables of the loop of `FlushN` in userspace mode. -/
structure FlushState (π : Type) where
  p : π
  b : TlsBufferConn
  s : Socket
  wq : WriteQueue
  remaining : Int
  flushed : Int

def FlushState.chunkLimit {π : Type} (x : FlushState π) (limit : Bool) : Int :=
  if limit ∧ x.remaining < tlsWriteChunkSize then x.remaining else tlsWriteChunkSize

namespace ATLSConn

variable {π : Type} (A : Allocator UInt8) (lib : TlsLib π)

/-- One round of `Read` in userspace mode; no result asks for more ciphertext. -/
def readRound (p : π) (b : TlsBufferConn) (len : Nat) :
    (π × TlsBufferConn) × Option (Bytes × Option Err) :=
  let (b, p, bytes, err) := b.serve A (lib.read p len)
  let bytes := bytes.take len
  if bytes.length > 0 then ((p, b), some (bytes, none))
  else match err with
    | none => ((p, b), some ([], some .EAGAIN))
    | some .wouldBlock => ((p, b), none)
    | some err => ((p, b), some ([], some err))

/-- The loop of `Read`. Every round after the first needs an answer of the kernel;
`none` says that the call has not returned yet. -/
def readLoop (p : π) (b : TlsBufferConn) (len : Nat) (answers : List SysRead) :
    Option ((π × TlsBufferConn) × Bytes × Option Err) :=
  match readRound A lib p b len with
  | (state, some result) => some (state, result)
  | ((p, b), none) =>
    match answers with
    | [] => none
    | answer :: rest =>
      match b.readCiphertext A answer with
      | (b, some err) => some ((p, b), [], some err)
      | (b, none) => readLoop p b len rest

/-- The answer of the kernel to a direct read in kernel TLS mode. -/
def readKernel (len : Nat) : SysRead → Bytes × Option Err
  | .fail .EAGAIN => ([], some .EAGAIN)
  | .fail .ioError => ([], some .eof)
  | .fail err => ([], some err)
  | .data bytes => if (bytes.take len).length = 0 then ([], some .eof) else (bytes.take len, none)

/-- `Read` into a window of `len` bytes. A nil `tls.Conn` is a crash, which is `none` too. -/
def read (c : ATLSConn π) (fd len : Nat) (answers : List SysRead) :
    Option (ATLSConn π × Bytes × Option Err) :=
  if fd = 0 then some (c, [], some .EBADF)
  else if len = 0 then some (c, [], none)
  else if c.preReadOff < c.preRead.length then
    let bytes := (c.preRead.drop c.preReadOff).take len
    let off := c.preReadOff + bytes.length
    if off ≥ c.preRead.length then some ({ c with preRead := [], preReadOff := 0 }, bytes, none)
    else some ({ c with preReadOff := off }, bytes, none)
  else if c.ktls ∧ c.ktlsRX then
    match answers with
    | [] => none
    | answer :: _ => some (c, readKernel len answer)
  else match c.tls, c.buf with
    | some p, some b =>
      match readLoop A lib p b len answers with
      | none => none
      | some ((p, b), bytes, err) => some ({ c with tls := some p, buf := some b }, bytes, err)
    | _, _ => none

def write (c : ATLSConn π) (fd : Nat) (s : Socket) (b : Bytes) :
    Option (ATLSConn π × Socket × Int × Option Err) :=
  if fd = 0 then some (c, s, 0, some .EBADF)
  else if b.length = 0 then some (c, s, 0, none)
  else if c.ktls then
    let (s, n, err) := s.write b
    let n := if n < 0 then 0 else n
    let n := if err = some .EAGAIN then 0 else n
    some (c, s, n, err)
  else match c.tls, c.buf with
    | some p, some buf =>
      let (buf, p, n, err) := buf.serve A (lib.write p b)
      some ({ c with tls := some p, buf := some buf }, s, n, err)
    | _, _ => none

def pendingWrite (c : ATLSConn π) (wq : WriteQueue) : Nat :=
  wq.pending + match c.buf with
    | some b => b.cout.has
    | none => 0

/-- The ciphertext `FlushN` offers to the kernel in one call. -/
def cipherVecs (b : TlsBufferConn) (limit : Bool) (remaining : Int) : List Bytes :=
  let (head, tail) := b.cout.peek2
  let (head, tail) :=
    if limit then
      if (head.len : Int) > remaining then (head.front remaining.toNat, Slice.nil)
      else if (head.len : Int) + tail.len > remaining then
        (head, tail.front (remaining - head.len).toNat)
      else (head, tail)
    else (head, tail)
  ([head, tail].filter fun s => s.len > 0).map b.heap.read

/-- A round of the loop: ciphertext first, then one more chunk of the queue is encrypted. It
returns, or goes on from another state. -/
def flushRound (limit : Bool) (x : FlushState π) :
    Except (FlushState π × Option Err) (FlushState π) :=
  if limit ∧ x.remaining ≤ 0 then .error (x, none)
  else if x.b.cout.has > 0 then
    let (s, n, err) := x.s.writev (cipherVecs x.b limit x.remaining)
    let n := if err = some .EAGAIN ∧ n < 0 then 0 else n
    if n > 0 then
      .ok { x with b := { x.b with cout := (x.b.cout.forward n.toNat .opRead).1 }, s := s,
                   remaining := if limit then x.remaining - n else x.remaining,
                   flushed := x.flushed + n }
    else .error ({ x with s := s }, err)
  else if x.wq.peek.length = 0 then .error (x, none)
  else if x.chunkLimit limit ≤ 0 then .error (x, none)
  else
    let (b, p, n, err) := x.b.serve A (lib.write x.p (x.wq.peek.take (x.chunkLimit limit).toNat))
    let wq := if n > 0 then x.wq.consume n else x.wq
    match err with
    | some err => .error ({ x with p := p, b := b, wq := wq }, some err)
    | none => .ok { x with p := p, b := b, wq := wq }

/-- `none` after `rounds` rounds: not finished yet. -/
def flushLoop (limit : Bool) : Nat → FlushState π → Option (FlushState π × Option Err)
  | 0, _ => none
  | rounds + 1, x =>
    match flushRound A lib limit x with
    | .error result => some result
    | .ok next => flushLoop limit rounds next

def flushN (rounds : Nat) (c : ATLSConn π) (fd : Nat) (s : Socket) (wq : WriteQueue)
    (maxBytes : Int) : Option (ATLSConn π × Socket × WriteQueue × Int × Option Err) :=
  if fd = 0 then some (c, s, wq, 0, some .EBADF)
  else if c.ktls then
    let (s, wq, n, err) := flushWriteQueue fd s wq maxBytes
    some (c, s, wq, n, err)
  else match c.buf with
    | none => some (c, s, wq, 0, some (.other 0))
    | some b =>
      match c.tls with
      | none => none
      | some p =>
        match flushLoop A lib (maxBytes > 0) rounds ⟨p, b, s, wq, maxBytes, 0⟩ with
        | none => none
        | some (x, err) =>
          some ({ c with tls := some x.p, buf := some x.b }, x.s, x.wq, x.flushed, err)

/-- `Close` without the queue and the descriptor, which the caller clears. -/
def close (c : ATLSConn π) : ATLSConn π :=
  match c.buf with
  | none => c
  | some b =>
    let (b, tls) := match c.tls with
      | none => (b, none)
      | some p => let (b, p) := b.serve A (lib.close p); (b, some p)
    let (heap, cin) := b.cin.reset A b.heap
    let (heap, cout) := b.cout.reset A heap
    { c with tls := tls, buf := some ⟨heap, cin, cout⟩ }

end ATLSConn

end Connaxis
