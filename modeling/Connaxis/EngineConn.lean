import Connaxis.TlsConn

namespace Connaxis

open Memory

/-- What a connection needs from outside: the tuning, the buffer pool, the TLS library,
and a bound on the rounds of a userspace TLS flush (a flush that needs more has not
returned yet). -/
structure ConnEnv (π : Type) where
  tuning : Tuning
  alloc : Allocator UInt8
  tls : TlsLib π
  rounds : Nat

inductive ConnType
  | TYPE_CONN
  | TYPE_CONN_TLS
deriving DecidableEq, Repr

/-- `Base` together with the connection that embeds it: a plain `Conn` has no `tls`. -/
structure EngineConn (π : Type) where
  fd : Nat
  id : UInt64
  loopID : Nat
  client : Bool
  recvbuf : RingBuffer
  wq : WriteQueue
  sock : Socket
  tls : Option (ATLSConn π)
  lastRecv : Int

/-- A result after which the connection goes on. -/
def Soft (err : Option Err) : Prop := err = none ∨ err = some .EAGAIN

instance (err : Option Err) : Decidable (Soft err) :=
  inferInstanceAs (Decidable (err = none ∨ err = some .EAGAIN))

/-- A connection as it is made: nothing received, nothing to send. -/
def EngineConn.new {π : Type} (fd : Nat) (id : UInt64) (client : Bool) (sock : Socket)
    (tls : Option (ATLSConn π)) : EngineConn π :=
  ⟨fd, id, 0, client, RingBuffer.newRingBuffer, WriteQueue.empty, sock, tls, 0⟩

/-- A library that is never called; for runs without TLS connections. -/
def TlsLib.unused : TlsLib Unit :=
  ⟨fun _ _ => .done ((), [], none), fun _ _ => .done ((), 0, none), fun _ => .done ()⟩

namespace EngineConn

variable {π : Type} (e : ConnEnv π)

def getType (c : EngineConn π) : ConnType :=
  if c.tls.isNone then .TYPE_CONN else .TYPE_CONN_TLS

def pendingWrite (c : EngineConn π) : Nat :=
  match c.tls with
  | none => c.wq.pending
  | some a => a.pendingWrite c.wq

/-- `Read` into a window of `len` bytes: what it stores there and the error. The
count is the number of bytes; it is not looked at when the error is a hard one. -/
def read (c : EngineConn π) (len : Nat) (answers : List SysRead) :
    Option (EngineConn π × Bytes × Option Err) :=
  match c.tls with
  | none =>
    match answers with
    | [] => none
    | .fail err :: _ => some (c, [], some err)
    | .data bytes :: _ => some (c, bytes.take len, none)
  | some a =>
    match a.read e.alloc e.tls c.fd len answers with
    | none => none
    | some (a, bytes, err) => some ({ c with tls := some a }, bytes, err)

def write (c : EngineConn π) (b : Bytes) : Option (EngineConn π × Int × Option Err) :=
  match c.tls with
  | none =>
    if c.fd = 0 then some (c, 0, some .EBADF)
    else
      let (s, n, err) := c.sock.write b
      some ({ c with sock := s }, n, err)
  | some a =>
    match a.write e.alloc e.tls c.fd c.sock b with
    | none => none
    | some (a, s, n, err) => some ({ c with tls := some a, sock := s }, n, err)

def flushN (c : EngineConn π) (maxBytes : Int) : Option (EngineConn π × Int × Option Err) :=
  match c.tls with
  | none =>
    let (s, wq, n, err) := flushWriteQueue c.fd c.sock c.wq maxBytes
    some ({ c with sock := s, wq := wq }, n, err)
  | some a =>
    match a.flushN e.alloc e.tls e.rounds c.fd c.sock c.wq maxBytes with
    | none => none
    | some (a, s, wq, n, err) => some ({ c with tls := some a, sock := s, wq := wq }, n, err)

def enqueueWrite (c : EngineConn π) (buf : Buf) (size : Nat) : EngineConn π :=
  { c with wq := c.wq.enqueue e.tuning buf size }

def close (c : EngineConn π) : EngineConn π :=
  { c with wq := c.wq.clear, tls := c.tls.map (ATLSConn.close e.alloc e.tls), fd := 0 }

/-- The loop of `drainWrite`. -/
def drainLoop (plan : Int) :
    Nat → EngineConn π → Int → Option (EngineConn π × Int × Option Err)
  | 0, _, _ => none
  | rounds + 1, c, total =>
    match c.flushN e plan with
    | none => none
    | some (c, _, some err) => some (c, total, some err)
    | some (c, n, none) =>
      let total := if n > 0 then total + n else total
      if n ≤ 0 ∨ (total ≥ plan ∧ plan > 0) then some (c, total, none)
      else drainLoop plan rounds c total

/-- A plain connection needs one round more than it has bytes, at most. -/
def drainWrite (c : EngineConn π) : Option (EngineConn π × Int × Option Err) :=
  if c.pendingWrite = 0 then some (c, 0, none)
  else drainLoop e e.tuning.maxFlushBytesPerEvent (e.rounds + c.pendingWrite + 1) c 0

/-- The queue's copy of `out`; `n` names the buffer. -/
def enqueueCopy (n : Nat) (c : EngineConn π) (out : Bytes) : EngineConn π × Nat × Option Err :=
  match e.alloc.get n out.length with
  | none => (c, n, some .ENOMEM)
  | some owner => (c.enqueueWrite e ⟨n, overwrite owner 0 out⟩ out.length, n + 1, none)

/-- `n` is the name of the next send buffer. -/
def emitOutput (n : Nat) (c : EngineConn π) (out : Bytes) :
    Option (EngineConn π × Nat × Option Err) :=
  if out.length = 0 then some (c, n, none)
  else if c.pendingWrite = 0 then
    match c.write e out with
    | none => none
    | some (c, sent, err) =>
      if sent = out.length then some (c, n, none)
      else match err with
        | some .EAGAIN | none => some (c.enqueueCopy e n (out.drop sent.toNat))
        | some err => some (c, n, some err)
  else some (c.enqueueCopy e n out)

end EngineConn

end Connaxis
