import Connaxis.LoopConn

namespace Connaxis

open Memory

/-- The window the next read goes to, with the connection's unparsed bytes at its front:
the loop's shared buffer or the connection's own, whichever has more room. `none` when a
full private buffer cannot be doubled. -/
def chooseBuf (A : Allocator UInt8) (shared : Slice) (h : Heap UInt8) (ring : RingBuffer) :
    Option (Heap UInt8 × RingBuffer × Slice) :=
  let left := ring.has
  if left > 0 then
    if (shared.len : Int) - left > (ring.capacity : Int) - left then
      let (h, ring, privateBuf) := ring.alignBytes A h
      some (h.copy shared (privateBuf.front left), ring, shared)
    else if ring.free = 0 then
      match h.alloc A (ring.capacity * 2) with
      | none => none
      | some (h, resizeBuf) =>
        let (h, ring, bytes) := ring.alignBytes A h
        let h := h.copy resizeBuf bytes
        let (h, ring) := ring.update A h resizeBuf
        let (ring, _) := ring.forward bytes.len .opWrite
        some (ring.alignBytes A h)
    else some (ring.alignBytes A h)
  else some (h, ring, shared)

/-- What the parse loop works on: the part of the loop's state that belongs to the
connection being read. -/
structure Rx (σ π : Type) where
  heap : Heap UInt8
  conn : EngineConn π
  hs : σ
  owners : Nat
  trace : List Obs

inductive ParseExit
  | failed (err : CloseErr)
  | done (wantClose : Bool)
deriving DecidableEq, Repr

namespace Rx

variable {σ π : Type} (e : Env σ π)

/-- Keep an incomplete packet in the connection's own buffer. -/
def keepPartial (rx : Rx σ π) (inp : Slice) (expect : Int) : Rx σ π × ParseExit :=
  if inp.len > 0 then
    if expect > rx.conn.recvbuf.capacity then
      match rx.heap.alloc e.alloc expect.toNat with
      | none => (rx, .failed .CLOSE_PKT_SIZE_LIMIT)
      | some (h, resizeBuf) =>
        let (h, ring) := rx.conn.recvbuf.update e.alloc h resizeBuf
        let (h, ring, _) := ring.write e.alloc h inp inp.len true
        ({ rx with heap := h, conn := { rx.conn with recvbuf := ring } }, .done false)
    else
      let (h, ring, _) := rx.conn.recvbuf.truncate.write e.alloc rx.heap inp inp.len true
      ({ rx with heap := h, conn := { rx.conn with recvbuf := ring } }, .done false)
  else (rx, .done false)

/-- `OnData` on one complete packet, and `emitOutput` on its answer. -/
def deliver (rx : Rx σ π) (app : AppConn) (data : Slice) : Option (Rx σ π × ParseExit) :=
  let reaction := e.handler.onData rx.hs app (rx.heap.read data)
  let h := rx.heap.store data (reaction.data.take data.len)
  let trace := rx.trace ++ [.data app.ref (rx.heap.read data) reaction.close]
  match rx.conn.emitOutput e.toConnEnv rx.owners reaction.out with
  | none => none
  | some (c, owners, some err) =>
    some (⟨h, c, reaction.state, owners, trace⟩,
      .failed (if err = .ENOMEM then .CLOSE_MEM_ALLOC_FAIL else .CLOSE_SEND_ERR))
  | some (c, owners, none) => some (⟨h, c, reaction.state, owners, trace⟩, .done reaction.close)

/-- Everything was parsed: the private buffer is given back. -/
def release (rx : Rx σ π) : Rx σ π :=
  let (h, ring) := rx.conn.recvbuf.reset e.alloc rx.heap
  { rx with heap := h, conn := { rx.conn with recvbuf := ring } }

/-- The packet loop of `processRead` on the bytes of `inp`, with the call of the handler left
open. Every round takes a packet off its front, so one round more than it has bytes is enough. -/
def packetLoop (deliver : Rx σ π → AppConn → Slice → Option (Rx σ π × ParseExit)) (app : AppConn) :
    Nat → Rx σ π → Slice → Option (Rx σ π × ParseExit)
  | 0, _, _ => none
  | rounds + 1, rx, inp =>
    let (hs, length, expect) := e.handler.parsePacket rx.hs app (rx.heap.read inp)
    let rx := { rx with hs := hs }
    if length < 0 then some (rx, .failed .CLOSE_PKT_PARSE_ERR)
    else if expect > e.pktSizeLimit then some (rx, .failed .CLOSE_PKT_SIZE_LIMIT)
    else if length > 0 then
      if length > inp.len then some (rx, .failed .CLOSE_PKT_PARSE_ERR)
      else
        match deliver rx app (inp.front length.toNat) with
        | none => none
        | some (rx, .failed err) => some (rx, .failed err)
        | some (rx, .done close) =>
          let inp := inp.tail length.toNat
          if close ∨ inp.len = 0 then
            some (if inp.len = 0 then rx.release e else rx, .done close)
          else packetLoop deliver app rounds rx inp
    else some (rx.keepPartial e inp expect)

abbrev parseLoop : AppConn → Nat → Rx σ π → Slice → Option (Rx σ π × ParseExit) :=
  packetLoop e (deliver e)

end Rx

/-- How one `Read` of `processRead` went. `last` tells that the loop stops after it. -/
inductive Received
  | failed (err : CloseErr)
  | got (inp : Slice) (last : Bool)
deriving DecidableEq, Repr

namespace LoopConn

variable {σ π : Type} (e : Env σ π)

def rx (l : LoopConn σ π) (r : Ref) : Rx σ π := ⟨l.heap, l.conns r, l.hs, l.owners, l.trace⟩

def commit (l : LoopConn σ π) (r : Ref) (rx : Rx σ π) : LoopConn σ π :=
  { l with heap := rx.heap, conns := Function.update l.conns r rx.conn, hs := rx.hs,
           owners := rx.owners, trace := rx.trace }

/-- The first half of a round: choose the window, read into it and keep the books. The
number is the count of bytes read in this call of `processRead`. -/
def receive (l : LoopConn σ π) (r : Ref) (readBytes : Int) (answers : List SysRead) :
    Option (LoopConn σ π × Int × Received) :=
  let left := (l.conns r).recvbuf.has
  match chooseBuf e.alloc l.recvbuf l.heap (l.conns r).recvbuf with
  | none => some (l, readBytes, .failed .CLOSE_PKT_SIZE_LIMIT)
  | some (h, ring, recvbuf) =>
    let room := recvbuf.len - left
    match EngineConn.read e.toConnEnv { l.conns r with recvbuf := ring } room answers with
    | none => none
    | some (c, bytes, err) =>
      let l := { l with heap := h.store (recvbuf.tail left) bytes }.setConn r c
      if ¬ Soft err then some (l, readBytes, .failed .CLOSE_READ_ERR)
      else
        let eagain := decide (err = some .EAGAIN)
        if bytes.length = 0 ∧ eagain = false then
          some (l, readBytes, .failed .CLOSE_READ_ERR)
        else
          let readBytes := readBytes + bytes.length
          let budgetExhausted := decide (e.tuning.maxReadBytesPerEvent > 0 ∧
            readBytes ≥ e.tuning.maxReadBytesPerEvent)
          let shortRead := decide (c.getType = .TYPE_CONN ∧ eagain = false ∧
            bytes.length > 0 ∧ bytes.length < room)
          let l := (l.observe (.read r bytes)).touch e r
          let l := l.setConn r { l.conns r with lastRecv := l.nowSec }
          some (l, readBytes, .got (recvbuf.front (left + bytes.length))
            (eagain || shortRead || budgetExhausted))

/-- The second half of a round, after the packets have been handled. The flag asks for
another round. -/
def respond (l : LoopConn σ π) (r : Ref) (wantClose last : Bool) :
    Option (LoopConn σ π × Bool) :=
  match (l.conns r).drainWrite e.toConnEnv with
  | none => none
  | some (c, _, err) =>
    let l := l.setConn r c
    if ¬ Soft err then some (l.closeConn e r (some .CLOSE_SEND_ERR), false)
    else if wantClose then
      if c.pendingWrite > 0 then
        some ({ l with closeOnDrain := insert c.fd l.closeOnDrain }.updateWriteFd r, false)
      else some (l.closeConn e r (some .CLOSE_BY_USER_LAND), false)
    else match overLimit e c with
      | some err => some (l.closeConn e r (some err), false)
      | none => if last then some (l.updateWriteFd r, false) else some (l, true)

/-- One round of `processRead`, with the packet loop left open. -/
def roundWith (parse : AppConn → Nat → Rx σ π → Slice → Option (Rx σ π × ParseExit))
    (l : LoopConn σ π) (r : Ref) (readBytes : Int) (answers : List SysRead) :
    Option (LoopConn σ π × Int × Bool) :=
  match l.receive e r readBytes answers with
  | none => none
  | some (l, readBytes, .failed err) => some (l.closeConn e r (some err), readBytes, false)
  | some (l, readBytes, .got inp last) =>
    match parse (l.app r) (inp.len + 1) (l.rx r) inp with
    | none => none
    | some (rx, .failed err) => some ((l.commit r rx).closeConn e r (some err), readBytes, false)
    | some (rx, .done wantClose) =>
      match (l.commit r rx).respond e r wantClose last with
      | none => none
      | some (l, again) => some (l, readBytes, again)

abbrev readRound : LoopConn σ π → Ref → Int → List SysRead → Option (LoopConn σ π × Int × Bool) :=
  roundWith e (Rx.parseLoop e)

/-- The rounds of `processRead`, each with the kernel's answers to its `Read`. `none`: the
answers do not reach to the end of the call. -/
def readLoop
    (round : LoopConn σ π → Ref → Int → List SysRead → Option (LoopConn σ π × Int × Bool))
    (r : Ref) : LoopConn σ π → Int → List (List SysRead) → Option (LoopConn σ π)
  | _, _, [] => none
  | l, readBytes, answers :: rest =>
    match round l r readBytes answers with
    | none => none
    | some (l, _, false) => some l
    | some (l, readBytes, true) => readLoop round r l readBytes rest

def processRead (l : LoopConn σ π) (r : Ref) (answers : List (List SysRead)) :
    Option (LoopConn σ π) :=
  readLoop (readRound e) r l 0 answers

end LoopConn

end Connaxis
