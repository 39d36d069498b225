import Connaxis.WebSocket.Frame
import Connaxis.Lib.Utf8

namespace Connaxis.WebSocket

open Memory BigEndian Utf8

/-- The fragments of a message received so far, in a buffer from the pool. -/
structure ClientBuf where
  buf : Bytes
  writeOffset : Nat
  checkOffset : Nat
deriving DecidableEq, Repr

namespace ClientBuf

def empty : ClientBuf := ⟨[], 0, 0⟩

/-- `n` names the buffer the pool would hand out; `none` when it has none. -/
def write (A : Allocator UInt8) (n : Nat) (c : ClientBuf) (inp : Bytes) : Option ClientBuf :=
  if (c.buf.length : Int) - c.writeOffset ≥ inp.length then
    some { c with buf := overwrite c.buf c.writeOffset inp,
                  writeOffset := c.writeOffset + inp.length }
  else match A.get n (c.writeOffset + inp.length) with
    | none => none
    | some buf =>
      let buf := if c.writeOffset > 0 then overwrite buf 0 (c.buf.take c.writeOffset) else buf
      some { c with buf := overwrite buf c.writeOffset inp,
                    writeOffset := c.writeOffset + inp.length }

def bytes (c : ClientBuf) : Bytes := if c.writeOffset = 0 then [] else c.buf.take c.writeOffset

def size (c : ClientBuf) : Nat := c.writeOffset

def reset (_ : ClientBuf) : ClientBuf := empty

end ClientBuf

/-- How far the text was checked, whether that is all of it, and whether it may go on. -/
def scanLoop : Nat → Bytes → Nat → Nat × Bool × Bool
  | 0, _, checked => (checked, true, true)
  | rounds + 1, inp, checked =>
    if checked < inp.length then
      if inp.getD checked 0 < 0x80 then scanLoop rounds inp (checked + 1)
      else
        let size := decodeRune (inp.drop checked)
        if size = 1 then
          if fullRune (inp.drop checked) then (checked, false, false)
          else (checked, false, true)
        else scanLoop rounds inp (checked + size)
    else (checked, true, true)

def scanUTF8Prefix (inp : Bytes) : Nat × Bool × Bool := scanLoop (inp.length + 1) inp 0

def validateBufferedText (c : ClientBuf) (final : Bool) : ClientBuf × Bool :=
  if c.writeOffset = 0 then (c, true)
  else
    let segment := (c.buf.take c.writeOffset).drop c.checkOffset
    let (checked, complete, ok) := scanUTF8Prefix segment
    let c := { c with checkOffset := c.checkOffset + checked }
    if !ok then (c, false) else (c, complete || !final)

/-- `buf` is absent until the first fragment. `gets` counts the buffers taken from the pool. -/
structure WsClient where
  cid : UInt64
  firstop : UInt8
  perMessageDeflate : Bool
  fragmentCompressed : Bool
  buf : Option ClientBuf
  gets : Nat
deriving DecidableEq, Repr

namespace WsClient

def resetBuf (c : WsClient) : WsClient := { c with buf := c.buf.map ClientBuf.reset }

def resetMessageState (c : WsClient) : WsClient :=
  { c with firstop := 0, fragmentCompressed := false }.resetBuf

end WsClient

inductive PmdErr
  | tooLarge
  | corrupt
deriving DecidableEq, Repr

def extPMDDecodeTail : Bytes := [0x00, 0x00, 0xff, 0xff, 0x01, 0x00, 0x00, 0xff, 0xff]

/-- The read loop of `inflate` over what the reader returns, call by call. -/
def inflateLoop (maxSize : Int) (ends : Bool) : List Bytes → Bytes → Except PmdErr Bytes
  | [], out => if ends then .ok out else .error .corrupt
  | chunk :: rest, out =>
    if chunk.length > 0 ∧ maxSize > 0 ∧ ((out ++ chunk).length : Int) > maxSize then
      .error .tooLarge
    else inflateLoop maxSize ends rest (out ++ chunk)

/-- `onUserData` is given the connection's id and the message; it may keep a state. The
length of a reply is an `int`. -/
structure UserDataHandler (σ : Type) where
  onUserData : σ → UInt64 → Bytes → σ × Option Bytes
  sized : ∀ s cid data, ∀ out ∈ (onUserData s cid data).2, out.length < 2 ^ 63

/-- The settings of the protocol. `flate` is the decompressor: the pieces that its reads
return for an input, and whether they end at the end of a stream. -/
structure WsEnv (σ : Type) where
  WSMaxFramePayloadBytes : Int
  WSMaxMessageBytes : Int
  WSRequireClientMask : Bool
  alloc : Allocator UInt8
  flate : Bytes → List Bytes × Bool
  handler : UserDataHandler σ

/-- What one call of `processFrame` does. `delivered` is what `OnUserData` was given. -/
structure Processed (σ : Type) where
  cli : WsClient
  hs : σ
  out : Bytes
  close : Bool
  delivered : Option Bytes

variable {σ : Type} (e : WsEnv σ)

def inflatePermessageDeflate (payload : Bytes) : Except PmdErr Bytes :=
  let (chunks, ends) := e.flate (payload ++ extPMDDecodeTail)
  inflateLoop e.WSMaxMessageBytes ends chunks []

/-- The content of a complete message. -/
def expand (compressed : Bool) (payload : Bytes) : Except PmdErr Bytes :=
  if compressed then inflatePermessageDeflate e payload else .ok payload

def isValidCloseCode (code : Nat) : Bool :=
  (code ≥ 3000 && code ≤ 4999) ||
    (code ≥ 1000 && code ≤ 1014 && code ≠ 1004 && code ≠ 1005 && code ≠ 1006)

def closeCode (payload : Bytes) : Nat := value (payload.take 2)

/-- `buildClose` and `buildCloseWithCode` call each other; the second call is the last. -/
def closeRounds : Nat → Bytes → Bytes
  | 0, _ => []
  | rounds + 1, inp =>
    if inp.length > 0 ∧ inp.length < 2 then closeRounds rounds (encode 2 1002)
    else if inp.length > 0 ∧ !isValidCloseCode (closeCode inp) then
      closeRounds rounds (encode 2 1002)
    else
      let payload := if inp.length > 2 ∧ !valid (inp.drop 2) then [] else inp
      buildFrame ⟨true, 0, 0x8, false, noMask, payload.length⟩ payload

def buildClose (inp : Bytes) : Bytes := closeRounds 2 inp

def buildCloseWithCode (code : Nat) : Bytes := buildClose (encode 2 code)

def buildPong (inp : Bytes) : Bytes :=
  buildFrame ⟨true, 0, 0xa, false, noMask, inp.length⟩ inp

def refuse (cli : WsClient) (hs : σ) (code : Nat) : Processed σ :=
  ⟨cli, hs, buildCloseWithCode code, true, none⟩

/-- The reply goes out under the opcode of the message. -/
def processUserdata (cid : UInt64) (hs : σ) (inp : Bytes) (opCode : UInt8) : σ × Bytes :=
  match e.handler.onUserData hs cid inp with
  | (hs, none) => (hs, [])
  | (hs, some out) =>
    if opCode ≠ MessageText ∧ opCode ≠ MessageBinary then (hs, [])
    else (hs, buildFrame ⟨true, 0, opCode, false, noMask, out.length⟩ out)

/-- The end of `processFrame`: the message is complete. -/
def finishMessage (cli : WsClient) (hs : σ) (fin fragmentedText compressed : Bool)
    (opCode : UInt8) (payload : Bytes) : Processed σ :=
  let cli := if opCode ≠ 0 ∧ fin then { cli with fragmentCompressed := false } else cli
  match expand e compressed payload with
  | .error .tooLarge => refuse cli.resetMessageState hs 1009
  | .error .corrupt => refuse cli.resetMessageState hs 1002
  | .ok payload =>
    if e.WSMaxMessageBytes > 0 ∧ (payload.length : Int) > e.WSMaxMessageBytes then
      refuse cli.resetMessageState hs 1009
    else if opCode = MessageText ∧ !fragmentedText ∧ !valid payload then
      refuse cli.resetMessageState hs 1007
    else
      let (hs, out) := processUserdata e cli.cid hs payload opCode
      ⟨cli.resetBuf, hs, out, false, some payload⟩

/-- The part for fragments: the payload joins what was received before. -/
def addFragment (cli : WsClient) (hs : σ) (fin fragmentedText : Bool) (payload : Bytes) :
    Processed σ :=
  let buf := cli.buf.getD ClientBuf.empty
  let cli := { cli with buf := some buf }
  if e.WSMaxMessageBytes > 0 ∧ ((buf.size + payload.length : Nat) : Int) > e.WSMaxMessageBytes then
    refuse cli.resetMessageState hs 1009
  else match buf.write e.alloc cli.gets payload with
    | none => refuse cli.resetMessageState hs 1009
    | some buf =>
      let cli := { cli with gets := cli.gets + 1 }
      let (buf, ok) :=
        if cli.firstop = MessageText ∧ !cli.fragmentCompressed then validateBufferedText buf fin
        else (buf, true)
      let cli := { cli with buf := some buf }
      if !ok then refuse cli.resetMessageState hs 1007
      else if !fin then ⟨cli, hs, [], false, none⟩
      else
        finishMessage e { cli with firstop := 0, fragmentCompressed := false } hs fin
          fragmentedText cli.fragmentCompressed cli.firstop buf.bytes

/-- Text and binary frames and their continuations. -/
def processData (cli : WsClient) (hs : σ) (fin rsv1 : Bool) (opCode : UInt8) (payload : Bytes) :
    Processed σ :=
  let fragmentedText : Bool := cli.firstop = MessageText ∧ !cli.fragmentCompressed
  if opCode = 0 ∧ rsv1 then refuse cli hs 1002
  else if opCode ≠ 0 ∧ rsv1 ∧
      (!cli.perMessageDeflate ∨ (opCode ≠ MessageText ∧ opCode ≠ MessageBinary)) then
    refuse cli hs 1002
  else
    let compressed := if opCode = 0 then cli.fragmentCompressed else rsv1
    if ¬ ((cli.firstop = 0 ∧ opCode ≠ 0) ∨ (cli.firstop ≠ 0 ∧ opCode = 0)) then refuse cli hs 1002
    else
      let cli :=
        if opCode ≠ 0 ∧ !fin then { cli with firstop := opCode, fragmentCompressed := compressed }
        else cli
      if cli.firstop ≠ 0 then addFragment e cli hs fin fragmentedText payload
      else finishMessage e cli hs fin fragmentedText compressed opCode payload

def processControl (cli : WsClient) (hs : σ) (fin rsv1 : Bool) (opCode : UInt8)
    (payload : Bytes) : Processed σ :=
  if rsv1 then refuse cli hs 1002
  else if payload.length > 125 ∨ !fin then refuse cli hs 1002
  else if opCode = 0x8 then ⟨cli, hs, buildClose payload, true, none⟩
  else if opCode = 0x9 then ⟨cli, hs, buildPong payload, false, none⟩
  else if opCode = 0xa then ⟨cli, hs, [], false, none⟩
  else refuse cli hs 1002

/-- The body of `processFrame` once the payload is in the clear. -/
def processPayload (cli : WsClient) (hs : σ) (b0 : UInt8) (payload : Bytes) : Processed σ :=
  let fin : Bool := b0 &&& 0x80 ≠ 0
  let rsv1 : Bool := b0 &&& 0x40 ≠ 0
  let opCode := b0 &&& 0x0f
  if b0 &&& 0x30 ≠ 0 then refuse cli hs 1002
  else if opCode ≥ 3 then processControl cli hs fin rsv1 opCode payload
  else processData e cli hs fin rsv1 opCode payload

/-- The payload of a frame, unmasked. -/
def clearPayload (inp : Bytes) : Bytes :=
  let headerSize := calcHeaderSize (inp.getD 1 0)
  let payload := inp.drop headerSize
  if inp.getD 1 0 &&& 0x80 ≠ 0 ∧ payload.length > 0 then cipher payload (maskKey inp headerSize) 0
  else payload

/-- `inp` is one complete frame. -/
def processFrame (cli : WsClient) (hs : σ) (inp : Bytes) : Processed σ :=
  if e.WSRequireClientMask ∧ inp.getD 1 0 &&& 0x80 = 0 then refuse cli hs 1002
  else processPayload e cli hs (inp.getD 0 0) (clearPayload inp)

/-- A run of frames, up to the first one that asks to close: the outputs, one a frame, and
the messages handed over. -/
structure Session (σ : Type) where
  cli : WsClient
  hs : σ
  outs : List Bytes
  delivered : List Bytes
  closed : Bool

def processFrames (cli : WsClient) (hs : σ) : List Bytes → Session σ
  | [] => ⟨cli, hs, [], [], false⟩
  | inp :: rest =>
    let first := processFrame e cli hs inp
    if first.close then
      ⟨first.cli, first.hs, [first.out], first.delivered.toList, true⟩
    else
      let later := processFrames first.cli first.hs rest
      { later with outs := first.out :: later.outs,
                   delivered := first.delivered.toList ++ later.delivered }

end Connaxis.WebSocket
