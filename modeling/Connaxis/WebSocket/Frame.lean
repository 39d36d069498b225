import Connaxis.Pool
import Connaxis.Lib.BigEndian
import Mathlib.Algebra.Ring.Int.Defs

namespace Connaxis.WebSocket

open Memory BigEndian

def MessageNone : UInt8 := 0
def MessageText : UInt8 := 1
def MessageBinary : UInt8 := 2

structure Header where
  fin : Bool
  rsv : UInt8
  opCode : UInt8
  masked : Bool
  mask : FixedBytes 4
  length : Int
deriving DecidableEq, Repr

/-- A result of machine arithmetic, as the `int64` it is kept in. -/
def int64 (n : Int) : Int := n.bmod (2 ^ 64)

def WSHeaderMinSize : Nat := 2

def calcHeaderSize (b : UInt8) : Nat :=
  let size := if b &&& 0x80 ≠ 0 then 6 else 2
  if b &&& 0x7f = 126 then size + 2
  else if b &&& 0x7f = 127 then size + 8
  else size

/-- The payload length a header announces. -/
def frameLength (inp : Bytes) : Int :=
  let b := inp.getD 1 0
  if b &&& 0x7f = 126 then value ((inp.drop 2).take 2)
  else if b &&& 0x7f = 127 then int64 (value ((inp.drop 2).take 8))
  else (b &&& 0x7f).toNat

/-- `limit` is `WSMaxFramePayloadBytes`. The results are the packet's length, zero for
a partial one and negative for a bad one, and the length to wait for. -/
def parseFrame (limit : Int) (inp : Bytes) : Int × Int :=
  if inp.length < WSHeaderMinSize then (0, WSHeaderMinSize)
  else
    let headerSize := calcHeaderSize (inp.getD 1 0)
    if inp.length < headerSize then (0, headerSize)
    else
      let length := frameLength inp
      if inp.getD 1 0 &&& 0x7f = 127 ∧ length < 0 then (-1, -1)
      else if limit > 0 ∧ length > limit then (-1, -1)
      else
        let total := int64 (length + headerSize)
        if total > inp.length then (0, total) else (total, total)

/-- The sizes of the whole frame and of its header. -/
def calcPktSize (h : Header) : Int × Int :=
  let size : Int := if h.masked then 6 else 2
  let size :=
    if h.length > 125 ∧ h.length ≤ 65535 then size + 2
    else if h.length > 65535 then size + 8
    else size
  (int64 (size + h.length), size)

def firstByte (h : Header) : UInt8 :=
  let b0 := h.opCode &&& 0x0f
  let b0 := if h.fin then b0 ||| 0x80 else b0
  b0 ||| ((h.rsv &&& 0x7) <<< 4)

def writeHeader (h : Header) (hsize : Nat) (buf : Bytes) : Bytes :=
  let buf := overwrite buf 0 [firstByte h]
  let buf :=
    if h.length ≤ 125 then overwrite buf 1 [UInt8.ofInt h.length]
    else if h.length ≤ 65535 then
      overwrite (overwrite buf 1 [126]) 2 (encode 2 h.length.toNat)
    else overwrite (overwrite buf 1 [127]) 2 (encode 8 h.length.toNat)
  if h.masked then
    overwrite (overwrite buf 1 [buf.getD 1 0 ||| 0x80]) (hsize - 4) h.mask.toList
  else buf

/-- Empty where the source returns nil. -/
def buildFrame (h : Header) (pl : Bytes) : Bytes :=
  let (size, hsize) := calcPktSize h
  if size ≤ 0 ∨ hsize ≤ 0 then []
  else if size > 2 ^ 63 - 1 then []
  else
    let buf := writeHeader h hsize.toNat (List.replicate size.toNat 0)
    overwrite buf hsize.toNat (pl.take (size - hsize).toNat)

/-- The `Mask` of a header that none is given to. -/
abbrev noMask : FixedBytes 4 := #v[0, 0, 0, 0]

def BuildWsPkt (pl : Bytes) (code : UInt8) : Bytes :=
  let h : Header := ⟨true, 0, code, false, noMask, pl.length⟩
  let (size, hsize) := calcPktSize h
  let buf := writeHeader h hsize.toNat (List.replicate size.toNat 0)
  overwrite buf hsize.toNat (pl.take (size - hsize).toNat)

/-- Positions of the masking key before `cipher` works in words of eight bytes. -/
def remain : Vector Nat 4 := #v[0, 3, 2, 1]

/-- The byte of a repeating masking key at a position. -/
def maskByte (mask : FixedBytes 4) (i : Nat) : UInt8 :=
  mask[i % 4]

/-- The bytes at both ends go one by one, those in between as words that repeat the
key twice. -/
def cipher (payload : Bytes) (mask : FixedBytes 4) (offset : Nat) : Bytes :=
  let n := payload.length
  if n < 8 then payload.mapIdx fun i b => b ^^^ maskByte mask (offset + i)
  else
    let mpos := offset % 4
    let ln := remain[mpos]
    let rn := (n - ln) % 8
    payload.mapIdx fun i b =>
      if i < ln ∨ n - rn ≤ i then b ^^^ maskByte mask (mpos + i)
      else b ^^^ maskByte mask ((i - ln) % 8)

/-- The masking key that ends a header. -/
def maskKey (inp : Bytes) (headerSize : Nat) : FixedBytes 4 :=
  #v[inp.getD (headerSize - 4) 0, inp.getD (headerSize - 3) 0, inp.getD (headerSize - 2) 0,
    inp.getD (headerSize - 1) 0]

/-- The header fields where a receiver finds them. Without the mask bit there is no key. -/
def readHeader (inp : Bytes) : Header :=
  let b0 := inp.getD 0 0
  let b1 := inp.getD 1 0
  { fin := b0 &&& 0x80 ≠ 0
    rsv := (b0 &&& 0x70) >>> 4
    opCode := b0 &&& 0x0f
    masked := b1 &&& 0x80 ≠ 0
    mask := if b1 &&& 0x80 ≠ 0 then maskKey inp (calcHeaderSize b1) else noMask
    length := frameLength inp }

end Connaxis.WebSocket
