import Connaxis.Pool
import Mathlib.Data.List.Infix

namespace Connaxis.WebSocket

/-- The strings of the protocol are ASCII. -/
def stringToBytes (str : String) : Bytes := str.toList.map fun c => UInt8.ofNat c.toNat

def indexByte (inp : Bytes) (c : UInt8) : Option Nat := inp.idxOf? c

def httpGet : Bytes := stringToBytes "GET"
def headerHost : Bytes := stringToBytes "Host"
def headerUpgrade : Bytes := stringToBytes "Upgrade"
def headerConnection : Bytes := stringToBytes "Connection"
def headerSecVersion : Bytes := stringToBytes "Sec-Websocket-Version"
def headerSecKey : Bytes := stringToBytes "Sec-Websocket-Key"
def headerSecExtensions : Bytes := stringToBytes "Sec-Websocket-Extensions"

def headerSeenHost : Nat := 1
def headerSeenUpgrade : Nat := 2
def headerSeenConnection : Nat := 4
def headerSeenSecVersion : Nat := 8
def headerSeenSecKey : Nat := 16
def headerSeenAll : Nat :=
  headerSeenHost ||| headerSeenUpgrade ||| headerSeenConnection ||| headerSeenSecVersion |||
    headerSeenSecKey

def specHeaderValueWsLower : Bytes := stringToBytes "websocket"
def specHeaderValueUpgradeLower : Bytes := stringToBytes "upgrade"
def specHeaderValueSecVersion : Bytes := stringToBytes "13"

def extPermessageDeflateToken : Bytes := stringToBytes "permessage-deflate"
def extClientNoContextTakeover : Bytes := stringToBytes "client_no_context_takeover"
def extServerNoContextTakeover : Bytes := stringToBytes "server_no_context_takeover"
def extClientMaxWindowBits : Bytes := stringToBytes "client_max_window_bits"
def extServerMaxWindowBits : Bytes := stringToBytes "server_max_window_bits"

structure HttpRequestLine where
  method : Bytes
  uri : Bytes
  major : Nat
  minor : Nat
deriving DecidableEq, Repr

/-- The fields of `WsClient` that the handshake uses. -/
structure HandshakeClient where
  AllowPlainHTTP : Bool
  PlainHTTP : Bool
  perMessageDeflate : Bool
  nonce : Option Bytes
deriving DecidableEq, Repr

/-- A line without its end, and where the line feed stands. -/
def getLine (inp : Bytes) : Option (Bytes × Nat) :=
  match indexByte inp 10 with
  | none => none
  | some pos =>
    if pos > 0 ∧ inp.getD (pos - 1) 0 = 13 then some (inp.take (pos - 1), pos)
    else some (inp.take pos, pos)

def isDigit (c : UInt8) : Bool := 48 ≤ c && c ≤ 57

def parseRequestLine (inp : Bytes) (allowHTTP10 : Bool) : Option HttpRequestLine := do
  let pos1 ← indexByte inp 32
  if pos1 = 0 ∨ pos1 + 1 ≥ inp.length then none
  let pos2 ← indexByte (inp.drop (pos1 + 1)) 32
  if pos2 = 0 then none
  let method := inp.take pos1
  let uri := (inp.take (pos2 + pos1 + 1)).drop (pos1 + 1)
  let proto := inp.drop (pos1 + pos2 + 2)
  if proto.length < 8 then none
  let pos ← indexByte proto 46
  if pos = 0 ∨ pos + 1 ≥ proto.length then none
  if !isDigit (proto.getD (pos - 1) 0) ∨ !isDigit (proto.getD (pos + 1) 0) then none
  let major := (proto.getD (pos - 1) 0 - 48).toNat
  let minor := (proto.getD (pos + 1) 0 - 48).toNat
  if major ≠ 1 then none
  if !allowHTTP10 ∧ minor < 1 then none
  if method ≠ httpGet then none
  some ⟨method, uri, major, minor⟩

def isBlank (c : UInt8) : Bool := c = 32 || c = 9

/-- The bounds between which `trim` cuts. -/
def trimFrom (inp : Bytes) : Nat := (inp.takeWhile isBlank).length

def trimTo (inp : Bytes) : Nat :=
  inp.length - ((inp.drop (trimFrom inp)).reverse.takeWhile isBlank).length

def trim (inp : Bytes) : Bytes := (inp.take (trimTo inp)).drop (trimFrom inp)

def canonicalizeLoop : Bool → Bytes → Bytes
  | _, [] => []
  | upper, c :: rest =>
    (if upper ∧ 97 ≤ c ∧ c ≤ 122 then c - 32
      else if !upper ∧ 65 ≤ c ∧ c ≤ 90 then c + 32
      else c) :: canonicalizeLoop (c = 45) rest

def canonicalizeBytes (k : Bytes) : Bytes := canonicalizeLoop true k

/-- The name and the value of a header, and the line with the name rewritten in place. -/
def parseHeaderLine (inp : Bytes) : Option (Bytes × Bytes) × Bytes :=
  match indexByte inp 58 with
  | none => (none, inp)
  | some pos =>
    let front := inp.take pos
    let k := canonicalizeBytes (trim front)
    (some (k, trim (inp.drop (pos + 1))),
      front.take (trimFrom front) ++ k ++ front.drop (trimTo front) ++ inp.drop pos)

def lowerASCII (c : UInt8) : UInt8 := if 65 ≤ c ∧ c ≤ 90 then c + 32 else c

def equalFoldASCII (a b : Bytes) : Bool :=
  a.length = b.length && (a.zip b).all fun (ac, bc) => lowerASCII ac = lowerASCII bc

/-- The part of a list up to the first comma, and what is left behind it. -/
def cutComma (headerVal : Bytes) : Bytes × Bytes :=
  match indexByte headerVal 44 with
  | some idx => (headerVal.take idx, headerVal.drop (idx + 1))
  | none => (headerVal, [])

/-- Every round takes at least one byte off the list. -/
def tokenLoop (token : Bytes) : Nat → Bytes → Bool
  | 0, _ => false
  | rounds + 1, headerVal =>
    if headerVal.length > 0 then
      let (seg, headerVal) := cutComma headerVal
      let seg := trim seg
      if seg.length = 0 then tokenLoop token rounds headerVal
      else if equalFoldASCII seg token then true
      else tokenLoop token rounds headerVal
    else false

def containsTokenFoldASCII (headerVal token : Bytes) : Bool :=
  tokenLoop token headerVal.length headerVal

def windowBitsLoop : Bytes → Nat → Bool
  | [], value => value ≥ 8 && value ≤ 15
  | ch :: rest, value =>
    if !isDigit ch then false
    else
      let value := value * 10 + (ch - 48).toNat
      if value > 15 then false else windowBitsLoop rest value

def validPMDWindowBits (inp : Bytes) : Bool :=
  if inp.length = 0 then false else windowBitsLoop inp 0

def unquote (value : Bytes) : Bytes :=
  if value.length ≥ 2 ∧ value.getD 0 0 = 34 ∧ value.getD (value.length - 1) 0 = 34 then
    (value.take (value.length - 1)).drop 1
  else value

/-- The name of a parameter, its value, and whether it has one. -/
def splitParam (param : Bytes) : Bytes × Bytes × Bool :=
  match indexByte param 61 with
  | some idx => (trim (param.take idx), unquote (trim (param.drop (idx + 1))), true)
  | none => (param, [], false)

/-- The parameters of an offer: `none` if one of them is invalid, otherwise whether
`client_no_context_takeover` was among them. -/
def paramLoop : List Bytes → Bool → Option Bool
  | [], hasClientNoContextTakeover => some hasClientNoContextTakeover
  | raw :: rest, hasClientNoContextTakeover =>
    let param := trim raw
    if param.length = 0 then paramLoop rest hasClientNoContextTakeover
    else
      let (name, value, hasValue) := splitParam param
      if equalFoldASCII name extClientNoContextTakeover then
        if hasValue then none else paramLoop rest true
      else if equalFoldASCII name extServerNoContextTakeover then
        if hasValue then none else paramLoop rest hasClientNoContextTakeover
      else if equalFoldASCII name extClientMaxWindowBits then
        if hasValue && !validPMDWindowBits value then none
        else paramLoop rest hasClientNoContextTakeover
      else if equalFoldASCII name extServerMaxWindowBits then
        if !hasValue || !validPMDWindowBits value then none
        else paramLoop rest hasClientNoContextTakeover
      else none

def acceptOffer (offer : Bytes) : Bool :=
  match offer.splitOn 59 with
  | [] => false
  | name :: params =>
    equalFoldASCII (trim name) extPermessageDeflateToken && paramLoop params false = some true

def offerLoop : Nat → Bytes → Bool
  | 0, _ => false
  | rounds + 1, headerVal =>
    if headerVal.length > 0 then
      let (offer, headerVal) := cutComma headerVal
      let offer := trim offer
      if offer.length = 0 then offerLoop rounds headerVal
      else if acceptOffer offer then true
      else offerLoop rounds headerVal
    else false

def negotiatePermessageDeflate (headerVal : Bytes) : Bool := offerLoop headerVal.length headerVal

/-- The blocks of the loop over the headers, one a header; `none` where the handshake is
refused. -/
def seeHost (state : Nat) (key : Bytes) : Nat :=
  if key = headerHost then state ||| headerSeenHost else state

def seeUpgrade (state : Nat) (key val : Bytes) : Option Nat :=
  if key = headerUpgrade then
    if !equalFoldASCII val specHeaderValueWsLower then none
    else some (state ||| headerSeenUpgrade)
  else some state

def seeConnection (allowPlainHTTP : Bool) (state : Nat) (key val : Bytes) : Option Nat :=
  if key = headerConnection then
    if !containsTokenFoldASCII val specHeaderValueUpgradeLower && !allowPlainHTTP then none
    else if containsTokenFoldASCII val specHeaderValueUpgradeLower then
      some (state ||| headerSeenConnection)
    else some state
  else some state

def seeSecVersion (state : Nat) (key val : Bytes) : Option Nat :=
  if key = headerSecVersion then
    if val ≠ specHeaderValueSecVersion then none else some (state ||| headerSeenSecVersion)
  else some state

def seeSecKey (state : Nat) (cli : HandshakeClient) (key val : Bytes) :
    Option (Nat × HandshakeClient) :=
  if key = headerSecKey then
    if val.length ≠ 24 then none
    else some (state ||| headerSeenSecKey, { cli with nonce := some val })
  else some (state, cli)

def seeSecExtensions (cli : HandshakeClient) (key val : Bytes) : HandshakeClient :=
  if key = headerSecExtensions ∧ !cli.perMessageDeflate ∧ negotiatePermessageDeflate val then
    { cli with perMessageDeflate := true }
  else cli

def seeHeader (state : Nat) (cli : HandshakeClient) (key val : Bytes) :
    Option (Nat × HandshakeClient) :=
  (seeUpgrade (seeHost state key) key val).bind fun state =>
    (seeConnection cli.AllowPlainHTTP state key val).bind fun state =>
      (seeSecVersion state key val).bind fun state =>
        (seeSecKey state cli key val).map fun (state, cli) => (state, seeSecExtensions cli key val)

/-- Where the loop over the headers ends: with a result of `parseHandshake`, or with the
headers seen and the size up to there. `inp` is the input as the loop leaves it. -/
structure Headers where
  verdict : Except (Int × Int) (Nat × Nat)
  cli : HandshakeClient
  inp : Bytes
deriving Repr

/-- Every round takes at least a line feed off the input. -/
def headerLoop : Nat → Nat → Bytes → Nat → HandshakeClient → Headers
  | 0, _, inp, _, cli => ⟨.error (0, -1), cli, inp⟩
  | rounds + 1, size, inp, state, cli =>
    if inp.length = 0 then ⟨.ok (state, size), cli, inp⟩
    else match getLine inp with
      | none => ⟨.error (0, -1), cli, inp⟩
      | some (line, pos) =>
        let size := size + pos + 1
        if line.length = 0 then ⟨.ok (state, size), cli, inp⟩
        else match parseHeaderLine line with
          | (none, _) => ⟨.error (-1, -1), cli, inp⟩
          | (some (key, val), line') =>
            let seen := line' ++ (inp.take (pos + 1)).drop line.length
            match seeHeader state cli key val with
            | none => ⟨.error (-1, -1), cli, seen ++ inp.drop (pos + 1)⟩
            | some (state, cli) =>
              let rest := headerLoop rounds size (inp.drop (pos + 1)) state cli
              { rest with inp := seen ++ rest.inp }

/-- What a call of `parseHandshake` returns and leaves. -/
structure Handshake where
  n : Int
  expect : Int
  cli : HandshakeClient
  inp : Bytes
deriving DecidableEq, Repr

def crlfcrlf : Bytes := [13, 10, 13, 10]

/-- The checks after the last header. -/
def finishHandshake (req : HttpRequestLine) (state size : Nat) (cli : HandshakeClient)
    (inp : Bytes) : Handshake :=
  if state = headerSeenAll then
    if req.minor < 1 then ⟨-1, -1, cli, inp⟩ else ⟨size, size, cli, inp⟩
  else if cli.AllowPlainHTTP ∧
      state &&& (headerSeenUpgrade ||| headerSeenConnection ||| headerSeenSecVersion |||
        headerSeenSecKey) = 0 ∧
      (req.minor = 0 ∨ state &&& headerSeenHost ≠ 0) then
    ⟨size, size, { cli with PlainHTTP := true }, inp⟩
  else ⟨-1, -1, cli, inp⟩

def parseHandshake (cli : HandshakeClient) (inp : Bytes) : Handshake :=
  if ¬ crlfcrlf <:+: inp then ⟨0, inp.length + 1, cli, inp⟩
  else
    let cli := { cli with perMessageDeflate := false, PlainHTTP := false }
    match getLine inp with
    | none => ⟨0, inp.length + 1, cli, inp⟩
    | some (line, pos) =>
      match parseRequestLine line cli.AllowPlainHTTP with
      | none => ⟨-1, -1, cli, inp⟩
      | some req =>
        let rest := headerLoop (inp.length + 1) (pos + 1) (inp.drop (pos + 1)) 0 cli
        match rest.verdict with
        | .error (n, expect) => ⟨n, expect, rest.cli, inp.take (pos + 1) ++ rest.inp⟩
        | .ok (state, size) =>
          finishHandshake req state size rest.cli (inp.take (pos + 1) ++ rest.inp)

end Connaxis.WebSocket
