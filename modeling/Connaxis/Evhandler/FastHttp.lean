import Connaxis.Evhandler.UpgradeCheck

namespace Connaxis.Evhandler.FastHttp

open WebSocket MachineInt

def fastHeaderContentLength : Bytes := stringToBytes "Content-Length:"
def fastHeaderTransferEncoding : Bytes := stringToBytes "Transfer-Encoding:"
def fastHeaderExpect : Bytes := stringToBytes "Expect:"
def fastHeaderChunked : Bytes := stringToBytes "chunked"
def fastTokenContinue : Bytes := stringToBytes "100-continue"

/-- `bytes.ToLower`, as far as ASCII text in the result is concerned: besides the ASCII letters
only the Kelvin sign and the dotted capital I have an ASCII character as their lower case. -/
def toLower : Bytes → Bytes
  | c :: d :: e :: rest =>
    if c = 0xe2 ∧ d = 0x84 ∧ e = 0xaa then 107 :: toLower rest
    else if c = 0xc4 ∧ d = 0xb0 then 105 :: toLower (e :: rest)
    else lowerASCII c :: toLower (d :: e :: rest)
  | [c, d] => if c = 0xc4 ∧ d = 0xb0 then [105] else [lowerASCII c, lowerASCII d]
  | [c] => [lowerASCII c]
  | [] => []

/-- The loop over the digits of a value. -/
def digitLoop (size : Size) (n : Int) : Bytes → Int
  | [] => n
  | ch :: rest =>
    if ch < 48 ∨ ch > 57 then n
    else digitLoop size (size.wrap (size.wrap (n * 10) + (ch - 48).toNat)) rest

def parseContentLengthValue (size : Size) (line : Bytes) : Option Int :=
  match indexByte line 58 with
  | none => none
  | some pos =>
    let value := (line.drop (pos + 1)).dropWhile isBlank
    if value = [] then none else some (digitLoop size 0 value)

/-- The line starts with a header's name and colon. -/
def startsWith (line header : Bytes) : Bool :=
  line.length ≥ header.length && equalFold (line.take header.length) header

/-- The variables of the loop over the lines. -/
structure Scan where
  cl : Int
  hasCL : Bool
  chunked : Bool
  expectContinue : Bool
deriving DecidableEq, Repr

/-- The blocks of the loop that look for a chunked body and for a wish to be asked. -/
def scanTransferEncoding (scan : Scan) (line : Bytes) : Scan :=
  if startsWith line fastHeaderTransferEncoding then
    if fastHeaderChunked <:+: toLower line then { scan with chunked := true } else scan
  else scan

def scanExpect (scan : Scan) (line : Bytes) : Scan :=
  if startsWith line fastHeaderExpect then
    if fastTokenContinue <:+: toLower line then { scan with expectContinue := true } else scan
  else scan

/-- A round of the loop; `none` where the function gives up. -/
def scanLine (size : Size) (scan : Scan) (line : Bytes) : Option Scan :=
  if startsWith line fastHeaderContentLength then
    match parseContentLengthValue size line with
    | some v =>
      some (scanExpect (scanTransferEncoding { scan with cl := v, hasCL := true } line) line)
    | none => none
  else some (scanExpect (scanTransferEncoding scan line) line)

/-- Every round takes at least a line feed off the header. -/
def scanLoop (size : Size) : Nat → Scan → Bytes → Option Scan
  | 0, scan, _ => some scan
  | rounds + 1, scan, header =>
    match indexByte header 10 with
    | none => some scan
    | some stop =>
      let line := header.take stop
      if line = [] ∨ line = [13] then some scan
      else match scanLine size scan (chomp line) with
        | none => none
        | some scan => scanLoop size rounds scan (header.drop (stop + 1))

/-- The declared length and whether a chunked body or an interim answer is asked for. -/
def parseContentLength (size : Size) (header : Bytes) : Option (Int × Bool × Bool) :=
  (scanLoop size header.length ⟨0, false, false, false⟩ header).map fun scan =>
    if !scan.hasCL then (0, scan.chunked, scan.expectContinue)
    else (scan.cl, scan.chunked, scan.expectContinue)

def parsePacket (size : Size) (lim : Limits) (data : Bytes) : Parsed Unsupported :=
  if 0 < lim.MaxHeaderBytes ∧ index crlfcrlf data = none ∧ lim.MaxHeaderBytes < data.length then
    ⟨data.length, data.length, some .hdrLarge⟩
  else match index crlfcrlf data with
    | none => ⟨0, -1, none⟩
    | some headerEnd =>
      let headerLen := headerEnd + 4
      if 0 < lim.MaxHeaderBytes ∧ lim.MaxHeaderBytes < headerLen then
        ⟨headerLen, headerLen, some .hdrLarge⟩
      else match parseContentLength size (data.take headerLen) with
        | none => ⟨-1, -1, none⟩
        | some (cl, chunked, expectContinue) =>
          if chunked then ⟨headerLen, headerLen, some .chunked⟩
          else if expectContinue then ⟨headerLen, headerLen, some .expect⟩
          else
            let total := size.wrap (headerLen + cl)
            if 0 < lim.MaxBodyBytes ∧ lim.MaxBodyBytes < cl then
              ⟨headerLen, headerLen, some .bodyLarge⟩
            else if total ≤ data.length then ⟨total, total, none⟩
            else ⟨0, total, none⟩

end Connaxis.Evhandler.FastHttp
