import Connaxis.Lib.MachineInt
import Connaxis.WebSocket.HandshakeRules

namespace Connaxis.Evhandler

open WebSocket Lines List MachineInt

/-- `http.Header` as the fields of a request in the order they were added. -/
abbrev HttpHeader := List (Bytes × Bytes)

/-- The first value of a name, or nothing. -/
def HttpHeader.get (header : HttpHeader) (name : Bytes) : Bytes :=
  ((header.find? fun field => Similar field.1 name).map Prod.snd).getD []

/-- The header list of a request. -/
def fieldsOf (inp : Bytes) : HttpHeader :=
  (headerLines inp).map fun line => (headerName line, headerValue line)

def upperASCII (c : UInt8) : UInt8 := if 97 ≤ c ∧ c ≤ 122 then c - 32 else c

/-- The encodings of the characters that fold to an ASCII character. Outside ASCII there are only
the long s and the Kelvin sign. -/
def foldForms (c : UInt8) : List Bytes :=
  [[lowerASCII c], [upperASCII (lowerASCII c)]] ++
    if lowerASCII c = 115 then [[0xc5, 0xbf]]
    else if lowerASCII c = 107 then [[0xe2, 0x84, 0xaa]]
    else []

/-- `strings.EqualFold` with an ASCII text `t`. -/
def equalFold (s t : Bytes) : Bool :=
  match t with
  | [] => s = []
  | c :: t => (foldForms c).any fun form => form.isPrefixOf s && equalFold (s.drop form.length) t
termination_by structural t

/-- No character outside ASCII has a letter of "upgrade" as its lower case, so lowering bytes
finds what `strings.ToLower` finds. -/
def isWebSocketUpgrade (header : HttpHeader) : Bool :=
  let conn := (header.get (stringToBytes "Connection")).map lowerASCII
  if ¬ stringToBytes "upgrade" <:+: conn then false
  else if !equalFold (header.get (stringToBytes "Upgrade")) (stringToBytes "websocket") then false
  else if header.get (stringToBytes "Sec-WebSocket-Key") = [] then false
  else if header.get (stringToBytes "Sec-WebSocket-Version") ≠ stringToBytes "13" then false
  else true

/-- The markers that `ParsePacket` leaves in the context of a connection. -/
inductive Unsupported
  | chunked
  | expect
  | hdrLarge
  | bodyLarge
deriving DecidableEq, Repr

def Unsupported.code : Unsupported → Nat
  | .chunked => 501
  | .expect => 417
  | .hdrLarge => 431
  | .bodyLarge => 413

/-- The package variables of the limits; nothing is limited where they are not positive. -/
structure Limits where
  MaxHeaderBytes : Int
  MaxBodyBytes : Int
deriving DecidableEq, Repr

def defaultLimits : Limits := ⟨64 * 1024, 8 * 1024 * 1024⟩

/-- What a call of `ParsePacket` returns, and what it sets as the context. -/
structure Parsed (γ : Type) where
  length : Int
  expect : Int
  context : Option γ
deriving DecidableEq, Repr

/-- `bytes.Index`. -/
def index (sep : Bytes) : Bytes → Option Nat
  | [] => if sep = [] then some 0 else none
  | c :: rest => if sep <+: c :: rest then some 0 else (index sep rest).map (· + 1)

/-- The length of a header that is too large. -/
def headerTooLarge (lim : Limits) (inp : Bytes) : Option Nat :=
  if lim.MaxHeaderBytes ≤ 0 then none
  else match index crlfcrlf inp with
    | some idx => if (idx + 4 : Nat) > lim.MaxHeaderBytes then some (idx + 4) else none
    | none => if inp.length > lim.MaxHeaderBytes then some inp.length else none

/-- What `wildcat.HTTPParser` tells of a request. -/
structure HttpParser where
  host : Bytes
  path : Bytes
  headers : HttpHeader
  findAllHeaders : Bytes → List Bytes
  contentLength : Int

inductive ParseErr
  | missingData
  | other

/-- Blanks and case are handled as in the handshake. -/
def headerHasToken (values : List Bytes) (token : Bytes) : Bool :=
  values.any fun v => v ≠ [] && (v.splitOn 44).any fun part => equalFoldASCII (trim part) token

def headerHasExact (values : List Bytes) (token : Bytes) : Bool :=
  values.any fun v => equalFoldASCII (trim v) token

def unsupportedHeaderMarker (hp : HttpParser) : Option Unsupported :=
  if headerHasToken (hp.findAllHeaders (stringToBytes "Transfer-Encoding"))
      (stringToBytes "chunked") then some .chunked
  else if headerHasExact (hp.findAllHeaders (stringToBytes "Expect"))
      (stringToBytes "100-continue") then some .expect
  else none

inductive HttpContext
  | unsupported (marker : Unsupported)
  | parser (hp : HttpParser)

/-- What becomes of a request; an error is answered before the connection is closed. -/
inductive Served
  | answered (code : Nat)
  | http
  | upgraded (length : Nat)
  | closed
deriving DecidableEq, Repr

/-- The client that `OnData` hands to the handshake. -/
def freshClient : HandshakeClient := ⟨false, false, false, none⟩

/-- The third-party code that the handler calls, and which of its own handlers are set. -/
structure HttpEnv where
  size : Size
  limits : Limits
  /-- What is parsed and the length of the header. -/
  parse : Bytes → Except ParseErr (HttpParser × Nat)
  urlParse : Bytes → Bool
  ws : Bool
  dispatch : Bool

namespace HttpEnv

variable (e : HttpEnv)

def bodyTooLarge (hp : HttpParser) : Bool :=
  e.limits.MaxBodyBytes > 0 && e.size.wrap hp.contentLength > e.limits.MaxBodyBytes

def pkglen (hp : HttpParser) (hl : Nat) : Int :=
  let cl := e.size.wrap hp.contentLength
  if cl > 0 then e.size.wrap (hl + cl) else hl

def parsePacket (data : Bytes) : Parsed HttpContext :=
  match headerTooLarge e.limits data with
  | some headerLen => ⟨headerLen, headerLen, some (.unsupported .hdrLarge)⟩
  | none =>
    match e.parse data with
    | .error .missingData => ⟨0, data.length + 1, none⟩
    | .error .other => ⟨-1, -1, none⟩
    | .ok (hp, hl) =>
      match unsupportedHeaderMarker hp with
      | some marker => ⟨hl, hl, some (.unsupported marker)⟩
      | none =>
        if e.bodyTooLarge hp then ⟨hl, hl, some (.unsupported .bodyLarge)⟩
        else if data.length ≥ e.pkglen hp hl then
          ⟨e.pkglen hp hl, e.pkglen hp hl, some (.parser hp)⟩
        else ⟨0, e.pkglen hp hl, none⟩

/-- Of the request only the header is looked at. -/
def buildRequest (hp : HttpParser) : Option HttpHeader :=
  if e.urlParse (stringToBytes "http://" ++ hp.host ++ hp.path) then some hp.headers else none

/-- The end of `OnData`, for a request that was built. -/
def serveRequest (header : HttpHeader) (inp : Bytes) : Served :=
  if isWebSocketUpgrade header then
    if !e.ws then .closed
    else
      let length := (parseHandshake freshClient inp).n
      if length ≤ 0 ∨ length > inp.length then .closed else .upgraded length.toNat
  else if !e.dispatch then .closed else .http

/-- `ConnaxisHttpWsHandler.OnData`. -/
def onData (context : Option HttpContext) (inp : Bytes) : Served :=
  match context with
  | some (.unsupported marker) => .answered marker.code
  | some (.parser hp) =>
    match e.buildRequest hp with
    | none => .closed
    | some header => e.serveRequest header inp
  | none => .closed

end HttpEnv

section Fields

variable {inp : Bytes}

theorem get_congr (header : HttpHeader) {name name' : Bytes} (similar : Similar name name') :
    header.get name = header.get name' := by
  have same (field : Bytes × Bytes) : Similar field.1 name ↔ Similar field.1 name' :=
    ⟨fun here => here.trans similar, fun here => here.trans similar.symm⟩
  simp only [HttpHeader.get, same]

/-- A field is got from the first line of its name. -/
theorem get_eq (name : Bytes) :
    (fieldsOf inp).get name =
      (((headerLines inp).find? (Named name ·)).map headerValue).getD [] := by
  rw [HttpHeader.get, fieldsOf, find?_map, Option.map_map]
  rfl

theorem first_named {name first : Bytes} {lines : List Bytes}
    (found : lines.find? (Named name ·) = some first) : Named name first := by
  have holds := find?_some found
  exact of_decide_eq_true holds

theorem get_required {name : Bytes} {ok : Bytes → Prop}
    (required : Required name ok (headerLines inp)) : ok ((fieldsOf inp).get name) := by
  obtain ⟨⟨line, member, named⟩, each⟩ := required
  rw [get_eq]
  cases found : (headerLines inp).find? (Named name ·) with
  | none => exact absurd (decide_eq_true named) (find?_eq_none.mp found line member)
  | some first =>
    exact each first (mem_of_find?_eq_some found) (first_named found)

/-- A field that is not empty is there. -/
theorem exists_of_get {name : Bytes} (filled : (fieldsOf inp).get name ≠ []) :
    ∃ line ∈ headerLines inp, Named name line := by
  rw [get_eq] at filled
  cases found : (headerLines inp).find? (Named name ·) with
  | none => rw [found] at filled; exact absurd rfl filled
  | some first =>
    exact ⟨first, mem_of_find?_eq_some found, first_named found⟩

end Fields

theorem fold_byte : ∀ b : UInt8, b = lowerASCII b ∨ b = upperASCII (lowerASCII b) := by
  decide +kernel

/-- Equal up to the case of ASCII letters is a special case. -/
theorem equalFold_of_similar {s t : Bytes} (similar : Similar s t) : equalFold s t = true := by
  induction t generalizing s with
  | nil =>
    have void : s = [] := map_eq_nil_iff.mp similar
    rw [void]
    rfl
  | cons c t ih =>
    cases s with
    | nil => cases similar
    | cons b s =>
      obtain ⟨first, rest⟩ := cons.inj similar
      have form : [b] ∈ foldForms c := by
        apply mem_append_left
        rw [← first]
        rcases fold_byte b with lower | upper
        · rw [← lower]
          exact mem_cons_self
        rw [← upper]
        exact mem_cons_of_mem _ mem_cons_self
      rw [equalFold, any_eq_true]
      refine ⟨[b], form, ?_⟩
      rw [Bool.and_eq_true]
      exact ⟨by simp, ih rest⟩

theorem strip_inside (text : Bytes) : strip text <:+: text :=
  ( rdropWhile_prefix _ _).isInfix.trans (dropWhile_suffix _).isInfix

/-- A token of a list stands in its text. -/
theorem hasToken_inside {token headerVal : Bytes} (found : HasToken token headerVal) :
    token.map lowerASCII <:+: headerVal.map lowerASCII := by
  induction length : headerVal.length using Nat.strong_induction_on generalizing headerVal with
  | _ n ih =>
    have inside {seg : Bytes} (similar : Similar (strip seg) token) :
        token.map lowerASCII <:+: seg.map lowerASCII := by
      rw [← similar]
      exact (strip_inside seg).map lowerASCII
    by_cases comma : 44 ∈ headerVal
    · obtain ⟨seg, rest, rfl, plain⟩ := exists_cut comma
      rw [length_append, length_cons] at length
      rw [map_append, map_cons]
      rcases (hasToken_cut plain rest token).mp found with here | later
      · exact (inside here).trans (prefix_append _ _).isInfix
      have behind := ih rest.length (by omega) later rfl
      exact behind.trans ((suffix_cons _ _).trans (suffix_append _ _)).isInfix
    · exact inside ((hasToken_single comma token).mp found)

/-- The router's test, check by check. -/
theorem isWebSocketUpgrade_iff (header : HttpHeader) :
    isWebSocketUpgrade header = true ↔
      stringToBytes "upgrade" <:+: (header.get headerConnection).map lowerASCII ∧
      equalFold (header.get headerUpgrade) (stringToBytes "websocket") = true ∧
      header.get headerSecKey ≠ [] ∧ header.get headerSecVersion = stringToBytes "13" := by
  have connection : header.get (stringToBytes "Connection") = header.get headerConnection := rfl
  have upgrade : header.get (stringToBytes "Upgrade") = header.get headerUpgrade := rfl
  have secKey : header.get (stringToBytes "Sec-WebSocket-Key") = header.get headerSecKey :=
    get_congr header (by decide)
  have version : header.get (stringToBytes "Sec-WebSocket-Version") =
      header.get headerSecVersion := get_congr header (by decide)
  unfold isWebSocketUpgrade
  rw [connection, upgrade, secKey, version]
  simp

/-- Every handshake that passes the rules passes the router. -/
theorem isWebSocketUpgrade_of_acceptable {inp : Bytes} (ok : Acceptable (headerLines inp)) :
    isWebSocketUpgrade (fieldsOf inp) = true := by
  rw [isWebSocketUpgrade_iff]
  refine ⟨hasToken_inside (get_required ok.connection),
    equalFold_of_similar (get_required ok.upgrade), ?_, get_required ok.version⟩
  have length := get_required ok.secKey
  intro void
  rw [void] at length
  exact absurd length (by decide)

/-- What the handshake asks for and the router does not look at. -/
structure SoundUpgrade (inp : Bytes) : Prop where
  request : ∃ req, parseRequestLine (requestLine inp) false = some req
  host : ∃ line ∈ headerLines inp, Named headerHost line
  upgrade : ∀ line ∈ headerLines inp, Named headerUpgrade line →
    Similar (headerValue line) specHeaderValueWsLower
  connection : ∀ line ∈ headerLines inp, Named headerConnection line →
    HasToken specHeaderValueUpgradeLower (headerValue line)
  version : ∀ line ∈ headerLines inp, Named headerSecVersion line →
    headerValue line = specHeaderValueSecVersion
  secKey : ∀ line ∈ headerLines inp, Named headerSecKey line → (headerValue line).length = 24

theorem acceptable_of_upgrade {inp : Bytes} (colon : ∀ line ∈ headerLines inp, 58 ∈ line)
    (upgrade : isWebSocketUpgrade (fieldsOf inp) = true) (sound : SoundUpgrade inp) :
    Acceptable (headerLines inp) := by
  obtain ⟨connection, websocket, secKey, version⟩ := (isWebSocketUpgrade_iff _).mp upgrade
  refine ⟨colon, ⟨sound.host, fun _ _ _ => trivial⟩, ⟨exists_of_get ?_, sound.upgrade⟩,
    ⟨exists_of_get ?_, sound.connection⟩, ⟨exists_of_get ?_, sound.version⟩,
    ⟨exists_of_get secKey, sound.secKey⟩⟩
  · intro void
    rw [void] at websocket
    exact absurd websocket (by decide)
  · intro void
    rw [void] at connection
    exact absurd connection (by decide)
  intro void
  rw [void] at version
  exact absurd version (by decide)

theorem sound_of_acceptable {inp : Bytes} {req : HttpRequestLine}
    (request : parseRequestLine (requestLine inp) false = some req)
    (ok : Acceptable (headerLines inp)) : SoundUpgrade inp :=
  ⟨⟨req, request⟩, ok.host.1, ok.upgrade.2, ok.connection.2, ok.version.2, ok.secKey.2⟩

/-- The handshake accepts exactly the rules, on any complete request. -/
theorem accepts_iff {inp : Bytes} (complete : crlfcrlf <:+: inp) :
    0 < (parseHandshake freshClient inp).n ↔
      (∃ req, parseRequestLine (requestLine inp) false = some req) ∧
        Acceptable (headerLines inp) := by
  have strict : freshClient.AllowPlainHTTP = false := rfl
  cases request : parseRequestLine (requestLine inp) false with
  | none =>
    have refused : (parseHandshake freshClient inp).n = -1 := by
      obtain ⟨line, rest, rfl, plain, -⟩ := complete_cut complete
      rw [requestLine_cut plain] at request
      rw [parseHandshake_cut freshClient plain complete]
      rw [strict, request]
    rw [refused]
    simp
  | some req =>
    obtain ⟨accepts, refuses⟩ := parseHandshake_strict strict complete request
    constructor
    · intro positive
      refine ⟨⟨req, rfl⟩, ?_⟩
      by_contra other
      rw [(refuses other).1] at positive
      exact absurd positive (by decide)
    rintro ⟨-, ok⟩
    obtain ⟨size, positive, n, -, -⟩ := accepts ok
    omega

theorem handshake_within {inp : Bytes} (complete : crlfcrlf <:+: inp)
    (positive : 0 < (parseHandshake freshClient inp).n) :
    (parseHandshake freshClient inp).n ≤ inp.length := by
  rcases parseHandshake_complete freshClient complete with refused | ⟨n, ends, _, first⟩
  · omega
  have inside := first.blank.le_length
  omega

namespace HttpEnv

variable {e : HttpEnv} {data : Bytes} {hp : HttpParser} {hl : Nat}

/-- The request is too large, or it asks for what is not supported. -/
def Refuses (e : HttpEnv) (data : Bytes) (hp : HttpParser) : Prop :=
  headerTooLarge e.limits data ≠ none ∨ unsupportedHeaderMarker hp ≠ none ∨
    e.bodyTooLarge hp = true

theorem context_cases (parsed : e.parse data = .ok (hp, hl))
    (framed : 0 < (e.parsePacket data).length) :
    (e.Refuses data hp ∧ ∃ marker, (e.parsePacket data).context = some (.unsupported marker)) ∨
      (¬ e.Refuses data hp ∧ (e.parsePacket data).context = some (.parser hp)) := by
  unfold Refuses
  unfold parsePacket at framed ⊢
  cases large : headerTooLarge e.limits data with
  | some headerLen => exact .inl ⟨.inl nofun, _, rfl⟩
  | none =>
    rw [large, parsed] at framed
    rw [parsed]
    dsimp only at framed ⊢
    cases marked : unsupportedHeaderMarker hp with
    | some marker => exact .inl ⟨.inr (.inl nofun), marker, rfl⟩
    | none =>
      rw [marked] at framed
      dsimp only at framed ⊢
      cases body : e.bodyTooLarge hp with
      | true => exact .inl ⟨.inr (.inr rfl), _, rfl⟩
      | false =>
        refine .inr ⟨by simp, ?_⟩
        rw [body, if_neg nofun] at framed
        rw [if_neg nofun]
        split at framed
        · rw [if_pos (by assumption)]
        cases framed

end HttpEnv

/-- The key is too short: the router sends it on and the handshake refuses it. -/
def shortKey : Bytes :=
  requestOf ["GET / HTTP/1.1", "Host: a", "Upgrade: websocket", "Connection: Upgrade",
    "Sec-WebSocket-Version: 13", "Sec-WebSocket-Key: abc"]

def parserOf (data : Bytes) : HttpParser where
  host := (fieldsOf data).get headerHost
  path := ((requestLine data).splitOn 32).getD 1 []
  headers := fieldsOf data
  findAllHeaders name := ((fieldsOf data).filter fun field => Similar field.1 name).map Prod.snd
  contentLength := 0

/-- Requests without a body. -/
def bodiless : HttpEnv where
  size := .bits64
  limits := defaultLimits
  parse data := (index crlfcrlf data).elim (.error .missingData) fun idx =>
    .ok (parserOf data, idx + 4)
  urlParse url := ¬ stringToBytes "%zz" <:+: url
  ws := true
  dispatch := true

end Connaxis.Evhandler
