import Connaxis.WebSocket.Handshake

namespace Connaxis.Evhandler

open List
open WebSocket (stringToBytes)

inductive ConnMode
  | connModeUnknown
  | connModeHTTP
  | connModeWS
  | connModeTCP
deriving DecidableEq, Repr

def httpMethods : List Bytes :=
  ["GET", "POST", "PUT", "PATCH", "DELETE", "HEAD", "OPTIONS", "CONNECT", "TRACE"].map
    stringToBytes

/-- The inner loop of the two method checks. -/
def sameBytes (inp method : Bytes) : Bool := (inp.zip method).all fun (a, b) => a = b

def isHTTPMethodPrefix (inp : Bytes) : Bool :=
  if inp.length = 0 then true
  else httpMethods.any fun method =>
    if inp.length > method.length then false else sameBytes inp method

def isHTTPMethod (inp : Bytes) : Bool :=
  httpMethods.any fun method =>
    if inp.length ≠ method.length then false else sameBytes inp method

/-- How the scan for the blank behind the method ends. -/
inductive Scan
  | foreign
  | exhausted
  | found (methodEnd : Nat)
deriving DecidableEq, Repr

def scanMethod : Bytes → Nat → Scan
  | [], _ => .exhausted
  | ch :: rest, i =>
    if ch = 32 then .found i
    else if ch < 65 ∨ ch > 90 then .foreign
    else scanMethod rest (i + 1)

def sniffProtoByFirstLine (inp : Bytes) : ConnMode × Int :=
  if inp.length = 0 then (.connModeUnknown, 1)
  else
    let limit := if inp.length > 16 then 16 else inp.length
    match scanMethod (inp.take limit) 0 with
    | .foreign => (.connModeTCP, 0)
    | .exhausted =>
      if limit < inp.length then (.connModeTCP, 0)
      else if isHTTPMethodPrefix (inp.take limit) then (.connModeUnknown, inp.length + 1)
      else (.connModeTCP, 0)
    | .found methodEnd =>
      if isHTTPMethod (inp.take methodEnd) then (.connModeHTTP, 0) else (.connModeTCP, 0)

/-- The bytes start with a method and a blank. -/
def StartsHTTP (stream : Bytes) : Prop := ∃ method ∈ httpMethods, method ++ [32] <+: stream

variable {inp method : Bytes}

theorem sameBytes_iff (short : inp.length ≤ method.length) :
    sameBytes inp method = true ↔ inp <+: method := by
  induction inp generalizing method with
  | nil => simp [sameBytes]
  | cons a rest ih =>
    cases method with
    | nil => simp at short
    | cons b more =>
      have shorter : rest.length ≤ more.length := by simpa using short
      rw [cons_prefix_cons, ← ih shorter]
      simp [sameBytes]

theorem isHTTPMethodPrefix_iff (inp : Bytes) :
    isHTTPMethodPrefix inp = true ↔ ∃ method ∈ httpMethods, inp <+: method := by
  unfold isHTTPMethodPrefix
  split
  · rename_i empty
    rw [length_eq_zero_iff] at empty
    subst empty
    simp [httpMethods]
  rw [any_eq_true]
  refine exists_congr fun method => and_congr_right fun _ => ?_
  split
  · refine ⟨nofun, fun front => ?_⟩
    have := front.length_le
    omega
  · exact sameBytes_iff (by omega)

theorem isHTTPMethod_iff (inp : Bytes) : isHTTPMethod inp = true ↔ inp ∈ httpMethods := by
  unfold isHTTPMethod
  rw [any_eq_true]
  constructor
  · rintro ⟨method, listed, same⟩
    split at same
    · cases same
    have size : inp.length = method.length := by omega
    rw [sameBytes_iff (by omega)] at same
    rwa [same.eq_of_length size]
  intro listed
  refine ⟨inp, listed, ?_⟩
  rw [if_neg (by omega), sameBytes_iff (Nat.le_refl _)]

/-- The bytes of a method: capital letters. -/
def Capital (ch : UInt8) : Prop := 65 ≤ ch ∧ ch ≤ 90

instance (ch : UInt8) : Decidable (Capital ch) := inferInstanceAs (Decidable (_ ∧ _))

theorem httpMethods_capital : ∀ method ∈ httpMethods, ∀ ch ∈ method, Capital ch := by
  decide +kernel

theorem httpMethods_short : ∀ method ∈ httpMethods, method.length ≤ 7 := by decide

theorem Capital.scan {ch : UInt8} (capital : Capital ch) (rest : Bytes) (i : Nat) :
    scanMethod (ch :: rest) i = scanMethod rest (i + 1) := by
  have blank : ch ≠ 32 := by
    rintro rfl
    exact absurd capital.1 (by decide)
  have letter : ¬ (ch < 65 ∨ ch > 90) := by
    rintro (low | high)
    · exact absurd capital.1 (UInt8.not_le.mpr low)
    · exact absurd capital.2 (UInt8.not_le.mpr high)
  rw [scanMethod, if_neg blank, if_neg letter]

theorem scanMethod_capital {word : Bytes} (capital : ∀ ch ∈ word, Capital ch) (rest : Bytes)
    (i : Nat) : scanMethod (word ++ rest) i = scanMethod rest (i + word.length) := by
  induction word generalizing i with
  | nil => rfl
  | cons ch word ih =>
    have here := capital ch mem_cons_self
    rw [cons_append, here.scan,
      ih (fun c member => capital c (mem_cons_of_mem _ member)), length_cons]
    congr 1
    omega

theorem scanMethod_found {i methodEnd : Nat} (found : scanMethod inp i = .found methodEnd) :
    ∃ k, methodEnd = i + k ∧ inp.take (k + 1) = inp.take k ++ [32] := by
  induction inp generalizing i with
  | nil => cases found
  | cons ch rest ih =>
    unfold scanMethod at found
    split at found
    · rename_i blank
      cases found
      exact ⟨0, rfl, by rw [blank]; rfl⟩
    split at found
    · cases found
    obtain ⟨k, rfl, front⟩ := ih found
    exact ⟨k + 1, by omega, by rw [take_succ_cons, front, take_succ_cons]; rfl⟩

/-- The answer is `unknown` on what is part of a method. -/
theorem sniff_of_part (listed : method ∈ httpMethods) (part : inp <+: method) :
    sniffProtoByFirstLine inp = (ConnMode.connModeUnknown, (inp.length : Int) + 1) := by
  have capital : ∀ ch ∈ inp, Capital ch := fun ch member =>
    httpMethods_capital method listed ch (part.subset member)
  have short : inp.length ≤ 7 := Nat.le_trans part.length_le (httpMethods_short method listed)
  have scanned : scanMethod inp 0 = .exhausted := by
    have all := scanMethod_capital capital [] 0
    rwa [append_nil] at all
  unfold sniffProtoByFirstLine
  split
  · rename_i empty
    rw [empty]
    rfl
  dsimp only
  rw [if_neg (show ¬ inp.length > 16 by omega), take_length, scanned]
  rw [if_neg (Nat.lt_irrefl _), if_pos ((isHTTPMethodPrefix_iff inp).mpr ⟨method, listed, part⟩)]

/-- A method and a blank are recognised, whatever follows. -/
theorem sniff_of_starts (starts : StartsHTTP inp) :
    sniffProtoByFirstLine inp = (.connModeHTTP, 0) := by
  obtain ⟨method, listed, rest, rfl⟩ := starts
  have short := httpMethods_short method listed
  have capital := httpMethods_capital method listed
  have size : (method ++ [32] ++ rest).length = method.length + 1 + rest.length := by
    simp only [length_append, length_singleton]
  have scanned (limit : Nat) (large : method.length + 1 ≤ limit) :
      scanMethod ((method ++ [32] ++ rest).take limit) 0 = .found method.length := by
    rw [append_assoc, take_append, take_of_length_le (by omega), scanMethod_capital capital]
    obtain ⟨more, eq⟩ : ∃ more, limit - method.length = more + 1 := ⟨limit - method.length - 1,
      by omega⟩
    rw [eq, singleton_append, take_succ_cons, scanMethod, if_pos rfl, Nat.zero_add]
  unfold sniffProtoByFirstLine
  rw [if_neg (by omega)]
  dsimp only
  rw [scanned _ (by split <;> omega)]
  dsimp only
  rw [append_assoc, take_left, if_pos ((isHTTPMethod_iff method).mpr listed)]

theorem sniff_cases (inp : Bytes) :
    (∃ method ∈ httpMethods, inp <+: method) ∨ StartsHTTP inp ∨
      sniffProtoByFirstLine inp = (.connModeTCP, 0) := by
  unfold sniffProtoByFirstLine
  split
  · rename_i empty
    rw [length_eq_zero_iff] at empty
    subst empty
    exact .inl ⟨_, mem_cons_self, nil_prefix⟩
  dsimp only
  generalize limited : (if inp.length > 16 then 16 else inp.length) = limit
  cases scanned : scanMethod (inp.take limit) 0 with
  | foreign => exact .inr (.inr rfl)
  | exhausted =>
    dsimp only
    by_cases more : limit < inp.length
    · exact .inr (.inr (if_pos more))
    rw [if_neg more]
    by_cases part : isHTTPMethodPrefix (inp.take limit) = true
    · rw [take_of_length_le (by omega), isHTTPMethodPrefix_iff] at part
      exact .inl part
    · exact .inr (.inr (if_neg part))
  | found methodEnd =>
    dsimp only
    by_cases known : isHTTPMethod (inp.take methodEnd) = true
    · obtain ⟨k, ends, front⟩ := scanMethod_found scanned
      rw [isHTTPMethod_iff] at known
      rw [Nat.zero_add] at ends
      subst ends
      have inside : methodEnd < limit := by
        have size := congrArg length front
        simp only [length_append, length_take, length_singleton] at size
        omega
      rw [take_take, take_take, Nat.min_eq_left (by omega), Nat.min_eq_left (by omega)] at front
      refine .inr (.inl ⟨_, known, ?_⟩)
      rw [← front]
      exact take_prefix _ _
    · exact .inr (.inr (if_neg known))

/-- Part of a method followed by a foreign byte is no request line. -/
theorem not_starts_foreign {part : Bytes} (listed : method ∈ httpMethods)
    (front : part <+: method) (rest : Bytes) : ¬ StartsHTTP (part ++ 0 :: rest) := by
  rintro ⟨other, known, tail, whole⟩
  have capital := httpMethods_capital other known
  have apart : ∀ ch ∈ other ++ [32], ch ≠ 0 := by
    intro ch member
    rcases mem_append.mp member with inside | last
    · rintro rfl
      exact absurd (capital 0 inside).1 (by decide)
    rw [mem_singleton.mp last]
    decide
  have letters : (32 : UInt8) ∉ part := fun member =>
    absurd (httpMethods_capital method listed 32 (front.subset member)).1 (by decide)
  rcases append_eq_append_iff.mp whole with ⟨more, within, _⟩ | ⟨more, beyond, left⟩
  · refine letters ?_
    rw [within]
    exact mem_append_left _ (mem_append_right _ mem_cons_self)
  cases more with
  | nil =>
    rw [append_nil] at beyond
    refine letters ?_
    rw [← beyond]
    exact mem_append_right _ mem_cons_self
  | cons ch more =>
    obtain ⟨rfl, -⟩ := cons.inj left
    refine apart 0 ?_ rfl
    rw [beyond]
    exact mem_append_right _ mem_cons_self

theorem StartsHTTP.append {stream : Bytes} (starts : StartsHTTP stream) (more : Bytes) :
    StartsHTTP (stream ++ more) := by
  obtain ⟨method, listed, front⟩ := starts
  exact ⟨method, listed, front.trans (prefix_append _ _)⟩

/-- Part of a method can be completed to a request line. -/
theorem part_starts {part : Bytes} (listed : method ∈ httpMethods) (front : part <+: method) :
    ∃ more, StartsHTTP (part ++ more) := by
  obtain ⟨more, rfl⟩ := front
  refine ⟨more ++ [32], part ++ more, listed, ?_⟩
  rw [← append_assoc]

theorem sniff_http_iff (stream : Bytes) :
    (sniffProtoByFirstLine stream).1 = .connModeHTTP ↔ StartsHTTP stream := by
  refine ⟨fun http => ?_, fun starts => by rw [sniff_of_starts starts]⟩
  rcases sniff_cases stream with ⟨method, listed, part⟩ | starts | tcp
  · rw [sniff_of_part listed part] at http
    cases http
  · exact starts
  rw [tcp] at http
  cases http

theorem sniff_unknown_iff (stream : Bytes) :
    (sniffProtoByFirstLine stream).1 = .connModeUnknown ↔
      ∃ method ∈ httpMethods, stream <+: method := by
  refine ⟨fun unknown => ?_, fun ⟨method, listed, part⟩ => by rw [sniff_of_part listed part]⟩
  rcases sniff_cases stream with part | starts | tcp
  · exact part
  · rw [sniff_of_starts starts] at unknown
    cases unknown
  rw [tcp] at unknown
  cases unknown

theorem sniff_tcp_iff (stream : Bytes) :
    (sniffProtoByFirstLine stream).1 = .connModeTCP ↔
      ∀ more, ¬ StartsHTTP (stream ++ more) := by
  constructor
  · rintro tcp more ⟨method, listed, front⟩
    rcases prefix_or_prefix_of_prefix front (prefix_append stream more) with
      inside | part
    · rw [sniff_of_starts ⟨method, listed, inside⟩] at tcp
      cases tcp
    rcases prefix_concat_iff.mp part with whole | part
    · rw [sniff_of_starts ⟨method, listed, whole ▸ prefix_refl _⟩] at tcp
      cases tcp
    rw [sniff_of_part listed part] at tcp
    cases tcp
  intro never
  rcases sniff_cases stream with ⟨method, listed, part⟩ | starts | tcp
  · obtain ⟨more, starts⟩ := part_starts listed part
    exact absurd starts (never more)
  · exact absurd (starts.append []) (never [])
  · rw [tcp]

/-- A verdict stands, whatever follows. -/
theorem sniff_stable (settled : (sniffProtoByFirstLine inp).1 ≠ .connModeUnknown) (more : Bytes) :
    sniffProtoByFirstLine (inp ++ more) = sniffProtoByFirstLine inp := by
  rcases sniff_cases inp with part | starts | tcp
  · exact absurd ((sniff_unknown_iff inp).mpr part) settled
  · rw [sniff_of_starts starts, sniff_of_starts (starts.append more)]
  have never := (sniff_tcp_iff inp).mp (by rw [tcp])
  rw [tcp]
  rcases sniff_cases (inp ++ more) with ⟨method, listed, part⟩ | starts | same
  · obtain ⟨further, starts⟩ := part_starts listed part
    rw [append_assoc] at starts
    exact absurd starts (never _)
  · exact absurd starts (never more)
  · exact same

end Connaxis.Evhandler
