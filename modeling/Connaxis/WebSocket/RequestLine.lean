import Connaxis.WebSocket.HandshakeStable

namespace Connaxis.WebSocket

open Lines List Option

theorem indexByte_none {inp : Bytes} {c : UInt8} (absent : c ∉ inp) : indexByte inp c = none :=
  idxOf?_eq_none_iff.mpr absent

theorem indexByte_cut {front : Bytes} {c : UInt8} (plain : c ∉ front) (rest : Bytes) :
    indexByte (front ++ c :: rest) c = some front.length := idxOf?_cut plain rest

theorem drop_past (front rest : Bytes) (c : UInt8) :
    (front ++ c :: rest).drop (front.length + 1) = rest := by
  rw [← drop_drop, drop_left]
  rfl

theorem digit_values : ∀ c : UInt8, isDigit c = true →
    ((c - 48).toNat = 1 ↔ c = 49) ∧ ((c - 48).toNat < 1 ↔ c = 48) := by
  decide +kernel

/-- What the third part of a request line is checked for: its first dot stands between a 1 and a
digit. The length is that of `HTTP/x.y`, but no other byte is looked at. -/
structure Versioned (proto : Bytes) (allowHTTP10 : Bool) (digit : UInt8) : Prop where
  length : 8 ≤ proto.length
  dot : ∃ front rest, proto = front ++ 49 :: 46 :: digit :: rest ∧ 46 ∉ front
  isDigit : isDigit digit = true
  minor : allowHTTP10 = true ∨ digit ≠ 48

/-- The neighbours of the first dot. -/
theorem dot_neighbours {front : Bytes} {major : UInt8} (plain : 46 ∉ front ++ [major])
    (digit : UInt8) (rest : Bytes) :
    indexByte (front ++ major :: 46 :: digit :: rest) 46 = some (front.length + 1) ∧
      (front ++ major :: 46 :: digit :: rest).getD (front.length + 1 - 1) 0 = major ∧
      (front ++ major :: 46 :: digit :: rest).getD (front.length + 1 + 1) 0 = digit := by
  refine ⟨?_, ?_, ?_⟩
  · have found := indexByte_cut plain (digit :: rest)
    rwa [append_assoc, length_append] at found
  · rw [Nat.add_sub_cancel, getD_append_right _ _ _ _ (Nat.le_refl _), Nat.sub_self]
    rfl
  rw [getD_append_right _ _ _ _ (by omega), show front.length + 1 + 1 - front.length = 2 by omega]
  rfl

/-- The line has two blanks, and so three parts. -/
theorem parseRequestLine_parts {method uri : Bytes} (word : 32 ∉ method) (target : 32 ∉ uri)
    (proto : Bytes) (allowHTTP10 : Bool) (r : HttpRequestLine) :
    parseRequestLine (method ++ 32 :: (uri ++ 32 :: proto)) allowHTTP10 = some r ↔
      method = httpGet ∧ uri ≠ [] ∧ ∃ digit, Versioned proto allowHTTP10 digit ∧
        r = ⟨method, uri, 1, (digit - 48).toNat⟩ := by
  have rest : (method ++ 32 :: (uri ++ 32 :: proto)).drop (method.length + uri.length + 2) =
      proto := by
    rw [show method.length + uri.length + 2 = (method.length + 1) + (uri.length + 1) by omega,
      ← drop_drop, drop_past, drop_past]
  have middle : ((method ++ 32 :: (uri ++ 32 :: proto)).take
      (uri.length + method.length + 1)).drop (method.length + 1) = uri := by
    rw [drop_take, drop_past, show uri.length + method.length + 1 - (method.length + 1) =
      uri.length by omega, take_left]
  unfold parseRequestLine
  simp only [indexByte_cut word, bind, bind_some, drop_past, indexByte_cut target, middle,
    rest, take_left, bind_none]
  constructor
  · intro parsed
    obtain ⟨_, parsed⟩ := ite_none_left_eq_some.mp parsed
    obtain ⟨filled, parsed⟩ := ite_none_left_eq_some.mp parsed
    obtain ⟨long, parsed⟩ := ite_none_left_eq_some.mp parsed
    obtain ⟨pos, found, parsed⟩ := bind_eq_some_iff.mp parsed
    obtain ⟨inside, parsed⟩ := ite_none_left_eq_some.mp parsed
    obtain ⟨digits, parsed⟩ := ite_none_left_eq_some.mp parsed
    obtain ⟨major, parsed⟩ := ite_none_left_eq_some.mp parsed
    obtain ⟨minor, parsed⟩ := ite_none_left_eq_some.mp parsed
    obtain ⟨get, parsed⟩ := ite_none_left_eq_some.mp parsed
    simp only [not_or, Bool.not_eq_true', Bool.not_eq_false] at digits
    obtain ⟨isMajor, isMinor⟩ := digits
    have member : 46 ∈ proto := by
      by_contra absent
      rw [indexByte_none absent] at found
      cases found
    obtain ⟨before, after, rfl, plain⟩ := exists_cut member
    rw [indexByte_cut plain] at found
    cases found
    rcases eq_nil_or_concat' before with rfl | ⟨front, m, rfl⟩
    · exact absurd (.inl rfl) inside
    cases after with
    | nil => simp at inside
    | cons digit tail =>
      obtain ⟨_, left, right⟩ := dot_neighbours plain digit tail
      have whole : front ++ [m] ++ 46 :: digit :: tail = front ++ m :: 46 :: digit :: tail :=
        append_assoc _ _ _
      rw [whole, length_append, length_singleton, left] at isMajor major
      rw [whole, length_append, length_singleton, right] at isMinor minor
      rw [whole, length_append, length_singleton, left, right] at parsed
      have one := ((digit_values m isMajor).1.mp (not_not.mp major))
      subst one
      have front_plain : 46 ∉ front := fun found => plain (mem_append_left _ found)
      refine ⟨not_not.mp get, length_pos_iff.mp (Nat.pos_of_ne_zero filled), digit,
        ⟨Nat.le_of_not_lt long, ⟨front, tail, whole, front_plain⟩, isMinor, ?_⟩,
        (some.inj parsed).symm⟩
      by_contra refused
      simp only [not_or, not_not, Bool.not_eq_true] at refused
      apply minor
      rw [refused.1, refused.2]
      decide
  rintro ⟨rfl, filled, digit, version, rfl⟩
  obtain ⟨front, tail, rfl, plain⟩ := version.dot
  have values := digit_values digit version.isDigit
  have first : 46 ∉ front ++ [49] := by
    simp only [mem_append, mem_singleton, not_or]
    exact ⟨plain, by decide⟩
  obtain ⟨found, before, after⟩ := dot_neighbours first digit tail
  have length := version.length
  have sum : (front ++ 49 :: 46 :: digit :: tail).length = front.length + (tail.length + 3) :=
    length_append
  have positive := length_pos_iff.mpr filled
  have get : httpGet.length = 3 := by decide
  rw [found]
  simp only [bind_some]
  rw [before, after, if_neg (by simp only [length_append, length_cons, get]; omega),
    if_neg (by omega), if_neg (by omega), if_neg (by omega),
    if_neg (by rw [version.isDigit]; decide), if_neg (by decide), if_neg ?_, if_neg (by simp)]
  · rfl
  rintro ⟨strict, zero⟩
  rcases version.minor with allowed | other
  · rw [allowed] at strict
    cases strict
  · exact other (values.2.mp zero)

/-- The lines that are accepted, and what is made of them. -/
theorem parseRequestLine_iff (line : Bytes) (allowHTTP10 : Bool) (r : HttpRequestLine) :
    parseRequestLine line allowHTTP10 = some r ↔
      ∃ uri proto digit, line = httpGet ++ 32 :: (uri ++ 32 :: proto) ∧ uri ≠ [] ∧ 32 ∉ uri ∧
        Versioned proto allowHTTP10 digit ∧ r = ⟨httpGet, uri, 1, (digit - 48).toNat⟩ := by
  constructor
  · intro parsed
    by_cases first : 32 ∈ line
    · obtain ⟨method, tail, rfl, word⟩ := exists_cut first
      by_cases second : 32 ∈ tail
      · obtain ⟨uri, proto, rfl, target⟩ := exists_cut second
        obtain ⟨rfl, filled, digit, version, rfl⟩ :=
          (parseRequestLine_parts word target proto allowHTTP10 r).mp parsed
        exact ⟨uri, proto, digit, rfl, filled, target, version, rfl⟩
      · simp [parseRequestLine, indexByte_cut word, indexByte_none second] at parsed
    · simp [parseRequestLine, indexByte_none first] at parsed
  rintro ⟨uri, proto, digit, rfl, filled, target, version, rfl⟩
  exact (parseRequestLine_parts (by decide) target proto allowHTTP10 _).mpr
    ⟨rfl, filled, digit, version, rfl⟩

def protoHTTP1 : Bytes := stringToBytes "HTTP/1."

/-- `GET uri HTTP/1.digit`, and its parts. -/
def RequestGrammar (line : Bytes) (allowHTTP10 : Bool) (r : HttpRequestLine) : Prop :=
  ∃ uri digit, line = httpGet ++ 32 :: (uri ++ 32 :: (protoHTTP1 ++ [digit])) ∧ uri ≠ [] ∧
    32 ∉ uri ∧ isDigit digit = true ∧ (allowHTTP10 = true ∨ digit ≠ 48) ∧
    r = ⟨httpGet, uri, 1, (digit - 48).toNat⟩

/-- The line is a `GET`, and the part that should be the version is another string of at least
eight bytes with its first dot between a 1 and a digit. -/
def LooseVersion (line : Bytes) (allowHTTP10 : Bool) : Prop :=
  ∃ uri proto digit, line = httpGet ++ 32 :: (uri ++ 32 :: proto) ∧ uri ≠ [] ∧ 32 ∉ uri ∧
    Versioned proto allowHTTP10 digit ∧ proto ≠ protoHTTP1 ++ [digit]

theorem versioned_protoHTTP1 {digit : UInt8} {allowHTTP10 : Bool} (isDigit : isDigit digit = true)
    (minor : allowHTTP10 = true ∨ digit ≠ 48) :
    Versioned (protoHTTP1 ++ [digit]) allowHTTP10 digit :=
  ⟨by simp [protoHTTP1, stringToBytes], ⟨stringToBytes "HTTP/", [], by simp [protoHTTP1,
    stringToBytes], by decide⟩, isDigit, minor⟩

/-- The dot of a version settles its digit. -/
theorem Versioned.unique {proto : Bytes} {allowHTTP10 allowHTTP10' : Bool} {digit digit' : UInt8}
    (first : Versioned proto allowHTTP10 digit) (second : Versioned proto allowHTTP10' digit') :
    digit = digit' := by
  obtain ⟨front, rest, rfl, plain⟩ := first.dot
  obtain ⟨front', rest', same, plain'⟩ := second.dot
  have joined (front : Bytes) (digit : UInt8) (rest : Bytes) :
      front ++ 49 :: 46 :: digit :: rest = (front ++ [49]) ++ 46 :: (digit :: rest) := by simp
  rw [joined, joined] at same
  have apart {front : Bytes} (plain : 46 ∉ front) : 46 ∉ front ++ [49] := by
    simp only [mem_append, mem_singleton, not_or]
    exact ⟨plain, by decide⟩
  exact (cons.inj (cut_unique (apart plain) (apart plain') same).2).1

/-- Exactly the loose versions make the difference between the parser and its grammar. -/
theorem request_line_grammar_iff (line : Bytes) (allowHTTP10 : Bool) :
    (∀ r, parseRequestLine line allowHTTP10 = some r ↔ RequestGrammar line allowHTTP10 r) ↔
      ¬ LooseVersion line allowHTTP10 := by
  constructor
  · rintro grammar ⟨uri, proto, digit, rfl, filled, target, version, other⟩
    have parsed := (parseRequestLine_iff _ allowHTTP10 ⟨httpGet, uri, 1, (digit - 48).toNat⟩).mpr
      ⟨uri, proto, digit, rfl, filled, target, version, rfl⟩
    obtain ⟨uri', digit', same, -, target', isDigit, minor, -⟩ := (grammar _).mp parsed
    obtain ⟨-, tail⟩ := cut_unique (by decide) (by decide) same
    obtain ⟨-, rfl⟩ := cut_unique target target' tail
    rw [version.unique (versioned_protoHTTP1 isDigit minor)] at other
    exact other rfl
  intro strict r
  rw [parseRequestLine_iff]
  constructor
  · rintro ⟨uri, proto, digit, rfl, filled, target, version, rfl⟩
    have exact_form : proto = protoHTTP1 ++ [digit] := by
      by_contra other
      exact strict ⟨uri, proto, digit, rfl, filled, target, version, other⟩
    rw [exact_form]
    exact ⟨uri, digit, rfl, filled, target, version.isDigit, version.minor, rfl⟩
  rintro ⟨uri, digit, rfl, filled, target, isDigit, minor, rfl⟩
  exact ⟨uri, _, digit, rfl, filled, target, versioned_protoHTTP1 isDigit minor, rfl⟩

/-- `GET / WHAT/31.1` is taken for a request of version 1.1. -/
theorem request_line_accepts_other_version :
    parseRequestLine (stringToBytes "GET / WHAT/31.1") false =
        some ⟨stringToBytes "GET", stringToBytes "/", 1, 1⟩ ∧
      ¬ RequestGrammar (stringToBytes "GET / WHAT/31.1") false
        ⟨stringToBytes "GET", stringToBytes "/", 1, 1⟩ := by
  refine ⟨by decide, ?_⟩
  rintro ⟨uri, digit, same, -, target, -⟩
  have cut : stringToBytes "GET / WHAT/31.1" =
      httpGet ++ 32 :: (stringToBytes "/" ++ 32 :: stringToBytes "WHAT/31.1") := by decide
  rw [cut] at same
  obtain ⟨-, tail⟩ := cut_unique (by decide) (by decide) same
  obtain ⟨-, version⟩ := cut_unique (by decide) target tail
  have length := congrArg List.length version
  rw [List.length_append, List.length_singleton] at length
  exact absurd length (by decide)

end Connaxis.WebSocket
