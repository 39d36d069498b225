import Connaxis.WebSocket.HeaderRules
import Mathlib.Data.List.Forall2

namespace Connaxis.WebSocket

open List

/-- The first line of a request, without its end. -/
def requestLine (inp : Bytes) : Bytes := chomp ((inp.splitOn 10).headD [])

/-- The lines behind it up to the first empty one. -/
def headerLines (inp : Bytes) : List Bytes :=
  (((inp.splitOn 10).drop 1).map chomp).takeWhile (· ≠ [])

/-- There is a header of this name, and each one passes. -/
def Required (header : Bytes) (ok : Bytes → Prop) (lines : List Bytes) : Prop :=
  (∃ line ∈ lines, Named header line) ∧
    ∀ line ∈ lines, Named header line → ok (headerValue line)

/-- The rules for the headers of an upgrade. -/
structure Acceptable (lines : List Bytes) : Prop where
  colon : ∀ line ∈ lines, 58 ∈ line
  host : Required headerHost (fun _ => True) lines
  upgrade : Required headerUpgrade (Similar · specHeaderValueWsLower) lines
  connection : Required headerConnection (HasToken specHeaderValueUpgradeLower) lines
  version : Required headerSecVersion (· = specHeaderValueSecVersion) lines
  secKey : Required headerSecKey (·.length = 24) lines

/-- The loop over the headers on lines that are already cut. -/
def seeLines (state : Nat) (cli : HandshakeClient) : List Bytes → Option (Nat × HandshakeClient)
  | [] => some (state, cli)
  | line :: rest =>
    match (parseHeaderLine line).1 with
    | none => none
    | some (key, val) =>
      match seeHeader state cli key val with
      | none => none
      | some (state, cli) => seeLines state cli rest

variable {line : Bytes}

/-- The lines up to the first empty one, of a text that is not the first line. -/
theorem linesOf_cut (plain : 10 ∉ line) (rest : Bytes) :
    (((line ++ 10 :: rest).splitOn 10).map chomp).takeWhile (· ≠ []) =
      if chomp line = [] then []
      else chomp line :: (((rest.splitOn 10).map chomp).takeWhile (· ≠ [])) := by
  rw [splitOn_append_cons_self_of_not_mem plain, map_cons, takeWhile_cons]
  by_cases empty : chomp line = [] <;> simp [empty]

variable {cli : HandshakeClient}

theorem Reads.lines {inp : Bytes} {size state : Nat} {out : Headers}
    (reads : Reads size inp state cli out) :
    match seeLines state cli (((inp.splitOn 10).map chomp).takeWhile (· ≠ [])) with
    | none => out.verdict = .error (-1, -1)
    | some (seen, cli') => ∃ m, out.verdict = .ok (seen, size + m) ∧ out.cli = cli' := by
  induction reads with
  | stop rest plain empty =>
    rw [linesOf_cut plain, if_pos empty, seeLines]
    exact ⟨_ + 1, rfl, rfl⟩
  | malformed rest plain filled header =>
    rw [linesOf_cut plain, if_neg filled, seeLines, header]
  | refused rest plain filled header seen =>
    simp only [linesOf_cut plain, if_neg filled, seeLines, header, seen]
  | next plain filled header seen reads ih =>
    rename_i line _ _ _ size _ _ _ _ _
    simp only [linesOf_cut plain, if_neg filled, seeLines, header, seen]
    split
    · rename_i refused
      rw [refused] at ih
      exact ih
    rename_i passed
    rw [passed] at ih
    obtain ⟨m, verdict, client⟩ := ih
    exact ⟨line.length + 1 + m, by rw [verdict, Nat.add_assoc size, Nat.add_assoc size], client⟩

/-- The checks of a strict handshake on one header. -/
def Passes (key val : Bytes) : Prop :=
  (key = headerUpgrade → equalFoldASCII val specHeaderValueWsLower = true) ∧
    (key = headerConnection →
      containsTokenFoldASCII val specHeaderValueUpgradeLower = true) ∧
    (key = headerSecVersion → val = specHeaderValueSecVersion) ∧
    (key = headerSecKey → val.length = 24)

instance (key val : Bytes) : Decidable (Passes key val) :=
  inferInstanceAs (Decidable
    ((key = headerUpgrade → equalFoldASCII val specHeaderValueWsLower = true) ∧
      (key = headerConnection →
        containsTokenFoldASCII val specHeaderValueUpgradeLower = true) ∧
      (key = headerSecVersion → val = specHeaderValueSecVersion) ∧
      (key = headerSecKey → val.length = 24)))

/-- The bit of a header. -/
def headerBit (key : Bytes) : Nat :=
  (if key = headerHost then headerSeenHost else 0) |||
    (if key = headerUpgrade then headerSeenUpgrade else 0) |||
    (if key = headerConnection then headerSeenConnection else 0) |||
    (if key = headerSecVersion then headerSeenSecVersion else 0) |||
    (if key = headerSecKey then headerSeenSecKey else 0)

/-- What a header leaves in the client. -/
def noteHeader (cli : HandshakeClient) (key val : Bytes) : HandshakeClient :=
  seeSecExtensions (if key = headerSecKey then { cli with nonce := some val } else cli) key val

variable (state : Nat)

theorem seeHost_eq (key : Bytes) :
    seeHost state key = state ||| if key = headerHost then headerSeenHost else 0 := by
  unfold seeHost
  split
  · rfl
  · rw [Nat.or_zero]

theorem seeUpgrade_eq (key val : Bytes) :
    seeUpgrade state key val =
      if key = headerUpgrade → equalFoldASCII val specHeaderValueWsLower = true then
        some (state ||| if key = headerUpgrade then headerSeenUpgrade else 0)
      else none := by
  unfold seeUpgrade
  by_cases here : key = headerUpgrade
  · cases equalFoldASCII val specHeaderValueWsLower <;> simp [here]
  · simp [here]

theorem seeConnection_eq (key val : Bytes) :
    seeConnection false state key val =
      if key = headerConnection →
          containsTokenFoldASCII val specHeaderValueUpgradeLower = true then
        some (state ||| if key = headerConnection then headerSeenConnection else 0)
      else none := by
  unfold seeConnection
  by_cases here : key = headerConnection
  · cases containsTokenFoldASCII val specHeaderValueUpgradeLower <;> simp [here]
  · simp [here]

theorem seeSecVersion_eq (key val : Bytes) :
    seeSecVersion state key val =
      if key = headerSecVersion → val = specHeaderValueSecVersion then
        some (state ||| if key = headerSecVersion then headerSeenSecVersion else 0)
      else none := by
  unfold seeSecVersion
  by_cases here : key = headerSecVersion
  · by_cases good : val = specHeaderValueSecVersion <;> simp [here, good]
  · simp [here]

theorem seeSecKey_eq (cli : HandshakeClient) (key val : Bytes) :
    seeSecKey state cli key val =
      if key = headerSecKey → val.length = 24 then
        some (state ||| (if key = headerSecKey then headerSeenSecKey else 0),
          if key = headerSecKey then { cli with nonce := some val } else cli)
      else none := by
  unfold seeSecKey
  by_cases here : key = headerSecKey
  · by_cases good : val.length = 24 <;> simp [here, good]
  · simp [here]

/-- One header of a strict handshake: refused, or its bit is set and it is noted. -/
theorem seeHeader_eq (strict : cli.AllowPlainHTTP = false) (key val : Bytes) :
    seeHeader state cli key val =
      if Passes key val then some (state ||| headerBit key, noteHeader cli key val) else none := by
  unfold seeHeader
  rw [strict, seeHost_eq, seeUpgrade_eq]
  by_cases upgrade : key = headerUpgrade → equalFoldASCII val specHeaderValueWsLower = true
  · rw [if_pos upgrade, Option.bind_some, seeConnection_eq]
    by_cases connection : key = headerConnection →
        containsTokenFoldASCII val specHeaderValueUpgradeLower = true
    · rw [if_pos connection, Option.bind_some, seeSecVersion_eq]
      by_cases version : key = headerSecVersion → val = specHeaderValueSecVersion
      · rw [if_pos version, Option.bind_some, seeSecKey_eq]
        by_cases secKey : key = headerSecKey → val.length = 24
        · have passes : Passes key val := ⟨upgrade, connection, version, secKey⟩
          rw [if_pos secKey, if_pos passes, headerBit, noteHeader]
          simp only [Option.map_some, Nat.or_assoc]
        rw [if_neg secKey, if_neg fun all => secKey all.2.2.2]
        rfl
      rw [if_neg version, if_neg fun all => version all.2.2.1]
      rfl
    rw [if_neg connection, if_neg fun all => connection all.2.1]
    rfl
  rw [if_neg upgrade, if_neg fun all => upgrade all.1]
  rfl

theorem noteHeader_allow (cli : HandshakeClient) (key val : Bytes) :
    (noteHeader cli key val).AllowPlainHTTP = cli.AllowPlainHTTP := by
  unfold noteHeader seeSecExtensions
  split <;> split <;> rfl

/-- The name of a line in the form it is compared in. -/
def lineKey (line : Bytes) : Bytes := canonicalizeBytes (headerName line)

theorem seeLines_eq (strict : cli.AllowPlainHTTP = false) (lines : List Bytes) :
    seeLines state cli lines =
      if ∀ line ∈ lines, 58 ∈ line ∧ Passes (lineKey line) (headerValue line) then
        some (lines.foldl (fun state line => state ||| headerBit (lineKey line)) state,
          lines.foldl (fun cli line => noteHeader cli (lineKey line) (headerValue line)) cli)
      else none := by
  induction lines generalizing state cli with
  | nil => simp [seeLines]
  | cons line rest ih =>
    rw [seeLines, parseHeaderLine_fst]
    by_cases colon : 58 ∈ line
    · rw [if_pos colon]
      dsimp only
      rw [seeHeader_eq state strict]
      by_cases passes : Passes (lineKey line) (headerValue line)
      · rw [lineKey] at passes
        rw [if_pos passes]
        dsimp only
        rw [ih _ ((noteHeader_allow _ _ _).trans strict)]
        simp only [forall_mem_cons, foldl_cons]
        refine if_congr ?_ rfl rfl
        exact ⟨fun later => ⟨⟨colon, passes⟩, later⟩, fun all => all.2⟩
      rw [lineKey] at passes
      rw [if_neg passes, if_neg fun all => passes (all line mem_cons_self).2]
    · rw [if_neg colon, if_neg fun all => colon (all line mem_cons_self).1]

/-- The headers with a bit, by its number. -/
def bitHeaders : List Bytes :=
  [headerHost, headerUpgrade, headerConnection, headerSecVersion, headerSecKey]

theorem headerBit_testBit (key : Bytes) (i : Nat) :
    (headerBit key).testBit i = decide (bitHeaders[i]? = some key) := by
  have bit (header : Bytes) (mark : Nat) :
      (if key = header then mark else 0).testBit i = (decide (key = header) && mark.testBit i) := by
    by_cases here : key = header <;> simp [here]
  rw [headerBit, Nat.testBit_or, Nat.testBit_or, Nat.testBit_or, Nat.testBit_or, bit, bit, bit, bit,
    bit]
  match i with
  | 0 | 1 | 2 | 3 | 4 =>
    simp [bitHeaders, headerSeenHost, headerSeenUpgrade, headerSeenConnection,
      headerSeenSecVersion, headerSeenSecKey, Nat.testBit, eq_comm]
  | i + 5 =>
    have far (mark : Nat) (small : mark < 32) : mark.testBit (i + 5) = false := by
      apply Nat.testBit_lt_two_pow
      have growth : 2 ^ 5 ≤ 2 ^ (i + 5) := Nat.pow_le_pow_right (by decide) (by omega)
      omega
    rw [far headerSeenHost (by decide), far headerSeenUpgrade (by decide),
      far headerSeenConnection (by decide), far headerSeenSecVersion (by decide),
      far headerSeenSecKey (by decide)]
    simp [bitHeaders]

theorem foldl_or_testBit (f : Bytes → Nat) (lines : List Bytes) (state i : Nat) :
    (lines.foldl (fun state line => state ||| f line) state).testBit i =
      (state.testBit i || lines.any fun line => (f line).testBit i) := by
  induction lines generalizing state with
  | nil => simp
  | cons line rest ih => rw [foldl_cons, ih, Nat.testBit_or, any_cons, Bool.or_assoc]

/-- All bits are set when each of the headers was seen. -/
theorem seen_all_iff (lines : List Bytes) :
    lines.foldl (fun state line => state ||| headerBit (lineKey line)) 0 = headerSeenAll ↔
      ∀ header ∈ bitHeaders, ∃ line ∈ lines, lineKey line = header := by
  have all (i : Nat) : headerSeenAll.testBit i = decide (i < 5) := Nat.testBit_two_pow_sub_one 5 i
  have seen (i : Nat) : (lines.foldl (fun state line => state ||| headerBit (lineKey line))
      0).testBit i = lines.any fun line => decide (bitHeaders[i]? = some (lineKey line)) := by
    rw [foldl_or_testBit, Nat.zero_testBit, Bool.false_or]
    simp only [headerBit_testBit]
  constructor
  · intro done header member
    obtain ⟨i, inside, rfl⟩ := getElem_of_mem member
    have bit := seen i
    rw [done, all, decide_eq_true (show i < 5 from inside)] at bit
    obtain ⟨line, among, found⟩ := any_eq_true.mp bit.symm
    rw [getElem?_eq_getElem inside] at found
    exact ⟨line, among, (Option.some.inj (of_decide_eq_true found)).symm⟩
  intro each
  apply Nat.eq_of_testBit_eq
  intro i
  rw [seen, all]
  by_cases inside : i < bitHeaders.length
  · obtain ⟨line, among, found⟩ := each _ (getElem_mem inside)
    rw [decide_eq_true (show i < 5 from inside), any_eq_true]
    refine ⟨line, among, ?_⟩
    rw [getElem?_eq_getElem inside, found]
    exact decide_eq_true rfl
  rw [decide_eq_false (show ¬ i < 5 from inside), getElem?_eq_none (by omega)]
  simp

theorem bitHeaders_canonical : ∀ header ∈ bitHeaders, canonicalizeBytes header = header := by
  decide

variable {header : Bytes}

theorem lineKey_eq_iff (canonical : canonicalizeBytes header = header) (line : Bytes) :
    lineKey line = header ↔ Named header line :=
  canonicalizeBytes_eq_iff canonical (headerName line)

theorem passes_iff (line : Bytes) :
    Passes (lineKey line) (headerValue line) ↔
      (Named headerUpgrade line → Similar (headerValue line) specHeaderValueWsLower) ∧
      (Named headerConnection line →
        HasToken specHeaderValueUpgradeLower (headerValue line)) ∧
      (Named headerSecVersion line → headerValue line = specHeaderValueSecVersion) ∧
      (Named headerSecKey line → (headerValue line).length = 24) := by
  rw [Passes, lineKey_eq_iff (by decide), lineKey_eq_iff (by decide), lineKey_eq_iff (by decide),
    lineKey_eq_iff (by decide), equalFoldASCII_iff, containsTokenFoldASCII_iff (by decide)]

/-- The rules are what the loop checks and its bits. -/
theorem acceptable_iff (lines : List Bytes) :
    Acceptable lines ↔
      (∀ line ∈ lines, 58 ∈ line ∧ Passes (lineKey line) (headerValue line)) ∧
        lines.foldl (fun state line => state ||| headerBit (lineKey line)) 0 = headerSeenAll := by
  rw [seen_all_iff]
  simp only [passes_iff]
  constructor
  · intro ok
    refine ⟨fun line member => ⟨ok.colon line member, ok.upgrade.2 line member,
      ok.connection.2 line member, ok.version.2 line member, ok.secKey.2 line member⟩, ?_⟩
    intro header member
    have there : ∃ line ∈ lines, Named header line := by
      simp only [bitHeaders, mem_cons, not_mem_nil, or_false] at member
      rcases member with rfl | rfl | rfl | rfl | rfl
      · exact ok.host.1
      · exact ok.upgrade.1
      · exact ok.connection.1
      · exact ok.version.1
      · exact ok.secKey.1
    obtain ⟨line, among, named⟩ := there
    exact ⟨line, among, (lineKey_eq_iff (bitHeaders_canonical header member) line).mpr named⟩
  rintro ⟨each, seen⟩
  have there {header : Bytes} (member : header ∈ bitHeaders) :
      ∃ line ∈ lines, Named header line := by
    obtain ⟨line, among, found⟩ := seen header member
    exact ⟨line, among, (lineKey_eq_iff (bitHeaders_canonical header member) line).mp found⟩
  exact {
    colon := fun line member => (each line member).1
    host := ⟨there (by decide), fun _ _ _ => trivial⟩
    upgrade := ⟨there (by decide), fun line member => (each line member).2.1⟩
    connection := ⟨there (by decide), fun line member => (each line member).2.2.1⟩
    version := ⟨there (by decide), fun line member => (each line member).2.2.2.1⟩
    secKey := ⟨there (by decide), fun line member => (each line member).2.2.2.2⟩ }

section Notes

variable (cli : HandshakeClient) (key val : Bytes)

theorem noteHeader_nonce :
    (noteHeader cli key val).nonce = if key = headerSecKey then some val else cli.nonce := by
  unfold noteHeader seeSecExtensions
  by_cases here : key = headerSecKey
  · rw [if_pos here, if_pos here]
    split <;> rfl
  rw [if_neg here, if_neg here]
  split <;> rfl

theorem noteHeader_perMessageDeflate :
    (noteHeader cli key val).perMessageDeflate =
      (cli.perMessageDeflate || decide (key = headerSecExtensions) &&
        negotiatePermessageDeflate val) := by
  have kept : (if key = headerSecKey then { cli with nonce := some val }
      else cli).perMessageDeflate = cli.perMessageDeflate := by split <;> rfl
  unfold noteHeader seeSecExtensions
  rw [kept]
  split
  · rename_i offered
    obtain ⟨here, _, accepted⟩ := offered
    rw [accepted, decide_eq_true here]
    simp
  rename_i other
  rw [kept]
  cases flag : cli.perMessageDeflate with
  | true => rfl
  | false =>
    rw [flag] at other
    by_cases here : key = headerSecExtensions
    · cases offered : negotiatePermessageDeflate val with
      | true => exact absurd ⟨here, rfl, offered⟩ other
      | false => rw [Bool.and_false]; rfl
    rw [decide_eq_false here]
    rfl

end Notes

/-- The client after these lines. -/
def noteLines (cli : HandshakeClient) (lines : List Bytes) : HandshakeClient :=
  lines.foldl (fun cli line => noteHeader cli (lineKey line) (headerValue line)) cli

theorem noteLines_allow (cli : HandshakeClient) (lines : List Bytes) :
    (noteLines cli lines).AllowPlainHTTP = cli.AllowPlainHTTP := by
  induction lines generalizing cli with
  | nil => rfl
  | cons line rest ih =>
    exact (ih _).trans (noteHeader_allow _ _ _)

theorem noteLines_nonce (cli : HandshakeClient) (lines : List Bytes) :
    (noteLines cli lines).nonce =
      match (lines.filter (Named headerSecKey ·)).getLast? with
      | some line => some (headerValue line)
      | none => cli.nonce := by
  induction lines using reverseRecOn with
  | nil => rfl
  | append_singleton lines line ih =>
    rw [noteLines, foldl_concat, noteHeader_nonce, filter_append]
    by_cases here : Named headerSecKey line
    · have last : [line].filter (Named headerSecKey ·) = [line] := by simp [here]
      rw [if_pos ((lineKey_eq_iff (by decide) line).mpr here), last, getLast?_concat]
    have void : [line].filter (Named headerSecKey ·) = [] := by simp [here]
    rw [if_neg fun found => here ((lineKey_eq_iff (by decide) line).mp found), void, append_nil]
    exact ih

theorem noteLines_perMessageDeflate (cli : HandshakeClient) (lines : List Bytes) :
    (noteLines cli lines).perMessageDeflate = true ↔
      cli.perMessageDeflate = true ∨ ∃ line ∈ lines, Named headerSecExtensions line ∧
        negotiatePermessageDeflate (headerValue line) = true := by
  induction lines using reverseRecOn with
  | nil => simp [noteLines]
  | append_singleton lines line ih =>
    rw [noteLines, foldl_concat, noteHeader_perMessageDeflate, Bool.or_eq_true,
      Bool.and_eq_true, decide_eq_true_eq, lineKey_eq_iff (by decide)]
    change (noteLines cli lines).perMessageDeflate = true ∨ _ ↔ _
    rw [ih]
    simp only [mem_append, mem_singleton, or_and_right, exists_or, exists_eq_left, or_assoc]

theorem requestLine_cut (plain : 10 ∉ line) (rest : Bytes) :
    requestLine (line ++ 10 :: rest) = chomp line := by
  rw [requestLine, splitOn_append_cons_self_of_not_mem plain]
  rfl

theorem headerLines_cut (plain : 10 ∉ line) (rest : Bytes) :
    headerLines (line ++ 10 :: rest) =
      ((rest.splitOn 10).map chomp).takeWhile (· ≠ []) := by
  rw [headerLines, splitOn_append_cons_self_of_not_mem plain]
  rfl

theorem minor_positive {req : HttpRequestLine} (request : parseRequestLine line false = some req) :
    ¬ req.minor < 1 := by
  obtain ⟨uri, proto, digit, -, -, -, version, rfl⟩ := (parseRequestLine_iff _ _ _).mp request
  have other := version.minor.resolve_left (by decide)
  exact fun zero => other ((digit_values digit version.isDigit).2.mp zero)

/-- A strict handshake that is complete and starts with a request. -/
theorem parseHandshake_strict (strict : cli.AllowPlainHTTP = false) {inp : Bytes}
    (complete : crlfcrlf <:+: inp) {req : HttpRequestLine}
    (request : parseRequestLine (requestLine inp) false = some req) :
    (Acceptable (headerLines inp) → ∃ size : Nat, 0 < size ∧ (parseHandshake cli inp).n = size ∧
        (parseHandshake cli inp).expect = size ∧
        (parseHandshake cli inp).cli = noteLines cli.start (headerLines inp)) ∧
      (¬ Acceptable (headerLines inp) →
        (parseHandshake cli inp).n = -1 ∧ (parseHandshake cli inp).expect = -1) := by
  obtain ⟨line, rest, rfl, plain, ahead⟩ := complete_cut complete
  rw [requestLine_cut plain] at request
  have looped := (ahead (request_some request) cli.start).lines
  have minor := minor_positive request
  have start : cli.start.AllowPlainHTTP = false := strict
  rw [← headerLines_cut plain, seeLines_eq 0 start] at looped
  rw [acceptable_iff, parseHandshake_cut cli plain complete, strict, request]
  generalize headerLines (line ++ 10 :: rest) = lines at looped
  generalize headerLoop ((line ++ 10 :: rest).length + 1) (line.length + 1) rest 0 cli.start =
    next at looped
  dsimp only
  by_cases each : ∀ line ∈ lines, 58 ∈ line ∧ Passes (lineKey line) (headerValue line)
  · rw [if_pos each] at looped
    obtain ⟨m, verdict, client⟩ := looped
    change next.cli = noteLines cli.start lines at client
    have allow : next.cli.AllowPlainHTTP = false := by
      rw [client, noteLines_allow]
      exact strict
    rw [verdict]
    dsimp only
    unfold finishHandshake
    by_cases all : lines.foldl (fun state line => state ||| headerBit (lineKey line)) 0 =
        headerSeenAll
    · rw [if_pos all, if_neg minor]
      exact ⟨fun _ => ⟨line.length + 1 + m, by omega, rfl, rfl, client⟩,
        fun refused => absurd ⟨each, all⟩ refused⟩
    rw [if_neg all, if_neg (by rw [allow]; simp)]
    exact ⟨fun ok => absurd ok.2 all, fun _ => ⟨rfl, rfl⟩⟩
  rw [if_neg each] at looped
  rw [looped]
  exact ⟨fun ok => absurd ok.1 each, fun _ => ⟨rfl, rfl⟩⟩

/-- The same lines in any order, and each of them up to the case of letters. -/
def Rearranged (lines lines' : List Bytes) : Prop :=
  ∃ middle, lines.Perm middle ∧ List.Forall₂ Similar middle lines'

variable {lines lines' : List Bytes}

theorem required_perm {ok : Bytes → Prop} (perm : lines.Perm lines') :
    Required header ok lines ↔ Required header ok lines' := by
  simp only [Required, perm.mem_iff]

theorem acceptable_perm (perm : lines.Perm lines') (ok : Acceptable lines) : Acceptable lines' where
  colon := fun line member => ok.colon line (perm.mem_iff.mpr member)
  host := (required_perm perm).mp ok.host
  upgrade := (required_perm perm).mp ok.upgrade
  connection := (required_perm perm).mp ok.connection
  version := (required_perm perm).mp ok.version
  secKey := (required_perm perm).mp ok.secKey

theorem similar_mem (similar : List.Forall₂ Similar lines lines') :
    (∀ x ∈ lines, ∃ y ∈ lines', Similar x y) ∧ ∀ y ∈ lines', ∃ x ∈ lines, Similar x y := by
  induction similar with
  | nil => exact ⟨nofun, nofun⟩
  | cons first _ ih =>
    rename_i line line' rest rest' _
    refine ⟨fun x member => ?_, fun y member => ?_⟩
    · rcases mem_cons.mp member with rfl | later
      · exact ⟨line', mem_cons_self, first⟩
      obtain ⟨y, found, same⟩ := ih.1 x later
      exact ⟨y, mem_cons_of_mem _ found, same⟩
    rcases mem_cons.mp member with rfl | later
    · exact ⟨line, mem_cons_self, first⟩
    obtain ⟨x, found, same⟩ := ih.2 y later
    exact ⟨x, mem_cons_of_mem _ found, same⟩

theorem required_similar {ok : Bytes → Prop} (blind : ∀ x y, Similar x y → ok x → ok y)
    (similar : List.Forall₂ Similar lines lines') (required : Required header ok lines) :
    Required header ok lines' := by
  obtain ⟨⟨line, member, named⟩, each⟩ := required
  refine ⟨?_, fun line' member' named' => ?_⟩
  · obtain ⟨line', found, same⟩ := (similar_mem similar).1 line member
    exact ⟨line', found, (same.named header).mp named⟩
  obtain ⟨line, found, same⟩ := (similar_mem similar).2 line' member'
  exact blind _ _ same.headerValue (each line found ((same.named header).mpr named'))

theorem version_similar (x y : Bytes) (similar : Similar x y)
    (version : x = specHeaderValueSecVersion) : y = specHeaderValueSecVersion := by
  subst version
  have digit : ∀ b : UInt8, (lowerASCII b = 49 → b = 49) ∧ (lowerASCII b = 51 → b = 51) := by
    decide +kernel
  obtain ⟨a, b, rfl⟩ := length_eq_two.mp similar.length.symm
  obtain ⟨first, rest⟩ := cons.inj similar.symm
  obtain ⟨second, -⟩ := cons.inj rest
  rw [(digit a).1 first, (digit b).2 second]
  rfl

theorem acceptable_similar (similar : List.Forall₂ Similar lines lines') (ok : Acceptable lines) :
    Acceptable lines' where
  colon := by
    intro line' member
    obtain ⟨line, found, same⟩ := (similar_mem similar).2 line' member
    exact (same.mem_iff lower_colon).mp (ok.colon line found)
  host := required_similar (fun _ _ _ _ => trivial) similar ok.host
  upgrade := required_similar (fun _ _ same fits => same.symm.trans fits) similar ok.upgrade
  connection := required_similar (fun _ _ same found => same.hasToken found) similar ok.connection
  version := required_similar version_similar similar ok.version
  secKey := required_similar (fun _ _ same length => same.length ▸ length) similar ok.secKey

theorem Rearranged.acceptable_iff (same : Rearranged lines lines') :
    Acceptable lines ↔ Acceptable lines' := by
  obtain ⟨middle, perm, similar⟩ := same
  have back : List.Forall₂ Similar lines' middle :=
    List.Forall₂.flip (similar.imp fun _ _ same => Similar.symm same)
  exact ⟨fun ok => acceptable_similar similar (acceptable_perm perm ok),
    fun ok => acceptable_perm perm.symm (acceptable_similar back ok)⟩

/-- Which handshakes are accepted, and what is remembered of them. -/
theorem handshake_acceptance (cli : HandshakeClient) (strict : cli.AllowPlainHTTP = false)
    (inp : Bytes) (complete : crlfcrlf <:+: inp) (req : HttpRequestLine)
    (request : parseRequestLine (requestLine inp) false = some req) :
    (0 < (parseHandshake cli inp).n ↔ Acceptable (headerLines inp)) ∧
    (¬ Acceptable (headerLines inp) →
      (parseHandshake cli inp).n = -1 ∧ (parseHandshake cli inp).expect = -1) ∧
    (Acceptable (headerLines inp) →
      (∃ line, ((headerLines inp).filter (Named headerSecKey ·)).getLast? = some line ∧
        (parseHandshake cli inp).cli.nonce = some (headerValue line)) ∧
      ((parseHandshake cli inp).cli.perMessageDeflate = true ↔
        ∃ line ∈ headerLines inp, Named headerSecExtensions line ∧
          negotiatePermessageDeflate (headerValue line) = true)) ∧
    (∀ (cli' : HandshakeClient) (inp' : Bytes) (req' : HttpRequestLine),
      cli'.AllowPlainHTTP = false → crlfcrlf <:+: inp' →
      parseRequestLine (requestLine inp') false = some req' →
      Rearranged (headerLines inp) (headerLines inp') →
      (0 < (parseHandshake cli inp).n ↔ 0 < (parseHandshake cli' inp').n)) := by
  have positive_iff {cli : HandshakeClient} (strict : cli.AllowPlainHTTP = false) {inp : Bytes}
      (complete : crlfcrlf <:+: inp) {req : HttpRequestLine}
      (request : parseRequestLine (requestLine inp) false = some req) :
      0 < (parseHandshake cli inp).n ↔ Acceptable (headerLines inp) := by
    obtain ⟨accepts, refuses⟩ := parseHandshake_strict strict complete request
    constructor
    · intro positive
      by_contra other
      rw [(refuses other).1] at positive
      exact absurd positive (by decide)
    intro ok
    obtain ⟨size, positive, n, -, -⟩ := accepts ok
    rw [n]
    omega
  obtain ⟨accepts, refuses⟩ := parseHandshake_strict strict complete request
  refine ⟨positive_iff strict complete request, refuses, fun ok => ?_, ?_⟩
  · obtain ⟨-, -, -, -, client⟩ := accepts ok
    rw [client]
    constructor
    · obtain ⟨line, member, named⟩ := ok.secKey.1
      have nonce := noteLines_nonce cli.start (headerLines inp)
      cases last : ((headerLines inp).filter (Named headerSecKey ·)).getLast? with
      | none =>
        rw [List.getLast?_eq_none_iff] at last
        have there : line ∈ (headerLines inp).filter (Named headerSecKey ·) :=
          List.mem_filter.mpr ⟨member, decide_eq_true named⟩
        rw [last] at there
        cases there
      | some line =>
        rw [last] at nonce
        exact ⟨line, rfl, nonce⟩
    rw [noteLines_perMessageDeflate]
    exact or_iff_right Bool.false_ne_true
  intro cli' inp' req' strict' complete' request' same
  rw [positive_iff strict complete request, positive_iff strict' complete' request']
  exact same.acceptable_iff

/-- A whole request with these lines. -/
def requestOf (lines : List String) : Bytes :=
  ((lines ++ ["", ""]).map stringToBytes).intersperse [13, 10] |>.flatten

/-- An upgrade with its headers in unusual order and case, and two of them named twice. -/
def mixedUpgrade : Bytes :=
  requestOf ["GET /chat HTTP/1.1", "sec-websocket-VERSION : 13", "Connection: keep-alive, UPGRADE",
    "sec-websocket-key: dGhlIHNhbXBsZSBub25jZQ==", "Host: a", "host: b", "uPGRADE:WebSocket",
    "Sec-WebSocket-Key: AAAAAAAAAAAAAAAAAAAAAA=="]

theorem handshake_acceptance_mixedUpgrade :
    Acceptable (headerLines mixedUpgrade) ∧ ∃ line,
      ((headerLines mixedUpgrade).filter (Named headerSecKey ·)).getLast? = some line ∧
        (parseHandshake ⟨false, false, false, none⟩ mixedUpgrade).cli.nonce =
          some (headerValue line) := by
  have complete : crlfcrlf <:+: mixedUpgrade := by decide +kernel
  have request : parseRequestLine (requestLine mixedUpgrade) false =
      some ⟨stringToBytes "GET", stringToBytes "/chat", 1, 1⟩ := by decide +kernel
  obtain ⟨positive_iff, _, remembered, _⟩ :=
    handshake_acceptance ⟨false, false, false, none⟩ rfl mixedUpgrade complete _ request
  have ok := positive_iff.mp (by decide +kernel)
  exact ⟨ok, (remembered ok).1⟩

end Connaxis.WebSocket
