import Connaxis.Evhandler.FastHttp

namespace Connaxis.Evhandler.FastHttp

open WebSocket Lines MachineInt List

/-! What a header block declares, in its own terms. -/

/-- The header of a request ends with the first empty line. -/
structure HeaderEnds (data : Bytes) (headerLen : Nat) : Prop where
  ends : ∃ front behind, data = front ++ crlfcrlf ++ behind ∧ headerLen = front.length + 4
  first : ∀ front behind, data = front ++ crlfcrlf ++ behind → headerLen ≤ front.length + 4

/-- The lines of a header block. -/
def blockLines (block : Bytes) : List Bytes := (block.splitOn 10).map chomp

/-- The lines that `parseContentLength` comes to. It stops at the first empty one, which stands
in front of the end of the block if it ends with a bare line feed. -/
def linesRead (block : Bytes) : List Bytes := (blockLines block).takeWhile (· ≠ [])

def IsLength (line : Bytes) : Prop :=
  Similar (line.take fastHeaderContentLength.length) fastHeaderContentLength

instance (line : Bytes) : Decidable (IsLength line) :=
  inferInstanceAs (Decidable (Similar _ _))

/-- What stands behind the colon of a length, and the same without the blanks around it. -/
def lengthRest (line : Bytes) : Bytes := line.drop fastHeaderContentLength.length

def lengthText (line : Bytes) : Bytes := strip (lengthRest line)

/-- The number that a row of digits stands for. -/
def decimal (digits : Bytes) : Nat := digits.foldl (fun n c => n * 10 + (c - 48).toNat) 0

/-- A decimal number with nothing around it. -/
structure Decimal (text : Bytes) : Prop where
  some : text ≠ []
  digits : ∀ c ∈ text, isDigit c = true

instance (text : Bytes) : Decidable (Decimal text) :=
  decidable_of_iff (text ≠ [] ∧ text.all isDigit = true)
    ⟨fun both => ⟨both.1, List.all_eq_true.mp both.2⟩,
      fun number => ⟨number.some, List.all_eq_true.mpr number.digits⟩⟩

/-- The line gives a number that an `int` can hold. -/
structure Plain (size : Size) (line : Bytes) : Prop where
  decimal : Decimal (lengthText line)
  fits : FastHttp.decimal (lengthText line) < size.limit

instance (size : Size) (line : Bytes) : Decidable (Plain size line) :=
  decidable_of_iff (Decimal (lengthText line) ∧ decimal (lengthText line) < size.limit)
    ⟨fun both => ⟨both.1, both.2⟩, fun plain => ⟨plain.decimal, plain.fits⟩⟩

/-- The last line that gives a length, if there is one. -/
def lastLength (lines : List Bytes) : Option Bytes := (lines.filter (IsLength ·)).getLast?

/-- The length that the lines declare; of several the last counts. -/
def Declares (lines : List Bytes) (v : Nat) : Prop :=
  match lastLength lines with
  | none => v = 0
  | some line => Decimal (lengthText line) ∧ v = decimal (lengthText line)

/-- The digits that a value starts with, whatever follows them. -/
def leadingDigits (line : Bytes) : Bytes :=
  ((lengthRest line).dropWhile isBlank).takeWhile isDigit

/-- What is left of the last length in an `int`. -/
def leftOver (size : Size) (lines : List Bytes) : Int :=
  match lastLength lines with
  | none => 0
  | some line => size.wrap (decimal (leadingDigits line))

def AsksChunked (lines : List Bytes) : Prop :=
  ∃ line ∈ lines, startsWith line fastHeaderTransferEncoding = true ∧
    fastHeaderChunked <:+: toLower line

def AsksContinue (lines : List Bytes) : Prop :=
  ∃ line ∈ lines, startsWith line fastHeaderExpect = true ∧ fastTokenContinue <:+: toLower line

instance (lines : List Bytes) : Decidable (AsksChunked lines) :=
  inferInstanceAs (Decidable (∃ line ∈ lines, _ ∧ _))

instance (lines : List Bytes) : Decidable (AsksContinue lines) :=
  inferInstanceAs (Decidable (∃ line ∈ lines, _ ∧ _))

/-- Some length is left open. -/
def LeftOpen (lines : List Bytes) : Prop := ∃ line ∈ lines, IsLength line ∧ lengthText line = []

instance (lines : List Bytes) : Decidable (LeftOpen lines) :=
  inferInstanceAs (Decidable (∃ line ∈ lines, _ ∧ _))

section Digits

variable {size : Size}

theorem wrap_step (n d : Int) :
    size.wrap (size.wrap (size.wrap n * 10) + d) = size.wrap (n * 10 + d) := by
  simp only [Size.wrap, Int.bmod_mul_bmod, Int.bmod_add_bmod]

theorem digit_iff : ∀ ch : UInt8, (ch < 48 ∨ ch > 57) ↔ isDigit ch = false := by
  decide +kernel

theorem digitLoop_eq (n : Nat) (text : Bytes) :
    digitLoop size (size.wrap n) text =
      size.wrap ((text.takeWhile isDigit).foldl (fun n c => n * 10 + (c - 48).toNat) n : Nat) := by
  induction text generalizing n with
  | nil => rfl
  | cons ch text ih =>
    rw [digitLoop, takeWhile_cons]
    by_cases digit : isDigit ch = true
    · rw [if_neg (by rw [digit_iff, digit]; decide), if_pos digit, foldl_cons, ← ih, wrap_step]
      push_cast
      rfl
    rw [if_pos ((digit_iff ch).mpr (by simpa using digit)), if_neg digit]
    rfl

theorem digitLoop_zero (text : Bytes) :
    digitLoop size 0 text = size.wrap (decimal (text.takeWhile isDigit)) := by
  have start := @digitLoop_eq size 0 text
  rwa [show size.wrap ((0 : Nat) : Int) = 0 by cases size <;> rfl] at start

end Digits

theorem strip_nil_iff (text : Bytes) : strip text = [] ↔ text.dropWhile isBlank = [] := by
  rw [strip, rdropWhile_eq_nil_iff, ← dropWhile_eq_nil_iff, dropWhile_idempotent]

/-- Behind the blanks in front stand the stripped text and the blanks at the end. -/
theorem strip_append (text : Bytes) :
    ∃ blanks, text.dropWhile isBlank = strip text ++ blanks ∧ ∀ c ∈ blanks, isBlank c = true :=
  ⟨(text.dropWhile isBlank).rtakeWhile isBlank, (rdropWhile_append_rtakeWhile ..).symm,
    fun _ member => mem_rtakeWhile_imp member⟩

theorem blank_not_digit : ∀ c : UInt8, isBlank c = true → isDigit c = false := by
  decide +kernel

/-- A number that stands alone is all of the leading digits. -/
theorem Decimal.leadingDigits {line : Bytes} (decimal : Decimal (lengthText line)) :
    leadingDigits line = lengthText line := by
  obtain ⟨blanks, split, blank⟩ := strip_append (lengthRest line)
  have void : blanks.takeWhile isDigit = [] := by
    cases blanks with
    | nil => rfl
    | cons c rest =>
      rw [takeWhile_cons_of_neg]
      rw [blank_not_digit c (blank c mem_cons_self)]
      decide
  change (lengthRest line).dropWhile isBlank = lengthText line ++ blanks at split
  rw [FastHttp.leadingDigits, split, takeWhile_append_of_pos decimal.digits, void, append_nil]

section Lines

variable {line : Bytes}

theorem fold_plain {c : UInt8} (plain : lowerASCII c ≠ 115 ∧ lowerASCII c ≠ 107) :
    foldForms c = [[lowerASCII c], [upperASCII (lowerASCII c)]] := by
  rw [foldForms, if_neg plain.1, if_neg plain.2, append_nil]

theorem lower_forms : ∀ c : UInt8, lowerASCII (lowerASCII c) = lowerASCII c ∧
    lowerASCII (upperASCII (lowerASCII c)) = lowerASCII c := by
  decide +kernel

/-- Without an s and a k only the case of letters is folded. -/
theorem equalFold_iff {s t : Bytes} (plain : ∀ c ∈ t, lowerASCII c ≠ 115 ∧ lowerASCII c ≠ 107) :
    equalFold s t = true ↔ Similar s t := by
  refine ⟨fun equal => ?_, equalFold_of_similar⟩
  induction t generalizing s with
  | nil =>
    rw [equalFold, decide_eq_true_eq] at equal
    rw [equal]
    exact WebSocket.Similar.refl []
  | cons c t ih =>
    rw [equalFold, any_eq_true] at equal
    obtain ⟨form, member, equal⟩ := equal
    rw [Bool.and_eq_true, isPrefixOf_iff_prefix] at equal
    obtain ⟨⟨rest, rfl⟩, equal⟩ := equal
    rw [drop_left] at equal
    have similar := ih (fun d inside => plain d (mem_cons_of_mem c inside)) equal
    rw [fold_plain (plain c mem_cons_self)] at member
    apply Similar.append (y := [c]) _ similar
    rcases mem_cons.mp member with rfl | member
    · exact congrArg (fun d => [d]) (lower_forms c).1
    rw [mem_singleton.mp member]
    exact congrArg (fun d => [d]) (lower_forms c).2

theorem startsWith_length (line : Bytes) :
    startsWith line fastHeaderContentLength = decide (IsLength line) := by
  have fold : equalFold (line.take fastHeaderContentLength.length) fastHeaderContentLength = true ↔
      IsLength line := equalFold_iff (by decide +kernel)
  rw [Bool.eq_iff_iff, startsWith, Bool.and_eq_true, decide_eq_true_eq, decide_eq_true_eq, fold]
  constructor
  · exact fun both => both.2
  intro length
  have same := Similar.length length
  rw [length_take] at same
  exact ⟨by omega, length⟩

theorem lower_colon : ∀ c : UInt8, lowerASCII c = 58 → c = 58 := by
  decide +kernel

/-- The name of a length has its colon at the end only. -/
theorem IsLength.cut (length : IsLength line) :
    ∃ name, line = name ++ 58 :: lengthRest line ∧ 58 ∉ name := by
  have header : fastHeaderContentLength = stringToBytes "Content-Length" ++ [58] := by
    decide +kernel
  unfold IsLength WebSocket.Similar at length
  nth_rewrite 2 [header] at length
  rw [map_append, map_eq_append_iff] at length
  obtain ⟨name, colon, front, lower, last⟩ := length
  obtain ⟨c, rfl, isColon⟩ := map_eq_singleton_iff.mp last
  rw [lower_colon c isColon] at front
  refine ⟨name, ?_, ?_⟩
  · rw [← singleton_append, ← append_assoc, ← front]
    exact (take_append_drop _ line).symm
  intro member
  have inside := mem_map_of_mem (f := lowerASCII) member
  rw [lower] at inside
  revert inside
  decide +kernel

theorem parseContentLengthValue_eq (size : Size) (length : IsLength line) :
    parseContentLengthValue size line =
      if lengthText line = [] then none else some (size.wrap (decimal (leadingDigits line))) := by
  obtain ⟨name, cut, plain⟩ := length.cut
  have found : indexByte line 58 = some name.length := by
    rw [cut]
    exact indexByte_cut plain _
  have behind : line.drop (name.length + 1) = lengthRest line := by
    nth_rewrite 1 [cut]
    exact drop_past name _ 58
  rw [parseContentLengthValue, found]
  dsimp only
  rw [behind, digitLoop_zero]
  by_cases empty : lengthText line = []
  · rw [if_pos empty, if_pos ((strip_nil_iff _).mp empty)]
  rw [if_neg empty, if_neg fun void => empty ((strip_nil_iff _).mpr void)]
  rfl

end Lines

section Scan

variable {size : Size} {line : Bytes} {lines : List Bytes}

theorem scan_marks (scan : Scan) (line : Bytes) :
    scanExpect (scanTransferEncoding scan line) line =
      { scan with
        chunked := scan.chunked || decide (AsksChunked [line])
        expectContinue := scan.expectContinue || decide (AsksContinue [line]) } := by
  simp only [scanExpect, scanTransferEncoding, AsksChunked, AsksContinue, mem_singleton,
    exists_eq_left]
  by_cases te : startsWith line fastHeaderTransferEncoding = true <;>
    by_cases chunked : fastHeaderChunked <:+: toLower line <;>
      by_cases expects : startsWith line fastHeaderExpect = true <;>
        by_cases continues : fastTokenContinue <:+: toLower line <;>
          simp [te, chunked, expects, continues]

theorem scanLine_eq (scan : Scan) (line : Bytes) :
    scanLine size scan line =
      if IsLength line ∧ lengthText line = [] then none
      else some
        { cl := if IsLength line then size.wrap (decimal (leadingDigits line)) else scan.cl
          hasCL := scan.hasCL || decide (IsLength line)
          chunked := scan.chunked || decide (AsksChunked [line])
          expectContinue := scan.expectContinue || decide (AsksContinue [line]) } := by
  rw [scanLine, startsWith_length]
  simp only [scan_marks]
  by_cases length : IsLength line
  · rw [parseContentLengthValue_eq size length]
    by_cases empty : lengthText line = [] <;> simp [length, empty]
  · simp [length]

theorem leftOpen_cons : LeftOpen (line :: lines) ↔
    (IsLength line ∧ lengthText line = []) ∨ LeftOpen lines := by
  simp only [LeftOpen, mem_cons, exists_eq_or_imp]

theorem asksChunked_cons :
    AsksChunked (line :: lines) ↔ AsksChunked [line] ∨ AsksChunked lines := by
  simp [AsksChunked]

theorem asksContinue_cons :
    AsksContinue (line :: lines) ↔ AsksContinue [line] ∨ AsksContinue lines := by
  simp [AsksContinue]

theorem lastLength_cons : lastLength (line :: lines) =
    (lastLength lines).or (if IsLength line then some line else none) := by
  unfold lastLength
  by_cases length : IsLength line
  · rw [filter_cons_of_pos (by simpa using length), getLast?_cons, if_pos length]
    cases (lines.filter (IsLength ·)).getLast? <;> rfl
  · rw [filter_cons_of_neg (by simpa using length), if_neg length, Option.or_none]

/-- The loop gives up at a length that is left open, and takes the last length otherwise. -/
theorem scan_lines (scan : Scan) (lines : List Bytes) :
    lines.foldlM (scanLine size) scan =
      if LeftOpen lines then none
      else some
        { cl := ((lastLength lines).map fun line =>
            size.wrap (decimal (leadingDigits line))).getD scan.cl
          hasCL := scan.hasCL || (lastLength lines).isSome
          chunked := scan.chunked || decide (AsksChunked lines)
          expectContinue := scan.expectContinue || decide (AsksContinue lines) } := by
  induction lines generalizing scan with
  | nil => simp [LeftOpen, lastLength, AsksChunked, AsksContinue]
  | cons line lines ih =>
    rw [foldlM_cons, scanLine_eq, lastLength_cons]
    simp only [leftOpen_cons, @asksChunked_cons line lines, @asksContinue_cons line lines]
    by_cases empty : IsLength line ∧ lengthText line = []
    · simp [empty]
    simp only [empty, if_false, false_or, Option.bind_eq_bind, Option.bind_some, ih,
      Bool.decide_or, Bool.or_assoc]
    by_cases open' : LeftOpen lines
    · simp [open']
    simp only [open', if_false]
    by_cases length : IsLength line <;> cases lastLength lines <;> simp [length]

theorem linesRead_cut {line : Bytes} (plain : 10 ∉ line) (rest : Bytes) :
    linesRead (line ++ 10 :: rest) =
      if chomp line = [] then [] else chomp line :: linesRead rest := linesOf_cut plain rest

theorem scanLoop_lines {header : Bytes} {n : Nat} (blank : Blank 10 13 header n) (rounds : Nat)
    (enough : header.length ≤ rounds) (scan : Scan) :
    scanLoop size rounds scan header = (linesRead header).foldlM (scanLine size) scan := by
  -- a round takes one line, and the lines end with the first empty one
  have round (rounds : Nat) (scan : Scan) {line : Bytes} (plain : 10 ∉ line) (rest : Bytes) :
      scanLoop size (rounds + 1) scan (line ++ 10 :: rest) =
        if chomp line = [] then some scan
        else (scanLine size scan (chomp line)).bind fun scan =>
          scanLoop size rounds scan rest := by
    rw [scanLoop, indexByte_cut plain]
    dsimp only
    rw [take_left, drop_past]
    simp only [← chomp_nil_iff]
    by_cases empty : chomp line = []
    · rw [if_pos empty, if_pos empty]
    rw [if_neg empty, if_neg empty]
    cases scanLine size scan (chomp line) <;> rfl
  induction blank generalizing rounds scan with
  | here line rest empty =>
    have stop := (chomp_nil_iff line).mpr empty
    have plain : 10 ∉ line := empty_plain (by decide) empty
    rw [length_append, length_cons] at enough
    obtain ⟨rounds, rfl⟩ := Nat.exists_eq_add_one_of_ne_zero (by omega : rounds ≠ 0)
    rw [round rounds scan plain, linesRead_cut plain, if_pos stop, if_pos stop]
    rfl
  | later line plain blank ih =>
    rename_i rest n
    rw [length_append, length_cons] at enough
    obtain ⟨rounds, rfl⟩ := Nat.exists_eq_add_one_of_ne_zero (by omega : rounds ≠ 0)
    rw [round rounds scan plain, linesRead_cut plain]
    by_cases stop : chomp line = []
    · rw [if_pos stop, if_pos stop]
      rfl
    rw [if_neg stop, if_neg stop, foldlM_cons]
    apply Option.bind_congr
    intro scan' _
    exact ih rounds (by omega) scan'

theorem parseContentLength_eq {header : Bytes} {n : Nat} (blank : Blank 10 13 header n) :
    parseContentLength size header =
      if LeftOpen (linesRead header) then none
      else some (leftOver size (linesRead header), decide (AsksChunked (linesRead header)),
        decide (AsksContinue (linesRead header))) := by
  rw [parseContentLength, scanLoop_lines blank _ (Nat.le_refl _), scan_lines]
  by_cases left : LeftOpen (linesRead header)
  · rw [if_pos left, if_pos left]
    rfl
  rw [if_neg left, if_neg left, leftOver]
  cases lastLength (linesRead header) <;> simp

end Scan

theorem index_none {sep data : Bytes} (absent : index sep data = none) (front behind : Bytes) :
    data ≠ front ++ sep ++ behind := by
  induction data generalizing front with
  | nil =>
    intro cut
    have empty : sep = [] := by
      have parts := append_eq_nil_iff.mp cut.symm
      exact (append_eq_nil_iff.mp parts.1).2
    rw [index, if_pos empty] at absent
    cases absent
  | cons c data ih =>
    have other : ¬ sep <+: c :: data := by
      intro here
      rw [index, if_pos here] at absent
      cases absent
    rw [index, if_neg other] at absent
    cases front with
    | nil => exact fun cut => other ⟨behind, cut.symm⟩
    | cons d front =>
      exact fun cut => ih (Option.map_eq_none_iff.mp absent) front (cons.inj cut).2

theorem index_some {sep data : Bytes} {n : Nat} (found : index sep data = some n) :
    (∃ front behind, data = front ++ sep ++ behind ∧ n = front.length) ∧
      ∀ front behind, data = front ++ sep ++ behind → n ≤ front.length := by
  induction data generalizing n with
  | nil =>
    rw [index] at found
    obtain ⟨rfl, found⟩ := Option.ite_none_right_eq_some.mp found
    cases found
    exact ⟨⟨[], [], rfl, rfl⟩, fun _ _ _ => Nat.zero_le _⟩
  | cons c data ih =>
    rw [index] at found
    by_cases here : sep <+: c :: data
    · rw [if_pos here] at found
      cases found
      obtain ⟨behind, cut⟩ := here
      exact ⟨⟨[], behind, cut.symm, rfl⟩, fun _ _ _ => Nat.zero_le _⟩
    rw [if_neg here] at found
    obtain ⟨m, later, rfl⟩ := Option.map_eq_some_iff.mp found
    obtain ⟨⟨front, behind, cut, length⟩, first⟩ := ih later
    refine ⟨⟨c :: front, behind, congrArg (c :: ·) cut, congrArg (· + 1) length⟩, ?_⟩
    intro front' behind' cut'
    cases front' with
    | nil => exact absurd ⟨behind', cut'.symm⟩ here
    | cons d front' => exact Nat.succ_le_succ (first front' behind' (cons.inj cut').2)

theorem headerEnds_iff (data : Bytes) (headerLen : Nat) :
    HeaderEnds data headerLen ↔ ∃ headerEnd, index crlfcrlf data = some headerEnd ∧
      headerLen = headerEnd + 4 := by
  constructor
  · rintro ⟨⟨front, behind, cut, rfl⟩, first⟩
    cases found : index crlfcrlf data with
    | none => exact absurd cut (index_none found front behind)
    | some headerEnd =>
      obtain ⟨⟨front', behind', cut', rfl⟩, least⟩ := index_some found
      have before := first front' behind' cut'
      have behind := least front behind cut
      exact ⟨_, rfl, by omega⟩
  rintro ⟨headerEnd, found, rfl⟩
  obtain ⟨⟨front, behind, cut, rfl⟩, least⟩ := index_some found
  exact ⟨⟨front, behind, cut, rfl⟩, fun front' behind' cut' =>
    Nat.add_le_add_right (least front' behind' cut') 4⟩

/-- A packet within these is marked, or not yet complete. -/
def Held (lim : Limits) (data : Bytes) (headerLen : Nat) (lines : List Bytes) (cl : Int) : Prop :=
  0 < lim.MaxHeaderBytes ∧ lim.MaxHeaderBytes < headerLen ∨ AsksChunked lines ∨
    AsksContinue lines ∨ 0 < lim.MaxBodyBytes ∧ lim.MaxBodyBytes < cl ∨
    data.length < headerLen + cl

theorem leftOver_fits (size : Size) (lines : List Bytes) : size.Fits (leftOver size lines) := by
  unfold leftOver
  split
  · cases size <;> decide
  · exact Size.fits_wrap _

section Packet

variable {size : Size} {lim : Limits} {data : Bytes} {headerLen : Nat}

theorem HeaderEnds.blank (ends : HeaderEnds data headerLen) :
    Blank 10 13 (data.take headerLen) headerLen ∧ headerLen ≤ data.length := by
  obtain ⟨⟨front, behind, rfl, rfl⟩, _⟩ := ends
  have size : (front ++ crlfcrlf).length = front.length + 4 := length_append
  refine ⟨?_, ?_⟩
  · rw [← size, take_left, size]
    exact Blank.of_double (by decide) front []
  rw [length_append, size]
  exact Nat.le_add_right ..

theorem parsePacket_incomplete (absent : index crlfcrlf data = none) :
    (parsePacket size lim data).context = none → (parsePacket size lim data).length = 0 := by
  rw [parsePacket, absent]
  split
  · nofun
  · exact fun _ => rfl

section

variable (ends : HeaderEnds data headerLen)
include ends

/-- What becomes of a packet whose header is complete. -/
theorem parsePacket_complete :
    parsePacket size lim data =
      if 0 < lim.MaxHeaderBytes ∧ lim.MaxHeaderBytes < headerLen then
        ⟨headerLen, headerLen, some .hdrLarge⟩
      else if LeftOpen (linesRead (data.take headerLen)) then ⟨-1, -1, none⟩
      else if AsksChunked (linesRead (data.take headerLen)) then
        ⟨headerLen, headerLen, some .chunked⟩
      else if AsksContinue (linesRead (data.take headerLen)) then
        ⟨headerLen, headerLen, some .expect⟩
      else
        let cl := leftOver size (linesRead (data.take headerLen))
        if 0 < lim.MaxBodyBytes ∧ lim.MaxBodyBytes < cl then
          ⟨headerLen, headerLen, some .bodyLarge⟩
        else if size.wrap (headerLen + cl) ≤ data.length then
          ⟨size.wrap (headerLen + cl), size.wrap (headerLen + cl), none⟩
        else ⟨0, size.wrap (headerLen + cl), none⟩ := by
  obtain ⟨headerEnd, found, rfl⟩ := (headerEnds_iff data headerLen).mp ends
  rw [parsePacket, if_neg (by rw [found]; nofun), found]
  dsimp only
  rw [parseContentLength_eq ends.blank.1]
  by_cases left : LeftOpen (linesRead (data.take (headerEnd + 4)))
  · simp only [left, if_true]
  · simp only [left, if_false, decide_eq_true_eq]

variable (lim) in
/-- A packet that is let through has the length of its header and of what is left of the last
length that was read: a sum that is too large for an `int` is not positive. -/
theorem parsePacket_passed (short : data.length < size.limit) :
    let lines := linesRead (data.take headerLen)
    let cl := leftOver size lines
    (0 < (parsePacket size lim data).length ∧ (parsePacket size lim data).context = none ↔
      ¬ LeftOpen lines ∧ ¬ Held lim data headerLen lines cl ∧ 0 < headerLen + cl) ∧
    (0 < (parsePacket size lim data).length → (parsePacket size lim data).context = none →
      (parsePacket size lim data).length = headerLen + cl) := by
  have inside := ends.blank.2
  obtain ⟨low, high⟩ := leftOver_fits size (linesRead (data.take headerLen))
  rw [parsePacket_complete ends]
  dsimp only
  unfold Held
  generalize leftOver size (linesRead (data.take headerLen)) = cl at low high ⊢
  have sum : size.wrap (headerLen + cl) = headerLen + cl ∨
      size.wrap (headerLen + cl) < 0 ∧ data.length < headerLen + cl := by
    by_cases fits : (headerLen + cl : Int) < size.limit
    · exact .inl (Size.wrap_of_fits ⟨by omega, fits⟩)
    rw [Size.wrap_of_over (by omega) (by omega)]
    exact .inr ⟨by omega, by omega⟩
  split_ifs with large left chunked continues big whole
  · exact ⟨iff_of_false nofun (by tauto), nofun⟩
  · exact ⟨iff_of_false (by decide) (by tauto), fun positive => absurd positive (by decide)⟩
  · exact ⟨iff_of_false nofun (by tauto), nofun⟩
  · exact ⟨iff_of_false nofun (by tauto), nofun⟩
  · exact ⟨iff_of_false nofun (by tauto), nofun⟩
  · simp only [large, left, chunked, continues, big, false_or, not_false_iff, true_and, and_true]
    omega
  · exact ⟨iff_of_false (by simp) (by omega), by simp⟩

/-- The packet is turned down with a negative length. -/
theorem parsePacket_negative_iff :
    (parsePacket size lim data).length < 0 ↔
      let lines := linesRead (data.take headerLen)
      let cl := leftOver size lines
      ¬ (0 < lim.MaxHeaderBytes ∧ lim.MaxHeaderBytes < headerLen) ∧
        (LeftOpen lines ∨
          ¬ AsksChunked lines ∧ ¬ AsksContinue lines ∧
            ¬ (0 < lim.MaxBodyBytes ∧ lim.MaxBodyBytes < cl) ∧ size.wrap (headerLen + cl) < 0) := by
  have positive : ¬ (headerLen : Int) < 0 := by omega
  rw [parsePacket_complete ends]
  dsimp only
  split_ifs with large left chunked continues big whole
  · exact iff_of_false positive fun both => both.1 large
  · exact iff_of_true (by decide) ⟨large, .inl left⟩
  · exact iff_of_false positive fun both => (both.2.resolve_left left).1 chunked
  · exact iff_of_false positive fun both => (both.2.resolve_left left).2.1 continues
  · exact iff_of_false positive fun both => (both.2.resolve_left left).2.2.1 big
  · exact ⟨fun below => ⟨large, .inr ⟨chunked, continues, big, below⟩⟩,
      fun both => (both.2.resolve_left left).2.2.2⟩
  apply iff_of_false (Int.lt_irrefl 0)
  rintro ⟨_, open' | ⟨_, _, _, below⟩⟩
  · exact left open'
  · exact whole (by omega)

end

end Packet

/-- The promise: a packet that is let through has the length that its header declares, and a header
that does not declare a length in decimal is refused. -/
structure TrueFraming (size : Size) (lim : Limits) (data : Bytes) : Prop where
  passed : 0 < (parsePacket size lim data).length → (parsePacket size lim data).context = none →
    ∃ headerLen v : Nat, HeaderEnds data headerLen ∧ Declares (blockLines (data.take headerLen)) v ∧
      (parsePacket size lim data).length = headerLen + v ∧
      (0 < lim.MaxBodyBytes → v ≤ lim.MaxBodyBytes)
  refused : ∀ headerLen, HeaderEnds data headerLen →
    (∃ line ∈ blockLines (data.take headerLen), IsLength line ∧ ¬ Plain size line) →
    (parsePacket size lim data).length < 0

/-- Every length of the block is a plain one, and no empty line hides the last of them (or the
packet is held back anyway); or the block is within its limit and the packet is turned down
nevertheless, for a length that is left open or because the sum comes out negative. -/
def PlainHeader (size : Size) (lim : Limits) (data : Bytes) : Prop :=
  ∀ headerLen, HeaderEnds data headerLen →
    let block := blockLines (data.take headerLen)
    let lines := linesRead (data.take headerLen)
    let cl := leftOver size lines
    (∀ line ∈ block, IsLength line → Plain size line) ∧
        (cl = leftOver size block ∨ Held lim data headerLen lines cl) ∨
      ¬ (0 < lim.MaxHeaderBytes ∧ lim.MaxHeaderBytes < headerLen) ∧
        (LeftOpen lines ∨
          ¬ AsksChunked lines ∧ ¬ AsksContinue lines ∧
            ¬ (0 < lim.MaxBodyBytes ∧ lim.MaxBodyBytes < cl) ∧ size.wrap (headerLen + cl) < 0)

section Framing

variable {size : Size} {lim : Limits} {data : Bytes} {headerLen : Nat} {lines : List Bytes}

theorem lastLength_mem {line : Bytes} (last : lastLength lines = some line) :
    line ∈ lines ∧ IsLength line := by
  have member := mem_filter.mp (mem_of_getLast? last)
  exact ⟨member.1, of_decide_eq_true member.2⟩

/-- A plain length is read as the number it is. -/
theorem plain_declares (plain : ∀ line ∈ lines, IsLength line → Plain size line) :
    ∃ v : Nat, Declares lines v ∧ leftOver size lines = v ∧ v < size.limit := by
  unfold Declares leftOver
  cases last : lastLength lines with
  | none => exact ⟨0, rfl, rfl, by cases size <;> decide⟩
  | some line =>
    obtain ⟨member, length⟩ := lastLength_mem last
    obtain ⟨number, fits⟩ := plain line member length
    refine ⟨decimal (lengthText line), ⟨number, rfl⟩, ?_, fits⟩
    dsimp only
    rw [number.leadingDigits]
    exact Size.wrap_of_fits ⟨by cases size <;> simp only [Size.limit] <;> omega, fits⟩

theorem Declares.unique {v w : Nat} (first : Declares lines v) (second : Declares lines w) :
    v = w := by
  unfold Declares at first second
  cases last : lastLength lines with
  | none =>
    rw [last] at first second
    exact first.trans second.symm
  | some line =>
    rw [last] at first second
    exact first.2.trans second.2.symm

theorem HeaderEnds.unique {other : Nat} (ends : HeaderEnds data headerLen)
    (ends' : HeaderEnds data other) : other = headerLen := by
  obtain ⟨front, behind, cut, rfl⟩ := ends.ends
  obtain ⟨front', behind', cut', rfl⟩ := ends'.ends
  exact Nat.le_antisymm (ends'.first front behind cut) (ends.first front' behind' cut')

theorem linesRead_plain {block : Bytes}
    (plain : ∀ line ∈ blockLines block, IsLength line → Plain size line) :
    ∃ v : Nat, leftOver size (linesRead block) = v := by
  have fewer : ∀ line ∈ linesRead block, IsLength line → Plain size line :=
    fun line member => plain line ((takeWhile_sublist _).subset member)
  obtain ⟨v, -, value, -⟩ := plain_declares fewer
  exact ⟨v, value⟩

end Framing

/-- The framing keeps its promise exactly for plain headers. A slice has a length that an `int`
can hold. -/
theorem true_framing_iff (size : Size) (lim : Limits) (data : Bytes)
    (short : data.length < size.limit) :
    TrueFraming size lim data ↔ PlainHeader size lim data := by
  constructor
  · intro framing headerLen ends
    dsimp only
    rw [← parsePacket_negative_iff ends]
    obtain ⟨passes, length⟩ := parsePacket_passed lim ends short
    by_cases negative : (parsePacket size lim data).length < 0
    · exact .inr negative
    have plain : ∀ line ∈ blockLines (data.take headerLen), IsLength line → Plain size line := by
      by_contra other
      push Not at other
      exact negative (framing.refused headerLen ends other)
    refine .inl ⟨plain, or_iff_not_imp_right.mpr fun free => ?_⟩
    -- the packet is let through, with the length that was read
    obtain ⟨w, value⟩ := linesRead_plain plain
    have front := ends.ends
    have closed : ¬ LeftOpen (linesRead (data.take headerLen)) := fun left =>
      negative ((parsePacket_negative_iff ends).mpr ⟨fun large => free (.inl large), .inl left⟩)
    obtain ⟨positive, unmarked⟩ := passes.mpr ⟨closed, free, by omega⟩
    obtain ⟨other, v, ends', declares, is, -⟩ := framing.passed positive unmarked
    rw [ends.unique ends', length positive unmarked] at is
    rw [ends.unique ends'] at declares
    obtain ⟨u, declares', total, -⟩ := plain_declares plain
    rw [total, declares'.unique declares]
    omega
  intro header
  refine ⟨fun positive unmarked => ?_, fun headerLen ends ⟨line, member, length, other⟩ => ?_⟩
  · cases found : index crlfcrlf data with
    | none =>
      rw [parsePacket_incomplete found unmarked] at positive
      exact absurd positive (Int.lt_irrefl 0)
    | some headerEnd =>
      have ends := (headerEnds_iff data (headerEnd + 4)).mpr ⟨headerEnd, found, rfl⟩
      obtain ⟨passes, length⟩ := parsePacket_passed lim ends short
      obtain ⟨-, free, -⟩ := passes.mp ⟨positive, unmarked⟩
      rcases header _ ends with ⟨plain, same | held⟩ | refused
      · obtain ⟨v, declares, value, -⟩ := plain_declares plain
        refine ⟨headerEnd + 4, v, ends, declares, ?_, fun limited => ?_⟩
        · rw [length positive unmarked, same, value]
        · by_contra above
          exact free (by unfold Held; rw [same, value]; omega)
      · exact absurd held free
      have negative := (parsePacket_negative_iff ends).mpr refused
      omega
  rcases header _ ends with ⟨plain, -⟩ | refused
  · exact absurd (plain line member length) other
  · exact (parsePacket_negative_iff ends).mpr refused

/-- A length that is 26 short of a multiple of the machine's range. -/
def wrappingRequest : Bytes :=
  stringToBytes "POST / HTTP/1.1\x0d\nContent-Length: 18446744073709551590\x0d\n\x0d\n"

/-- The packet ends inside its own header, which is 57 bytes long. -/
theorem wrapping_length_cuts_header :
    parsePacket .bits64 defaultLimits wrappingRequest = ⟨31, 31, none⟩ ∧
      HeaderEnds wrappingRequest 57 ∧ ¬ TrueFraming .bits64 defaultLimits wrappingRequest := by
  have parsed : parsePacket .bits64 defaultLimits wrappingRequest = ⟨31, 31, none⟩ := by
    decide +kernel
  have ends : HeaderEnds wrappingRequest 57 :=
    (headerEnds_iff _ _).mpr ⟨53, by decide +kernel, rfl⟩
  refine ⟨parsed, ends, fun framing => ?_⟩
  have positive : 0 < (parsePacket .bits64 defaultLimits wrappingRequest).length := by
    rw [parsed]
    decide
  obtain ⟨headerLen, v, ends', _, length, _⟩ := framing.passed positive (by rw [parsed])
  obtain ⟨⟨front, behind, cut, rfl⟩, _⟩ := ends'
  have least := ends.first front behind cut
  rw [parsed] at length
  dsimp only at length
  omega

def plainRequest : Bytes :=
  stringToBytes "POST / HTTP/1.1\x0d\nContent-Length: 2\x0d\n\x0d\nok"

theorem true_framing_iff_plainRequest :
    parsePacket .bits32 defaultLimits plainRequest = ⟨40, 40, none⟩ ∧
      TrueFraming .bits32 defaultLimits plainRequest := by
  refine ⟨by decide +kernel, (true_framing_iff _ _ _ (by decide +kernel)).mpr ?_⟩
  intro headerLen ends
  obtain ⟨headerEnd, found, rfl⟩ := (headerEnds_iff _ _).mp ends
  rw [show index crlfcrlf plainRequest = some 34 by decide +kernel] at found
  cases found
  exact .inl ⟨by decide +kernel, .inl (by decide +kernel)⟩

end Connaxis.Evhandler.FastHttp
