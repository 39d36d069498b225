import Connaxis.WebSocket.Handshake
import Connaxis.WebSocket.FrameCodec
import Connaxis.Lib.Lines

namespace Connaxis.WebSocket

open Lines List

/-- A line without the carriage return before its end. -/
def chomp (line : Bytes) : Bytes := if line.getLast? = some 13 then line.dropLast else line

theorem chomp_concat (line : Bytes) (c : UInt8) :
    chomp (line ++ [c]) = if c = 13 then line else line ++ [c] := by
  unfold chomp
  rw [getLast?_concat, dropLast_concat]
  simp only [Option.some.injEq]

theorem chomp_nil_iff (line : Bytes) : chomp line = [] ↔ line = [] ∨ line = [13] := by
  rcases eq_nil_or_concat' line with rfl | ⟨front, c, rfl⟩
  · exact iff_of_true rfl (.inl rfl)
  rw [chomp_concat]
  split
  · rename_i ends
    rw [ends]
    cases front with
    | nil => exact iff_of_true rfl (.inr rfl)
    | cons b front => simp
  rename_i other
  cases front with
  | nil => simpa using other
  | cons b front => simp

variable {line : Bytes}

theorem getLine_cut (plain : 10 ∉ line) (rest : Bytes) :
    getLine (line ++ 10 :: rest) = some (chomp line, line.length) := by
  unfold getLine indexByte
  rw [idxOf?_cut plain rest]
  dsimp only
  rcases eq_nil_or_concat' line with rfl | ⟨front, c, rfl⟩
  · rfl
  have before : (front ++ [c] ++ 10 :: rest).getD ((front ++ [c]).length - 1) 0 = c := by
    rw [length_append, length_singleton, Nat.add_sub_cancel, append_assoc,
      getD_append_right _ _ _ _ (Nat.le_refl _), Nat.sub_self]
    rfl
  rw [before, chomp_concat, take_left]
  split
  · rename_i ends
    rw [if_pos ends.2, length_append, length_singleton, Nat.add_sub_cancel, append_assoc, take_left]
  rename_i other
  rw [if_neg fun ends => other ⟨by simp, ends⟩]

/-- A line with the name of its header rewritten. -/
def rewritten (line : Bytes) : Bytes :=
  (parseHeaderLine (chomp line)).2 ++ line.drop (chomp line).length

theorem chomp_length (line : Bytes) : (chomp line).length ≤ line.length := by
  unfold chomp
  split
  · rw [length_dropLast]
    omega
  · exact Nat.le_refl _

/-- One round of the loop, on an input that goes on with a line. -/
theorem headerLoop_cut (rounds size : Nat) (plain : 10 ∉ line) (rest : Bytes) (state : Nat)
    (cli : HandshakeClient) :
    headerLoop (rounds + 1) size (line ++ 10 :: rest) state cli =
      if chomp line = [] then ⟨.ok (state, size + line.length + 1), cli, line ++ 10 :: rest⟩
      else match (parseHeaderLine (chomp line)).1 with
        | none => ⟨.error (-1, -1), cli, line ++ 10 :: rest⟩
        | some (key, val) =>
          match seeHeader state cli key val with
          | none => ⟨.error (-1, -1), cli, rewritten line ++ 10 :: rest⟩
          | some (state, cli) =>
            let next := headerLoop rounds (size + line.length + 1) rest state cli
            { next with inp := rewritten line ++ 10 :: next.inp } := by
  have behind : (line ++ 10 :: rest).drop (line.length + 1) = rest := by
    rw [drop_append, drop_eq_nil_of_le (by omega), Nat.add_sub_cancel_left]
    rfl
  have ending : ((line ++ 10 :: rest).take (line.length + 1)).drop (chomp line).length =
      line.drop (chomp line).length ++ [10] := by
    rw [take_append, take_of_length_le (by omega), Nat.add_sub_cancel_left,
      drop_append_of_le_length (chomp_length line)]
    rfl
  rw [headerLoop, if_neg (by simp), getLine_cut plain rest]
  dsimp only
  rw [behind, ending]
  simp only [length_eq_zero_iff]
  split
  · rfl
  unfold rewritten
  rcases parseHeaderLine (chomp line) with ⟨parsed, line'⟩
  cases parsed with
  | none => rfl
  | some header =>
    dsimp only
    cases seeHeader state cli header.1 header.2 with
    | none | some => simp only [append_assoc, singleton_append]

/-- How the headers up to an empty line are read: the loop as a relation. -/
inductive Reads : Nat → Bytes → Nat → HandshakeClient → Headers → Prop
  | stop (rest : Bytes) {line : Bytes} {size state : Nat} {cli : HandshakeClient}
      (plain : 10 ∉ line) (empty : chomp line = []) :
      Reads size (line ++ 10 :: rest) state cli
        ⟨.ok (state, size + line.length + 1), cli, line ++ 10 :: rest⟩
  | malformed (rest : Bytes) {line : Bytes} {size state : Nat} {cli : HandshakeClient}
      (plain : 10 ∉ line) (filled : chomp line ≠ [])
      (header : (parseHeaderLine (chomp line)).1 = none) :
      Reads size (line ++ 10 :: rest) state cli ⟨.error (-1, -1), cli, line ++ 10 :: rest⟩
  | refused (rest : Bytes) {line key val : Bytes} {size state : Nat} {cli : HandshakeClient}
      (plain : 10 ∉ line) (filled : chomp line ≠ [])
      (header : (parseHeaderLine (chomp line)).1 = .some (key, val))
      (seen : seeHeader state cli key val = none) :
      Reads size (line ++ 10 :: rest) state cli
        ⟨.error (-1, -1), cli, rewritten line ++ 10 :: rest⟩
  | next {line rest key val : Bytes} {size state state' : Nat} {cli cli' : HandshakeClient}
      {out : Headers} (plain : 10 ∉ line) (filled : chomp line ≠ [])
      (header : (parseHeaderLine (chomp line)).1 = .some (key, val))
      (seen : seeHeader state cli key val = .some (state', cli'))
      (reads : Reads (size + line.length + 1) rest state' cli' out) :
      Reads size (line ++ 10 :: rest) state cli
        { out with inp := rewritten line ++ 10 :: out.inp }

variable {inp : Bytes} {n rounds size state : Nat} {cli : HandshakeClient} {out : Headers}

theorem headerLoop_reads (blank : Blank 10 13 inp n) (enough : inp.length < rounds) :
    Reads size inp state cli (headerLoop rounds size inp state cli) := by
  have round {line rest : Bytes} {rounds size state : Nat} {cli : HandshakeClient}
      (plain : 10 ∉ line) (ahead : chomp line ≠ [] → ∀ size state cli,
        Reads size rest state cli (headerLoop rounds size rest state cli)) :
      Reads size (line ++ 10 :: rest) state cli
        (headerLoop (rounds + 1) size (line ++ 10 :: rest) state cli) := by
    rw [headerLoop_cut _ _ plain]
    split
    · rename_i empty
      exact .stop rest plain empty
    rename_i filled
    split
    · rename_i header
      exact .malformed rest plain filled header
    rename_i header
    split
    · rename_i seen
      exact .refused rest plain filled header seen
    rename_i seen
    exact .next plain filled header seen (ahead filled _ _ _)
  induction blank generalizing rounds size state cli with
  | here line rest empty =>
    cases rounds with
    | zero => cases enough
    | succ rounds =>
      exact round (empty_plain (by decide) empty) fun filled =>
        absurd ((chomp_nil_iff line).mpr empty) filled
  | later line plain blank ih =>
    rw [length_append, length_cons] at enough
    cases rounds with
    | zero => cases enough
    | succ rounds => exact round plain fun _ _ _ _ => ih (by omega)

section

variable (reads : Reads size inp state cli out)
include reads

theorem Reads.headerLoop_eq (enough : inp.length < rounds) :
    headerLoop rounds size inp state cli = out := by
  induction reads generalizing rounds with
  | stop _ plain empty | malformed _ plain some header | refused _ plain some header seen =>
    cases rounds with
    | zero => cases enough
    | succ rounds => simp [headerLoop_cut _ _ plain, *]
  | next plain filled header seen reads ih =>
    rw [length_append, length_cons] at enough
    cases rounds with
    | zero => cases enough
    | succ rounds =>
      have looped := ih (show _ < rounds by omega)
      simp [headerLoop_cut _ _ plain, filled, header, seen, looped]

/-- Up to an empty line the bytes behind it are not looked at. -/
theorem Reads.append (y : Bytes) :
    Reads size (inp ++ y) state cli { out with inp := out.inp ++ y } := by
  induction reads with
  | stop rest plain empty =>
    simpa using Reads.stop (rest ++ y) plain empty
  | malformed rest plain filled header =>
    simpa using Reads.malformed (rest ++ y) plain filled header
  | refused rest plain filled header seen =>
    simpa using Reads.refused (rest ++ y) plain filled header seen
  | next plain filled header seen reads ih =>
    simpa using Reads.next plain filled header seen ih

/-- With an empty line ahead, the loop refuses a header or stops behind that line. -/
theorem Reads.ends :
    out.verdict = .error (-1, -1) ∨
      ∃ seen m, out.verdict = .ok (seen, size + m) ∧ FirstBlank 10 13 inp m := by
  induction reads with
  | stop rest plain empty =>
    exact .inr ⟨_, _, rfl, .here (by decide) ((chomp_nil_iff _).mp empty) rest⟩
  | malformed | refused => exact .inl rfl
  | next plain filled header seen reads ih =>
    rename_i line rest _ _ size _ _ _ _ _
    refine ih.imp_right fun ⟨seen, m, ended, first⟩ => ⟨seen, line.length + 1 + m, ?_, ?_⟩
    · rw [ended, Nat.add_assoc size, Nat.add_assoc size]
    · exact .later (by decide) plain (fun empty => filled ((chomp_nil_iff line).mpr empty)) first

end

/-- The byte that `canonicalizeBytes` writes for one it finds. -/
def canonicalByte (upper : Bool) (c : UInt8) : UInt8 :=
  if upper ∧ 97 ≤ c ∧ c ≤ 122 then c - 32 else if !upper ∧ 65 ≤ c ∧ c ≤ 90 then c + 32 else c

theorem canonicalByte_facts : ∀ (upper : Bool) (c : UInt8),
    lowerASCII (canonicalByte upper c) = lowerASCII c ∧
      canonicalByte upper (canonicalByte upper c) = canonicalByte upper c ∧
      (canonicalByte upper c = 45 ↔ c = 45) := by
  rintro upper ⟨⟨n⟩⟩
  revert upper n
  decide +kernel

/-- Only the case of letters is touched. -/
theorem canonicalizeLoop_lower (upper : Bool) (k : Bytes) :
    (canonicalizeLoop upper k).map lowerASCII = k.map lowerASCII := by
  induction k generalizing upper with
  | nil => rfl
  | cons c k ih =>
    rw [canonicalizeLoop, map_cons, map_cons, ih]
    exact congrArg (· :: _) (canonicalByte_facts upper c).1

theorem canonicalizeLoop_again (upper : Bool) (k : Bytes) :
    canonicalizeLoop upper (canonicalizeLoop upper k) = canonicalizeLoop upper k := by
  induction k generalizing upper with
  | nil => rfl
  | cons c k ih =>
    obtain ⟨_, again, dash⟩ := canonicalByte_facts upper c
    have same : decide (canonicalByte upper c = 45) = decide (c = 45) := decide_eq_decide.mpr dash
    change canonicalByte upper (canonicalByte upper c) ::
        canonicalizeLoop (decide (canonicalByte upper c = 45))
          (canonicalizeLoop (decide (c = 45)) k) =
      canonicalByte upper c :: canonicalizeLoop (decide (c = 45)) k
    rw [again, same, ih]

/-- Two texts that differ in the case of letters only. -/
def Similar (x y : Bytes) : Prop := x.map lowerASCII = y.map lowerASCII

variable {c : UInt8}

namespace Similar

variable {x y x' y' : Bytes}

theorem refl (x : Bytes) : Similar x x := rfl

theorem length (similar : Similar x y) : x.length = y.length := by
  have length := congrArg List.length similar
  rwa [length_map, length_map] at length

theorem append (first : Similar x y) (second : Similar x' y') : Similar (x ++ x') (y ++ y') := by
  unfold Similar
  rw [map_append, map_append, first, second]

section

variable (similar : Similar x y)
include similar

theorem drop (n : Nat) : Similar (x.drop n) (y.drop n) := by
  unfold Similar
  rw [map_drop, map_drop, similar]

theorem reverse : Similar x.reverse y.reverse := by
  unfold Similar
  rw [map_reverse, map_reverse, similar]

theorem takeWhile_length {p : UInt8 → Bool} (blind : ∀ c, p (lowerASCII c) = p c) :
    (x.takeWhile p).length = (y.takeWhile p).length := by
  have folded (z : Bytes) : (z.takeWhile p).length = ((z.map lowerASCII).takeWhile p).length := by
    rw [takeWhile_map, length_map, show p ∘ lowerASCII = p from funext blind]
  rw [folded x, folded y, similar]

theorem indexByte (blind : ∀ b, lowerASCII b = c ↔ b = c) : indexByte x c = indexByte y c := by
  have folded (z : Bytes) : z.idxOf? c = (z.map lowerASCII).idxOf? c := by
    unfold idxOf?
    rw [findIdx?_map]
    congr 1
    funext b
    exact Bool.eq_iff_iff.mpr (by simp [blind b])
  unfold WebSocket.indexByte
  rw [folded x, folded y, similar]

theorem mem_iff (blind : ∀ b, lowerASCII b = c ↔ b = c) : c ∈ x ↔ c ∈ y := by
  have folded (z : Bytes) : c ∈ z ↔ c ∈ z.map lowerASCII := by
    simp only [mem_map, blind, exists_eq_right]
  rw [folded x, folded y, similar]

theorem trimFrom : trimFrom x = trimFrom y :=
  similar.takeWhile_length (by decide +kernel)

theorem trimTo : trimTo x = trimTo y := by
  unfold WebSocket.trimTo
  rw [similar.length, similar.trimFrom]
  congr 1
  exact (similar.drop _).reverse.takeWhile_length (by decide +kernel)

end

end Similar

theorem canonicalizeBytes_similar (k : Bytes) : Similar (canonicalizeBytes k) k :=
  canonicalizeLoop_lower true k

theorem lower_lf : ∀ b : UInt8, lowerASCII b = 10 ↔ b = 10 := by
  decide +kernel

theorem lower_cr : ∀ b : UInt8, lowerASCII b = 13 ↔ b = 13 := by
  decide +kernel

theorem lower_colon : ∀ b : UInt8, lowerASCII b = 58 ↔ b = 58 := by
  decide +kernel

theorem trim_bounds (inp : Bytes) : trimFrom inp ≤ trimTo inp ∧ trimTo inp ≤ inp.length := by
  have left : trimFrom inp ≤ inp.length := (takeWhile_sublist _).length_le
  have right := (takeWhile_sublist (l := (inp.drop (trimFrom inp)).reverse) isBlank).length_le
  rw [length_reverse, length_drop] at right
  unfold trimTo
  omega

/-- The part of a header line before the colon, with the name rewritten. -/
def canonicalName (front : Bytes) : Bytes :=
  front.take (trimFrom front) ++ canonicalizeBytes (trim front) ++ front.drop (trimTo front)

theorem trim_parts (front : Bytes) :
    front.take (trimFrom front) ++ trim front ++ front.drop (trimTo front) = front := by
  have left : front.take (trimFrom front) = (front.take (trimTo front)).take (trimFrom front) := by
    rw [take_take, Nat.min_eq_left (trim_bounds front).1]
  rw [left, trim, take_append_drop, take_append_drop]

theorem canonicalName_similar (front : Bytes) : Similar (canonicalName front) front := by
  conv_rhs => rw [← trim_parts front]
  exact ((Similar.refl _).append (canonicalizeBytes_similar _)).append (Similar.refl _)

theorem canonicalName_again (front : Bytes) :
    canonicalizeBytes (trim (canonicalName front)) = canonicalizeBytes (trim front) ∧
      canonicalName (canonicalName front) = canonicalName front := by
  have similar := canonicalName_similar front
  have bounds := trim_bounds front
  have left : (front.take (trimFrom front)).length = trimFrom front := by
    rw [length_take]
    omega
  have name : (canonicalizeBytes (trim front)).length = trimTo front - trimFrom front := by
    rw [(canonicalizeBytes_similar _).length, trim, length_drop, length_take]
    omega
  have until_ : (front.take (trimFrom front) ++ canonicalizeBytes (trim front)).length =
      trimTo front := by
    rw [length_append, left, name]
    omega
  have before : (canonicalName front).take (trimFrom front) = front.take (trimFrom front) := by
    rw [canonicalName, append_assoc, take_append_of_le_length (by omega),
      take_of_length_le (by omega)]
  have trimmed : ((canonicalName front).take (trimTo front)).drop (trimFrom front) =
      canonicalizeBytes (trim front) := by
    rw [canonicalName, take_append_of_le_length (by omega), take_of_length_le (by omega),
      drop_append_of_le_length (by omega), drop_eq_nil_of_le (by omega), nil_append]
  have behind : (canonicalName front).drop (trimTo front) = front.drop (trimTo front) := by
    rw [canonicalName, drop_append, drop_eq_nil_of_le (by omega), nil_append, until_,
      Nat.sub_self, drop_zero]
  have once : canonicalizeBytes (canonicalizeBytes (trim front)) = canonicalizeBytes (trim front) :=
    canonicalizeLoop_again true _
  have name' : trim (canonicalName front) = canonicalizeBytes (trim front) := by
    rw [trim, similar.trimFrom, similar.trimTo, trimmed]
  refine ⟨by rw [name', once], ?_⟩
  conv_lhs => rw [canonicalName, name', similar.trimFrom, similar.trimTo, before, behind, once]
  rfl

theorem indexByte_lt {pos : Nat} (found : indexByte inp c = some pos) : pos < inp.length :=
  (findIdx?_eq_some_iff_getElem.mp found).1

theorem parseHeaderLine_some {pos : Nat} (found : indexByte line 58 = some pos) :
    parseHeaderLine line = (some (canonicalizeBytes (trim (line.take pos)),
      trim (line.drop (pos + 1))), canonicalName (line.take pos) ++ line.drop pos) := by
  unfold parseHeaderLine
  rw [found]
  rfl

theorem parseHeaderLine_none (absent : indexByte line 58 = none) :
    parseHeaderLine line = (none, line) := by
  unfold parseHeaderLine
  rw [absent]

theorem parseHeaderLine_similar (line : Bytes) : Similar (parseHeaderLine line).2 line := by
  cases found : indexByte line 58 with
  | none =>
    rw [parseHeaderLine_none found]
    exact Similar.refl line
  | some pos =>
    have parts := (canonicalName_similar (line.take pos)).append (Similar.refl (line.drop pos))
    rw [take_append_drop] at parts
    rw [parseHeaderLine_some found]
    exact parts

/-- A header line that was rewritten is read the same again. -/
theorem parseHeaderLine_again (line : Bytes) :
    parseHeaderLine (parseHeaderLine line).2 = parseHeaderLine line := by
  have similar := parseHeaderLine_similar line
  cases found : indexByte line 58 with
  | none => rw [parseHeaderLine_none found, parseHeaderLine_none found]
  | some pos =>
    have length : (canonicalName (line.take pos)).length = pos := by
      have inside := indexByte_lt found
      rw [(canonicalName_similar _).length, length_take]
      omega
    have front : (canonicalName (line.take pos) ++ line.drop pos).take pos =
        canonicalName (line.take pos) := take_left' length
    have back : (canonicalName (line.take pos) ++ line.drop pos).drop (pos + 1) =
        line.drop (pos + 1) := by
      rw [drop_append, drop_eq_nil_of_le (by omega), nil_append, length,
        Nat.add_sub_cancel_left, drop_drop]
    obtain ⟨name, again⟩ := canonicalName_again (line.take pos)
    rw [parseHeaderLine_some found] at similar ⊢
    rw [parseHeaderLine_some ((similar.indexByte lower_colon).trans found), front, name, again,
      back, drop_left' length]

theorem chomp_append (line : Bytes) : chomp line ++ line.drop (chomp line).length = line := by
  rcases eq_nil_or_concat' line with rfl | ⟨front, c, rfl⟩
  · rfl
  rw [chomp_concat]
  split
  · rw [drop_left]
  · rw [drop_length, append_nil]

theorem rewritten_similar (line : Bytes) : Similar (rewritten line) line := by
  conv_rhs => rw [← chomp_append line]
  exact (parseHeaderLine_similar (chomp line)).append (Similar.refl _)

/-- The end of a line is where it was. -/
theorem chomp_rewritten (line : Bytes) :
    chomp (rewritten line) = (parseHeaderLine (chomp line)).2 := by
  unfold rewritten
  rcases eq_nil_or_concat' line with rfl | ⟨front, c, rfl⟩
  · rfl
  rw [chomp_concat]
  split
  · rename_i ends
    rw [drop_left, chomp_concat, if_pos ends]
  rename_i other
  rw [drop_length, append_nil]
  have similar := parseHeaderLine_similar (front ++ [c])
  generalize (parseHeaderLine (front ++ [c])).2 = line' at similar
  rcases eq_nil_or_concat' line' with rfl | ⟨front', c', rfl⟩
  · rfl
  have last : lowerASCII c' = lowerASCII c := by
    have last := congrArg getLast? similar
    simpa using last
  rw [chomp_concat, if_neg]
  intro ends
  refine other ((lower_cr c).mp ?_)
  rw [← last, ends]
  rfl

theorem rewritten_again (line : Bytes) : rewritten (rewritten line) = rewritten line := by
  conv_lhs => rw [rewritten, chomp_rewritten, parseHeaderLine_again]
  rw [rewritten, drop_left]

theorem rewritten_plain (plain : 10 ∉ line) : 10 ∉ rewritten line := fun found =>
  plain (((rewritten_similar line).mem_iff lower_lf).mp found)

theorem chomp_rewritten_ne (filled : chomp line ≠ []) : chomp (rewritten line) ≠ [] := by
  rw [chomp_rewritten]
  intro empty
  have length := (parseHeaderLine_similar (chomp line)).length
  rw [empty] at length
  exact filled (eq_nil_of_length_eq_zero length.symm)

/-- The rewritten headers are read as the original ones. -/
theorem Reads.again (reads : Reads size inp state cli out) : Reads size out.inp state cli out := by
  have parsed {line : Bytes} {header : Bytes × Bytes}
      (parsed : (parseHeaderLine (chomp line)).1 = some header) :
      (parseHeaderLine (chomp (rewritten line))).1 = some header := by
    rw [chomp_rewritten, parseHeaderLine_again, parsed]
  induction reads with
  | stop rest plain empty => exact .stop rest plain empty
  | malformed rest plain filled header => exact .malformed rest plain filled header
  | refused rest plain filled header seen =>
    rename_i line _ _ size _ _
    have again : Reads size (rewritten line ++ 10 :: rest) _ _ _ :=
      .refused rest (rewritten_plain plain) (chomp_rewritten_ne filled) (parsed header) seen
    rwa [rewritten_again] at again
  | next plain filled header seen reads ih =>
    rename_i line _ _ _ size _ _ _ _ _
    have length : (rewritten line).length = line.length := (rewritten_similar line).length
    rw [← length] at ih
    have again := Reads.next (rewritten_plain plain) (chomp_rewritten_ne filled) (parsed header)
      seen ih
    rwa [rewritten_again] at again

theorem seeSecKey_client (cli cli' : HandshakeClient) (state : Nat) (key val : Bytes) :
    (seeSecKey state cli' key val).map Prod.fst = (seeSecKey state cli key val).map Prod.fst := by
  unfold seeSecKey
  split
  · split <;> rfl
  · rfl

variable {cli cli' : HandshakeClient}

/-- A header takes no notice of what the client was before, except for `AllowPlainHTTP`. -/
theorem seeHeader_client (allow : cli'.AllowPlainHTTP = cli.AllowPlainHTTP) (state : Nat)
    (key val : Bytes) :
    (seeHeader state cli' key val).map Prod.fst = (seeHeader state cli key val).map Prod.fst := by
  unfold seeHeader
  rw [allow]
  simp only [Option.map_bind, Option.map_map, Function.comp_def, seeSecKey_client cli cli']

theorem seeHeader_allow {state : Nat} {key val : Bytes} {seen : Nat × HandshakeClient}
    (found : seeHeader state cli key val = some seen) :
    seen.2.AllowPlainHTTP = cli.AllowPlainHTTP := by
  unfold seeHeader at found
  simp only [Option.bind_eq_some_iff, Option.map_eq_some_iff] at found
  obtain ⟨_, _, _, _, _, _, ⟨state', cli'⟩, keyed, rfl⟩ := found
  have kept : cli'.AllowPlainHTTP = cli.AllowPlainHTTP := by
    unfold seeSecKey at keyed
    split at keyed
    · split at keyed
      · cases keyed
      cases keyed
      rfl
    cases keyed
    rfl
  unfold seeSecExtensions
  split
  · exact kept
  · exact kept

theorem Reads.client (allow : cli'.AllowPlainHTTP = cli.AllowPlainHTTP)
    (reads : Reads size inp state cli out) :
    ∃ out', Reads size inp state cli' out' ∧ out'.inp = out.inp := by
  induction reads generalizing cli' with
  | stop rest plain empty => exact ⟨_, .stop rest plain empty, rfl⟩
  | malformed rest plain filled header => exact ⟨_, .malformed rest plain filled header, rfl⟩
  | refused rest plain filled header seen =>
    have same := (seeHeader_client allow _ _ _).trans (congrArg (Option.map Prod.fst) seen)
    rw [Option.map_none, Option.map_eq_none_iff] at same
    exact ⟨_, .refused rest plain filled header same, rfl⟩
  | next plain filled header seen reads ih =>
    have same := (seeHeader_client allow _ _ _).trans (congrArg (Option.map Prod.fst) seen)
    rw [Option.map_some, Option.map_eq_some_iff] at same
    obtain ⟨⟨_, client⟩, seen', rfl⟩ := same
    have kept := seeHeader_allow seen
    obtain ⟨out', reads', same⟩ := ih ((seeHeader_allow seen').trans (allow.trans kept.symm))
    exact ⟨_, .next plain filled header seen' reads', by rw [same]⟩

/-- The client as the handshake starts with it. -/
def HandshakeClient.start (cli : HandshakeClient) : HandshakeClient :=
  { cli with perMessageDeflate := false, PlainHTTP := false }

/-- A handshake that is complete, after its first line. -/
theorem parseHandshake_cut (cli : HandshakeClient) {rest : Bytes} (plain : 10 ∉ line)
    (complete : crlfcrlf <:+: line ++ 10 :: rest) :
    parseHandshake cli (line ++ 10 :: rest) =
      match parseRequestLine (chomp line) cli.AllowPlainHTTP with
      | none => ⟨-1, -1, cli.start, line ++ 10 :: rest⟩
      | some req =>
        let next := headerLoop ((line ++ 10 :: rest).length + 1)
          (line.length + 1) rest 0 cli.start
        match next.verdict with
        | .error (n, expect) => ⟨n, expect, next.cli, line ++ 10 :: next.inp⟩
        | .ok (state, size) => finishHandshake req state size next.cli
          (line ++ 10 :: next.inp) := by
  have behind : (line ++ 10 :: rest).drop (line.length + 1) = rest := by
    rw [drop_append, drop_eq_nil_of_le (by omega), Nat.add_sub_cancel_left]
    rfl
  have front (y : Bytes) : (line ++ 10 :: rest).take (line.length + 1) ++ y = line ++ 10 :: y := by
    rw [take_append, take_of_length_le (by omega), Nat.add_sub_cancel_left, append_assoc]
    rfl
  unfold parseHandshake
  rw [if_neg (not_not.mpr complete), getLine_cut plain rest]
  dsimp only
  rw [behind]
  simp only [front]
  rfl

/-- A complete handshake has a first line, and if that is a request the headers behind it are
read up to an empty line. -/
theorem complete_cut {x : Bytes} (complete : crlfcrlf <:+: x) :
    ∃ line rest, x = line ++ 10 :: rest ∧ 10 ∉ line ∧ (chomp line ≠ [] → ∀ cli,
      Reads (line.length + 1) rest 0 cli
        (headerLoop ((line ++ 10 :: rest).length + 1) (line.length + 1) rest 0 cli)) := by
  obtain ⟨front, behind, whole⟩ := complete
  have blank : Blank 10 13 x (front.length + 4) := by
    rw [← whole, append_assoc]
    exact .of_double (by decide) front behind
  have member : 10 ∈ x := by
    rw [← whole]
    simp [crlfcrlf]
  obtain ⟨line, rest, cut, plain⟩ := exists_cut member
  refine ⟨line, rest, cut, plain, fun filled cli => ?_⟩
  rw [cut] at blank
  rcases blank.cut (by decide) plain with ⟨_, empty⟩ | ⟨m, _, later⟩
  · exact absurd ((chomp_nil_iff line).mpr empty) filled
  apply headerLoop_reads later
  rw [length_append, length_cons]
  omega

theorem request_some {allow : Bool} {req : HttpRequestLine}
    (request : parseRequestLine line allow = some req) : line ≠ [] := by
  rintro rfl
  cases request

/-- What the last checks decide does not depend on the input that is returned. -/
theorem finishHandshake_inp (req : HttpRequestLine) (state size : Nat) (cli : HandshakeClient)
    (inp inp' : Bytes) :
    finishHandshake req state size cli inp' =
      { finishHandshake req state size cli inp with inp := inp' } := by
  unfold finishHandshake
  split
  · split <;> rfl
  · split <;> rfl

theorem finishHandshake_cases (req : HttpRequestLine) (state size : Nat) (cli : HandshakeClient)
    (inp : Bytes) :
    ((finishHandshake req state size cli inp).n = -1 ∨
        (finishHandshake req state size cli inp).n = size) ∧
      (finishHandshake req state size cli inp).inp = inp := by
  unfold finishHandshake
  split
  · split
    · exact ⟨.inl rfl, rfl⟩
    · exact ⟨.inr rfl, rfl⟩
  split
  · exact ⟨.inr rfl, rfl⟩
  · exact ⟨.inl rfl, rfl⟩

/-- Bytes behind a complete handshake change nothing. -/
theorem parseHandshake_append (cli : HandshakeClient) {x : Bytes} (complete : crlfcrlf <:+: x)
    (y : Bytes) :
    parseHandshake cli (x ++ y) =
      { parseHandshake cli x with inp := (parseHandshake cli x).inp ++ y } := by
  obtain ⟨line, rest, rfl, plain, ahead⟩ := complete_cut complete
  have complete' : crlfcrlf <:+: line ++ 10 :: (rest ++ y) := by
    obtain ⟨front, behind, whole⟩ := complete
    refine ⟨front, behind ++ y, ?_⟩
    rw [← append_assoc, whole, append_assoc, cons_append]
  have length : (rest ++ y).length < (line ++ 10 :: (rest ++ y)).length + 1 := by
    simp only [length_append, length_cons]
    omega
  rw [parseHandshake_cut cli plain complete, append_assoc, cons_append,
    parseHandshake_cut cli plain complete']
  cases request : parseRequestLine (chomp line) cli.AllowPlainHTTP with
  | none => simp only [append_assoc, cons_append]
  | some req =>
    rw [((ahead (request_some request) cli.start).append y).headerLoop_eq length]
    generalize headerLoop ((line ++ 10 :: rest).length + 1) (line.length + 1) rest 0 cli.start =
      next
    dsimp only
    cases next.verdict with
    | error refused => simp only [append_assoc, cons_append]
    | ok ended =>
      dsimp only
      rw [finishHandshake_inp req _ _ _ (line ++ 10 :: next.inp)
        (line ++ 10 :: (next.inp ++ y)),
        (finishHandshake_cases _ _ _ _ _).2, append_assoc, cons_append]

/-- A complete handshake is refused, or it ends behind its first empty line. -/
theorem parseHandshake_complete (cli : HandshakeClient) {x : Bytes} (complete : crlfcrlf <:+: x) :
    (parseHandshake cli x).n = -1 ∨
      ∃ n : Nat, (parseHandshake cli x).n = n ∧ 0 < n ∧ FirstBlank 10 13 x n := by
  obtain ⟨line, rest, rfl, plain, ahead⟩ := complete_cut complete
  rw [parseHandshake_cut cli plain complete]
  cases request : parseRequestLine (chomp line) cli.AllowPlainHTTP with
  | none => exact .inl rfl
  | some req =>
    have filled := request_some request
    have reads := ahead filled cli.start
    generalize headerLoop ((line ++ 10 :: rest).length + 1) (line.length + 1) rest 0 cli.start =
      next at reads
    dsimp only
    rcases reads.ends with refused | ⟨seen, m, ended, first⟩
    · rw [refused]
      exact .inl rfl
    rw [ended]
    refine (finishHandshake_cases _ _ _ _ _).1.imp id fun done => ⟨_, done, by omega, ?_⟩
    exact .later (by decide) plain (fun empty => filled ((chomp_nil_iff line).mpr empty)) first

theorem Reads.similar (reads : Reads size inp state cli out) : Similar out.inp inp := by
  induction reads with
  | stop | malformed => exact Similar.refl _
  | refused => exact (rewritten_similar _).append (Similar.refl _)
  | next _ _ _ _ _ ih =>
    exact (rewritten_similar _).append ((Similar.refl [10]).append ih)

theorem lower_crlfcrlf {c : Bytes} (same : c.map lowerASCII = crlfcrlf) : c = crlfcrlf := by
  simp only [crlfcrlf, map_eq_cons_iff, map_eq_nil_iff, lower_cr, lower_lf] at same
  obtain ⟨_, _, rfl, rfl, _, _, rfl, rfl, _, _, rfl, rfl, _, _, rfl, rfl, rfl⟩ := same
  rfl

theorem Similar.complete {x y : Bytes} (similar : Similar x y) (complete : crlfcrlf <:+: y) :
    crlfcrlf <:+: x := by
  obtain ⟨front, behind, rfl⟩ := complete
  rw [Similar, map_append, map_append] at similar
  obtain ⟨left, right, rfl, whole, _⟩ := map_eq_append_iff.mp similar
  obtain ⟨front', middle, rfl, _, same⟩ := map_eq_append_iff.mp whole
  rw [lower_crlfcrlf (same.trans (by decide))]
  exact ⟨front', right, rfl⟩

/-- A handshake whose header names have been rewritten is read the same again. -/
theorem parseHandshake_again (allow : cli'.AllowPlainHTTP = cli.AllowPlainHTTP) (x : Bytes) :
    parseHandshake cli' (parseHandshake cli x).inp = parseHandshake cli' x := by
  by_cases complete : crlfcrlf <:+: x
  · obtain ⟨line, rest, rfl, plain, ahead⟩ := complete_cut complete
    have cut := parseHandshake_cut cli plain complete
    cases request : parseRequestLine (chomp line) cli.AllowPlainHTTP with
    | none =>
      rw [request] at cut
      rw [cut]
    | some req =>
      have kept : (parseHandshake cli (line ++ 10 :: rest)).inp = line ++ 10 ::
          (headerLoop ((line ++ 10 :: rest).length + 1) (line.length + 1) rest 0
            cli.start).inp := by
        rw [cut, request]
        dsimp only
        split
        · rfl
        · exact (finishHandshake_cases _ _ _ _ _).2
      obtain ⟨out, reads, same⟩ := (ahead (request_some request) cli.start).client
        (show cli'.start.AllowPlainHTTP = cli.start.AllowPlainHTTP from allow)
      rw [kept, ← same]
      have enough : rest.length < (line ++ 10 :: rest).length + 1 := by
        rw [length_append, length_cons]
        omega
      have whole : Similar (line ++ 10 :: out.inp) (line ++ 10 :: rest) :=
        (Similar.refl line).append ((Similar.refl [10]).append reads.similar)
      rw [parseHandshake_cut cli' plain (whole.complete complete),
        parseHandshake_cut cli' plain complete, whole.length, reads.headerLoop_eq enough,
        reads.again.headerLoop_eq (reads.similar.length ▸ enough), allow, request]
  have same : (parseHandshake cli x).inp = x := by
    unfold parseHandshake
    rw [if_pos complete]
  rw [same]

/-- What the parsers have decided about the bytes received so far holds however the stream
goes on, and a handshake can be parsed again after its header names were rewritten. -/
theorem parsing_stable (limit : Int) (cli : HandshakeClient) (x : Bytes) :
    ((0 < (parseFrame limit x).1 → (parseFrame limit x).1 ≤ x.length ∧
          ∀ y, (parseFrame limit (x ++ y)).1 = (parseFrame limit x).1) ∧
        ((parseFrame limit x).1 < 0 → ∀ y, (parseFrame limit (x ++ y)).1 < 0) ∧
        ((parseFrame limit x).1 = 0 → x.length < (parseFrame limit x).2 ∧
          ∀ y, (x ++ y).length < (parseFrame limit x).2 → (parseFrame limit (x ++ y)).1 = 0)) ∧
      (0 < (parseHandshake cli x).n → (parseHandshake cli x).n ≤ x.length ∧
          ∀ y, (parseHandshake cli (x ++ y)).n = (parseHandshake cli x).n) ∧
        ((parseHandshake cli x).n < 0 → ∀ y, (parseHandshake cli (x ++ y)).n < 0) ∧
        ((parseHandshake cli x).n = 0 ↔ ¬ crlfcrlf <:+: x) ∧
        (0 < (parseHandshake cli x).n → ∃ n : Nat, (parseHandshake cli x).n = n ∧
          FirstBlank 10 13 x n ∧
          ∀ front behind, x = front ++ crlfcrlf ++ behind → n ≤ front.length + 4) ∧
        ∀ cli', cli'.AllowPlainHTTP = cli.AllowPlainHTTP →
          parseHandshake cli' (parseHandshake cli x).inp = parseHandshake cli' x := by
  have frame := parseFrame_append limit x
  have incomplete (partial_ : ¬ crlfcrlf <:+: x) : (parseHandshake cli x).n = 0 := by
    unfold parseHandshake
    rw [if_pos partial_]
  have decided (settled : (parseHandshake cli x).n ≠ 0) : crlfcrlf <:+: x := by
    by_contra partial_
    exact settled (incomplete partial_)
  have longer (settled : (parseHandshake cli x).n ≠ 0) (y : Bytes) :
      (parseHandshake cli (x ++ y)).n = (parseHandshake cli x).n := by
    rw [parseHandshake_append cli (decided settled)]
  have positive (found : 0 < (parseHandshake cli x).n) :
      ∃ n : Nat, (parseHandshake cli x).n = n ∧ FirstBlank 10 13 x n := by
    rcases parseHandshake_complete cli (decided (by omega)) with refused | ⟨n, ends, _, first⟩
    · omega
    · exact ⟨n, ends, first⟩
  refine ⟨⟨fun found => ⟨((frame []).1 found).1, fun y => ((frame y).1 found).2⟩,
      fun refused y => (frame y).2.1 refused,
      fun waits => ⟨((frame []).2.2 waits).1, fun y => ((frame y).2.2 waits).2⟩⟩,
    fun found => ⟨?_, longer (by omega)⟩, fun refused y => ?_,
      ⟨fun waits complete => ?_, incomplete⟩,
    fun found => ?_, fun cli' allow => parseHandshake_again allow x⟩
  · obtain ⟨n, ends, first⟩ := positive found
    have inside := first.blank.le_length
    omega
  · rw [longer (by omega) y]
    exact refused
  · rcases parseHandshake_complete cli complete with refused | ⟨n, ends, filled, _⟩ <;> omega
  obtain ⟨n, ends, first⟩ := positive found
  refine ⟨n, ends, first, fun front behind whole => first.least _ ?_⟩
  rw [whole, List.append_assoc]
  exact .of_double (by decide) front behind

end Connaxis.WebSocket
