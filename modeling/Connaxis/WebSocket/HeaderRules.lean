import Connaxis.WebSocket.RequestLine
import Mathlib.Data.List.DropRight

namespace Connaxis.WebSocket

open Lines List

/-! Header lines in their own terms: a name and a value without blanks around them, compared
without regard to the case of letters, and lists of tokens between commas. The helpers of the
handshake are shown to compute these. -/

/-- A text without the blanks at its ends. -/
def strip (text : Bytes) : Bytes := (text.dropWhile isBlank).rdropWhile isBlank

theorem drop_takeWhile_length (p : UInt8 → Bool) (text : Bytes) :
    text.drop (text.takeWhile p).length = text.dropWhile p := by
  induction text with
  | nil => rfl
  | cons c text ih =>
    rw [takeWhile_cons, dropWhile_cons]
    split
    · exact ih
    · rfl

theorem trim_eq_strip (text : Bytes) : trim text = strip text := by
  have front := drop_takeWhile_length isBlank text
  rw [trim, drop_take, trimTo, trimFrom, front, strip, rdropWhile,
    ← drop_takeWhile_length isBlank (text.dropWhile isBlank).reverse, drop_reverse,
    reverse_reverse]
  congr 1
  have length := congrArg length front
  rw [length_drop] at length
  omega

/-- The part of a header line before its first colon. -/
def headerName (line : Bytes) : Bytes := strip (line.takeWhile (· ≠ 58))

/-- The part behind it. -/
def headerValue (line : Bytes) : Bytes := strip ((line.dropWhile (· ≠ 58)).drop 1)

/-- The line is of the header with this name. -/
def Named (header line : Bytes) : Prop := Similar (headerName line) header

instance (x y : Bytes) : Decidable (Similar x y) :=
  inferInstanceAs (Decidable (x.map lowerASCII = y.map lowerASCII))

instance (header line : Bytes) : Decidable (Named header line) :=
  inferInstanceAs (Decidable (Similar (headerName line) header))

variable {front : Bytes}

theorem takeWhile_cut {c : UInt8} (plain : c ∉ front) (rest : Bytes) :
    (front ++ c :: rest).takeWhile (· ≠ c) = front := by
  have all : ∀ b ∈ front, decide (b ≠ c) = true := by
    intro b member
    simp only [ne_eq, decide_eq_true_eq]
    rintro rfl
    exact plain member
  rw [takeWhile_append_of_pos all, takeWhile_cons_of_neg (by simp), append_nil]

theorem headerName_cut (plain : 58 ∉ front) (rest : Bytes) :
    headerName (front ++ 58 :: rest) = strip front := by
  rw [headerName, takeWhile_cut plain]

theorem headerValue_cut (plain : 58 ∉ front) (rest : Bytes) :
    headerValue (front ++ 58 :: rest) = strip rest := by
  rw [headerValue, ← drop_takeWhile_length, takeWhile_cut plain, drop_left' rfl]
  rfl

theorem parseHeaderLine_fst (line : Bytes) :
    (parseHeaderLine line).1 =
      if 58 ∈ line then some (canonicalizeBytes (headerName line), headerValue line) else none := by
  by_cases member : 58 ∈ line
  · obtain ⟨front, rest, rfl, plain⟩ := exists_cut member
    rw [if_pos member, parseHeaderLine, indexByte_cut plain, headerName_cut plain,
      headerValue_cut plain]
    dsimp only
    rw [take_left, drop_past, trim_eq_strip, trim_eq_strip]
  · rw [if_neg member, parseHeaderLine, indexByte_none member]

theorem canonicalByte_lower : ∀ (upper : Bool) (c : UInt8),
    canonicalByte upper c = canonicalByte upper (lowerASCII c) ∧ (c = 45 ↔ lowerASCII c = 45) := by
  rintro upper ⟨⟨n⟩⟩
  revert upper n
  decide +kernel

/-- The canonical form depends on a name up to the case of its letters only. -/
theorem canonicalizeLoop_congr {k k' : Bytes} (similar : Similar k k') (upper : Bool) :
    canonicalizeLoop upper k = canonicalizeLoop upper k' := by
  induction k generalizing k' upper with
  | nil =>
    have void : k' = [] := map_eq_nil_iff.mp similar.symm
    rw [void]
  | cons c k ih =>
    cases k' with
    | nil => cases similar
    | cons c' k' =>
      obtain ⟨first, rest⟩ := cons.inj similar
      have byte : canonicalByte upper c = canonicalByte upper c' := by
        rw [(canonicalByte_lower upper c).1, first, ← (canonicalByte_lower upper c').1]
      have dash : decide (c = 45) = decide (c' = 45) := by
        rw [decide_eq_decide, (canonicalByte_lower upper c).2, first,
          ← (canonicalByte_lower upper c').2]
      change canonicalByte upper c :: canonicalizeLoop (decide (c = 45)) k =
        canonicalByte upper c' :: canonicalizeLoop (decide (c' = 45)) k'
      rw [byte, dash, ih rest]

theorem canonicalizeBytes_eq_iff {header : Bytes} (canonical : canonicalizeBytes header = header)
    (name : Bytes) : canonicalizeBytes name = header ↔ Similar name header := by
  constructor
  · rintro rfl
    exact (canonicalizeBytes_similar name).symm
  intro similar
  rw [← canonical]
  exact canonicalizeLoop_congr similar true

theorem equalFoldASCII_iff (a b : Bytes) : equalFoldASCII a b = true ↔ Similar a b := by
  unfold equalFoldASCII Similar
  induction a generalizing b with
  | nil => cases b <;> simp
  | cons c a ih =>
    cases b with
    | nil => simp
    | cons c' b =>
      have rest := ih b
      simp only [Bool.and_eq_true, decide_eq_true_eq, length_cons, zip_cons_cons,
        all_cons, map_cons, cons.injEq, Nat.add_right_cancel_iff] at rest ⊢
      tauto

/-- One of the parts between the commas is the token. -/
def HasToken (token headerVal : Bytes) : Prop :=
  ∃ seg ∈ headerVal.splitOn 44, Similar (strip seg) token

variable {seg : Bytes}

theorem cutComma_cut (plain : 44 ∉ seg) (rest : Bytes) :
    cutComma (seg ++ 44 :: rest) = (seg, rest) := by
  rw [cutComma, indexByte_cut plain]
  dsimp only
  rw [take_left, drop_past]

theorem hasToken_cut (plain : 44 ∉ seg) (rest token : Bytes) :
    HasToken token (seg ++ 44 :: rest) ↔ Similar (strip seg) token ∨ HasToken token rest := by
  rw [HasToken, splitOn_append_cons_self_of_not_mem plain]
  simp only [mem_cons, exists_eq_or_imp]
  rfl

theorem hasToken_single {headerVal : Bytes} (plain : 44 ∉ headerVal) (token : Bytes) :
    HasToken token headerVal ↔ Similar (strip headerVal) token := by
  rw [HasToken, splitOn_eq_singleton plain]
  simp only [mem_singleton, exists_eq_left]

variable {token : Bytes}

theorem not_hasToken_nil (filled : token ≠ []) : ¬ HasToken token [] := by
  rw [hasToken_single not_mem_nil]
  exact fun similar => filled (map_eq_nil_iff.mp similar.symm)

theorem tokenLoop_iff (filled : token ≠ []) (rounds : Nat) (headerVal : Bytes)
    (enough : headerVal.length ≤ rounds) :
    tokenLoop token rounds headerVal = true ↔ HasToken token headerVal := by
  induction rounds generalizing headerVal with
  | zero =>
    have void : headerVal = [] := eq_nil_of_length_eq_zero (by omega)
    rw [void]
    exact iff_of_false (by simp [tokenLoop]) (not_hasToken_nil filled)
  | succ rounds ih =>
    by_cases naught : headerVal = []
    · rw [naught]
      exact iff_of_false (by simp [tokenLoop]) (not_hasToken_nil filled)
    have positive := length_pos_iff.mpr naught
    -- The first part decides, or the rest does.
    have step (seg rest : Bytes) (cut : cutComma headerVal = (seg, rest))
        (shorter : rest.length ≤ rounds) :
        tokenLoop token (rounds + 1) headerVal = true ↔
          Similar (strip seg) token ∨ HasToken token rest := by
      rw [tokenLoop, if_pos positive, cut]
      dsimp only
      rw [trim_eq_strip]
      by_cases blank : (strip seg).length = 0
      · have other : ¬ Similar (strip seg) token := by
          intro similar
          have length := similar.length
          rw [blank] at length
          exact filled (eq_nil_of_length_eq_zero length.symm)
        rw [if_pos blank, ih rest shorter]
        exact (or_iff_right other).symm
      rw [if_neg blank]
      by_cases found : equalFoldASCII (strip seg) token = true
      · rw [if_pos found]
        exact iff_of_true rfl (.inl ((equalFoldASCII_iff _ _).mp found))
      rw [if_neg found, ih rest shorter]
      exact (or_iff_right fun similar =>
        found ((equalFoldASCII_iff _ _).mpr similar)).symm
    by_cases comma : 44 ∈ headerVal
    · obtain ⟨seg, rest, rfl, plain⟩ := exists_cut comma
      rw [length_append, length_cons] at enough
      rw [step seg rest (cutComma_cut plain rest) (by omega), hasToken_cut plain]
    rw [step headerVal [] (by rw [cutComma, indexByte_none comma]) (Nat.zero_le _),
      hasToken_single comma]
    exact or_iff_left (not_hasToken_nil filled)

theorem containsTokenFoldASCII_iff (filled : token ≠ []) (headerVal : Bytes) :
    containsTokenFoldASCII headerVal token = true ↔ HasToken token headerVal :=
  tokenLoop_iff filled _ _ (Nat.le_refl _)

namespace Similar

variable {x y : Bytes}

theorem of_map {f : Bytes → Bytes}
    (commutes : ∀ z, (f z).map lowerASCII = f (z.map lowerASCII)) (similar : Similar x y) :
    Similar (f x) (f y) := by
  unfold Similar
  rw [commutes, commutes, similar]

theorem strip (similar : Similar x y) : Similar (strip x) (strip y) := by
  apply similar.of_map
  intro z
  have blind : isBlank ∘ lowerASCII = isBlank := by
    funext c
    obtain ⟨⟨n⟩⟩ := c
    revert n
    decide +kernel
  have first (z : Bytes) : (z.map lowerASCII).dropWhile isBlank =
      (z.dropWhile isBlank).map lowerASCII := by
    rw [dropWhile_map, blind]
  rw [WebSocket.strip, WebSocket.strip, rdropWhile, rdropWhile, first, map_reverse,
    ← first, map_reverse]

theorem before_colon (z : Bytes) : (z.map lowerASCII).takeWhile (· ≠ 58) =
    (z.takeWhile (· ≠ 58)).map lowerASCII := by
  rw [takeWhile_map]
  congr 2
  funext c
  simp [lower_colon]

theorem behind_colon (z : Bytes) : (z.map lowerASCII).dropWhile (· ≠ 58) =
    (z.dropWhile (· ≠ 58)).map lowerASCII := by
  rw [dropWhile_map]
  congr 2
  funext c
  simp [lower_colon]

theorem headerName (similar : Similar x y) : Similar (headerName x) (headerName y) := by
  have front : Similar (x.takeWhile (· ≠ 58)) (y.takeWhile (· ≠ 58)) :=
    similar.of_map fun z => (before_colon z).symm
  exact front.strip

theorem headerValue (similar : Similar x y) : Similar (headerValue x) (headerValue y) := by
  have back : Similar (x.dropWhile (· ≠ 58)) (y.dropWhile (· ≠ 58)) :=
    similar.of_map fun z => (behind_colon z).symm
  exact (back.drop 1).strip

theorem symm (similar : Similar x y) : Similar y x := Eq.symm similar

theorem trans {z : Bytes} (first : Similar x y) (second : Similar y z) : Similar x z :=
  Eq.trans first second

theorem named (similar : Similar x y) (header : Bytes) : Named header x ↔ Named header y :=
  ⟨fun same => similar.headerName.symm.trans same, fun same => similar.headerName.trans same⟩

end Similar

theorem lower_comma : ∀ b : UInt8, lowerASCII b = 44 ↔ b = 44 := by
  decide +kernel

/-- Texts that are similar are cut at the same comma. -/
theorem Similar.cut {seg' rest rest' : Bytes} (plain : 44 ∉ seg) (plain' : 44 ∉ seg')
    (similar : Similar (seg ++ 44 :: rest) (seg' ++ 44 :: rest')) :
    Similar seg seg' ∧ Similar rest rest' := by
  have lower {seg : Bytes} (plain : 44 ∉ seg) : 44 ∉ seg.map lowerASCII := by
    simpa only [mem_map, lower_comma, exists_eq_right] using plain
  rw [Similar, map_append, map_append] at similar
  exact cut_unique (lower plain) (lower plain') similar

theorem Similar.hasToken {x y : Bytes} (similar : Similar x y) (found : HasToken token x) :
    HasToken token y := by
  induction length : x.length using Nat.strong_induction_on generalizing x y with
  | _ n ih =>
    by_cases comma : 44 ∈ x
    · obtain ⟨seg, rest, rfl, plain⟩ := exists_cut comma
      obtain ⟨seg', rest', rfl, plain'⟩ := exists_cut ((similar.mem_iff lower_comma).mp comma)
      obtain ⟨first, second⟩ := Similar.cut plain plain' similar
      rw [length_append, length_cons] at length
      rw [hasToken_cut plain] at found
      rw [hasToken_cut plain']
      rcases found with here | later
      · exact .inl (first.strip.symm.trans here)
      · exact .inr (ih rest.length (by omega) second later rfl)
    have comma' := fun member => comma ((similar.mem_iff lower_comma).mpr member)
    rw [hasToken_single comma] at found
    rw [hasToken_single comma']
    exact similar.strip.symm.trans found

end Connaxis.WebSocket
