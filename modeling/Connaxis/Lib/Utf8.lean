import Mathlib.Data.List.Basic

/- The byte-level view of UTF-8: the standard library's functions on byte strings, and the
automaton that reads one byte at a time. -/
namespace Utf8

open List

/-- How long the encoding is that starts with a byte; zero when none does. -/
def width (b : UInt8) : Nat :=
  if b < 0x80 then 1
  else if b < 0xC2 then 0
  else if b < 0xE0 then 2
  else if b < 0xF0 then 3
  else if b < 0xF5 then 4
  else 0

/-- The least second byte after a first one. -/
def lo (b : UInt8) : UInt8 := if b = 0xE0 then 0xA0 else if b = 0xF0 then 0x90 else 0x80

/-- The greatest second byte after a first one. -/
def hi (b : UInt8) : UInt8 := if b = 0xED then 0x9F else if b = 0xF4 then 0x8F else 0xBF

def within (low high b : UInt8) : Bool := low ≤ b ∧ b ≤ high

/-- The size `DecodeRune` returns: one for what is not a complete, well-formed encoding. -/
def decodeRune : List UInt8 → Nat
  | [] => 0
  | b0 :: rest =>
    let size := width b0
    if size ≤ 1 then 1
    else if rest.length + 1 < size then 1
    else if !within (lo b0) (hi b0) (rest.getD 0 0) then 1
    else if size ≤ 2 then 2
    else if !within 0x80 0xBF (rest.getD 1 0) then 1
    else if size ≤ 3 then 3
    else if !within 0x80 0xBF (rest.getD 2 0) then 1
    else 4

/-- Can the bytes be judged without more of them? -/
def fullRune : List UInt8 → Bool
  | [] => false
  | b0 :: rest =>
    if rest.length + 1 ≥ max 1 (width b0) then true
    else if rest.length > 0 ∧ !within (lo b0) (hi b0) (rest.getD 0 0) then true
    else if rest.length > 1 ∧ !within 0x80 0xBF (rest.getD 1 0) then true
    else false

def validLoop : Nat → List UInt8 → Bool
  | 0, p => p.isEmpty
  | _ + 1, [] => true
  | fuel + 1, b0 :: rest =>
    if b0 < 0x80 then validLoop fuel rest
    else
      let size := decodeRune (b0 :: rest)
      if size = 1 then false else validLoop fuel ((b0 :: rest).drop size)

def valid (p : List UInt8) : Bool := validLoop p.length p

/-- More bytes can make it valid. -/
def Extendable (p : List UInt8) : Prop := ∃ q, valid (p ++ q) = true

/-- How many bytes are owed, and the range of the next one. -/
structure State where
  need : Nat
  low : UInt8
  high : UInt8
deriving DecidableEq

def start : State := ⟨0, 0x80, 0xBF⟩

def step (s : State) (b : UInt8) : Option State :=
  match s.need with
  | 0 =>
    if width b = 0 then none
    else if width b = 1 then some start
    else some ⟨width b - 1, lo b, hi b⟩
  | need + 1 => if within s.low s.high b then some ⟨need, 0x80, 0xBF⟩ else none

def run : State → List UInt8 → Option State
  | s, [] => some s
  | s, b :: rest => match step s b with
    | none => none
    | some next => run next rest

theorem run_append (s : State) (p q : List UInt8) :
    run s (p ++ q) = (run s p).bind fun next => run next q := by
  induction p generalizing s with
  | nil => rfl
  | cons b p ih =>
    simp only [cons_append, run]
    cases step s b with
    | none => rfl
    | some next => exact ih next

theorem width_cases (b : UInt8) :
    width b = 0 ∧ 0x80 ≤ b ∨ width b = 1 ∧ b < 0x80 ∨
      0x80 ≤ b ∧ (width b = 2 ∨ width b = 3 ∨ width b = 4) := by
  unfold width
  split
  · rename_i ascii
    exact .inr (.inl ⟨rfl, ascii⟩)
  rename_i wide
  have high : 0x80 ≤ b := UInt8.not_lt.mp wide
  split
  · exact .inl ⟨rfl, high⟩
  split
  · exact .inr (.inr ⟨high, .inl rfl⟩)
  split
  · exact .inr (.inr ⟨high, .inr (.inl rfl)⟩)
  split
  · exact .inr (.inr ⟨high, .inr (.inr rfl)⟩)
  · exact .inl ⟨rfl, high⟩

/-- How the judgement on the front of a byte string relates to the automaton. -/
inductive Front (p : List UInt8) : Prop
  | whole (size : Nat) (decoded : decodeRune p = size) (wide : size ≠ 1) (positive : 0 < size)
      (fits : size ≤ p.length) (back : run start (p.take size) = some start) : Front p
  | broken (decoded : decodeRune p = 1) (full : fullRune p = true) (stuck : run start p = none) :
      Front p
  | cut (decoded : decodeRune p = 1) (owed : fullRune p = false) (state : State)
      (waiting : run start p = some state) (inside : state ≠ start) : Front p

variable {b : UInt8} (need : Nat)

theorem run_wide (wide : width b = need + 2) (rest : List UInt8) :
    run start (b :: rest) = run ⟨need + 1, lo b, hi b⟩ rest := by
  have first : step start b = some ⟨need + 1, lo b, hi b⟩ := by
    unfold step start
    rw [if_neg (by omega), if_neg (by omega), wide]
    rfl
  simp only [run, first]

variable {low high : UInt8}

theorem run_owed (rest : List UInt8) (inside : within low high b = true) :
    run ⟨need + 1, low, high⟩ (b :: rest) = run ⟨need, 0x80, 0xBF⟩ rest := by
  simp only [run, step, inside, if_true]

theorem run_stuck (rest : List UInt8) (outside : within low high b = false) :
    run ⟨need + 1, low, high⟩ (b :: rest) = none := by
  simp only [run, step, outside, Bool.false_eq_true, if_false]

theorem owing {need : Nat} : (⟨need + 1, low, high⟩ : State) ≠ start :=
  fun clash => nomatch congrArg State.need clash

/-- A lead byte with one to three bytes behind it, read as far as the string goes. -/
theorem front_wide {need : Nat} (few : need ≤ 2) (wide : width b = need + 2)
    (rest : List UInt8) : Front (b :: rest) := by
  have first := run_wide need wide
  match rest with
  | [] => exact .cut (by simp [decodeRune, wide]) (by simp [fullRune, wide]) _ (first []) owing
  | c :: rest =>
    cases second : within (lo b) (hi b) c with
    | false =>
      exact .broken (by simp [decodeRune, wide, second]) (by simp [fullRune, second])
        ((first _).trans (run_stuck need rest second))
    | true =>
      have next (rest : List UInt8) := (first (c :: rest)).trans (run_owed need rest second)
      match need, rest with
      | 0, _ =>
        exact .whole 2 (by simp [decodeRune, wide, second]) (by decide) (by decide) (by simp)
          (next [])
      | need + 1, [] =>
        exact .cut (by simp [decodeRune, wide]) (by simp [fullRune, wide, second]) _ (next []) owing
      | need + 1, d :: rest =>
        cases third : within 0x80 0xBF d with
        | false =>
          exact .broken (by simp [decodeRune, wide, second, third])
            (by simp [fullRune, second, third]) ((next _).trans (run_stuck need rest third))
        | true =>
          have then_ (rest : List UInt8) := (next (d :: rest)).trans (run_owed need rest third)
          match need, rest with
          | 0, _ =>
            exact .whole 3 (by simp [decodeRune, wide, second, third]) (by decide) (by decide)
              (by simp) (then_ [])
          | 1, [] =>
            exact .cut (by simp [decodeRune, wide]) (by simp [fullRune, wide, second, third]) _
              (then_ []) owing
          | 1, f :: rest =>
            cases fourth : within 0x80 0xBF f with
            | true =>
              exact .whole 4 (by simp [decodeRune, wide, second, third, fourth]) (by decide)
                (by decide) (by simp) ((then_ [f]).trans (run_owed 0 [] fourth))
            | false =>
              exact .broken (by simp [decodeRune, wide, second, third, fourth])
                (by simp [fullRune, wide]) ((then_ _).trans (run_stuck 0 rest fourth))

theorem front (b : UInt8) (rest : List UInt8) (wide : 0x80 ≤ b) : Front (b :: rest) := by
  rcases width_cases b with ⟨void, _⟩ | ⟨_, ascii⟩ | ⟨_, two | three | four⟩
  · refine .broken ?_ ?_ ?_
    · simp [decodeRune, void]
    · simp [fullRune, void]
    · simp [run, step, start, void]
  · exact absurd ascii (UInt8.not_lt.mpr wide)
  · exact front_wide (by decide) two rest
  · exact front_wide (by decide) three rest
  · exact front_wide (by decide) four rest

theorem step_ascii (ascii : b < 0x80) : step start b = some start := by
  have one : width b = 1 := if_pos ascii
  unfold step start
  rw [one]
  rfl

/-- A byte string is valid when the automaton ends where it started. -/
theorem validLoop_iff (fuel : Nat) (p : List UInt8) (enough : p.length ≤ fuel) :
    validLoop fuel p = true ↔ run start p = some start := by
  induction fuel generalizing p with
  | zero =>
    rw [eq_nil_of_length_eq_zero (Nat.le_zero.mp enough)]
    exact iff_of_true rfl rfl
  | succ fuel ih =>
    match p with
    | [] => exact iff_of_true rfl rfl
    | b :: rest =>
      rw [length_cons] at enough
      unfold validLoop
      by_cases ascii : b < 0x80
      · rw [if_pos ascii, ih rest (by omega)]
        simp only [run, step_ascii ascii]
      rw [if_neg ascii]
      cases front b rest (UInt8.not_lt.mp ascii) with
      | whole size decoded wide positive fits back =>
        rw [decoded, if_neg wide, ih _ (by simp only [length_drop, length_cons]; omega)]
        conv_rhs => rw [← take_append_drop size (b :: rest), run_append, back]
        rfl
      | broken decoded full stuck =>
        rw [decoded, stuck]
        simp
      | cut decoded owed state waiting inside =>
        rw [decoded, waiting]
        simp [inside]

theorem valid_iff (p : List UInt8) : valid p = true ↔ run start p = some start :=
  validLoop_iff p.length p (Nat.le_refl _)

/-- What holds of the states that the automaton can reach: some byte may come next, and
nothing is owed between two encodings only. -/
structure State.Open (s : State) : Prop where
  room : s.low ≤ s.high
  between : s.need = 0 → s = start

theorem lo_le_hi : ∀ b : UInt8, lo b ≤ hi b := by
  rintro ⟨⟨n⟩⟩
  revert n
  decide +kernel

theorem owed_open : State.Open ⟨need, 0x80, 0xBF⟩ :=
  ⟨(by decide : (0x80 : UInt8) ≤ 0xBF), fun void => congrArg (State.mk · 0x80 0xBF) void⟩

theorem step_open {s next : State} (done : step s b = some next) : next.Open := by
  unfold step at done
  split at done
  · split at done
    · cases done
    split at done
    · cases done
      exact owed_open 0
    cases done
    refine ⟨lo_le_hi b, fun void => ?_⟩
    dsimp only at void
    omega
  split at done
  · cases done
    exact owed_open _
  · cases done

variable {p : List UInt8}

theorem run_open {s final : State} (fine : s.Open) (done : run s p = some final) : final.Open := by
  induction p generalizing s with
  | nil =>
    cases done
    exact fine
  | cons b p ih =>
    unfold run at done
    split at done
    · cases done
    rename_i next stepped
    exact ih (step_open stepped) done

theorem within_low (room : low ≤ high) : within low high low = true :=
  decide_eq_true ⟨UInt8.le_refl _, room⟩

/-- From such a state the bytes that are owed lead back to the start. -/
theorem completion (fine : State.Open ⟨need, low, high⟩) :
    ∃ q, run ⟨need, low, high⟩ q = some start := by
  induction need generalizing low high with
  | zero => exact ⟨[], congrArg some (fine.between rfl)⟩
  | succ need ih =>
    obtain ⟨q, done⟩ := ih (owed_open need)
    exact ⟨low :: q, (run_owed need q (within_low fine.room)).trans done⟩

theorem extendable_iff (p : List UInt8) : Extendable p ↔ run start p ≠ none := by
  constructor
  · rintro ⟨q, whole⟩ stuck
    rw [valid_iff, run_append, stuck] at whole
    cases whole
  intro alive
  obtain ⟨s, reached⟩ := Option.ne_none_iff_exists'.mp alive
  obtain ⟨q, finished⟩ := completion s.need (run_open (owed_open 0) reached)
  refine ⟨q, ?_⟩
  rw [valid_iff, run_append, reached]
  exact finished

theorem valid_extendable (whole : valid p = true) : Extendable p :=
  ⟨[], by rw [append_nil]; exact whole⟩

/-- What comes before a boundary does not matter. -/
theorem valid_append (whole : valid p = true) (q : List UInt8) :
    (valid (p ++ q) = true ↔ valid q = true) ∧ (Extendable (p ++ q) ↔ Extendable q) := by
  rw [valid_iff] at whole
  rw [valid_iff, valid_iff, extendable_iff, extendable_iff, run_append, whole]
  exact ⟨Iff.rfl, Iff.rfl⟩

end Utf8
