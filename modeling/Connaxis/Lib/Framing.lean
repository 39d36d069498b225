import Mathlib.Data.List.Basic

/- Length-prefixed framing of a stream that arrives in pieces. A parser only
announces how long the first frame of its input is; nothing here fixes a
concrete format. -/
namespace Framing

open List

variable {α : Type}

/-- A parser never revises a length it has announced. -/
def PrefixStable (parse : List α → Nat) : Prop :=
  ∀ x y, 0 < parse x → parse (x ++ y) = parse x

/-- Greedy framing: the complete frames at the front, and the rest, on which the
parser announces no frame that is already complete. -/
def frames (parse : List α → Nat) (x : List α) : List (List α) × List α :=
  if _ : 0 < parse x ∧ parse x ≤ x.length then
    let rest := frames parse (x.drop (parse x))
    (x.take (parse x) :: rest.1, rest.2)
  else
    ([], x)
termination_by x.length
decreasing_by simp only [List.length_drop]; omega

variable (parse : List α → Nat)

theorem frames_step (x : List α) (complete : 0 < parse x ∧ parse x ≤ x.length) :
    frames parse x = (x.take (parse x) :: (frames parse (x.drop (parse x))).1,
      (frames parse (x.drop (parse x))).2) := by
  rw [frames]
  simp only [complete, and_self, ↓reduceDIte]

theorem frames_stop (x : List α) (partialFrame : ¬ (0 < parse x ∧ parse x ≤ x.length)) :
    frames parse x = ([], x) := by
  rw [frames]
  simp only [partialFrame, ↓reduceDIte]

@[simp] theorem frames_nil : frames parse [] = ([], []) := by
  apply frames_stop
  simp only [length_nil]
  omega

/-- Framing loses nothing and keeps the order. -/
theorem frames_flatten (x : List α) : (frames parse x).1.flatten ++ (frames parse x).2 = x := by
  by_cases complete : 0 < parse x ∧ parse x ≤ x.length
  · rw [frames_step parse x complete, flatten_cons, append_assoc,
      frames_flatten (x.drop (parse x)), take_append_drop]
  · rw [frames_stop parse x complete, flatten_nil, nil_append]
termination_by x.length
decreasing_by simp only [length_drop]; omega

theorem frames_rest (x : List α) : frames parse (frames parse x).2 = ([], (frames parse x).2) := by
  by_cases complete : 0 < parse x ∧ parse x ≤ x.length
  · rw [frames_step parse x complete]
    exact frames_rest (x.drop (parse x))
  rw [frames_stop parse x complete]
  exact frames_stop parse x complete
termination_by x.length
decreasing_by simp only [length_drop]; omega

/-- No frame is empty. -/
theorem frames_length (x : List α) : (frames parse x).1.length ≤ x.length := by
  by_cases complete : 0 < parse x ∧ parse x ≤ x.length
  · have later := frames_length (x.drop (parse x))
    rw [length_drop] at later
    rw [frames_step parse x complete, length_cons]
    omega
  · rw [frames_stop parse x complete]
    exact Nat.zero_le _
termination_by x.length
decreasing_by simp only [length_drop]; omega

/-- Cutting the stream anywhere and framing the second piece behind the first
one's rest gives the framing of the whole. -/
theorem frames_append (stable : PrefixStable parse) (x y : List α) :
    frames parse (x ++ y) =
      ((frames parse x).1 ++ (frames parse ((frames parse x).2 ++ y)).1,
        (frames parse ((frames parse x).2 ++ y)).2) := by
  by_cases complete : 0 < parse x ∧ parse x ≤ x.length
  · have same := stable x y complete.1
    have whole : 0 < parse (x ++ y) ∧ parse (x ++ y) ≤ (x ++ y).length := by
      rw [same, length_append]
      omega
    rw [frames_step parse (x ++ y) whole, frames_step parse x complete, same,
      take_append_of_le_length complete.2, drop_append_of_le_length complete.2,
      frames_append stable (x.drop (parse x)) y]
    rfl
  · rw [frames_stop parse x complete, nil_append]
termination_by x.length
decreasing_by simp only [length_drop]; omega

/-- Frames laid end to end are found again. -/
theorem frames_whole (stable : PrefixStable parse) (list : List (List α))
    (whole : ∀ x ∈ list, 0 < parse x ∧ parse x = x.length) (rest : List α) :
    frames parse (list.flatten ++ rest) =
      (list ++ (frames parse rest).1, (frames parse rest).2) := by
  induction list with
  | nil => rfl
  | cons x list ih =>
    obtain ⟨positive, length⟩ := whole x mem_cons_self
    have same : parse (x ++ (list.flatten ++ rest)) = x.length :=
      (stable x _ positive).trans length
    rw [flatten_cons, append_assoc, frames_step parse _ (by
        rw [same, length_append]
        omega),
      same, take_left, drop_left,
      ih fun y member => whole y (mem_cons_of_mem x member)]
    rfl

end Framing
