import Mathlib.Data.List.Basic

namespace Connaxis.Lines

open List

variable {α : Type} {lf cr : α} {line rest : List α}

/-- There is one way to cut a text behind its first line. -/
theorem cut_unique {line' rest' : List α} (plain : lf ∉ line) (plain' : lf ∉ line')
    (same : line ++ lf :: rest = line' ++ lf :: rest') : line = line' ∧ rest = rest' := by
  induction line generalizing line' with
  | nil =>
    cases line' with
    | nil => exact ⟨rfl, (cons.inj same).2⟩
    | cons c line' => exact absurd ((cons.inj same).1 ▸ mem_cons_self) plain'
  | cons c line ih =>
    cases line' with
    | nil => exact absurd ((cons.inj same).1 ▸ mem_cons_self) plain
    | cons c' line' =>
      obtain ⟨head, tail⟩ := cons.inj same
      obtain ⟨rfl, rfl⟩ := ih (not_mem_of_not_mem_cons plain) (not_mem_of_not_mem_cons plain') tail
      exact ⟨congrArg (· :: line) head, rfl⟩

theorem exists_cut {text : List α} (member : lf ∈ text) :
    ∃ line rest, text = line ++ lf :: rest ∧ lf ∉ line := by
  induction text with
  | nil => cases member
  | cons c text ih =>
    by_cases first : c = lf
    · exact ⟨[], text, congrArg (· :: text) first, nofun⟩
    obtain ⟨line, rest, cut, plain⟩ :=
      ih ((mem_cons.mp member).resolve_left fun same => first same.symm)
    refine ⟨c :: line, rest, congrArg (c :: ·) cut, fun found => ?_⟩
    exact (mem_cons.mp found).elim (fun same => first same.symm) plain

theorem idxOf?_cut [DecidableEq α] (plain : lf ∉ line) (rest : List α) :
    (line ++ lf :: rest).idxOf? lf = some line.length := by
  induction line with
  | nil => simp [idxOf?_cons]
  | cons c line ih =>
    have other : (c == lf) = false := by
      rw [beq_eq_false_iff_ne]
      exact fun same => plain (same ▸ mem_cons_self)
    rw [cons_append, idxOf?_cons, other, ih (not_mem_of_not_mem_cons plain)]
    rfl

/-- `n` is the offset just behind an empty line. A line ends with `lf`, before which a `cr`
may stand. -/
inductive Blank (lf cr : α) : List α → Nat → Prop
  | here (line rest : List α) (empty : line = [] ∨ line = [cr]) :
      Blank lf cr (line ++ lf :: rest) (line.length + 1)
  | later (line : List α) {rest : List α} {n : Nat} (plain : lf ∉ line)
      (blank : Blank lf cr rest n) : Blank lf cr (line ++ lf :: rest) (line.length + 1 + n)

variable {n : Nat}

theorem Blank.le_length {text : List α} (blank : Blank lf cr text n) : n ≤ text.length := by
  induction blank with
  | here | later =>
    rw [length_append, length_cons]
    omega

theorem empty_plain (distinct : cr ≠ lf) (empty : line = [] ∨ line = [cr]) : lf ∉ line := by
  rcases empty with rfl | rfl
  · nofun
  · simpa using distinct.symm

/-- An empty line is the first line or one of those behind it. -/
theorem Blank.cut (distinct : cr ≠ lf) (blank : Blank lf cr (line ++ lf :: rest) n)
    (plain : lf ∉ line) :
    n = line.length + 1 ∧ (line = [] ∨ line = [cr]) ∨
      ∃ m, n = line.length + 1 + m ∧ Blank lf cr rest m := by
  generalize whole : line ++ lf :: rest = text at blank
  cases blank with
  | here line' rest' empty =>
    obtain ⟨rfl, rfl⟩ := cut_unique plain (empty_plain distinct empty) whole
    exact .inl ⟨rfl, empty⟩
  | later line' plain' blank =>
    obtain ⟨rfl, rfl⟩ := cut_unique plain plain' whole
    exact .inr ⟨_, rfl, blank⟩

/-- Two line ends in a row. -/
theorem Blank.of_double (distinct : cr ≠ lf) (front rest : List α) :
    Blank lf cr (front ++ cr :: lf :: cr :: lf :: rest) (front.length + 4) := by
  induction size : front.length using Nat.strongRecOn generalizing front with
  | ind size ih =>
    by_cases more : lf ∈ front
    · obtain ⟨line, behind, rfl, plain⟩ := exists_cut more
      rw [length_append, length_cons] at size
      have blank := Blank.later line plain (ih _ (by omega) behind rfl)
      rw [append_assoc, cons_append]
      convert blank using 1
      omega
    have plain : lf ∉ front ++ [cr] := by
      rw [mem_append, mem_singleton]
      exact not_or.mpr ⟨more, distinct.symm⟩
    have blank := Blank.later (front ++ [cr]) plain
      (show Blank lf cr ([cr] ++ lf :: rest) _ from .here [cr] rest (.inr rfl))
    rw [length_append, append_assoc, size] at blank
    exact blank

/-- The offset just behind the first empty line. -/
structure FirstBlank (lf cr : α) (text : List α) (n : Nat) : Prop where
  blank : Blank lf cr text n
  least : ∀ m, Blank lf cr text m → n ≤ m

theorem FirstBlank.here (distinct : cr ≠ lf) (empty : line = [] ∨ line = [cr]) (rest : List α) :
    FirstBlank lf cr (line ++ lf :: rest) (line.length + 1) := by
  refine ⟨.here line rest empty, fun m blank => ?_⟩
  rcases blank.cut distinct (empty_plain distinct empty) with ⟨rfl, _⟩ | ⟨k, rfl, _⟩ <;> omega

theorem FirstBlank.later (distinct : cr ≠ lf) (plain : lf ∉ line)
    (filled : ¬ (line = [] ∨ line = [cr])) (first : FirstBlank lf cr rest n) :
    FirstBlank lf cr (line ++ lf :: rest) (line.length + 1 + n) := by
  refine ⟨.later line plain first.blank, fun m blank => ?_⟩
  rcases blank.cut distinct plain with ⟨_, empty⟩ | ⟨k, rfl, behind⟩
  · exact absurd empty filled
  have least := first.least k behind
  omega

end Connaxis.Lines
