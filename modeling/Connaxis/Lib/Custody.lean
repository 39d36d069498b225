import Mathlib.Data.List.Nodup

/-!
Tokens that are handed from holder to holder. Each holder keeps a list; tokens are numbered
in the order in which they are made. Nothing is lost and nothing is held twice as long as
every move leaves the holders it concerns with what they had between them.
-/

namespace Custody

open List

variable {ι : Type} {f f' : ι → List Nat} {n : Nat}

/-- One holder has the token, and has it once. -/
def Sole (f : ι → List Nat) (n : Nat) : Prop :=
  ∃ i, (f i).count n = 1 ∧ ∀ j, j ≠ i → n ∉ f j

/-- The tokens below `next` have been made, and each of them has one holder. -/
structure Exact (f : ι → List Nat) (next : Nat) : Prop where
  made : ∀ n, n < next → Sole f n
  unmade : ∀ n, next ≤ n → ∀ i, n ∉ f i

variable {I : List ι}

theorem count_flatMap_zero : (I.flatMap f).count n = 0 ↔ ∀ i ∈ I, n ∉ f i := by
  rw [count_eq_zero, mem_flatMap]
  constructor
  · intro absent i inside member
    exact absent ⟨i, inside, member⟩
  intro absent ⟨i, inside, member⟩
  exact absent i inside member

/-- A token that a group of holders has once is with one of them. -/
theorem sole_in (once : (I.flatMap f).count n = 1) :
    ∃ i ∈ I, (f i).count n = 1 ∧ ∀ j ∈ I, j ≠ i → n ∉ f j := by
  induction I with
  | nil => cases once
  | cons i I ih =>
    rw [flatMap_cons, count_append] at once
    by_cases here : n ∈ f i
    · have filled := count_pos_iff.mpr here
      have rest : (I.flatMap f).count n = 0 := by omega
      refine ⟨i, mem_cons_self, by omega, fun j inside other => ?_⟩
      exact count_flatMap_zero.mp rest j (mem_of_ne_of_mem other inside)
    have void := count_eq_zero.mpr here
    obtain ⟨k, inside, single, alone⟩ := ih (by omega)
    refine ⟨k, mem_cons_of_mem _ inside, single, fun j member other => ?_⟩
    rcases mem_cons.mp member with rfl | member
    · exact here
    · exact alone j member other

section

variable (distinct : I.Nodup)
include distinct

theorem count_flatMap_one {i : ι} (inside : i ∈ I) (once : (f i).count n = 1)
    (alone : ∀ j, j ≠ i → n ∉ f j) : (I.flatMap f).count n = 1 := by
  induction I with
  | nil => cases inside
  | cons k I ih =>
    obtain ⟨new, distinct⟩ := nodup_cons.mp distinct
    rw [flatMap_cons, count_append]
    rcases mem_cons.mp inside with rfl | inside
    · have rest : (I.flatMap f).count n = 0 :=
        count_flatMap_zero.mpr fun j member => alone j fun same => new (same ▸ member)
      omega
    have other : k ≠ i := fun same => new (same ▸ inside)
    have void := count_eq_zero.mpr (alone k other)
    have rest := ih distinct inside
    omega

section

variable (others : ∀ i, i ∉ I → f' i = f i)
include others

/-- A token stays with one holder when the holders of a group have it as often as before. -/
theorem Sole.moved (same : (I.flatMap f').count n = (I.flatMap f).count n) (sole : Sole f n) :
    Sole f' n := by
  obtain ⟨i, once, alone⟩ := sole
  by_cases inside : i ∈ I
  · rw [count_flatMap_one distinct inside once alone] at same
    obtain ⟨k, within, single, only⟩ := sole_in same
    refine ⟨k, single, fun j other => ?_⟩
    by_cases member : j ∈ I
    · exact only j member other
    rw [others j member]
    exact alone j fun clash => member (clash ▸ inside)
  have void : (I.flatMap f).count n = 0 :=
    count_flatMap_zero.mpr fun j member => alone j fun clash => inside (clash ▸ member)
  rw [void] at same
  refine ⟨i, by rw [others i inside, once], fun j other => ?_⟩
  by_cases member : j ∈ I
  · exact count_flatMap_zero.mp same j member
  rw [others j member]
  exact alone j other

/-- The rule for a move: a group of holders share what they had and what was made. -/
theorem Exact.moved {next made : Nat}
    (shared : (I.flatMap f').Perm (I.flatMap f ++ range' next made)) (exact : Exact f next) :
    Exact f' (next + made) := by
  have total (n : Nat) : (I.flatMap f').count n =
      (I.flatMap f).count n + (range' next made).count n := by
    rw [shared.count_eq, count_append]
  constructor
  · intro n small
    by_cases old : n < next
    · have void : (range' next made).count n = 0 := by
        rw [count_eq_zero, mem_range'_1]
        omega
      refine (exact.made n old).moved distinct others ?_
      rw [total, void, Nat.add_zero]
    have void : (I.flatMap f).count n = 0 :=
      count_flatMap_zero.mpr fun i _ => exact.unmade n (by omega) i
    have one : (range' next made).count n = 1 := by
      apply count_eq_one_of_mem nodup_range'
      rw [mem_range'_1]
      omega
    obtain ⟨i, inside, once, alone⟩ := sole_in (by rw [total, void, one])
    refine ⟨i, once, fun j other => ?_⟩
    by_cases member : j ∈ I
    · exact alone j member other
    rw [others j member]
    exact exact.unmade n (by omega) j
  intro n large i
  by_cases member : i ∈ I
  · have void : (I.flatMap f).count n = 0 :=
      count_flatMap_zero.mpr fun j _ => exact.unmade n (by omega) j
    have new : (range' next made).count n = 0 := by
      rw [count_eq_zero, mem_range'_1]
      omega
    exact count_flatMap_zero.mp (by rw [total, void, new]) i member
  rw [others i member]
  exact exact.unmade n (by omega) i

/-- A move that makes nothing. -/
theorem Exact.shared {next : Nat} (shared : (I.flatMap f').Perm (I.flatMap f))
    (exact : Exact f next) : Exact f' next := by
  have moved : Exact f' (next + 0) := by
    refine exact.moved distinct others ?_
    rw [range'_zero, append_nil]
    exact shared
  exact moved

end

end

end Custody
