import Mathlib.Data.List.Nodup
import Mathlib.Data.Int.Order.Basic

/- Keys that grow old. A line holds each key with the time it was last heard of. Whoever
is heard of goes to the back, so the front has been silent for the longest time and the
expired keys are found there. -/
namespace Aging

open List

variable {κ : Type} [DecidableEq κ]

def push (line : List (κ × Int)) (key : κ) (now : Int) : List (κ × Int) := line ++ [(key, now)]

def remove (line : List (κ × Int)) (key : κ) : List (κ × Int) :=
  line.filter fun entry => entry.1 ≠ key

def refresh (line : List (κ × Int)) (key : κ) (now : Int) : List (κ × Int) :=
  push (remove line key) key now

/-- Take expired keys off the front, up to the first one that is not. -/
def expire (limit now : Int) (line : List (κ × Int)) : List (κ × Int) :=
  line.dropWhile fun entry => now - entry.2 > limit

/-- Every key stands there once, the longest silent first, and none was heard of in the
future. -/
structure Ordered (now : Int) (line : List (κ × Int)) : Prop where
  once : (line.map Prod.fst).Nodup
  sorted : (line.map Prod.snd).Pairwise (· ≤ ·)
  past : ∀ entry ∈ line, entry.2 ≤ now

variable {now : Int} {line : List (κ × Int)} {key : κ}

omit [DecidableEq κ] in
theorem Ordered.later {now' : Int} (ordered : Ordered now line) (later : now ≤ now') :
    Ordered now' line :=
  { ordered with past := fun entry member => Int.le_trans (ordered.past entry member) later }

omit [DecidableEq κ] in
theorem Ordered.sublist {line' : List (κ × Int)} (ordered : Ordered now line)
    (part : line'.Sublist line) : Ordered now line' where
  once := ordered.once.sublist (part.map _)
  sorted := ordered.sorted.sublist (part.map _)
  past entry member := ordered.past entry (part.subset member)

theorem Ordered.remove (ordered : Ordered now line) (key : κ) :
    Ordered now (Aging.remove line key) :=
  ordered.sublist filter_sublist

omit [DecidableEq κ] in
theorem Ordered.push (ordered : Ordered now line) (new : key ∉ line.map Prod.fst) :
    Ordered now (Aging.push line key now) := by
  refine ⟨?_, ?_, ?_⟩
  · rw [Aging.push, map_append, map_singleton]
    exact ordered.once.append (nodup_singleton key) (disjoint_singleton.mpr new)
  · rw [Aging.push, map_append, map_singleton, pairwise_append]
    refine ⟨ordered.sorted, pairwise_singleton _ _, fun time member other last => ?_⟩
    obtain ⟨entry, inside, rfl⟩ := mem_map.mp member
    rw [mem_singleton.mp last]
    exact ordered.past entry inside
  exact forall_mem_append.mpr ⟨ordered.past, forall_mem_singleton.mpr (Int.le_refl _)⟩

theorem notMem_remove (line : List (κ × Int)) (key : κ) :
    key ∉ (remove line key).map Prod.fst := by
  intro member
  obtain ⟨entry, inside, same⟩ := mem_map.mp member
  exact of_decide_eq_true (mem_filter.mp inside).2 same

theorem Ordered.refresh (ordered : Ordered now line) (key : κ) :
    Ordered now (Aging.refresh line key now) :=
  (ordered.remove key).push (notMem_remove line key)

theorem remove_head {time : Int} (once : key ∉ line.map Prod.fst) :
    remove ((key, time) :: line) key = line := by
  rw [remove, filter_cons_of_neg (by simp)]
  refine filter_eq_self.mpr fun entry member => decide_eq_true fun same => ?_
  exact once (mem_map.mpr ⟨entry, member, same⟩)

omit [DecidableEq κ] in
theorem expire_old {limit : Int} {entry : κ × Int} (old : now - entry.2 > limit) :
    expire limit now (entry :: line) = expire limit now line :=
  dropWhile_cons_of_pos (by simpa using old)

omit [DecidableEq κ] in
theorem expire_fresh {limit : Int} {entry : κ × Int} (fresh : ¬ now - entry.2 > limit) :
    expire limit now (entry :: line) = entry :: line :=
  dropWhile_cons_of_neg (by simpa using fresh)

omit [DecidableEq κ] in
/-- Since the line is ordered, nobody behind the first fresh key has expired. -/
theorem Ordered.expire_eq {limit : Int} (ordered : Ordered now line) :
    expire limit now line = line.filter fun entry => now - entry.2 ≤ limit := by
  induction line with
  | nil => rfl
  | cons entry rest ih =>
    have behind := ordered.sorted
    rw [map_cons, pairwise_cons] at behind
    by_cases old : now - entry.2 > limit
    · rw [expire_old old, filter_cons_of_neg]
      · exact ih (ordered.sublist (sublist_cons_self entry rest))
      rw [decide_eq_true_eq, Int.not_le]
      exact old
    rw [expire_fresh old, eq_comm]
    refine filter_eq_self.mpr fun other member => decide_eq_true ?_
    rcases mem_cons.mp member with same | later
    · rw [same]
      omega
    have := behind.1 other.2 (mem_map_of_mem later)
    omega

end Aging
