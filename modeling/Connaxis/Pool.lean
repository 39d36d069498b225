import Connaxis.Lib.Memory

namespace Connaxis

abbrev Bytes := List UInt8

/-- An array of the type `[n]byte`. -/
abbrev FixedBytes (n : Nat) := Vector UInt8 n

open Memory List Option

/-- The size classes of the buffer pool. -/
structure BytesAlloctor where
  step : Nat
  rank : Nat
  max : Nat
deriving Repr

namespace BytesAlloctor

/-- The allocator after its buckets have been registered. -/
def setup (step rank : Nat) : BytesAlloctor :=
  ⟨step, rank, if rank = 0 then 0 else 2 ^ (rank - 1) * step⟩

/-- The keys of `allocorMap`. -/
def buckets (ba : BytesAlloctor) : List Nat := (List.range ba.rank).map fun i => 2 ^ i * ba.step

def powerOfTwo (size : Nat) : Bool := size &&& (size - 1) = 0

/-- The bucket `Get` takes its buffer from; `none` is the nil it returns for a
size above the largest one. -/
def target (ba : BytesAlloctor) (size : Nat) : Option Nat :=
  if size > ba.max then none
  else if size > ba.step then
    if powerOfTwo size then some size
    else some ((ba.buckets.find? fun bucket => size ≤ bucket).getD (ba.buckets.getLastD ba.step))
  else some ba.step

/-- Does `Put` store a buffer of this length? -/
def keeps (ba : BytesAlloctor) (len : Nat) : Bool :=
  !(len > ba.max && len < ba.step) && powerOfTwo len && len ≠ 0 && ba.buckets.contains len

theorem target_ge (step rank size bucket : Nat)
    (found : (setup step rank).target size = some bucket) : size ≤ bucket := by
  unfold target at found
  split at found
  · cases found
  rename_i within
  split at found
  · split at found
    · cases found
      exact Nat.le_refl size
    cases found
    cases searched : (setup step rank).buckets.find? fun bucket => decide (size ≤ bucket) with
    | some bucket => simpa using find?_some searched
    | none =>
      -- The scan ran past every bucket, yet the last one is `max`.
      rename_i above _
      have void := find?_eq_none.mp searched
      by_cases empty : rank = 0
      · simp only [setup, empty, ↓reduceIte] at within above
        omega
      have last : 2 ^ (rank - 1) * step ∈ (setup step rank).buckets :=
        mem_map.mpr ⟨rank - 1, mem_range.mpr (by simp only [setup]; omega), rfl⟩
      have small := void _ last
      simp only [setup, empty, ↓reduceIte] at within
      simp only [decide_eq_true_eq] at small
      omega
  rename_i low
  cases found
  omega

/-- What the rest of the program sees of the pool: buffers that are at least as
long as asked for, with whatever bytes an earlier user left in them. -/
def allocator (step rank : Nat) (stale : Nat → Nat → UInt8) : Allocator UInt8 where
  get n size := ((setup step rank).target size).map fun bucket => (List.range bucket).map (stale n)
  keep := (setup step rank).keeps
  sized := by
    intro n size bytes granted
    cases found : (setup step rank).target size with
    | none => simp only [found, map_none, reduceCtorEq] at granted
    | some bucket =>
      simp only [found, map_some, some.injEq] at granted
      rw [← granted, List.length_map, List.length_range]
      exact target_ge step rank size bucket found

theorem allocator_serves (step rank : Nat) (stale : Nat → Nat → UInt8) :
    (allocator step rank stale).Serves (setup step rank).max := by
  intro n size within
  have found : (setup step rank).target size ≠ none := by
    unfold target
    rw [if_neg (by omega)]
    split_ifs <;> exact nofun
  exact fun refused => found (map_eq_none_iff.mp refused)

variable {step rank size : Nat}

theorem bucket_le_max {bucket : Nat} (member : bucket ∈ (setup step rank).buckets) :
    bucket ≤ (setup step rank).max := by
  obtain ⟨i, inside, rfl⟩ := mem_map.mp member
  have below : i < rank := mem_range.mp inside
  have some_ : ¬ rank = 0 := by omega
  simp only [setup, if_neg some_]
  exact Nat.mul_le_mul_right step (Nat.pow_le_pow_right Nat.two_pos (by omega))

/-- A request for the size of a bucket is met from that bucket. -/
theorem target_again {bucket : Nat} (ranked : 0 < rank)
    (found : (setup step rank).target size = some bucket) :
    (setup step rank).target bucket = some bucket := by
  have large := target_ge step rank size bucket found
  have positive : ¬ rank = 0 := by omega
  unfold target at found
  split at found
  · cases found
  rename_i within
  split at found
  · rename_i above
    split at found
    · rename_i power
      cases found
      rw [target, if_neg within, if_pos above, if_pos power]
    cases searched : (setup step rank).buckets.find? fun bucket => decide (size ≤ bucket) with
    | none =>
      have last : (setup step rank).max ∈ (setup step rank).buckets := by
        simp only [setup, buckets, if_neg positive]
        exact mem_map.mpr ⟨rank - 1, mem_range.mpr (by omega), rfl⟩
      have small := find?_eq_none.mp searched _ last
      simp only [decide_eq_true_eq] at small
      omega
    | some first =>
      rw [searched] at found
      cases found
      rw [getD_some] at large ⊢
      obtain ⟨_, before, after, split, below⟩ := find?_eq_some_iff_append.mp searched
      have again : (setup step rank).buckets.find? (fun bucket => decide (first ≤ bucket)) =
          some first := by
        refine find?_eq_some_iff_append.mpr
          ⟨decide_eq_true (Nat.le_refl _), before, after, split, fun smaller member => ?_⟩
        have less := below smaller member
        simp only [Bool.not_eq_eq_eq_not, Bool.not_true, decide_eq_false_iff_not] at less ⊢
        omega
      have top := bucket_le_max (mem_of_find?_eq_some searched)
      rw [target, if_neg (by omega), if_pos (by omega), again]
      split <;> rfl
  cases found
  have least : (setup step rank).step ≤ (setup step rank).max := by
    simp only [setup, if_neg positive]
    exact Nat.le_mul_of_pos_left step (Nat.two_pow_pos _)
  rw [target, if_neg (by omega), if_neg (Nat.lt_irrefl _)]

theorem target_le_max {bucket : Nat} (ranked : 0 < rank)
    (found : (setup step rank).target size = some bucket) : bucket ≤ (setup step rank).max := by
  have again := target_again ranked found
  by_contra above
  rw [target, if_pos (Nat.not_le.mp above)] at again
  cases again

/-- A size that was handed out can be had again, and so can any smaller one. -/
theorem allocator_steady (ranked : 0 < rank) (stale : Nat → Nat → UInt8) :
    (allocator step rank stale).Steady := by
  intro n size bytes granted
  obtain ⟨bucket, found, rfl⟩ := map_eq_some_iff.mp granted
  refine (allocator_serves step rank stale).mono ?_
  rw [length_map, length_range]
  exact target_le_max ranked found

end BytesAlloctor

/-- Buffers of the size asked for, as many as are wanted. -/
def exactly : Allocator UInt8 where
  get _ size := some (List.replicate size 0)
  keep _ := true
  sized _ size bytes granted := by
    rw [← some.inj granted, List.length_replicate]

end Connaxis
