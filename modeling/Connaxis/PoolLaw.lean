import Connaxis.Lib.MachineInt
import Connaxis.Lib.Runs
import Connaxis.Pool

namespace Connaxis

open Memory List Function Runs
open MachineInt (Size)

namespace BytesAlloctor

/-- `(1 << i) * ba.step`. -/
def bucket (w : Size) (step i : Nat) : Int := w.wrap (w.wrap (2 ^ i : Nat) * step)

end BytesAlloctor

open BytesAlloctor (bucket powerOfTwo)

/-- The allocator with what its pools hold. `next` names the next buffer that is made. -/
structure Pools where
  step : Nat
  rank : Nat
  max : Int
  allocorMap : Int → Option (List Slice)
  next : Nat

namespace Pools

/-- One round of the loop of `initialize`. -/
def register (w : Size) (ba : Pools) (i : Nat) : Pools :=
  { ba with
    max := bucket w ba.step i
    allocorMap := Function.update ba.allocorMap (bucket w ba.step i) (some []) }

/-- `initialize`, which ends the program if `step` is not a power of two. -/
def initialized (w : Size) (step rank : Nat) : Option Pools :=
  if powerOfTwo step then
    some ((List.range rank).foldl (register w) ⟨step, rank, 0, fun _ => none, 0⟩)
  else none

def keys (w : Size) (ba : Pools) : List Int := (List.range ba.rank).map (bucket w ba.step)

/-- The bucket that `Get` asks for. -/
def target (w : Size) (ba : Pools) (size : Int) : Int :=
  if size > ba.step then
    if powerOfTwo size.toNat then size
    else ((ba.keys w).find? fun key => size ≤ key).getD ((ba.keys w).getLastD ba.step)
  else ba.step

/-- `Get`: a pool returns one of the buffers it holds, or makes one. It may have dropped what it
holds; such a buffer is not reused. `none` is the panic on a bucket without a pool, or on a
negative length. -/
def get (w : Size) (ba : Pools) (size : Int) (reused : Option Nat) :
    Option (Pools × Option Slice) :=
  if size > ba.max then some (ba, none)
  else
    match ba.allocorMap (ba.target w size) with
    | none => none
    | some stored =>
      match reused.bind fun i => stored[i]? with
      | some buf =>
        some ({ ba with
          allocorMap := Function.update ba.allocorMap (ba.target w size)
            (some (stored.erase buf)) }, some buf)
      | none =>
        if ba.target w size < 0 then none
        else some ({ ba with next := ba.next + 1 },
          some ⟨ba.next, 0, (ba.target w size).toNat⟩)

def put (ba : Pools) (buf : Slice) : Pools :=
  if buf.len > ba.max ∧ buf.len < ba.step ∨ powerOfTwo buf.len = false ∨ buf.len = 0 then ba
  else
    match ba.allocorMap buf.len with
    | none => ba
    | some stored =>
      { ba with allocorMap := Function.update ba.allocorMap buf.len (some (buf :: stored)) }

end Pools

inductive PoolOp
  | get (size : Int) (reused : Option Nat)
  | put (buf : Slice)

def PoolOp.step (w : Size) (ba : Pools) : PoolOp → Option Pools
  | get size reused => (ba.get w size reused).map Prod.fst
  | put buf => some (ba.put buf)

/-- The smallest bucket that is not below `size`. -/
structure Smallest (step rank : Nat) (size : Int) (b : Nat) : Prop where
  bucket : ∃ i < rank, b = 2 ^ i * step
  holds : size ≤ b
  least : ∀ i < rank, size ≤ (2 ^ i * step : Nat) → b ≤ 2 ^ i * step

namespace Pools

/-- The allocator for the buckets from `2 ^ k`, with every buffer in the pool of its length. -/
structure Law (w : Size) (k rank : Nat) (ba : Pools) : Prop where
  step_eq : ba.step = 2 ^ k
  rank_eq : ba.rank = rank
  max_eq : ba.max = bucket w (2 ^ k) (rank - 1)
  pool : ∀ i < rank, ba.allocorMap (bucket w (2 ^ k) i) ≠ none
  sized : ∀ key stored, ba.allocorMap key = some stored → ∀ buf ∈ stored, (buf.len : Int) = key

end Pools

namespace BytesAlloctor

theorem powerOfTwo_iff {n : Nat} (positive : 0 < n) : powerOfTwo n = true ↔ ∃ m, n = 2 ^ m := by
  simp only [powerOfTwo, decide_eq_true_eq]
  exact Nat.and_sub_one_eq_zero_iff_isPowerOfTwo (by omega)

variable {w : Size} {k rank i : Nat}

theorem bucket_pow : bucket w (2 ^ k) i = w.wrap (2 ^ (i + k) : Nat) := by
  rw [bucket, Size.wrap, Size.wrap, Int.bmod_mul_bmod, Nat.pow_add, Size.wrap]
  rfl

theorem bucket_of_lt (small : ((2 ^ (i + k) : Nat) : Int) < w.limit) :
    bucket w (2 ^ k) i = (2 ^ i * 2 ^ k : Nat) := by
  have positive := Nat.two_pow_pos (i + k)
  rw [bucket_pow, Size.wrap_of_fits ⟨by omega, small⟩, Nat.pow_add]

/-- If the last bucket is positive, none has overflowed. -/
theorem bucket_exact (positive : 0 < bucket w (2 ^ k) (rank - 1)) (inside : i < rank) :
    bucket w (2 ^ k) i = (2 ^ i * 2 ^ k : Nat) := by
  rw [bucket_pow] at positive
  have top := Size.pow_lt_limit positive
  have below : 2 ^ (i + k) ≤ 2 ^ (rank - 1 + k) := Nat.pow_le_pow_right (by omega) (by omega)
  apply bucket_of_lt
  omega

end BytesAlloctor

namespace Pools

open BytesAlloctor

variable {w : Size} {k rank b : Nat} {ba next : Pools} {size : Int}

/-- The scan of `Get` finds the smallest bucket. -/
theorem scan_smallest (law : Law w k rank ba) (positive : 0 < ba.max) (ranked : 1 ≤ rank)
    (within : size ≤ ba.max) (fallback : Int) :
    ∃ b, Smallest (2 ^ k) rank size b ∧
      ((ba.keys w).find? fun key => size ≤ key).getD fallback = b := by
  rw [law.max_eq] at positive within
  have exact_ {i : Nat} (inside : i < rank) := bucket_exact positive inside
  rw [keys, law.step_eq, law.rank_eq, find?_map]
  cases found : (range rank).find? ((fun key => decide (size ≤ key)) ∘ bucket w (2 ^ k)) with
  | none =>
    have last := find?_eq_none.mp found (rank - 1) (mem_range.mpr (by omega))
    simp only [comp, decide_eq_true_eq] at last
    exact absurd within last
  | some i =>
    obtain ⟨holds, inside, before⟩ := find?_range_eq_some.mp found
    have below := mem_range.mp inside
    simp only [comp, decide_eq_true_eq] at holds
    refine ⟨2 ^ i * 2 ^ k, ⟨⟨i, below, rfl⟩, exact_ below ▸ holds, fun j inside enough => ?_⟩,
      exact_ below⟩
    rcases Nat.lt_or_ge j i with early | late
    · have missed := before j early
      simp only [comp, Bool.not_eq_eq_eq_not, Bool.not_true, decide_eq_false_iff_not,
        exact_ inside] at missed
      exact absurd enough missed
    · exact Nat.mul_le_mul_right _ (Nat.pow_le_pow_right (by omega) late)

/-- A pool holds other buffers, all of its bucket's length. -/
theorem Law.update (law : Law w k rank ba) {key : Int} {stored : List Slice}
    (sized : ∀ buf ∈ stored, (buf.len : Int) = key) :
    Law w k rank { ba with allocorMap := update ba.allocorMap key (some stored) } := by
  refine ⟨law.step_eq, law.rank_eq, law.max_eq, fun i inside => ?_, fun other held found => ?_⟩
  · simp only [update_apply]
    split
    · exact nofun
    · exact law.pool i inside
  simp only [update_apply] at found
  split at found
  · rename_i same
    rw [same, ← Option.some.inj found]
    exact sized
  · exact law.sized other held found

theorem get_nil (above : size > ba.max) (reused : Option Nat) :
    ba.get w size reused = some (ba, none) := if_pos above

theorem put_law (law : Law w k rank ba) (buf : Slice) : Law w k rank (ba.put buf) := by
  rw [put]
  split
  · exact law
  split
  · exact law
  rename_i stored found
  apply law.update
  simp only [mem_cons, forall_eq_or_imp, true_and]
  exact law.sized _ _ found

section

variable (fits : ((2 ^ k : Nat) : Int) < w.limit) (ranked : 1 ≤ rank)
include fits ranked

/-- `Get` asks for the smallest bucket that is large enough. -/
theorem target_smallest (law : Law w k rank ba) (within : size ≤ ba.max) :
    ∃ b, Smallest (2 ^ k) rank size b ∧ ba.target w size = b ∧
      ∃ i < rank, bucket w (2 ^ k) i = b := by
  have filled := Nat.two_pow_pos k
  rw [target]
  by_cases large : size > ba.step
  · rw [if_pos large]
    rw [law.step_eq] at large
    have positive : 0 < ba.max := by omega
    rw [law.max_eq] at positive
    have asked : ∃ b, Smallest (2 ^ k) rank size b ∧ (if powerOfTwo size.toNat then size
        else ((ba.keys w).find? fun key => size ≤ key).getD ((ba.keys w).getLastD ba.step)) =
          b := by
      split
      · rename_i power
        obtain ⟨m, same⟩ := (powerOfTwo_iff (by omega)).mp power
        have above : 2 ^ k < 2 ^ m := by omega
        have more : k < m := (Nat.pow_lt_pow_iff_right (by omega)).mp above
        have top : 2 ^ m ≤ 2 ^ (rank - 1 + k) := by
          rw [law.max_eq, bucket_exact positive (by omega), ← Nat.pow_add] at within
          omega
        have few : m ≤ rank - 1 + k := (Nat.pow_le_pow_iff_right (by omega)).mp top
        refine ⟨2 ^ m, ⟨⟨m - k, by omega, ?_⟩, by omega, fun i _ enough => by omega⟩, by omega⟩
        rw [← Nat.pow_add]
        congr 1
        omega
      · exact scan_smallest law (law.max_eq ▸ positive) ranked within _
    obtain ⟨b, smallest, same⟩ := asked
    obtain ⟨i, inside, rfl⟩ := smallest.bucket
    exact ⟨_, smallest, same, i, inside, bucket_exact positive inside⟩
  rw [if_neg large]
  rw [law.step_eq] at large ⊢
  have first : bucket w (2 ^ k) 0 = (2 ^ k : Nat) := by
    rw [bucket_of_lt (by simpa using fits), Nat.pow_zero, Nat.one_mul]
  refine ⟨2 ^ k, ⟨⟨0, by omega, by simp⟩, by omega, fun i _ _ => ?_⟩, rfl, 0, by omega, first⟩
  exact Nat.le_mul_of_pos_left _ (Nat.two_pow_pos i)

/-- `Get` of a size that is not above `max`. -/
theorem get_law (law : Law w k rank ba) (within : size ≤ ba.max) (reused : Option Nat) :
    ∃ next buf, ba.get w size reused = some (next, some buf) ∧ Law w k rank next ∧
      Smallest (2 ^ k) rank size buf.len ∧ ba.target w size = buf.len ∧
      ∃ i < rank, bucket w (2 ^ k) i = buf.len := by
  obtain ⟨b, smallest, same, i, inside, key⟩ := target_smallest fits ranked law within
  obtain ⟨stored, found⟩ := Option.ne_none_iff_exists'.mp (key ▸ law.pool i inside)
  rw [get, if_neg (by omega), same, found]
  dsimp only
  split
  · rename_i buf reuse
    obtain ⟨_, -, held⟩ := Option.bind_eq_some_iff.mp reuse
    have length := law.sized _ _ found buf (mem_of_getElem? held)
    have equal : buf.len = b := by omega
    refine ⟨_, _, rfl, law.update fun other member => ?_, equal ▸ smallest, length.symm, i, inside,
      key.trans length.symm⟩
    exact law.sized _ _ found other (mem_of_mem_erase member)
  rw [if_neg (by omega)]
  refine ⟨_, _, rfl, ⟨law.step_eq, law.rank_eq, law.max_eq, law.pool, law.sized⟩, smallest, rfl,
    i, inside, key⟩

theorem step_law (law : Law w k rank ba) (op : PoolOp) :
    ∃ next, op.step w ba = some next ∧ Law w k rank next := by
  cases op with
  | get size reused =>
    by_cases within : size ≤ ba.max
    · obtain ⟨next, buf, done, kept, -⟩ := get_law fits ranked law within reused
      exact ⟨next, by rw [PoolOp.step, done, Option.map_some], kept⟩
    refine ⟨ba, ?_, law⟩
    rw [PoolOp.step, get_nil (by omega), Option.map_some]
  | put buf => exact ⟨_, rfl, put_law law buf⟩

end

/-- `Put` stores a buffer of a bucket's length. -/
theorem put_stores (law : Law w k rank ba) {buf : Slice}
    (smallest : Smallest (2 ^ k) rank size buf.len) (pool : ba.allocorMap buf.len ≠ none) :
    ∃ stored, ba.allocorMap buf.len = some stored ∧ ba.put buf =
      { ba with allocorMap := update ba.allocorMap buf.len (some (buf :: stored)) } := by
  obtain ⟨stored, found⟩ := Option.ne_none_iff_exists'.mp pool
  obtain ⟨i, -, length⟩ := smallest.bucket
  have least : 2 ^ k ≤ buf.len := length ▸ Nat.le_mul_of_pos_left _ (Nat.two_pow_pos i)
  have positive := Nat.two_pow_pos k
  have power : powerOfTwo buf.len = true :=
    (powerOfTwo_iff (by omega)).mpr ⟨i + k, by rw [length, Nat.pow_add]⟩
  refine ⟨stored, found, ?_⟩
  rw [put, if_neg, found]
  rw [law.step_eq, power]
  simp
  omega

/-- The loop of `initialize` gives every bucket an empty pool. -/
theorem register_range (step rank n : Nat) :
    (range n).foldl (register w) ⟨step, rank, 0, fun _ => none, 0⟩ =
      ⟨step, rank, if n = 0 then 0 else bucket w step (n - 1),
        fun key => if ∃ i < n, bucket w step i = key then some [] else none, 0⟩ := by
  induction n with
  | zero => simp
  | succ n ih =>
    rw [range_succ, foldl_append, ih, foldl_cons, foldl_nil, register]
    simp only [Pools.mk.injEq, true_and, and_true]
    constructor
    · simp
    funext key
    simp only [update_apply, Nat.exists_lt_succ_right, eq_comm]
    split <;> simp_all

theorem initialized_law (ranked : 1 ≤ rank) :
    ∃ start, initialized w (2 ^ k) rank = some start ∧ Law w k rank start := by
  refine ⟨_, if_pos ((powerOfTwo_iff (Nat.two_pow_pos k)).mpr ⟨k, rfl⟩), ?_⟩
  rw [register_range]
  refine ⟨rfl, rfl, if_neg (by omega), fun i inside => ?_, fun key stored found => ?_⟩
  · simp only
    rw [if_pos ⟨i, inside, rfl⟩]
    exact nofun
  simp only at found
  split at found
  · rw [← Option.some.inj found]
    exact nofun
  · cases found

/-- The pools in a state that is reached: `Get` gives nil exactly above `max` and otherwise a
buffer of the smallest bucket, a pool holds buffers of its bucket's length only, and a buffer
that comes back with its length goes to the pool it came from. -/
structure Lawful (w : Size) (k rank : Nat) (s : Pools) : Prop where
  nil : ∀ size reused, size > s.max → s.get w size reused = some (s, none)
  grants : ∀ size reused, size ≤ s.max → ∃ next buf,
    s.get w size reused = some (next, some buf) ∧ Smallest (2 ^ k) rank size buf.len
  sized : ∀ key stored, s.allocorMap key = some stored → ∀ buf ∈ stored, (buf.len : Int) = key
  returns : ∀ size reused next buf, s.get w size reused = some (next, some buf) →
    ∀ later final, run (PoolOp.step w) next later = some final →
    ∀ back : Slice, back.len = buf.len → ∃ stored,
      final.allocorMap (s.target w size) = some stored ∧ final.put back =
        { final with allocorMap :=
            Function.update final.allocorMap (s.target w size) (some (back :: stored)) }

/-- Whatever calls of `Get` and `Put` are made after `initialize`, none fails and the law holds. -/
theorem pool_bucket_law (w : Size) (k rank : Nat) (fits : ((2 ^ k : Nat) : Int) < w.limit)
    (ranked : 1 ≤ rank) :
    ∃ start, initialized w (2 ^ k) rank = some start ∧ ∀ ops, ∃ s,
      run (PoolOp.step w) start ops = some s ∧ Lawful w k rank s := by
  obtain ⟨start, done, law⟩ := initialized_law (w := w) (k := k) ranked
  have runs {s : Pools} (law : Law w k rank s) (ops : List PoolOp) :
      ∃ t, run (PoolOp.step w) s ops = some t ∧ Law w k rank t :=
    (run_total (I := Law w k rank) (G := fun _ _ => True) (P := fun _ _ _ => True)
      (fun s op _ law => (step_law fits ranked law op).imp fun _ both => ⟨both.1, both.2, trivial⟩)
      law (asks_of_forall (fun _ _ => trivial) _ _)).1
  refine ⟨start, done, fun ops => ?_⟩
  obtain ⟨s, ran, now⟩ := runs law ops
  refine ⟨s, ran, fun size reused above => get_nil above reused, fun size reused within => ?_,
    now.sized, fun size reused next buf got later final ran' back same => ?_⟩
  · obtain ⟨next, buf, got, -, smallest, -⟩ := get_law fits ranked now within reused
    exact ⟨next, buf, got, smallest⟩
  by_cases within : size ≤ s.max
  · obtain ⟨_, _, other, after, smallest, target, i, inside, key⟩ :=
      get_law fits ranked now within reused
    rw [got] at other
    cases other
    obtain ⟨_, again, ended⟩ := runs after later
    rw [ran'] at again
    cases again
    rw [target, ← same]
    rw [← same] at smallest key
    exact put_stores ended smallest (key ▸ ended.pool i inside)
  rw [get_nil (by omega)] at got
  cases got

theorem pool_bucket_law_1024 : ∃ start, initialized .bits64 1024 5 = some start ∧
    ∀ ops, ∃ s, run (PoolOp.step .bits64) start ops = some s ∧ Lawful .bits64 10 5 s :=
  pool_bucket_law .bits64 10 5 (by decide) (by decide)

/-- Unless a bucket has overflowed, `Get` asks for the bucket that the rest of the program sees. -/
theorem target_setup (law : Law w k rank ba) (ranked : 1 ≤ rank) (positive : 0 < ba.max)
    {size : Nat} (within : size ≤ ba.max) :
    (setup (2 ^ k) rank).target size = some (ba.target w size).toNat := by
  rw [law.max_eq] at positive within
  have keys : ba.keys w = (setup (2 ^ k) rank).buckets.map Int.ofNat := by
    rw [Pools.keys, law.step_eq, law.rank_eq, buckets, map_map]
    apply map_congr_left
    intro i inside
    exact bucket_exact positive (mem_range.mp inside)
  have top : ¬ size > (setup (2 ^ k) rank).max := by
    have last := bucket_exact positive (show rank - 1 < rank by omega)
    simp only [setup, if_neg (show ¬ rank = 0 by omega)]
    omega
  rw [BytesAlloctor.target, if_neg top, Pools.target, law.step_eq]
  by_cases large : size > 2 ^ k
  · have above : (size : Int) > (2 ^ k : Nat) := by omega
    rw [if_pos (show size > (setup (2 ^ k) rank).step from large), if_pos above, Int.toNat_natCast]
    split
    · rw [Int.toNat_natCast]
    have same : (fun key : Int => decide ((size : Int) ≤ key)) ∘ Int.ofNat =
        fun b => decide (size ≤ b) := by
      funext b
      simp
    rw [keys, find?_map, same]
    cases (setup (2 ^ k) rank).buckets.find? fun b => decide (size ≤ b) with
    | none =>
      simp only [getLastD_eq_getLast?, getLast?_map]
      cases (setup (2 ^ k) rank).buckets.getLast? <;> rfl
    | some b => simp
  have low : ¬ (size : Int) > (2 ^ k : Nat) := by omega
  rw [if_neg (show ¬ size > (setup (2 ^ k) rank).step from large), if_neg low]
  rfl

end Pools

end Connaxis
