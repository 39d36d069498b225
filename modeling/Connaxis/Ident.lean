import Mathlib.Algebra.Ring.Nat
import Mathlib.Data.List.Basic
import Mathlib.Data.List.Count

namespace Connaxis

open List Function

def fdTableMinSize : Nat := 1024
def fdTableFallbackSize : Nat := 64 * 1024
def fdTableMaxSize : Nat := 4 * 1024 * 1024

/-- The number of slots for a soft limit of open files; `none` is a failed `Getrlimit`.
An infinite limit is the largest `uint64`. -/
def fdTableSize (lim : Option UInt64) : Nat :=
  match lim with
  | none => fdTableFallbackSize
  | some cur =>
    let size := if cur.toNat > fdTableMaxSize then fdTableMaxSize else cur.toNat
    if size < fdTableMinSize then fdTableMinSize else size

theorem fdTableSize_some (cur : UInt64) :
    fdTableSize (some cur) = max fdTableMinSize (min cur.toNat fdTableMaxSize) := by
  have clipped : (if cur.toNat > fdTableMaxSize then fdTableMaxSize else cur.toNat) =
      min cur.toNat fdTableMaxSize := by
    split <;> omega
  simp only [fdTableSize, clipped]
  split <;> omega

def buildSimpleID (seq : UInt32) (fd lpid : Nat) : UInt64 :=
  seq.toUInt64 <<< 32 ||| UInt64.ofNat fd <<< 16 ||| UInt64.ofNat lpid

/-- The loop's new sequence number and the id. -/
def genID (idx : Nat) (seq : UInt32) (seed : Nat) : UInt32 × UInt64 :=
  (seq + 1, buildSimpleID (seq + 1) seed idx)

/-- `idg` is what a custom generator returns, if there is one. -/
def allocID (idg : Option UInt64) (idx : Nat) (seq : UInt32) (fd : Nat) : UInt32 × UInt64 :=
  match idg with
  | some id => (seq, id)
  | none => genID idx seq fd

/-- The ids of a sequence of calls, each a loop index and a descriptor, on the loops
of one server; `seqs` holds the loops' sequence numbers. -/
def allocIDs : (Nat → UInt32) → List (Nat × Nat) → List UInt64
  | _, [] => []
  | seqs, (idx, fd) :: rest =>
    let (seq, id) := allocID none idx (seqs idx) fd
    id :: allocIDs (update seqs idx seq) rest

/-- With a descriptor of 16 bits the three fields do not overlap. -/
theorem buildSimpleID_toNat (seq : UInt32) (fd lpid : Nat) (narrow : fd < 65536)
    (small : lpid < 65536) :
    (buildSimpleID seq fd lpid).toNat = seq.toNat * 2 ^ 32 + fd * 2 ^ 16 + lpid := by
  have bound := seq.toNat_lt
  have high : (seq.toUInt64 <<< 32).toNat = seq.toNat <<< 32 := by
    rw [UInt64.toNat_shiftLeft, Nat.shiftLeft_eq]
    rw [Nat.shiftLeft_eq]
    exact Nat.mod_eq_of_lt (by simp; omega)
  have middle : (UInt64.ofNat fd <<< 16).toNat = fd <<< 16 := by
    rw [UInt64.toNat_shiftLeft, UInt64.toNat_ofNat_of_lt' (by simp [UInt64.size]; omega)]
    exact Nat.mod_eq_of_lt (by simp; omega)
  have low : (UInt64.ofNat lpid).toNat = lpid :=
    UInt64.toNat_ofNat_of_lt' (by simp [UInt64.size]; omega)
  rw [buildSimpleID, UInt64.toNat_or, UInt64.toNat_or, high, middle, low, Nat.or_assoc,
    ← Nat.shiftLeft_add_eq_or_of_lt (by omega : lpid < 2 ^ 16) fd,
    ← Nat.shiftLeft_add_eq_or_of_lt (by rw [Nat.shiftLeft_eq]; omega) seq.toNat,
    Nat.shiftLeft_eq, Nat.shiftLeft_eq, Nat.add_assoc]

theorem buildSimpleID_injective {seq seq' : UInt32} {fd fd' lpid lpid' : Nat}
    (narrow : fd < 65536) (narrow' : fd' < 65536) (small : lpid < 65536) (small' : lpid' < 65536)
    (same : buildSimpleID seq fd lpid = buildSimpleID seq' fd' lpid') :
    seq = seq' ∧ fd = fd' ∧ lpid = lpid' := by
  have value := congrArg UInt64.toNat same
  rw [buildSimpleID_toNat _ _ _ narrow small, buildSimpleID_toNat _ _ _ narrow' small'] at value
  refine ⟨UInt32.toNat_inj.mp ?_, ?_, ?_⟩ <;> omega

/-- An id of a later call carries a later sequence number of its loop. -/
theorem allocIDs_mem {seqs : Nat → UInt32} {calls : List (Nat × Nat)} {id : UInt64}
    (member : id ∈ allocIDs seqs calls) :
    ∃ idx fd turn, (idx, fd) ∈ calls ∧ 0 < turn ∧
      turn ≤ (calls.filter fun call => call.1 = idx).length ∧
      id = buildSimpleID (seqs idx + UInt32.ofNat turn) fd idx := by
  induction calls generalizing seqs with
  | nil => simp only [allocIDs, not_mem_nil] at member
  | cons call rest ih =>
    obtain ⟨idx, fd⟩ := call
    simp only [allocIDs, allocID, genID, mem_cons] at member
    rcases member with first | later
    · refine ⟨idx, fd, 1, mem_cons_self, Nat.one_pos, ?_, first⟩
      simp only [filter_cons, decide_true, ↓reduceIte, length_cons]
      omega
    obtain ⟨idx', fd', turn, known, positive, bound, eq⟩ := ih later
    by_cases same : idx' = idx
    · subst same
      refine ⟨idx', fd', turn + 1, mem_cons_of_mem _ known, Nat.succ_pos _, ?_, ?_⟩
      · simp only [filter_cons, decide_true, ↓reduceIte, length_cons]
        omega
      rw [eq, update_self, UInt32.ofNat_add, UInt32.add_comm (UInt32.ofNat turn),
        UInt32.add_assoc]
      rfl
    refine ⟨idx', fd', turn, mem_cons_of_mem _ known, positive, ?_, ?_⟩
    · simp only [filter_cons, Ne.symm same, decide_false, Bool.false_eq_true, ↓reduceIte]
      exact bound
    · rw [eq, update_of_ne same]

theorem allocIDs_nodup (seqs : Nat → UInt32) (calls : List (Nat × Nat))
    (valid : ∀ call ∈ calls, call.1 < 65536 ∧ call.2 < 65536)
    (few : ∀ idx, (calls.filter fun call => call.1 = idx).length < 2 ^ 32) :
    (allocIDs seqs calls).Nodup := by
  induction calls generalizing seqs with
  | nil => exact nodup_nil
  | cons call rest ih =>
    obtain ⟨idx, fd⟩ := call
    have fewer : ∀ other, (rest.filter fun call => call.1 = other).length < 2 ^ 32 := by
      intro other
      have bound := few other
      rw [filter_cons] at bound
      split at bound
      · rw [length_cons] at bound
        omega
      · exact bound
    simp only [allocIDs, allocID, genID, nodup_cons]
    refine ⟨?_, ih _ (fun call known => valid call (mem_cons_of_mem _ known)) fewer⟩
    intro again
    obtain ⟨idx', fd', turn, known, positive, bound, same⟩ := allocIDs_mem again
    obtain ⟨smallIdx, smallFd⟩ := valid (idx, fd) mem_cons_self
    obtain ⟨smallIdx', smallFd'⟩ := valid (idx', fd') (mem_cons_of_mem _ known)
    obtain ⟨seqSame, _, rfl⟩ :=
      buildSimpleID_injective smallFd smallFd' smallIdx smallIdx' same
    rw [update_self] at seqSame
    dsimp only at bound
    have limit := few idx
    rw [filter_cons, if_pos (by simp only [decide_true]), length_cons] at limit
    have zero : UInt32.ofNat turn = 0 := UInt32.left_eq_add.mp seqSame
    have value := congrArg UInt32.toNat zero
    rw [UInt32.toNat_ofNat_of_lt' (by simp [UInt32.size]; omega)] at value
    simp only [UInt32.toNat_zero] at value
    omega

/-- The ids of one server are pairwise distinct for every sequence of allocations exactly
when the descriptor table has no slot above 65535, that is when the limit of open files
was at most 65536 at the start, or could not be read. -/
theorem allocIDs_distinct_iff (lim : Option UInt64) :
    (∀ calls : List (Nat × Nat),
      (∀ call ∈ calls, call.1 < 65536 ∧ call.2 < fdTableSize lim) →
      (∀ idx, (calls.filter fun call => call.1 = idx).length < 2 ^ 32) →
      (allocIDs (fun _ => 0) calls).Nodup) ↔
    ∀ cur, lim = some cur → cur.toNat ≤ 65536 := by
  constructor
  · intro distinct cur found
    subst found
    by_contra wide
    have large : 65536 < fdTableSize (some cur) := by
      rw [fdTableSize_some, fdTableMaxSize, fdTableMinSize]
      omega
    have ids := distinct [(0, 65536), (0, 65536), (0, 65536)] ?_ ?_
    · revert ids
      decide
    · intro call member
      simp only [List.mem_cons, List.not_mem_nil, or_false, or_self] at member
      rw [member]
      exact ⟨by decide, large⟩
    intro idx
    have short := List.length_filter_le (fun call : Nat × Nat => call.1 = idx)
      [(0, 65536), (0, 65536), (0, 65536)]
    simp only [List.length_cons, List.length_nil] at short
    omega
  intro narrow calls valid few
  have slots : fdTableSize lim ≤ 65536 := by
    cases lim with
    | none => decide
    | some cur =>
      have bound := narrow cur rfl
      rw [fdTableSize_some, fdTableMaxSize, fdTableMinSize]
      omega
  refine allocIDs_nodup _ calls (fun call member => ?_) few
  exact ⟨(valid call member).1, Nat.lt_of_lt_of_le (valid call member).2 slots⟩

/-- An unlimited server whose loop 0 hands out descriptor 65536 three times. -/
theorem allocIDs_repeated :
    (∀ call ∈ [(0, 65536), (0, 65536), (0, 65536)],
      call.1 < 65536 ∧ call.2 < fdTableSize (some 1048576)) ∧
    ¬ (allocIDs (fun _ => 0) [(0, 65536), (0, 65536), (0, 65536)]).Nodup := by
  decide

end Connaxis
