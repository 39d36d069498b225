import Connaxis.Socket
import Connaxis.Lib.Runs

namespace Connaxis

open List Runs

/-- Does the kernel take all of `size` bytes? -/
def SysWrite.takes (size : Nat) : SysWrite → Bool
  | .full => true
  | .short n => size ≤ n
  | .fail _ => false

/-- Everything a `write` can do. -/
inductive Socket.Written (s : Socket) (b : Bytes) : Socket × Int × Option Err → Prop
  | full (takes : (s.answers s.calls).takes b.length = true) :
      Written s b (⟨s.accepted ++ b, s.answers, s.calls + 1⟩, b.length, none)
  | short (n : Nat) (less : n < b.length) (answer : s.answers s.calls = .short n) :
      Written s b (⟨s.accepted ++ b.take n, s.answers, s.calls + 1⟩, n, none)
  | failed (err : Err) (answer : s.answers s.calls = .fail err) :
      Written s b (⟨s.accepted, s.answers, s.calls + 1⟩, -1, some err)

theorem Socket.write_written (s : Socket) (b : Bytes) : s.Written b (s.write b) := by
  unfold Socket.write
  split
  · rename_i answer
    refine .full ?_
    rw [answer]
    rfl
  · rename_i n answer
    rw [length_take]
    by_cases less : n < b.length
    · rw [Nat.min_eq_left (Nat.le_of_lt less)]
      exact .short n less answer
    have enough := Nat.le_of_not_lt less
    rw [Nat.min_eq_right enough, take_of_length_le enough]
    refine .full ?_
    rw [answer]
    exact decide_eq_true enough
  rename_i err answer
  exact .failed err answer

namespace Dialer

/-- The buffers of a `Dialer`, with the sending half of its socket and all that was ever added.
Nothing reads the time of the last flush here. -/
structure Outbox where
  sock : Socket
  bufs : List Bytes
  bufLen : Nat
  added : Bytes

/-- The buffers of one call: the counting loop stops at 512. -/
def batch (bufs : List Bytes) : List Bytes := bufs.take 512

/-- The loop that takes `n` bytes off the front; there is no result if it does not stop. -/
def trim : List Bytes → Nat → Option (List Bytes)
  | [], _ => none
  | b :: bufs, n => if n < b.length then some (b.drop n :: bufs) else trim bufs (n - b.length)

theorem trim_flatten {bufs : List Bytes} {n : Nat} (less : n < bufs.flatten.length) :
    ∃ rest, trim bufs n = some rest ∧ bufs.flatten.take n ++ rest.flatten = bufs.flatten := by
  induction bufs generalizing n with
  | nil => exact absurd less (Nat.not_lt_zero n)
  | cons b bufs ih =>
    rw [flatten_cons] at less ⊢
    rw [trim, take_append]
    split
    · rename_i inside
      refine ⟨_, rfl, ?_⟩
      rw [flatten_cons, Nat.sub_eq_zero_of_le (Nat.le_of_lt inside), take_zero,
        append_nil, ← append_assoc, take_append_drop]
    rename_i beyond
    rw [length_append] at less
    obtain ⟨rest, trimmed, same⟩ := ih (n := n - b.length) (by omega)
    refine ⟨rest, trimmed, ?_⟩
    rw [take_of_length_le (Nat.le_of_not_lt beyond), append_assoc, same]

namespace Outbox

/-- A dialer whose kernel will give these answers. -/
def new (answers : Nat → SysWrite) : Outbox := ⟨⟨[], answers, 0⟩, [], 0, []⟩

def addBuf (d : Outbox) (buf : Bytes) : Outbox :=
  { d with bufs := d.bufs ++ [buf], bufLen := (d.bufs ++ [buf]).length, added := d.added ++ buf }

/-- `none` stands for an index out of range. -/
def flushOne (d : Outbox) : Option (Outbox × Option Err) :=
  match d.bufs with
  | [] => none
  | first :: rest =>
    match d.sock.write first with
    | (s, _, some .EAGAIN) => some ({ d with sock := s }, none)
    | (s, _, some err) => some ({ d with sock := s }, some err)
    | (s, n, none) =>
      let bufs := if (first.length : Int) = n then [] else first.drop n.toNat :: rest
      some ({ d with sock := s, bufs := bufs, bufLen := bufs.length }, none)

/-- The vectored flush of Linux. -/
def flushVec (d : Outbox) : Option (Outbox × Option Err) :=
  match d.sock.writev (batch d.bufs) with
  | (s, _, some .EAGAIN) => some ({ d with sock := s }, none)
  | (s, _, some err) => some ({ d with sock := s }, some err)
  | (s, n, none) =>
    if n < (batch d.bufs).flatten.length then
      let bufs := (trim d.bufs n.toNat).getD d.bufs
      some ({ d with sock := s, bufs := bufs, bufLen := bufs.length }, none)
    else some ({ d with sock := s, bufs := [] }, none)

def flush (d : Outbox) : Option (Outbox × Option Err) :=
  if d.bufLen > 1 then d.flushVec else if d.bufLen = 1 then d.flushOne else some (d, none)

inductive Call
  | addBuf (buf : Bytes)
  | flush

def step (d : Outbox) : Call → Option Outbox
  | .addBuf buf => some (d.addBuf buf)
  | .flush => d.flush.map Prod.fst

/-- What the socket has taken and what is buffered is all that was added, and `BufLen` is the
number of buffers. -/
structure Exact (d : Outbox) : Prop where
  bytes : d.sock.accepted ++ d.bufs.flatten = d.added
  len : d.bufLen = d.bufs.length

variable {d : Outbox}

theorem Exact.sock (exact : Exact d) {s : Socket} (same : s.accepted = d.sock.accepted) :
    Exact { d with sock := s } :=
  ⟨(congrArg (· ++ _) same).trans exact.bytes, exact.len⟩

theorem flushOne_exact (exact : Exact d) (one : d.bufLen = 1) :
    ∃ next err, d.flushOne = some (next, err) ∧ Exact next := by
  obtain ⟨s, bufs, len, added⟩ := d
  obtain ⟨b, rfl⟩ := length_eq_one_iff.mp (exact.len.symm.trans one)
  have bytes : s.accepted ++ [b].flatten = added := exact.bytes
  rw [flatten_singleton] at bytes
  unfold flushOne
  dsimp only
  have written := s.write_written b
  generalize s.write b = result at written
  cases written with
  | full =>
    refine ⟨_, _, rfl, ?_⟩
    rw [if_pos rfl]
    exact ⟨(append_nil _).trans bytes, rfl⟩
  | short n less =>
    refine ⟨_, _, rfl, ?_⟩
    rw [if_neg (by omega), Int.toNat_natCast]
    refine ⟨?_, rfl⟩
    rw [flatten_singleton, append_assoc, take_append_drop]
    exact bytes
  | failed err =>
    cases err with
    | EAGAIN | _ => exact ⟨_, _, rfl, exact.sock rfl⟩

/-- A vectored flush is exact unless the kernel takes all of its batch. -/
theorem flushVec_exact (exact : Exact d) (more : 1 < d.bufLen) :
    ∃ next err, d.flushVec = some (next, err) ∧ (Exact next ↔
      (d.sock.answers d.sock.calls).takes (batch d.bufs).flatten.length = false) := by
  have whole : (batch d.bufs).flatten ++ (d.bufs.drop 512).flatten = d.bufs.flatten := by
    rw [batch, ← flatten_append, take_append_drop]
  have filled : ¬ (batch d.bufs).length = 0 := by
    rw [batch, length_take, ← exact.len]
    omega
  unfold flushVec
  rw [Socket.writev, if_neg filled]
  have written := d.sock.write_written (batch d.bufs).flatten
  generalize d.sock.write (batch d.bufs).flatten = result at written
  cases written with
  | full takes =>
    refine ⟨{ d with sock := ⟨d.sock.accepted ++ (batch d.bufs).flatten, d.sock.answers,
      d.sock.calls + 1⟩, bufs := [] }, none, if_neg (Int.lt_irrefl _), iff_of_false ?_ ?_⟩
    · intro stale
      have len : d.bufLen = 0 := stale.len
      omega
    rw [takes]
    exact nofun
  | short n less answer =>
    have inside : n < d.bufs.flatten.length := by
      rw [← whole, length_append]
      omega
    obtain ⟨rest, trimmed, same⟩ := trim_flatten inside
    rw [← whole, take_append_of_le_length (Nat.le_of_lt less), whole] at same
    dsimp only
    rw [Int.toNat_natCast, trimmed]
    refine ⟨{ d with sock := ⟨d.sock.accepted ++ (batch d.bufs).flatten.take n, d.sock.answers,
      d.sock.calls + 1⟩, bufs := rest, bufLen := rest.length }, none,
      if_pos (by omega), iff_of_true ⟨?_, rfl⟩ ?_⟩
    · rw [← exact.bytes, append_assoc, same]
    rw [answer]
    exact decide_eq_false (by omega)
  | failed err answer =>
    rw [answer]
    cases err with
    | EAGAIN | _ => exact ⟨_, _, rfl, iff_of_true (exact.sock rfl) rfl⟩

/-- The kernel does not take all of a batch. -/
def Spared (d : Outbox) (call : Call) : Prop :=
  call = .flush → 1 < d.bufLen →
    (d.sock.answers d.sock.calls).takes (batch d.bufs).flatten.length = false

theorem step_exact (call : Call) (exact : Exact d) :
    ∃ next, d.step call = some next ∧ (Exact next ↔ Spared d call) := by
  cases call with
  | addBuf buf =>
    refine ⟨_, rfl, iff_of_true ⟨?_, rfl⟩ nofun⟩
    change d.sock.accepted ++ (d.bufs ++ [buf]).flatten = d.added ++ buf
    rw [flatten_append, flatten_singleton, ← append_assoc, exact.bytes]
  | flush =>
    rw [step, flush]
    by_cases more : 1 < d.bufLen
    · obtain ⟨next, err, done, kept⟩ := flushVec_exact exact more
      rw [if_pos more, done]
      exact ⟨next, rfl, kept.trans ⟨fun free _ _ => free, fun spared => spared rfl more⟩⟩
    rw [if_neg more]
    have spared : Spared d .flush := fun _ many => absurd many more
    split
    · rename_i one
      obtain ⟨next, err, done, kept⟩ := flushOne_exact exact one
      rw [done]
      exact ⟨next, rfl, iff_of_true kept spared⟩
    · exact ⟨d, rfl, iff_of_true exact spared⟩

/-- `AddBuf` and `Flush` on Linux: after every call nothing is lost and `BufLen` is right, in
exactly the runs in which the kernel never takes all of a vectored batch. -/
theorem linux_flush_exact_iff (answers : Nat → SysWrite) (calls : List Call) :
    (∀ front, front <+: calls → ∃ d, run step (new answers) front = some d ∧ Exact d) ↔
      Each step (fun d call _ => Spared d call) (new answers) calls :=
  fronts_iff (fun _ call exact => step_exact call exact) ⟨rfl, rfl⟩

/-- 513 buffers, all of which the kernel takes: the last one is gone, and `BufLen` still counts
it. -/
theorem linux_flush_loses :
    ∃ d, run step (new fun _ => .full)
        (List.replicate 513 (.addBuf [7]) ++ [.flush]) = some d ∧
      d.added.length = 513 ∧ d.sock.accepted.length = 512 ∧ d.bufs = [] ∧ d.bufLen = 513 :=
  computed (by decide +kernel) (by decide +kernel)

/-- The write loop of the BSDs over a batch: how far it comes, and the count of the last call. -/
def writeEach : List Bytes → Socket → Nat → Int → Socket × Nat × Int × Option Err
  | [], s, pos, lastsend => (s, pos, lastsend, none)
  | b :: bufs, s, pos, _ =>
    match s.write b with
    | (s, n, some .EAGAIN) => (s, pos, n, none)
    | (s, n, some err) => (s, pos, n, some err)
    | (s, n, none) => if n < b.length then (s, pos, n, none) else writeEach bufs s (pos + 1) n

/-- The end of `flushVec` on the BSDs, which looks at the buffer the loop has come to. `none`
stands for an index or a slice out of range. -/
def settle (d : Outbox) (s : Socket) (pos : Nat) (lastsend : Int) : Option Outbox :=
  match d.bufs[pos]? with
  | none => none
  | some b =>
    if lastsend < b.length ∧ lastsend < 0 then none
    else
      let bufs := if lastsend < b.length then d.bufs.set pos (b.drop lastsend.toNat) else d.bufs
      some { d with sock := s, bufs := bufs.drop pos, bufLen := (bufs.drop pos).length }

/-- The flush of several buffers on the BSDs. -/
def bsdFlushVec (d : Outbox) : Option (Outbox × Option Err) :=
  match writeEach (batch d.bufs) d.sock 0 0 with
  | (s, _, _, some err) => some ({ d with sock := s }, some err)
  | (s, pos, lastsend, none) => (d.settle s pos lastsend).map fun d => (d, none)

theorem settle_at {front more : List Bytes} {b : Bytes} (shape : d.bufs = front ++ b :: more)
    (s : Socket) (k : Nat) : d.settle s front.length k = some { d with
      sock := s, bufs := (if k < b.length then b.drop k else b) :: more,
      bufLen := more.length + 1 } := by
  unfold settle
  rw [shape, getElem?_append_right (Nat.le_refl _), Nat.sub_self]
  dsimp only [getElem?_cons_zero]
  rw [if_neg (by omega), Int.toNat_natCast]
  by_cases less : k < b.length
  · rw [if_pos (by omega), if_pos less, set_append_right _ _ (Nat.le_refl _), Nat.sub_self,
      set_cons_zero, drop_left]
    rfl
  rw [if_neg (by omega), if_neg less, drop_left]
  rfl

/-- The answer to the first call of the loop that does not take all of its buffer. -/
def stop (answers : Nat → SysWrite) : List Bytes → Nat → Option SysWrite
  | [], _ => none
  | b :: bufs, i =>
    if (answers i).takes b.length then stop answers bufs (i + 1) else some (answers i)

/-- The count of the last call when all buffers are taken. -/
def lastLength (bufs : List Bytes) (lastsend : Int) : Int :=
  (bufs.getLast?.map fun b => (b.length : Int)).getD lastsend

theorem lastLength_cons (b : Bytes) (bufs : List Bytes) (lastsend : Int) :
    lastLength (b :: bufs) lastsend = lastLength bufs b.length := by
  rw [lastLength, lastLength, getLast?_cons]
  cases bufs.getLast? with
  | none | some => rfl

/-- The ways the write loop ends: all is taken, or there is a short write, or an error. -/
theorem writeEach_cases (bufs : List Bytes) (s : Socket) (pos : Nat) (lastsend : Int) :
    (stop s.answers bufs s.calls = none ∧ ∃ s', s'.accepted = s.accepted ++ bufs.flatten ∧
      writeEach bufs s pos lastsend = (s', pos + bufs.length, lastLength bufs lastsend, none)) ∨
    (∃ front b rest, ∃ (s' : Socket) (k : Nat), bufs = front ++ b :: rest ∧ k < b.length ∧
      stop s.answers bufs s.calls = some (.short k) ∧
      s'.accepted = s.accepted ++ front.flatten ++ b.take k ∧
      writeEach bufs s pos lastsend = (s', pos + front.length, (k : Int), none)) ∨
    ∃ code s' pos' n err, stop s.answers bufs s.calls = some (.fail code) ∧
      writeEach bufs s pos lastsend = (s', pos', n, err) ∧ (err = none → n = -1) := by
  induction bufs generalizing s pos lastsend with
  | nil => exact .inl ⟨rfl, s, (append_nil _).symm, rfl⟩
  | cons b bufs ih =>
    rw [writeEach, stop]
    have written := s.write_written b
    generalize s.write b = result at written
    cases written with
    | full takes =>
      dsimp only
      rw [if_pos takes, if_neg (Int.lt_irrefl _), length_cons, flatten_cons]
      rcases ih ⟨s.accepted ++ b, s.answers, s.calls + 1⟩ (pos + 1) b.length with
        ⟨none, s', accepted, done⟩ | ⟨front, c, rest, s', k, rfl, less, short, accepted, done⟩ |
        failed
      · refine .inl ⟨none, s', ?_, ?_⟩
        · rw [accepted, append_assoc]
        · rw [done, lastLength_cons, Nat.add_assoc, Nat.add_comm 1]
      · refine .inr (.inl ⟨b :: front, c, rest, s', k, rfl, less, short, ?_, ?_⟩)
        · rw [accepted, flatten_cons, append_assoc s.accepted]
        · rw [done, length_cons, Nat.add_assoc, Nat.add_comm 1]
      · exact .inr (.inr failed)
    | short n less answer =>
      refine .inr (.inl ⟨[], b, bufs, _, n, rfl, less, ?_, ?_, if_pos (by omega)⟩)
      · rw [answer]
        exact if_neg (by simpa [SysWrite.takes] using less)
      · rw [flatten_nil, append_nil]
    | failed err answer =>
      rw [answer]
      refine .inr (.inr ⟨err, ?_⟩)
      cases err with
      | EAGAIN | _ => exact ⟨_, _, _, _, rfl, rfl, fun _ => rfl⟩

/-- What the flush has to leave. -/
def Kept (d d' : Outbox) : Prop :=
  d'.sock.accepted ++ d'.bufs.flatten = d.sock.accepted ++ d.bufs.flatten ∧
    d'.bufLen = d'.bufs.length

theorem kept_iff {front more : List Bytes} {b x : Bytes} {s : Socket}
    (shape : d.bufs = front ++ b :: more)
    (taken : s.accepted = d.sock.accepted ++ front.flatten ++ x) (c : Bytes) :
    Kept d { d with sock := s, bufs := c :: more, bufLen := more.length + 1 } ↔ x ++ c = b := by
  refine (and_iff_left rfl).trans ?_
  rw [shape, taken, flatten_append, flatten_cons, flatten_cons,
    append_assoc _ x, ← append_assoc x, ← append_assoc d.sock.accepted,
    append_cancel_left_eq, append_cancel_right_eq]

/-- The batch ends with a short write, or it is taken in full, there are buffers after it, and
the first of them is no longer than the last of the batch, which may also be empty. -/
def Ends (d : Outbox) : Prop :=
  match stop d.sock.answers (batch d.bufs) d.sock.calls with
  | none => 512 < d.bufs.length ∧ ((d.bufs.getD 511 []).length = 0 ∨
      (d.bufs.getD 512 []).length ≤ (d.bufs.getD 511 []).length)
  | some (.short _) => True
  | some _ => False

/-- `flushVec` on the BSDs, for any buffers and any answers of the kernel: it stays in range and
loses nothing exactly when the batch ends in one of these ways. -/
theorem bsd_flushVec_exact_iff (d : Outbox) :
    (∃ d', d.bsdFlushVec = some (d', none) ∧ Kept d d') ↔ Ends d := by
  have only {x : Outbox} :
      (∃ d', some (x, none) = some (d', (none : Option Err)) ∧ Kept d d') ↔ Kept d x := by
    refine ⟨?_, fun kept => ⟨x, rfl, kept⟩⟩
    rintro ⟨_, same, kept⟩
    cases same
    exact kept
  have whole := (take_append_drop 512 d.bufs).symm
  have size : (d.bufs.take 512).length = min 512 d.bufs.length := length_take
  unfold bsdFlushVec Ends batch
  rcases writeEach_cases (d.bufs.take 512) d.sock 0 0 with
    ⟨void, s, taken, done⟩ | ⟨front, b, rest, s, k, shape, less, short, taken, done⟩ |
    ⟨code, s, pos, n, err, failed, done, again⟩
  · rw [done, void]
    dsimp only
    rw [Nat.zero_add]
    cases beyond : d.bufs.drop 512 with
    | nil =>
      have few := drop_eq_nil_iff.mp beyond
      rw [settle, size, Nat.min_eq_right few, getElem?_eq_none (Nat.le_refl _)]
      exact iff_of_false (by rintro ⟨_, never, _⟩; cases never) fun many => by omega
    | cons b more =>
      have many : 512 < d.bufs.length := by
        have length := congrArg List.length beyond
        rw [length_drop, length_cons] at length
        omega
      have first : d.bufs.getD 512 [] = b := by
        have head := congrArg (·.headD []) beyond
        rw [headD_eq_head?_getD, head?_drop] at head
        exact (getD_eq_getElem?_getD).trans head
      have last : lastLength (d.bufs.take 512) 0 = ((d.bufs.getD 511 []).length : Int) := by
        rw [lastLength, getLast?_eq_getElem?, size, Nat.min_eq_left (Nat.le_of_lt many),
          getElem?_take_of_lt (by decide), getD_eq_getElem?_getD,
          getElem?_eq_getElem (by omega)]
        rfl
      rw [beyond] at whole
      rw [last, settle_at whole, first]
      generalize (d.bufs.getD 511 []).length = k
      rw [Option.map_some, only, kept_iff whole (taken.trans (append_nil _).symm)]
      refine Iff.trans ?_ (and_iff_right many).symm
      split
      · refine ⟨fun same => .inl ?_, fun ends => ?_⟩
        · have length := congrArg List.length same
          rw [nil_append, length_drop] at length
          omega
        rw [show k = 0 by omega]
        rfl
      rename_i enough
      exact iff_of_true rfl (.inr (Nat.le_of_not_lt enough))
  · rw [shape, append_assoc, cons_append] at whole
    rw [done, short, Nat.zero_add]
    dsimp only
    rw [settle_at whole, if_pos less, Option.map_some, only, kept_iff whole taken]
    exact iff_of_true (take_append_drop k b) trivial
  rw [failed]
  refine iff_of_false ?_ id
  rintro ⟨d', ends, _⟩
  rw [done] at ends
  cases err with
  | some err => cases ends
  | none =>
    rw [again rfl] at ends
    dsimp only [settle] at ends
    split at ends
    · cases ends
    · cases ends

/-- Two buffers: when all is taken, an index is out of range; at `EAGAIN`, a slice is. -/
theorem bsd_flushVec_panics :
    bsdFlushVec ⟨⟨[], fun _ => .full, 0⟩, [[1], [2]], 2, [1, 2]⟩ = none ∧
      bsdFlushVec ⟨⟨[], fun _ => .fail .EAGAIN, 0⟩, [[1], [2]], 2, [1, 2]⟩ = none :=
  ⟨rfl, rfl⟩

end Outbox

end Dialer

end Connaxis
