import Connaxis.SendOrder

namespace Connaxis

open List

/-- How many of `len` offered bytes the kernel takes. -/
def SysWrite.taken (len : Nat) : SysWrite → Nat
  | .full => len
  | .short n => min n len
  | .fail _ => 0

/-- The kernel takes nothing, however much it is offered. -/
def SysWrite.Refuses : SysWrite → Prop
  | .full => False
  | .short n => n = 0
  | .fail _ => True

instance (answer : SysWrite) : Decidable answer.Refuses :=
  match answer with
  | .full => inferInstanceAs (Decidable False)
  | .short n => inferInstanceAs (Decidable (n = 0))
  | .fail _ => inferInstanceAs (Decidable True)

namespace SysWrite

theorem taken_le (len : Nat) (answer : SysWrite) : answer.taken len ≤ len := by
  cases answer with
  | full => exact Nat.le_refl _
  | short n => exact Nat.min_le_right _ _
  | fail err => exact Nat.zero_le _

theorem taken_eq_zero {len : Nat} (filled : 0 < len) (answer : SysWrite) :
    answer.taken len = 0 ↔ answer.Refuses := by
  cases answer with
  | full => exact ⟨fun void => absurd void (Nat.ne_of_gt filled), False.elim⟩
  | short n =>
    change min n len = 0 ↔ n = 0
    omega
  | fail err => exact ⟨fun _ => trivial, fun _ => rfl⟩

end SysWrite

/-- The call in one line: the kernel's count is a front part, and only a refusal has an error. -/
theorem Socket.write_taken (s : Socket) (b : Bytes) :
    ∃ n err, s.write b =
        (⟨s.accepted ++ b.take ((s.answers s.calls).taken b.length), s.answers, s.calls + 1⟩,
          n, err) ∧
      n.toNat = (s.answers s.calls).taken b.length ∧
      (err ≠ none → (s.answers s.calls).Refuses) := by
  unfold Socket.write
  cases s.answers s.calls with
  | full =>
    refine ⟨b.length, none, ?_, rfl, fun failed => absurd rfl failed⟩
    rw [SysWrite.taken, take_length]
  | short n =>
    refine ⟨(b.take n).length, none, ?_, ?_, fun failed => absurd rfl failed⟩
    · rw [SysWrite.taken, ← take_eq_take_min]
    · rw [SysWrite.taken, Int.toNat_natCast, length_take]
  | fail err =>
    refine ⟨-1, some err, ?_, rfl, fun _ => trivial⟩
    rw [SysWrite.taken, take_zero, append_nil]

namespace WriteQueue

/-- What one flush offers the kernel. -/
def offer (q : WriteQueue) (maxBytes : Int) : Bytes :=
  (iovecs maxBytes (q.items.drop q.head) maxWritevIovecs maxBytes).flatten

theorem iovecs_bounded (maxBytes : Int) (items : List WriteEntry) (room : Nat) (remaining : Int)
    (limited : maxBytes > 0) (left : 0 ≤ remaining) :
    ((iovecs maxBytes items room remaining).flatten.length : Int) ≤ remaining := by
  induction items generalizing room remaining with
  | nil => simpa [iovecs] using left
  | cons item items ih =>
    cases room with
    | zero => simpa [iovecs] using left
    | succ room =>
      unfold iovecs
      by_cases spent : item.off ≥ item.size
      · rw [if_pos spent]
        exact ih _ _ left
      rw [if_neg spent, if_pos limited]
      by_cases used : remaining ≤ 0
      · rw [if_pos used]
        exact left
      rw [if_neg used]
      generalize shown : (if (item.live.length : Int) > remaining then
        item.live.take remaining.toNat else item.live) = b
      have fits : (b.length : Int) ≤ remaining := by
        rw [← shown]
        split
        · rw [length_take]
          omega
        · omega
      have rest := ih room (remaining - b.length) (by omega)
      rw [flatten_cons, length_append]
      omega

/-- Each window has a byte, so nothing but the limits keeps a byte back. -/
theorem iovecs_reaches (maxBytes : Int) (items : List WriteEntry) (room : Nat) (remaining : Int)
    (valid : ∀ item ∈ items, item.Ok) (k : Nat) (windows : k ≤ room)
    (waiting : k ≤ (items.map WriteEntry.live).flatten.length)
    (budget : maxBytes > 0 → (k : Int) ≤ remaining) :
    k ≤ (iovecs maxBytes items room remaining).flatten.length := by
  induction items generalizing room remaining k with
  | nil => exact waiting
  | cons item items ih =>
    cases room with
    | zero => omega
    | succ room =>
      have entry := valid item mem_cons_self
      have length := item.live_length entry
      have order := entry.1
      have later := fun other member => valid other (mem_cons_of_mem item member)
      rw [map_cons, flatten_cons, length_append] at waiting
      unfold iovecs
      rw [if_neg (by omega)]
      by_cases limited : maxBytes > 0
      · rw [if_pos limited]
        by_cases used : remaining ≤ 0
        · omega
        rw [if_neg used]
        rw [flatten_cons, length_append]
        by_cases cut : (item.live.length : Int) > remaining
        · rw [if_pos cut, length_take]
          omega
        rw [if_neg cut]
        have rest := ih room (remaining - item.live.length) later
          (k - item.live.length) (by omega) (by omega) (by omega)
        omega
      have rest := ih room remaining later (k - item.live.length) (by omega) (by omega)
      rw [if_neg limited, flatten_cons, length_append]
      omega

variable {q : WriteQueue}

theorem offer_front (maxBytes : Int) : q.offer maxBytes <+: q.content := by
  obtain ⟨rest, split⟩ := iovecs_front maxBytes (q.items.drop q.head) maxWritevIovecs maxBytes
  exact ⟨rest, split.symm⟩

theorem offer_le {maxBytes : Int} (limited : maxBytes > 0) :
    ((q.offer maxBytes).length : Int) ≤ maxBytes :=
  iovecs_bounded maxBytes _ _ _ limited (by omega)

theorem le_offer (valid : q.Ok) {maxBytes : Int} (k : Nat) (windows : k ≤ maxWritevIovecs)
    (waiting : k ≤ q.content.length) (budget : maxBytes > 0 → (k : Int) ≤ maxBytes) :
    k ≤ (q.offer maxBytes).length :=
  iovecs_reaches maxBytes _ _ _ valid.entries k windows waiting budget

end WriteQueue

namespace EngineConn

variable {π : Type} {e : ConnEnv π} {c : EngineConn π}

/-- The kernel's answer to the next call. -/
def answer (c : EngineConn π) : SysWrite := c.sock.answers c.sock.calls

/-- `c'` is `c` after `calls` system calls that took `k` bytes from the front of the queue. -/
structure Moved (c c' : EngineConn π) (calls k : Nat) : Prop where
  plain : c'.tls = none
  queue : c'.wq.Ok
  fd : c'.fd = c.fd
  within : k ≤ c.wq.content.length
  accepted : c'.sock.accepted = c.sock.accepted ++ c.wq.content.take k
  content : c'.wq.content = c.wq.content.drop k
  answers : c'.sock.answers = c.sock.answers
  calls : c'.sock.calls = c.sock.calls + calls

theorem Moved.refl (valid : c.Sending) : Moved c c 0 0 where
  plain := valid.plain
  queue := valid.queue
  fd := rfl
  within := Nat.zero_le _
  accepted := by rw [take_zero, append_nil]
  content := rfl
  answers := rfl
  calls := rfl

variable {c' : EngineConn π} {calls k : Nat}

theorem Moved.sending (moved : Moved c c' calls k) : c'.Sending := ⟨moved.plain, moved.queue⟩

theorem Moved.trans {c'' : EngineConn π} {calls' k' : Nat} (first : Moved c c' calls k)
    (second : Moved c' c'' calls' k') : Moved c c'' (calls + calls') (k + k') where
  plain := second.plain
  queue := second.queue
  fd := second.fd.trans first.fd
  within := by
    have rest := second.within
    have front := first.within
    rw [first.content, length_drop] at rest
    omega
  accepted := by
    rw [second.accepted, first.accepted, first.content, append_assoc, take_add]
  content := by rw [second.content, first.content, drop_drop]
  answers := second.answers.trans first.answers
  calls := by rw [second.calls, first.calls, Nat.add_assoc]

theorem Moved.accepted_length (moved : Moved c c' calls k) :
    c'.sock.accepted.length = c.sock.accepted.length + k := by
  have within := moved.within
  rw [moved.accepted, length_append, length_take, Nat.min_eq_left within]

/-- One flush of a plain connection with something to send makes one call. -/
theorem flushN_moved (valid : c.Sending) (isOpen : c.fd ≠ 0) (busy : c.wq.content ≠ [])
    (maxBytes : Int) :
    ∃ c' n err, c.flushN e maxBytes = some (c', n, err) ∧
      Moved c c' 1 (c.answer.taken (c.wq.offer maxBytes).length) ∧
      n.toNat = c.answer.taken (c.wq.offer maxBytes).length ∧ (err ≠ none → c.answer.Refuses) := by
  have waiting := length_pos_iff.mpr busy
  have offered : 0 < (c.wq.offer maxBytes).length :=
    WriteQueue.le_offer valid.queue 1 (by decide) waiting (by omega)
  have windows : (WriteQueue.iovecs maxBytes (c.wq.items.drop c.wq.head) maxWritevIovecs
      maxBytes).length ≠ 0 := by
    intro void
    rw [WriteQueue.offer, eq_nil_of_length_eq_zero void] at offered
    exact Nat.lt_irrefl 0 offered
  obtain ⟨count, err, wrote, counted, failed⟩ :=
    c.sock.write_taken (c.wq.offer maxBytes)
  have front := WriteQueue.offer_front (q := c.wq) maxBytes
  have taken_le := c.answer.taken_le (c.wq.offer maxBytes).length
  change _ = c.answer.taken _ at counted
  change _ → c.answer.Refuses at failed
  change _ = (Socket.mk (_ ++ take (c.answer.taken _) _) _ _, _) at wrote
  generalize c.answer.taken (c.wq.offer maxBytes).length = k at *
  -- The count the flush reports is the kernel's, up to the -1 that EAGAIN turns into 0.
  generalize clipped : (if err = some Err.EAGAIN ∧ count < 0 then 0 else count) = n
  have same : n.toNat = k := by
    rw [← clipped]
    split <;> omega
  have accepted : take k (c.wq.offer maxBytes) = c.wq.content.take k := by
    obtain ⟨rest, whole⟩ := front
    rw [← whole, take_append_of_le_length taken_le]
  have flushed : flushWriteQueue c.fd c.sock c.wq maxBytes =
      (⟨c.sock.accepted ++ c.wq.content.take k, c.sock.answers, c.sock.calls + 1⟩,
        if n ≤ 0 then c.wq else c.wq.consume n, n, err) := by
    rw [← accepted, flushWriteQueue, if_neg isOpen,
      if_neg (by rw [valid.queue.pending_eq]; exact Nat.ne_of_gt waiting)]
    rw [if_neg windows, Socket.writev, if_neg windows]
    have written : c.sock.write (WriteQueue.iovecs maxBytes (c.wq.items.drop c.wq.head)
        maxWritevIovecs maxBytes).flatten = _ := wrote
    rw [written]
    dsimp only
    rw [clipped]
    split <;> rfl
  have within := Nat.le_trans taken_le front.length_le
  have left : (if n ≤ 0 then c.wq else c.wq.consume n).Ok ∧
      (if n ≤ 0 then c.wq else c.wq.consume n).content = c.wq.content.drop k := by
    by_cases naught : n ≤ 0
    · rw [if_pos naught, ← same, Int.toNat_of_nonpos naught]
      exact ⟨valid.queue, rfl⟩
    rw [if_neg naught, ← same]
    exact c.wq.consume_ok n valid.queue
  refine ⟨{ c with
      sock := ⟨c.sock.accepted ++ c.wq.content.take k, c.sock.answers, c.sock.calls + 1⟩
      wq := if n ≤ 0 then c.wq else c.wq.consume n }, n, err, ?_,
    ⟨valid.plain, left.1, rfl, within, rfl, left.2, rfl, rfl⟩, same, failed⟩
  rw [flushN, valid.plain]
  rw [flushed]

theorem flushN_idle (valid : c.Sending) (isOpen : c.fd ≠ 0) (idle : c.wq.content = [])
    (maxBytes : Int) : c.flushN e maxBytes = some (c, 0, none) := by
  have void : c.wq.pending = 0 := by rw [valid.queue.pending_eq, idle, length_nil]
  rw [flushN, valid.plain]
  dsimp only
  rw [flushWriteQueue, if_neg isOpen, if_pos void, ← valid.plain]

/-- A drain from `c` to `c'` that made `calls` calls and moved `k` bytes. -/
structure Budgeted (plan total : Int) (c c' : EngineConn π) (calls k : Nat) : Prop where
  moved : Moved c c' calls k
  /-- Each round stays within the plan, and a round starts only below it. -/
  bounded : 0 < plan → total < plan → total + k < 2 * plan
  /-- Only the last call can have been refused. -/
  earlier : ∀ i, i + 1 < calls → ¬ (c.sock.answers (c.sock.calls + i)).Refuses
  /-- Without a plan only a refusal stops the drain early. -/
  last : plan ≤ 0 → k < c.wq.content.length →
    0 < calls ∧ (c.sock.answers (c.sock.calls + (calls - 1))).Refuses

/-- The drain ends in its first round. -/
theorem Budgeted.stop {plan total : Int} (moved : Moved c c' 1 k)
    (bounded : 0 < plan → (k : Int) ≤ plan) (last : plan ≤ 0 → c.answer.Refuses) :
    Budgeted plan total c c' 1 k where
  moved := moved
  bounded := by omega
  earlier := by omega
  last := fun unlimited _ => ⟨Nat.one_pos, last unlimited⟩

/-- One more round before the rest. -/
theorem Budgeted.cons {plan total : Int} {next : EngineConn π} {k' : Nat}
    (first : Moved c next 1 k) (filled : ¬ c.answer.Refuses) (below : 0 < plan → total + k < plan)
    (rest : Budgeted plan (total + k) next c' calls k') :
    Budgeted plan total c c' (1 + calls) (k + k') where
  moved := first.trans rest.moved
  bounded := by
    intro limited _
    have bound := rest.bounded limited (below limited)
    omega
  earlier := by
    intro i early
    cases i with
    | zero => exact filled
    | succ i =>
      have later := rest.earlier i (by omega)
      rw [first.answers, first.calls, Nat.add_assoc, Nat.add_comm 1 i] at later
      exact later
  last := by
    intro unlimited short
    have left : k' < next.wq.content.length := by
      rw [first.content, length_drop]
      omega
    obtain ⟨positive, refused⟩ := rest.last unlimited left
    refine ⟨by omega, ?_⟩
    rw [first.answers, first.calls, Nat.add_assoc] at refused
    rwa [Nat.add_sub_assoc positive]

theorem drainLoop_drained (plan : Int) (rounds : Nat) (total : Int) (valid : c.Sending)
    (isOpen : c.fd ≠ 0) (enough : c.wq.content.length < rounds) :
    ∃ c' err calls k, drainLoop e plan rounds c total = some (c', total + (k : Nat), err) ∧
      Budgeted plan total c c' calls k := by
  induction rounds generalizing c total with
  | zero => omega
  | succ rounds ih =>
    unfold drainLoop
    by_cases idle : c.wq.content = []
    · rw [flushN_idle valid isOpen idle]
      refine ⟨c, none, 0, 0, ?_, Moved.refl valid, by omega, by omega, ?_⟩
      · simp
      intro _ short
      rw [idle] at short
      exact absurd short (Nat.lt_irrefl 0)
    obtain ⟨next, n, err, flushed, moved, count, failed⟩ :=
      flushN_moved (e := e) valid isOpen idle plan
    have bound := c.answer.taken_le (c.wq.offer plan).length
    have offer_le (limited : 0 < plan) := WriteQueue.offer_le (q := c.wq) limited
    have offered : 0 < (c.wq.offer plan).length :=
      WriteQueue.le_offer valid.queue 1 (by decide) (length_pos_iff.mpr idle) (by omega)
    have zero_iff := SysWrite.taken_eq_zero offered c.answer
    generalize c.answer.taken (c.wq.offer plan).length = k at *
    have within (limited : 0 < plan) : (k : Int) ≤ plan := by
      have whole := offer_le limited
      omega
    rw [flushed]
    cases err with
    | some err =>
      have refused := failed (by simp)
      have void := zero_iff.mpr refused
      refine ⟨next, some err, 1, k, ?_, Budgeted.stop moved within fun _ => refused⟩
      rw [void]
      simp
    | none =>
      have sofar : (if n > 0 then total + n else total) = total + k := by
        split <;> omega
      dsimp only
      rw [sofar]
      by_cases ends : n ≤ 0 ∨ (total + k ≥ plan ∧ plan > 0)
      · rw [if_pos ends]
        refine ⟨next, none, 1, k, rfl, Budgeted.stop moved within fun unlimited => ?_⟩
        exact zero_iff.mp (by omega)
      rw [if_neg ends]
      have shorter : next.wq.content.length < rounds := by
        have inside := moved.within
        rw [moved.content, length_drop]
        omega
      obtain ⟨c', err, calls, k', looped, drained⟩ :=
        ih (total + k) moved.sending (moved.fd ▸ isOpen) shorter
      refine ⟨c', err, 1 + calls, k + k', ?_, Budgeted.cons moved ?_ (by omega) drained⟩
      · rw [looped, Int.add_assoc, Int.natCast_add]
      · exact fun refused => ends (.inl (by have := zero_iff.mpr refused; omega))

theorem drainWrite_drained (valid : c.Sending) (isOpen : c.fd ≠ 0) :
    ∃ c' err calls k, c.drainWrite e = some (c', ((k : Nat) : Int), err) ∧
      Budgeted e.tuning.maxFlushBytesPerEvent 0 c c' calls k := by
  unfold drainWrite
  by_cases idle : c.pendingWrite = 0
  · rw [if_pos idle]
    rw [valid.pendingWrite_eq] at idle
    refine ⟨c, none, 0, 0, rfl, Moved.refl valid, by omega, by omega, by omega⟩
  rw [if_neg idle]
  have enough : c.wq.content.length < e.rounds + c.pendingWrite + 1 := by
    rw [valid.pendingWrite_eq]
    omega
  obtain ⟨c', err, calls, k, looped, drained⟩ :=
    drainLoop_drained (e := e) e.tuning.maxFlushBytesPerEvent _ 0 valid isOpen enough
  rw [Int.zero_add] at looped
  exact ⟨c', err, calls, k, looped, drained⟩

/-- A closed connection fails its first flush without a call. -/
theorem drainWrite_closed (valid : c.Sending) (closed : c.fd = 0) :
    ∃ err, c.drainWrite e = some (c, 0, err) := by
  unfold drainWrite
  by_cases idle : c.pendingWrite = 0
  · rw [if_pos idle]
    exact ⟨none, rfl⟩
  rw [if_neg idle, drainLoop, flushN, valid.plain]
  dsimp only
  rw [flushWriteQueue, if_pos closed, ← valid.plain]
  exact ⟨some .EBADF, rfl⟩

/-- What a drain can write at most, whatever the kernel answers. -/
theorem drainWrite_bounded (valid : c.Sending) :
    ∃ c' sum err k, c.drainWrite e = some (c', sum, err) ∧
      c'.sock.accepted.length = c.sock.accepted.length + k ∧ k ≤ c.wq.content.length ∧
      (c.fd = 0 → k = 0) ∧
      (0 < e.tuning.maxFlushBytesPerEvent → (k : Int) < 2 * e.tuning.maxFlushBytesPerEvent) := by
  by_cases closed : c.fd = 0
  · obtain ⟨err, done⟩ := drainWrite_closed (e := e) valid closed
    exact ⟨c, 0, err, 0, done, rfl, Nat.zero_le _, fun _ => rfl, by omega⟩
  obtain ⟨c', err, calls, k, done, drained⟩ := drainWrite_drained (e := e) valid closed
  refine ⟨c', k, err, k, done, drained.moved.accepted_length, drained.moved.within,
    fun zero => absurd zero closed, fun limited => ?_⟩
  have bound := drained.bounded limited limited
  omega

/-- The connection with a kernel that answers so. -/
def facing (c : EngineConn π) (answers : Nat → SysWrite) : EngineConn π :=
  { c with sock := { c.sock with answers := answers } }

/-- The kernel takes a byte at a time until one byte of the plan is left. -/
def creeping (start steps : Nat) (i : Nat) : SysWrite :=
  if i < start + steps then .short 1 else .full

theorem creeping_next (start steps : Nat) :
    creeping start (steps + 1) = creeping (start + 1) steps := by
  funext i
  rw [creeping, creeping, Nat.add_assoc, Nat.add_comm 1 steps]

/-- The last round of a creeping drain still offers up to the whole plan. -/
theorem drainLoop_creeps (plan : Int) (rounds : Nat) (total : Int) (steps : Nat)
    (valid : c.Sending) (isOpen : c.fd ≠ 0)
    (answers : c.sock.answers = creeping c.sock.calls steps) (left : total + steps + 1 = plan)
    (large : 1 < plan) (busy : steps + 2 ≤ c.wq.content.length) {sum : Int} {err : Option Err}
    (done : drainLoop e plan rounds c total = some (c', sum, err)) :
    c.sock.accepted.length + steps + 2 ≤ c'.sock.accepted.length := by
  induction steps generalizing c total rounds with
  | zero =>
    cases rounds with
    | zero => cases done
    | succ rounds =>
      have filled : c.wq.content ≠ [] := length_pos_iff.mp (by omega)
      have answer : c.answer = .full := by
        rw [EngineConn.answer, answers, creeping, if_neg (by omega)]
      obtain ⟨next, n, failure, flushed, moved, count, failed⟩ :=
        flushN_moved (e := e) valid isOpen filled plan
      have offered : 2 ≤ (c.wq.offer plan).length :=
        WriteQueue.le_offer valid.queue 2 (by decide) (by omega) (by omega)
      rw [answer] at moved count failed
      cases failure with
      | some failure => exact (failed nofun).elim
      | none =>
        change n.toNat = (c.wq.offer plan).length at count
        have length := moved.accepted_length
        change _ = _ + (c.wq.offer plan).length at length
        unfold drainLoop at done
        rw [flushed] at done
        dsimp only at done
        rw [if_pos (by omega : n > 0), if_pos (by omega)] at done
        cases done
        omega
  | succ steps ih =>
    cases rounds with
    | zero => cases done
    | succ rounds =>
      have filled : c.wq.content ≠ [] := length_pos_iff.mp (by omega)
      have answer : c.answer = .short 1 := by
        rw [EngineConn.answer, answers, creeping, if_pos (by omega)]
      obtain ⟨next, n, failure, flushed, moved, count, failed⟩ :=
        flushN_moved (e := e) valid isOpen filled plan
      have offered : 1 ≤ (c.wq.offer plan).length :=
        WriteQueue.le_offer valid.queue 1 (by decide) (by omega) (by omega)
      have one : c.answer.taken (c.wq.offer plan).length = 1 := by
        rw [answer]
        exact Nat.min_eq_left offered
      rw [answer] at failed
      cases failure with
      | some failure => exact absurd (failed nofun) Nat.one_ne_zero
      | none =>
        unfold drainLoop at done
        rw [flushed] at done
        dsimp only at done
        rw [if_pos (by omega : n > 0), if_neg (by omega)] at done
        have next_answers : next.sock.answers = creeping next.sock.calls steps := by
          rw [moved.answers, moved.calls, answers, creeping_next]
        have next_busy : steps + 2 ≤ next.wq.content.length := by
          rw [moved.content, length_drop]
          omega
        have rest := ih rounds (total + n) moved.sending (moved.fd ▸ isOpen) next_answers
          (by omega) next_busy done
        have length := moved.accepted_length
        omega

end EngineConn

/-- One drain against every kernel. It keeps to a plan of at least two bytes for all of them just
when the queue is no longer than the plan, and always stays below twice the plan; without a plan
it writes until the queue is empty or a call is refused. -/
theorem flush_budget {π : Type} (e : ConnEnv π) (c : EngineConn π) (plain : c.tls = none)
    (queue : c.wq.Ok) :
    (0 < e.tuning.maxFlushBytesPerEvent →
      ((∀ answers, ∃ c' sum err, (c.facing answers).drainWrite e = some (c', sum, err) ∧
          (c'.sock.accepted.length : Int) ≤
            c.sock.accepted.length + e.tuning.maxFlushBytesPerEvent) ↔
        c.fd = 0 ∨ e.tuning.maxFlushBytesPerEvent = 1 ∨
          (c.wq.content.length : Int) ≤ e.tuning.maxFlushBytesPerEvent) ∧
      ∀ answers, ∃ c' sum err, (c.facing answers).drainWrite e = some (c', sum, err) ∧
        (c'.sock.accepted.length : Int) <
          c.sock.accepted.length + 2 * e.tuning.maxFlushBytesPerEvent) ∧
    (e.tuning.maxFlushBytesPerEvent ≤ 0 → ∀ answers, ∃ c' err calls k,
      (c.facing answers).drainWrite e = some (c', ((k : Nat) : Int), err) ∧
        c'.sock.accepted = c.sock.accepted ++ c.wq.content.take k ∧
        c'.wq.content = c.wq.content.drop k ∧ c'.sock.calls = c.sock.calls + calls ∧
        (∀ i, i + 1 < calls → ¬ (answers (c.sock.calls + i)).Refuses) ∧
        (c.fd ≠ 0 → k < c.wq.content.length →
          0 < calls ∧ (answers (c.sock.calls + (calls - 1))).Refuses)) := by
  have valid (answers : Nat → SysWrite) : (c.facing answers).Sending := ⟨plain, queue⟩
  refine ⟨fun limited => ⟨⟨?_, ?_⟩, ?_⟩, ?_⟩
  · intro kept
    by_contra outside
    simp only [not_or] at outside
    obtain ⟨isOpen, large, long⟩ := outside
    obtain ⟨c', sum, err, done, within⟩ :=
      kept (EngineConn.creeping c.sock.calls (e.tuning.maxFlushBytesPerEvent - 1).toNat)
    have steps : ((e.tuning.maxFlushBytesPerEvent - 1).toNat : Int) + 1 =
        e.tuning.maxFlushBytesPerEvent := by omega
    generalize (e.tuning.maxFlushBytesPerEvent - 1).toNat = k at steps done
    have busy : (c.facing (EngineConn.creeping c.sock.calls k)).pendingWrite ≠ 0 := by
      rw [(valid _).pendingWrite_eq]
      change c.wq.content.length ≠ 0
      omega
    rw [EngineConn.drainWrite, if_neg busy] at done
    have waiting : k + 2 ≤ c.wq.content.length := by omega
    have crept := EngineConn.drainLoop_creeps e.tuning.maxFlushBytesPerEvent _ 0 k
      (valid (EngineConn.creeping c.sock.calls k)) isOpen rfl (by omega) (by omega) waiting done
    change c.sock.accepted.length + _ + 2 ≤ _ at crept
    omega
  · intro fits answers
    obtain ⟨c', sum, err, k, done, length, inside, closed, bound⟩ :=
      EngineConn.drainWrite_bounded (e := e) (valid answers)
    change k ≤ c.wq.content.length at inside
    change _ = c.sock.accepted.length + k at length
    refine ⟨c', sum, err, done, ?_⟩
    rcases fits with shut | one | short
    · have void := closed shut
      omega
    · omega
    · omega
  · intro answers
    obtain ⟨c', sum, err, k, done, length, _, _, bound⟩ :=
      EngineConn.drainWrite_bounded (e := e) (valid answers)
    change _ = c.sock.accepted.length + k at length
    exact ⟨c', sum, err, done, by omega⟩
  intro unlimited answers
  by_cases closed : c.fd = 0
  · obtain ⟨err, done⟩ := EngineConn.drainWrite_closed (e := e) (valid answers) closed
    refine ⟨_, err, 0, 0, done, ?_, rfl, rfl, by omega, fun isOpen => absurd closed isOpen⟩
    rw [List.take_zero, List.append_nil]
    rfl
  obtain ⟨c', err, calls, k, done, drained⟩ :=
    EngineConn.drainWrite_drained (e := e) (valid answers) closed
  exact ⟨c', err, calls, k, done, drained.moved.accepted, drained.moved.content,
    drained.moved.calls, drained.earlier, fun _ => drained.last unlimited⟩

/-- Eight bytes wait, and a drain may write four. -/
def overdrawn : ConnEnv Unit × EngineConn Unit :=
  (⟨⟨128, 0, 4, 0, 0, 0, 0⟩, BytesAlloctor.allocator 4 3 fun _ _ => 0, TlsLib.unused, 0⟩,
    { EngineConn.new 5 1 false ⟨[], fun i => if i = 0 then .short 3 else .full, 0⟩ none with
      wq := ⟨[⟨⟨0, [1, 2, 3, 4, 5, 6, 7, 8]⟩, 8, 0⟩], 0, 8, []⟩ })

/-- After a short write of three bytes the second round is given the whole plan again. -/
theorem flush_budget_exceeded :
    overdrawn.1.tuning.maxFlushBytesPerEvent = 4 ∧
      (overdrawn.2.drainWrite overdrawn.1).map (fun answer => (answer.1.sock.accepted, answer.2)) =
        some ([1, 2, 3, 4, 5, 6, 7], 7, none) := by
  decide

theorem flush_budget_overdrawn :
    ¬ (∀ answers, ∃ c' sum err,
      (overdrawn.2.facing answers).drainWrite overdrawn.1 = some (c', sum, err) ∧
        (c'.sock.accepted.length : Int) ≤ 4) := by
  have queue : overdrawn.2.wq.Ok := by
    refine ⟨by decide, ?_, by decide, by decide⟩
    intro item member
    cases List.mem_singleton.mp member
    exact ⟨by decide, by decide⟩
  obtain ⟨exact_iff, _⟩ := (flush_budget overdrawn.1 overdrawn.2 rfl queue).1 (by decide)
  intro kept
  exact absurd (exact_iff.mp kept) (by decide)

end Connaxis
