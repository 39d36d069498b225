import Connaxis.EngineConn
import Connaxis.WriteQueueOrder

namespace Connaxis

open Memory List

variable {err : Option Err}

/-- A system call takes a front part of what it is given and reports its length; a
failed one takes nothing. -/
theorem Socket.write_cases (s : Socket) (b : Bytes) {s' : Socket} {n : Int}
    (done : s.write b = (s', n, err)) :
    s'.accepted = s.accepted ++ b.take n.toNat ∧ n ≤ b.length ∧ s'.answers = s.answers ∧
      (err ≠ none → n = -1) := by
  unfold Socket.write at done
  split at done
  · cases done
    refine ⟨?_, Int.le_refl _, rfl, fun failed => absurd rfl failed⟩
    rw [Int.toNat_natCast, take_length]
  · cases done
    refine ⟨?_, ?_, rfl, fun failed => absurd rfl failed⟩
    · rw [Int.toNat_natCast, length_take, ← take_eq_take_min]
    rw [length_take]
    omega
  cases done
  refine ⟨?_, by omega, rfl, fun _ => rfl⟩
  simp

theorem WriteEntry.live_nil (item : WriteEntry) (spent : item.off ≥ item.size) :
    item.live = [] := by
  rw [WriteEntry.live, Nat.sub_eq_zero_of_le spent, take_zero]

namespace WriteQueue

/-- With its bytes used up the scan adds no window. -/
theorem iovecs_exhausted (maxBytes : Int) (items : List WriteEntry) (room : Nat) (remaining : Int)
    (limited : maxBytes > 0) (spent : remaining ≤ 0) :
    iovecs maxBytes items room remaining = [] := by
  induction items with
  | nil => simp only [iovecs]
  | cons item items ih =>
    cases room with
    | zero => simp only [iovecs]
    | succ room =>
      unfold iovecs
      split
      · exact ih
      · rfl

/-- The windows are a front part of what waits, whatever stops the scan. -/
theorem iovecs_front (maxBytes : Int) (items : List WriteEntry) (room : Nat) (remaining : Int) :
    ∃ rest, (items.map WriteEntry.live).flatten =
      (iovecs maxBytes items room remaining).flatten ++ rest := by
  induction items generalizing room remaining with
  | nil => exact ⟨[], rfl⟩
  | cons item items ih =>
    cases room with
    | zero => exact ⟨_, (nil_append _).symm⟩
    | succ room =>
      rw [map_cons, flatten_cons]
      unfold iovecs
      split
      · rename_i spent
        rw [item.live_nil spent, nil_append]
        exact ih (room + 1) remaining
      split
      · rename_i limited
        split
        · exact ⟨_, (nil_append _).symm⟩
        dsimp only
        rw [flatten_cons]
        split
        · -- The budget ends inside this entry.
          rename_i exceeds
          have cut : (item.live.take remaining.toNat).length = remaining.toNat := by
            rw [length_take]
            omega
          have spent : remaining - (item.live.take remaining.toNat).length ≤ 0 := by
            omega
          rw [iovecs_exhausted maxBytes items room _ limited spent, flatten_nil, append_nil]
          refine ⟨item.live.drop remaining.toNat ++ (items.map WriteEntry.live).flatten, ?_⟩
          rw [← append_assoc, take_append_drop]
        obtain ⟨rest, split⟩ := ih room (remaining - item.live.length)
        exact ⟨rest, by rw [split, append_assoc]⟩
      obtain ⟨rest, split⟩ := ih room remaining
      exact ⟨rest, by rw [split, flatten_cons, append_assoc]⟩

end WriteQueue

/-- One flush moves bytes from the front of the queue to the socket and changes
nothing else, whatever the kernel answers. -/
theorem flushWriteQueue_stream (fd : Nat) (s : Socket) (wq : WriteQueue) (maxBytes : Int)
    (valid : wq.Ok) {s' : Socket} {wq' : WriteQueue} {n : Int}
    (done : flushWriteQueue fd s wq maxBytes = (s', wq', n, err)) :
    wq'.Ok ∧ s'.accepted ++ wq'.content = s.accepted ++ wq.content ∧
      (0 < n → wq'.bytes < wq.bytes) := by
  unfold flushWriteQueue at done
  split at done
  · cases done
    exact ⟨valid, rfl, fun positive => absurd positive (Int.lt_irrefl 0)⟩
  split at done
  · cases done
    exact ⟨valid, rfl, fun positive => absurd positive (Int.lt_irrefl 0)⟩
  dsimp only at done
  split at done
  · cases done
    exact ⟨valid, rfl, fun positive => absurd positive (Int.lt_irrefl 0)⟩
  rename_i filled
  obtain ⟨rest, split⟩ := WriteQueue.iovecs_front maxBytes (wq.items.drop wq.head)
    maxWritevIovecs maxBytes
  have whole : wq.content = _ ++ rest := split
  rw [Socket.writev, if_neg filled] at done
  rcases wrote : s.write (WriteQueue.iovecs maxBytes (wq.items.drop wq.head)
      maxWritevIovecs maxBytes).flatten with ⟨after, count, failure⟩
  obtain ⟨taken, bound, _, _⟩ := Socket.write_cases s _ wrote
  rw [wrote] at done
  dsimp only at done
  generalize clipped :
    (if failure = Option.some Err.EAGAIN ∧ count < 0 then 0 else count) = m at done
  split at done
  · rename_i void
    cases done
    have nothing : count.toNat = 0 := by
      split at clipped <;> omega
    rw [taken, nothing, take_zero, append_nil]
    exact ⟨valid, rfl, fun positive => absurd positive (Int.not_lt.mpr void)⟩
  rename_i moved
  cases done
  have same : n = count := by
    split at clipped <;> omega
  obtain ⟨ok, content⟩ := wq.consume_ok n valid
  rw [← same] at taken bound
  refine ⟨ok, ?_, fun _ => ?_⟩
  · rw [content, taken, whole, drop_append_of_le_length (by omega),
      append_assoc, ← append_assoc (take _ _), take_append_drop]
  rw [ok.bytes_eq, content, valid.bytes_eq, length_drop, whole, length_append]
  omega

namespace EngineConn

variable {π : Type} {e : ConnEnv π} {c : EngineConn π}

/-- Everything handed to the connection so far: what the socket took, then what waits. -/
def stream (c : EngineConn π) : Bytes := c.sock.accepted ++ c.wq.content

/-- A plain connection whose queue is sound. -/
structure Sending (c : EngineConn π) : Prop where
  plain : c.tls = none
  queue : c.wq.Ok

theorem Sending.pendingWrite_eq (valid : c.Sending) : c.pendingWrite = c.wq.content.length := by
  rw [pendingWrite, valid.plain]
  exact valid.queue.pending_eq

theorem flushN_stream (valid : c.Sending) (maxBytes : Int) :
    ∃ c' n err, c.flushN e maxBytes = some (c', n, err) ∧ c'.Sending ∧ c'.stream = c.stream ∧
      (0 < n → c'.wq.bytes < c.wq.bytes) := by
  rcases flushed : flushWriteQueue c.fd c.sock c.wq maxBytes with ⟨s, wq, n, err⟩
  obtain ⟨ok, same, less⟩ :=
    flushWriteQueue_stream c.fd c.sock c.wq maxBytes valid.queue flushed
  refine ⟨{ c with sock := s, wq := wq }, n, err, ?_, ⟨valid.plain, ok⟩, same, less⟩
  rw [flushN, valid.plain]
  dsimp only
  rw [flushed]

/-- A drain ends, and only moves bytes from the queue to the socket. -/
theorem drainLoop_stream (plan : Int) (rounds : Nat) (c : EngineConn π) (total : Int)
    (valid : c.Sending) (enough : c.wq.bytes < rounds) :
    ∃ c' sum err, drainLoop e plan rounds c total = some (c', sum, err) ∧ c'.Sending ∧
      c'.stream = c.stream := by
  induction rounds generalizing c total with
  | zero => omega
  | succ rounds ih =>
    obtain ⟨next, n, err, flushed, nextValid, same, less⟩ :=
      flushN_stream valid plan
    unfold drainLoop
    rw [flushed]
    cases err with
    | some err => exact ⟨next, total, some err, rfl, nextValid, same⟩
    | none =>
      dsimp only
      generalize (if n > 0 then total + n else total) = sofar
      split
      · exact ⟨next, sofar, none, rfl, nextValid, same⟩
      have positive : 0 < n := by omega
      have shorter := less positive
      obtain ⟨c', sum, err, looped, ok, kept⟩ := ih next sofar nextValid (by omega)
      exact ⟨c', sum, err, looped, ok, kept.trans same⟩

section

variable (valid : c.Sending)
include valid

theorem drainWrite_stream :
    ∃ c' sum err, c.drainWrite e = some (c', sum, err) ∧ c'.Sending ∧ c'.stream = c.stream := by
  unfold drainWrite
  split
  · exact ⟨c, 0, none, rfl, valid, rfl⟩
  apply drainLoop_stream _ _ _ _ valid
  rw [valid.pendingWrite_eq, valid.queue.bytes_eq]
  omega

theorem enqueueWrite_stream (owner : Buf) (size : Nat) (fits : size ≤ owner.bytes.length) :
    (c.enqueueWrite e owner size).Sending ∧
      (c.enqueueWrite e owner size).stream = c.stream ++ owner.bytes.take size := by
  obtain ⟨ok, content⟩ := c.wq.enqueue_ok e.tuning owner size valid.queue fits
  refine ⟨⟨valid.plain, ok⟩, ?_⟩
  change c.sock.accepted ++ (c.wq.enqueue e.tuning owner size).content = _
  rw [content, stream, append_assoc]

theorem enqueueCopy_stream {c' : EngineConn π} {n n' : Nat} {out : Bytes}
    (done : c.enqueueCopy e n out = (c', n', err)) :
    c'.Sending ∧ (Soft err → c'.stream = c.stream ++ out) := by
  unfold enqueueCopy at done
  split at done
  · cases done
    refine ⟨valid, fun soft => ?_⟩
    rcases soft with void | again
    · cases void
    · cases again
  rename_i owner granted
  cases done
  have front := overwrite_take owner 0 out (Nat.zero_le _)
  rw [Nat.zero_add, take_zero, nil_append] at front
  have room := e.alloc.sized _ _ _ granted
  obtain ⟨ok, grown⟩ := enqueueWrite_stream valid ⟨n, overwrite owner 0 out⟩ out.length
    (by dsimp only; rw [overwrite_length _ _ _ (by omega)]; exact room)
  refine ⟨ok, fun _ => ?_⟩
  rw [grown, front]

theorem write_stream (empty : c.pendingWrite = 0) (out : Bytes) :
    ∃ c' sent err, c.write e out = some (c', sent, err) ∧ c'.Sending ∧
      (Soft err → c'.stream = c.stream ++ out.take sent.toNat) ∧ sent ≤ out.length ∧
      (err ≠ none → sent ≤ 0) := by
  have waiting : c.wq.content = [] :=
    eq_nil_of_length_eq_zero (valid.pendingWrite_eq ▸ empty)
  unfold write
  rw [valid.plain]
  dsimp only
  split
  · refine ⟨c, 0, some .EBADF, rfl, valid, fun soft => ?_, by omega, fun _ => Int.le_refl 0⟩
    rcases soft with void | again
    · cases void
    · cases again
  rcases wrote : c.sock.write out with ⟨s, sent, err⟩
  obtain ⟨taken, bound, _, failed⟩ := Socket.write_cases c.sock out wrote
  refine ⟨{ c with sock := s }, sent, err, ?_, ⟨valid.plain, valid.queue⟩, fun _ => ?_,
    bound, fun wrong => ?_⟩
  · rw [valid.plain]
  · rw [stream, stream]
    dsimp only
    rw [taken, waiting, append_nil, append_nil]
  have refused := failed wrong
  omega

/-- Output goes behind everything that was handed over before it. -/
theorem emitOutput_stream (n : Nat) (out : Bytes) :
    ∃ c' n' err, c.emitOutput e n out = some (c', n', err) ∧ c'.Sending ∧
      (Soft err → c'.stream = c.stream ++ out) := by
  unfold emitOutput
  split
  · rename_i empty
    refine ⟨c, n, none, rfl, valid, fun _ => ?_⟩
    rw [eq_nil_of_length_eq_zero empty, append_nil]
  split
  · rename_i idle
    obtain ⟨next, sent, err, wrote, ok, moved, bound, failed⟩ :=
      write_stream valid idle out
    rw [wrote]
    dsimp only
    split
    · rename_i whole
      refine ⟨next, n, none, rfl, ok, fun _ => ?_⟩
      have soft : Soft err := by
        by_cases fine : err = none
        · exact .inl fine
        have void := failed fine
        omega
      rw [moved soft, whole, Int.toNat_natCast, take_length]
    have copied (soft : Soft err) : ∃ c' n' err',
        some (next.enqueueCopy e n (out.drop sent.toNat)) = some (c', n', err') ∧ c'.Sending ∧
          (Soft err' → c'.stream = c.stream ++ out) := by
      rcases copy : next.enqueueCopy e n (out.drop sent.toNat) with ⟨c', n', err'⟩
      obtain ⟨ok', grown⟩ := enqueueCopy_stream ok copy
      refine ⟨c', n', err', rfl, ok', fun soft' => ?_⟩
      rw [grown soft', moved soft, append_assoc, take_append_drop]
    cases err with
    | none => exact copied (.inl rfl)
    | some err =>
      cases err with
      | EAGAIN => exact copied (.inr rfl)
      | _ =>
        refine ⟨next, n, _, rfl, ok, fun soft => ?_⟩
        rcases soft with void | again
        · cases void
        · cases again
  rcases copy : c.enqueueCopy e n out with ⟨c', n', err⟩
  exact ⟨c', n', err, rfl, enqueueCopy_stream valid copy⟩

end

/-- On every kind of connection the queue grows by what is put into it. -/
theorem enqueueWrite_pendingWrite {π : Type} (e : ConnEnv π) (c : EngineConn π) (owner : Buf)
    (size : Nat) : (c.enqueueWrite e owner size).pendingWrite = c.pendingWrite + size := by
  have grown := WriteQueue.enqueue_pending e.tuning c.wq owner size
  cases engine : c.tls with
  | none =>
    simp only [pendingWrite, enqueueWrite, engine]
    exact grown
  | some a =>
    simp only [pendingWrite, enqueueWrite, engine, ATLSConn.pendingWrite]
    omega

end EngineConn

/-- The calls that hand bytes to one connection or move them on. -/
inductive SendOp
  | emitOutput (out : Bytes)
  | enqueueWrite (owner : Buf) (size : Nat) (fits : size ≤ owner.bytes.length)
  | drainWrite
  | flushN (maxBytes : Int)

namespace SendOp

variable {π : Type}

def payload : SendOp → Bytes
  | .emitOutput out => out
  | .enqueueWrite owner size _ => owner.bytes.take size
  | .drainWrite => []
  | .flushN _ => []

def apply (e : ConnEnv π) (n : Nat) (c : EngineConn π) :
    SendOp → Option (EngineConn π × Nat × Option Err)
  | .emitOutput out => c.emitOutput e n out
  | .enqueueWrite owner size _ => some (c.enqueueWrite e owner size, n, none)
  | .drainWrite => (c.drainWrite e).map fun (c, _, err) => (c, n, err)
  | .flushN maxBytes => (c.flushN e maxBytes).map fun (c, _, err) => (c, n, err)

/-- One call after another, each under the settings of its moment, with their errors. -/
def runAll (n : Nat) (c : EngineConn π) :
    List (ConnEnv π × SendOp) → Option (EngineConn π × List (Option Err))
  | [] => some (c, [])
  | (e, op) :: rest =>
    match op.apply e n c with
    | none => none
    | some (c, n, err) => (runAll n c rest).map fun (c, errs) => (c, err :: errs)

theorem apply_stream (e : ConnEnv π) (n : Nat) {c : EngineConn π} (valid : c.Sending)
    (op : SendOp) :
    ∃ c' n' err, op.apply e n c = some (c', n', err) ∧ c'.Sending ∧
      (Soft err → c'.stream = c.stream ++ op.payload) := by
  cases op with
  | emitOutput out => exact EngineConn.emitOutput_stream valid n out
  | enqueueWrite owner size fits =>
    obtain ⟨ok, grown⟩ := EngineConn.enqueueWrite_stream valid owner size fits
    exact ⟨_, n, none, rfl, ok, fun _ => grown⟩
  | drainWrite =>
    obtain ⟨c', _, err, drained, ok, same⟩ := EngineConn.drainWrite_stream valid
    refine ⟨c', n, err, ?_, ok, fun _ => ?_⟩
    · rw [apply, drained]
      rfl
    · rw [same, payload, append_nil]
  | flushN maxBytes =>
    obtain ⟨c', _, err, flushed, ok, same, _⟩ :=
      EngineConn.flushN_stream valid maxBytes
    refine ⟨c', n, err, ?_, ok, fun _ => ?_⟩
    · rw [apply, flushed]
      rfl
    · rw [same, payload, append_nil]

theorem runAll_stream (n : Nat) (c : EngineConn π) (valid : c.Sending)
    (ops : List (ConnEnv π × SendOp)) :
    ∃ c' errs, runAll n c ops = some (c', errs) ∧ c'.Sending ∧
      ((∀ err ∈ errs, Soft err) →
        c'.stream = c.stream ++ (ops.map fun op => op.2.payload).flatten) := by
  induction ops generalizing n c with
  | nil =>
    refine ⟨c, [], rfl, valid, fun _ => ?_⟩
    rw [map_nil, flatten_nil, append_nil]
  | cons op rest ih =>
    obtain ⟨e, op⟩ := op
    obtain ⟨next, n', err, applied, ok, grown⟩ := apply_stream e n valid op
    obtain ⟨c', errs, ran, ok', total⟩ := ih n' next ok
    refine ⟨c', err :: errs, ?_, ok', fun soft => ?_⟩
    · rw [runAll, applied]
      dsimp only
      rw [ran]
      rfl
    rw [total fun other member => soft other (mem_cons_of_mem _ member),
      grown (soft err mem_cons_self), map_cons, flatten_cons, append_assoc]

end SendOp

/-- Every sequence of calls on a new plain connection comes to an end, and unless one of
them failed for good the socket has taken a front part of what was submitted and the
queue holds the rest, in order. -/
theorem send_order {π : Type} (n : Nat) (c : EngineConn π) (plain : c.tls = none)
    (idle : c.wq = WriteQueue.empty) (unsent : c.sock.accepted = [])
    (ops : List (ConnEnv π × SendOp)) :
    ∃ c' errs, SendOp.runAll n c ops = some (c', errs) ∧
      ((∀ err ∈ errs, Soft err) →
        c'.sock.accepted ++ c'.wq.content = (ops.map fun op => op.2.payload).flatten ∧
        c'.pendingWrite + c'.sock.accepted.length =
          (ops.map fun op => op.2.payload).flatten.length) := by
  have valid : c.Sending := ⟨plain, idle ▸ WriteQueue.empty_ok⟩
  obtain ⟨c', errs, ran, ok, total⟩ := SendOp.runAll_stream n c valid ops
  refine ⟨c', errs, ran, fun soft => ?_⟩
  have all := total soft
  rw [EngineConn.stream, EngineConn.stream, unsent, idle, WriteQueue.empty_content,
    List.nil_append, List.nil_append] at all
  refine ⟨all, ?_⟩
  rw [← all, List.length_append, ok.pendingWrite_eq, Nat.add_comm]

theorem short_fits : 2 ≤ (Buf.mk 9 [4, 5, 0]).bytes.length := by decide

/-- A kernel that takes one byte of the first write, refuses the second and takes the
rest, and a queue that coalesces. -/
def shortWrites : EngineConn Unit × List (ConnEnv Unit × SendOp) :=
  let env : ConnEnv Unit :=
    ⟨⟨128, 0, 2, 0, 0, 8, 8⟩, BytesAlloctor.allocator 4 3 fun _ _ => 0, TlsLib.unused, 0⟩
  let answers : Nat → SysWrite
    | 0 => .short 1
    | 1 => .fail .EAGAIN
    | _ => .full
  (EngineConn.new 5 1 false ⟨[], answers, 0⟩ none,
    [(env, .emitOutput [1, 2, 3]), (env, .drainWrite),
      (env, .enqueueWrite ⟨9, [4, 5, 0]⟩ 2 short_fits), (env, .drainWrite)])

theorem send_order_shortWrites : ∃ c' errs,
    SendOp.runAll 0 shortWrites.1 shortWrites.2 = some (c', errs) ∧
      (∀ err ∈ errs, Soft err) ∧ c'.sock.accepted ++ c'.wq.content = [1, 2, 3, 4, 5] ∧
      c'.pendingWrite + c'.sock.accepted.length = 5 := by
  obtain ⟨c', errs, ran, total⟩ := send_order 0 shortWrites.1 rfl rfl rfl shortWrites.2
  have results : (SendOp.runAll 0 shortWrites.1 shortWrites.2).map Prod.snd =
      some [none, some .EAGAIN, none, none] := by decide
  rw [ran] at results
  cases results
  have soft : ∀ err ∈ [none, some Err.EAGAIN, none, none], Soft err := by decide
  exact ⟨c', _, ran, soft, total soft⟩

end Connaxis
