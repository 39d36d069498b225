import Connaxis.RingBufferFrame
import Connaxis.SendOrder

namespace Connaxis

open Memory List RingBuffer WriteQueue Option

namespace Bio

variable {π : Type}

/-- A call that goes wrong whatever its transport answers from here on. -/
inductive Fails : Bio (π × Nat × Option Err) → Prop
  | done (p : π) (n : Nat) (err : Err) (hard : err ≠ .EAGAIN) : Fails (.done (p, n, some err))
  | write (record : Bytes) (next : Nat × Option Err → Bio (π × Nat × Option Err))
      (ends : ∀ answer, Fails (next answer)) : Fails (.write record next)

/-- A call that does nothing but write: it reports `n` once all its records have been
taken, and fails if one of them has not. -/
inductive Sends (n : Nat) : Bio (π × Nat × Option Err) → Prop
  | done (p : π) : Sends n (.done (p, n, none))
  | write (record : Bytes) (next : Nat × Option Err → Bio (π × Nat × Option Err))
      (taken : Sends n (next (record.length, none)))
      (refused : ∀ k err, Fails (next (k, some err))) : Sends n (.write record next)

/-- The same call, with what it has written handed to its result. -/
def traced {α β : Type} (f : Bytes → α → β) : Bytes → Bio α → Bio β
  | log, .done result => .done (f log result)
  | log, .read len next => .read len fun answer => traced f log (next answer)
  | log, .write p next => .write p fun answer => traced f (log ++ p) (next answer)

end Bio

/-- A `tls.Conn` with the plaintext it was given and the records it has produced. -/
structure Logged (π : Type) where
  conn : π
  given : Bytes
  produced : Bytes

namespace TlsLib

variable {π : Type}

/-- `Write` encrypts all it is given and writes that to its transport. -/
def Encrypts (lib : TlsLib π) : Prop := ∀ p src, (lib.write p src).Sends src.length

def logged (lib : TlsLib π) : TlsLib (Logged π) where
  read s len := (lib.read s.conn len).traced
    (fun log (p, bytes, err) => (⟨p, s.given, s.produced ++ log⟩, bytes, err)) []
  write s src := (lib.write s.conn src).traced
    (fun log (p, n, err) => (⟨p, s.given ++ src, s.produced ++ log⟩, n, err)) []
  close s := (lib.close s.conn).traced (fun log p => ⟨p, s.given, s.produced ++ log⟩) []

end TlsLib

variable {err : Option Err}

namespace TlsBufferConn

variable {A : Allocator UInt8} {b b' : TlsBufferConn}

/-- The ciphertext that waits to be sent. -/
def cipher (b : TlsBufferConn) : Bytes := content b.heap b.cout

theorem write_cipher (valid : Ok b.heap b.cout) (p : Bytes) {n : Nat}
    (done : b.write A p = (b', n, err)) :
    err = none ∧ n = p.length ∧ Ok b'.heap b'.cout ∧ b'.cipher = b.cipher ++ p ∨
      ∃ failure, err = some failure := by
  unfold write at done
  split at done
  · rename_i empty
    cases done
    rw [eq_nil_of_length_eq_zero empty]
    exact .inl ⟨rfl, rfl, valid, (append_nil _).symm⟩
  rename_i filled
  obtain ⟨lent, same, apart⟩ := valid.lent p
  rcases wrote : b.cout.write A (b.heap.lend p).1 (b.heap.lend p).2 (b.heap.lend p).2.len true
      with ⟨h, rest⟩
  dsimp only at done
  rw [wrote] at done
  dsimp only at done
  rcases write_queue lent (b.heap.lend_live p) (Nat.pos_of_ne_zero filled)
      apart wrote with
    ⟨refused, _⟩ | ⟨whole, ok, appended⟩
  · rw [if_pos refused] at done
    cases done
    exact .inr ⟨_, rfl⟩
  rw [if_neg (by omega)] at done
  cases done
  refine .inl ⟨rfl, rfl, ok, ?_⟩
  rw [cipher, appended, same, Heap.lend_read, cipher]

end TlsBufferConn

section Serve

variable {π β : Type} {A : Allocator UInt8} {f : Bytes → π × Nat × Option Err → β}

variable {bio : Bio (π × Nat × Option Err)}

theorem serve_fails (fails : bio.Fails) (b : TlsBufferConn) (log : Bytes) :
    ∃ b' log' p n err, b.serve A (bio.traced f log) = (b', f log' (p, n, some err)) ∧
      err ≠ .EAGAIN := by
  induction fails generalizing b log with
  | done p n err hard => exact ⟨b, log, p, n, err, rfl, hard⟩
  | write record next ends ih =>
    rw [Bio.traced, TlsBufferConn.serve]
    exact ih _ _ _

/-- A call that encrypts, on the in-memory transport. -/
theorem serve_sends {n : Nat} (sends : bio.Sends n) (b : TlsBufferConn)
    (valid : Ok b.heap b.cout) (log : Bytes) :
    (∃ b' p sent, b.serve A (bio.traced f log) = (b', f (log ++ sent) (p, n, none)) ∧
        Ok b'.heap b'.cout ∧ b'.cipher = b.cipher ++ sent) ∨
      ∃ b' log' p k err, b.serve A (bio.traced f log) = (b', f log' (p, k, some err)) ∧
        err ≠ .EAGAIN := by
  induction sends generalizing b log with
  | done p =>
    refine .inl ⟨b, p, [], ?_, valid, (append_nil _).symm⟩
    rw [append_nil]
    rfl
  | write record next taken refused ih =>
    rw [Bio.traced, TlsBufferConn.serve]
    rcases wrote : b.write A record with ⟨b₁, k, err⟩
    dsimp only
    rcases TlsBufferConn.write_cipher valid record wrote with
      ⟨rfl, rfl, ok, grown⟩ | ⟨failure, rfl⟩
    · rcases ih b₁ ok (log ++ record) with ⟨b', p, sent, done, ok', more⟩ | failed
      · refine .inl ⟨b', p, record ++ sent, ?_, ok', ?_⟩
        · rw [done, append_assoc]
        · rw [more, grown, append_assoc]
      · exact .inr failed
    obtain ⟨b', log', p, n, err, done, hard⟩ :=
      serve_fails (refused k failure) b₁ (log ++ record)
    exact .inr ⟨b', log', p, n, err, done, hard⟩

end Serve

variable {n : Int}

section Sealing

variable {π : Type} {A : Allocator UInt8} {lib : TlsLib π} {p : Logged π} {b : TlsBufferConn}
  {s : Socket} {wq : WriteQueue} {submitted : Bytes}

/-- The sending half of a connection: the ciphertext taken by the socket and that still
waiting are the records produced, and the plaintext encrypted and that still waiting are
what was submitted. -/
structure Sealing (p : Logged π) (b : TlsBufferConn) (s : Socket) (wq : WriteQueue)
    (submitted : Bytes) : Prop where
  ring : Ok b.heap b.cout
  queue : wq.Ok
  cipher : s.accepted ++ b.cipher = p.produced
  plain : p.given ++ wq.content = submitted

/-- Encrypting plaintext that is at the front of the queue, if anything is there. -/
theorem Sealing.write (encrypts : lib.Encrypts) (sealing : Sealing p b s wq submitted)
    (src : Bytes) :
    (∃ b' conn sent, b.serve A (lib.logged.write p src) =
        (b', ⟨conn, p.given ++ src, p.produced ++ sent⟩, src.length, none) ∧
        Ok b'.heap b'.cout ∧ s.accepted ++ b'.cipher = p.produced ++ sent) ∨
      ∃ b' p' n err, b.serve A (lib.logged.write p src) = (b', p', n, some err) ∧
        err ≠ .EAGAIN := by
  rcases serve_sends (A := A) (f := fun log (q, n, err) =>
      ((⟨q, p.given ++ src, p.produced ++ log⟩ : Logged π), n, err))
      (encrypts p.conn src) b sealing.ring [] with
    ⟨b', conn, sent, done, ok, grown⟩ | ⟨b', log, conn, k, err, done, hard⟩
  · refine .inl ⟨b', conn, sent, done, ok, ?_⟩
    rw [grown, ← append_assoc, sealing.cipher]
  · exact .inr ⟨b', _, k, err, done, hard⟩

/-- The windows offered to the kernel are a front part of the ciphertext, within the limit;
it is not empty if something waits and the limit leaves room for it. -/
theorem cipherVecs_front (valid : Ok b.heap b.cout) (limit : Bool) (remaining : Int) :
    ∃ k, (ATLSConn.cipherVecs b limit remaining).flatten = b.cipher.take k ∧
      (limit = true → (k : Int) ≤ max remaining 0) ∧
      ((limit = true → 0 < remaining) → 0 < b.cout.has → 0 < k) := by
  obtain ⟨whole, all, first, second⟩ := peek2_queue valid
  have solid (x y : Slice) (hx : (b.heap.read x).length = x.len)
      (hy : (b.heap.read y).length = y.len) :
      ((([x, y].filter fun s => s.len > 0).map b.heap.read).flatten) =
        b.heap.read x ++ b.heap.read y := by
    have nil (z : Slice) (hz : (b.heap.read z).length = z.len) (void : ¬ z.len > 0) :
        b.heap.read z = [] := eq_nil_of_length_eq_zero (by omega)
    by_cases filled : x.len > 0
    · by_cases more : y.len > 0
      · simp [filled, more]
      · simp [filled, more, nil y hy more]
    by_cases more : y.len > 0
    · simp [filled, more, nil x hx filled]
    · simp [filled, more, nil x hx filled, nil y hy more]
  have cut (x : Slice) (k : Nat) (hx : (b.heap.read x).length = x.len) (le : k ≤ x.len) :
      (b.heap.read (x.front k)).length = (x.front k).len := by
    rw [Heap.read_front _ _ _ le, length_take, Slice.front_len]
    omega
  have empty : b.heap.read Slice.nil = [] := by
    simp [Heap.read, Slice.nil]
  unfold ATLSConn.cipherVecs TlsBufferConn.cipher
  dsimp only
  rw [← whole, ← all]
  generalize b.cout.peek2.1 = head at first
  generalize b.cout.peek2.2 = tail at second
  cases limit with
  | false =>
    refine ⟨head.len + tail.len, ?_, by simp, fun _ => id⟩
    simp only [Bool.false_eq_true, if_false]
    rw [solid _ _ first second, take_of_length_le (by rw [length_append]; omega)]
  | true =>
    simp only [if_true]
    split
    · refine ⟨remaining.toNat, ?_, fun _ => by omega, fun room _ => by have := room trivial; omega⟩
      rw [solid _ _ (cut head _ first (by omega)) (by rw [empty]; rfl), empty, append_nil,
        Heap.read_front _ _ _ (by omega), take_append_of_le_length (by omega)]
    split
    · refine ⟨head.len + (remaining - head.len).toNat, ?_, fun _ => by omega,
        fun room _ => by have := room trivial; omega⟩
      rw [solid _ _ first (cut tail _ second (by omega)), Heap.read_front _ _ _ (by omega),
        ← first, take_length_add_append]
    refine ⟨head.len + tail.len, ?_, fun _ => by omega, fun _ => id⟩
    rw [solid _ _ first second, take_of_length_le (by rw [length_append]; omega)]

variable {s' : Socket}

theorem Socket.writev_cases (s : Socket) (vecs : List Bytes) (done : s.writev vecs = (s', n, err)) :
    s'.accepted = s.accepted ++ vecs.flatten.take n.toNat ∧ n ≤ vecs.flatten.length := by
  unfold Socket.writev at done
  split at done
  · cases done
    exact ⟨(append_nil _).symm, by omega⟩
  obtain ⟨taken, bound, _⟩ := Socket.write_cases s _ done
  exact ⟨taken, bound⟩

theorem WriteQueue.peek_front (wq : WriteQueue) : ∃ rest, wq.content = wq.peek ++ rest := by
  unfold peek
  split
  · exact ⟨wq.content, rfl⟩
  split
  · exact ⟨wq.content, rfl⟩
  rename_i item found
  split
  · exact ⟨wq.content, rfl⟩
  obtain ⟨inside, rfl⟩ := List.getElem?_eq_some_iff.mp found
  exact ⟨_, wq.content_front inside⟩

/-- A chunk that is cut off the first item is at the front of the queue. -/
theorem WriteQueue.chunk_front (wq : WriteQueue) (size : Nat) :
    wq.content = wq.peek.take size ++ wq.content.drop (wq.peek.take size).length := by
  obtain ⟨rest, front⟩ := wq.peek_front
  have cut : wq.content = wq.peek.take size ++ (wq.peek.drop size ++ rest) := by
    rw [← append_assoc, take_append_drop, front]
  rw [cut, drop_left]

/-- The socket takes ciphertext from the front of the ring. -/
theorem Sealing.sends (sealing : Sealing p b s wq submitted) {n : Nat} (held : n ≤ b.cout.has)
    (taken : s'.accepted = s.accepted ++ b.cipher.take n) :
    b.cipher = b.cipher.take n ++
        TlsBufferConn.cipher { b with cout := (b.cout.forward n .opRead).1 } ∧
      Sealing p { b with cout := (b.cout.forward n .opRead).1 } s' wq submitted := by
  obtain ⟨ok, rest⟩ := forward_queue sealing.ring held
  have behind : TlsBufferConn.cipher { b with cout := (b.cout.forward n .opRead).1 } =
      b.cipher.drop n := rest
  have parts := (take_append_drop n b.cipher).symm
  rw [← behind] at parts
  refine ⟨parts, ok, sealing.queue, ?_, sealing.plain⟩
  rw [taken, append_assoc, ← parts]
  exact sealing.cipher

/-- What a round may do. -/
inductive Rounded (limit : Bool) (x : FlushState (Logged π)) (submitted : Bytes) :
    Except (FlushState (Logged π) × Option Err) (FlushState (Logged π)) → Prop
  | stop (s : Socket) (err : Option Err) (same : s.accepted = x.s.accepted)
      (sealing : Sealing x.p x.b s x.wq submitted) :
      Rounded limit x submitted (.error ({ x with s := s }, err))
  | failed (y : FlushState (Logged π)) (err : Err) (hard : err ≠ .EAGAIN) (same : y.s = x.s) :
      Rounded limit x submitted (.error (y, some err))
  | sent (y : FlushState (Logged π)) (w : Bytes) (filled : w ≠ [])
      (taken : y.s.accepted = x.s.accepted ++ w) (cipher : x.b.cipher = w ++ y.b.cipher)
      (queue : y.wq = x.wq) (within : limit = true → (w.length : Int) = x.remaining - y.remaining ∧
        0 ≤ y.remaining) (sealing : Sealing y.p y.b y.s y.wq submitted) :
      Rounded limit x submitted (.ok y)
  | encrypted (y : FlushState (Logged π)) (shorter : y.wq.content.length < x.wq.content.length)
      (same : y.s = x.s) (budget : y.remaining = x.remaining)
      (sealing : Sealing y.p y.b y.s y.wq submitted) :
      Rounded limit x submitted (.ok y)

theorem flushRound_cases (encrypts : lib.Encrypts) (limit : Bool) (x : FlushState (Logged π))
    (sealing : Sealing x.p x.b x.s x.wq submitted) :
    Rounded limit x submitted (ATLSConn.flushRound A lib.logged limit x) := by
  unfold ATLSConn.flushRound
  split
  · exact .stop x.s none rfl sealing
  rename_i budget
  split
  · rcases wrote : x.s.writev (ATLSConn.cipherVecs x.b limit x.remaining) with ⟨s, n, err⟩
    obtain ⟨k, front, limited, _⟩ := cipherVecs_front sealing.ring limit x.remaining
    obtain ⟨taken, bound⟩ := Socket.writev_cases x.s _ wrote
    rw [front] at taken bound
    rw [length_take] at bound
    dsimp only
    generalize clipped : (if err = some Err.EAGAIN ∧ n < 0 then 0 else n) = m
    split
    · rename_i positive
      have same : m = n := by
        split at clipped <;> omega
      rw [same] at positive ⊢
      have held : n.toNat ≤ x.b.cout.has := by
        rw [← content_length x.b.heap]
        change n.toNat ≤ x.b.cipher.length
        omega
      have window : (x.b.cipher.take k).take n.toNat = x.b.cipher.take n.toNat := by
        rw [take_take, Nat.min_eq_left (by omega)]
      have length : (x.b.cipher.take n.toNat).length = n.toNat := by
        rw [length_take]
        omega
      rw [window] at taken
      obtain ⟨parts, sealed⟩ := sealing.sends held taken
      refine .sent _ (x.b.cipher.take n.toNat) ?_ taken parts rfl ?_ sealed
      · intro void
        rw [void, length_nil] at length
        omega
      · intro flag
        have most := limited flag
        dsimp only
        rw [if_pos flag, length]
        omega
    have nothing : n.toNat = 0 := by
      split at clipped <;> omega
    rw [nothing, take_zero, append_nil] at taken
    refine .stop s err taken ⟨sealing.ring, sealing.queue, ?_, sealing.plain⟩
    rw [taken]
    exact sealing.cipher
  split
  · exact .stop x.s none rfl sealing
  generalize x.chunkLimit limit = chunkLimit
  split
  · exact .stop x.s none rfl sealing
  have src : 0 < (x.wq.peek.take chunkLimit.toNat).length := by
    rw [length_take]
    omega
  have whole := x.wq.chunk_front chunkLimit.toNat
  generalize x.wq.peek.take chunkLimit.toNat = chunk at src whole
  obtain ⟨ok, left⟩ := x.wq.consume_ok chunk.length sealing.queue
  rw [Int.toNat_natCast] at left
  rcases sealing.write (A := A) encrypts chunk with
    ⟨b, conn, sent, done, ring, cipher⟩ | ⟨b, q, n, err, done, hard⟩
  · rw [done]
    dsimp only
    rw [if_pos src]
    refine .encrypted _ ?_ rfl rfl ⟨ring, ok, cipher, ?_⟩
    · have length := congrArg length whole
      rw [length_append] at length
      rw [left]
      omega
    rw [left, append_assoc, ← whole]
    exact sealing.plain
  rw [done]
  exact .failed _ err hard rfl

/-- Whatever a flush returns, it has sent no more than its limit; after a soft result the
stream is in order. -/
theorem flushLoop_sealed (encrypts : lib.Encrypts) (limit : Bool) (rounds : Nat)
    (x y : FlushState (Logged π)) (sealing : Sealing x.p x.b x.s x.wq submitted)
    (done : ATLSConn.flushLoop A lib.logged limit rounds x = some (y, err)) :
    (Soft err → Sealing y.p y.b y.s y.wq submitted) ∧
      ∃ w, y.s.accepted = x.s.accepted ++ w ∧
        (limit = true → (w.length : Int) ≤ max x.remaining 0) := by
  induction rounds generalizing x with
  | zero => cases done
  | succ rounds ih =>
    unfold ATLSConn.flushLoop at done
    have one := flushRound_cases (A := A) encrypts limit x sealing
    generalize ATLSConn.flushRound A lib.logged limit x = round at done one
    have nothing : (([] : Bytes).length : Int) ≤ max x.remaining 0 := by
      rw [length_nil]
      omega
    cases one with
    | stop s err same ordered =>
      cases done
      refine ⟨fun _ => ordered, [], ?_, fun _ => nothing⟩
      rw [same, append_nil]
    | failed y err hard same =>
      cases done
      refine ⟨fun soft => ?_, [], ?_, fun _ => nothing⟩
      · rcases soft with void | again
        · cases void
        cases again
        exact absurd rfl hard
      · rw [same, append_nil]
    | sent y w _ taken _ _ within ordered =>
      obtain ⟨kept, more, grown, rest⟩ := ih y ordered done
      refine ⟨kept, w ++ more, ?_, fun flag => ?_⟩
      · rw [grown, taken, append_assoc]
      have spent := within flag
      have left := rest flag
      rw [length_append]
      omega
    | encrypted y _ same budget ordered =>
      obtain ⟨kept, w, grown, rest⟩ := ih y ordered done
      exact ⟨kept, w, by rw [grown, same], fun flag => budget ▸ rest flag⟩

/-- A flush returns: each round encrypts some of the queue or, with the queue as it was,
sends some of the ciphertext. -/
theorem flushLoop_returns (encrypts : lib.Encrypts) (limit : Bool) (x : FlushState (Logged π))
    (sealing : Sealing x.p x.b x.s x.wq submitted) :
    ∃ rounds, (ATLSConn.flushLoop A lib.logged limit rounds x).isSome = true := by
  generalize queued : x.wq.content.length = q
  generalize waiting : x.b.cipher.length = k
  induction q using Nat.strongRecOn generalizing x k with
  | _ q shorter =>
    induction k using Nat.strongRecOn generalizing x with
    | _ k fewer =>
      have one := flushRound_cases (A := A) encrypts limit x sealing
      have unfolded (rounds : Nat) := ATLSConn.flushLoop.eq_2 A lib.logged limit x rounds
      generalize ATLSConn.flushRound A lib.logged limit x = round at one unfolded
      have later (y : FlushState (Logged π)) (goes : round = .ok y)
          (ends : ∃ rounds, (ATLSConn.flushLoop A lib.logged limit rounds y).isSome = true) :
          ∃ rounds, (ATLSConn.flushLoop A lib.logged limit rounds x).isSome = true := by
        obtain ⟨rounds, returned⟩ := ends
        refine ⟨rounds + 1, ?_⟩
        rw [unfolded, goes]
        exact returned
      cases one with
      | stop | failed => exact ⟨1, by rw [unfolded]; rfl⟩
      | sent y w filled _ cipher queue _ ordered =>
        have length := congrArg length cipher
        rw [length_append] at length
        have positive := length_pos_iff.mpr filled
        exact later y rfl (fewer _ (by omega) y ordered (by rw [queue, queued]) rfl)
      | encrypted y less _ _ ordered =>
        exact later y rfl (shorter _ (queued ▸ less) y ordered rfl _ rfl)

end Sealing

namespace EngineConn

variable {π : Type} {lib : TlsLib π} {e : ConnEnv (Logged π)} {c c' : EngineConn (Logged π)}
  {submitted : Bytes}

/-- A userspace TLS connection whose sending half is in order. -/
def Seals (c : EngineConn (Logged π)) (submitted : Bytes) : Prop :=
  ∃ a p b, c.tls = some a ∧ a.ktls = false ∧ a.tls = some p ∧ a.buf = some b ∧
    Sealing p b c.sock c.wq submitted

section

variable (seals : c.Seals submitted)
include seals

theorem Seals.flushN (encrypts : lib.Encrypts) (uses : e.tls = lib.logged) (maxBytes : Int)
    (done : c.flushN e maxBytes = some (c', n, err)) :
    (Soft err → c'.Seals submitted) ∧ ∃ w, c'.sock.accepted = c.sock.accepted ++ w ∧
      (0 < maxBytes → (w.length : Int) ≤ maxBytes) := by
  obtain ⟨a, p, b, engine, user, conn, buf, sealing⟩ := seals
  have nothing : (([] : Bytes).length : Int) = 0 := rfl
  rw [EngineConn.flushN, engine] at done
  dsimp only at done
  rw [ATLSConn.flushN, user, conn, buf, uses] at done
  simp only [Bool.false_eq_true, if_false] at done
  by_cases closed : c.fd = 0
  · rw [if_pos closed] at done
    cases done
    refine ⟨fun _ => ⟨a, p, b, rfl, user, conn, buf, sealing⟩, [], (append_nil _).symm, ?_⟩
    omega
  rw [if_neg closed] at done
  cases looped : ATLSConn.flushLoop e.alloc lib.logged (decide (maxBytes > 0)) e.rounds
      ⟨p, b, c.sock, c.wq, maxBytes, 0⟩ with
  | none =>
    rw [looped] at done
    cases done
  | some result =>
    rw [looped] at done
    cases done
    obtain ⟨kept, w, grown, within⟩ := flushLoop_sealed encrypts _ _ _ _ sealing looped
    refine ⟨fun soft => ⟨_, _, _, rfl, rfl, rfl, rfl, kept soft⟩, w, grown, ?_⟩
    intro positive
    have bound := within (decide_eq_true positive)
    dsimp only at bound
    omega

theorem Seals.flushN_returns (encrypts : lib.Encrypts) (uses : e.tls = lib.logged)
    (maxBytes : Int) : ∃ rounds, (c.flushN { e with rounds := rounds } maxBytes).isSome = true := by
  obtain ⟨a, p, b, engine, user, conn, buf, sealing⟩ := seals
  obtain ⟨rounds, returned⟩ := flushLoop_returns (A := e.alloc) encrypts (decide (maxBytes > 0))
    ⟨p, b, c.sock, c.wq, maxBytes, 0⟩ sealing
  obtain ⟨result, looped⟩ := isSome_iff_exists.mp returned
  refine ⟨rounds, ?_⟩
  rw [EngineConn.flushN, engine]
  dsimp only
  rw [ATLSConn.flushN, user, conn, buf, uses]
  simp only [Bool.false_eq_true, if_false]
  by_cases closed : c.fd = 0
  · rw [if_pos closed]
    rfl
  rw [if_neg closed, looped]
  rfl

theorem Seals.enqueueWrite (owner : Buf) (size : Nat) (fits : size ≤ owner.bytes.length) :
    (c.enqueueWrite e owner size).Seals (submitted ++ owner.bytes.take size) := by
  obtain ⟨a, p, b, engine, user, conn, buf, sealing⟩ := seals
  obtain ⟨ok, content⟩ := c.wq.enqueue_ok e.tuning owner size sealing.queue fits
  refine ⟨a, p, b, engine, user, conn, buf, sealing.ring, ok, sealing.cipher, ?_⟩
  change p.given ++ (c.wq.enqueue e.tuning owner size).content = _
  rw [content, ← append_assoc, sealing.plain]

/-- With nothing waiting, what is written is next in line. -/
theorem Seals.write (encrypts : lib.Encrypts) (uses : e.tls = lib.logged)
    (idle : c.pendingWrite = 0) (src : Bytes) (done : c.write e src = some (c', n, err))
    (soft : Soft err) : c'.Seals (submitted ++ src) := by
  obtain ⟨a, p, b, engine, user, conn, buf, sealing⟩ := seals
  have empty : c.wq.content = [] := by
    rw [pendingWrite, engine] at idle
    dsimp only [ATLSConn.pendingWrite] at idle
    rw [sealing.queue.pending_eq] at idle
    exact eq_nil_of_length_eq_zero (by omega)
  rw [EngineConn.write, engine] at done
  dsimp only at done
  rw [ATLSConn.write, user, conn, buf, uses] at done
  simp only [Bool.false_eq_true, if_false] at done
  by_cases closed : c.fd = 0
  · rw [if_pos closed] at done
    cases done
    rcases soft with void | again
    · cases void
    · cases again
  rw [if_neg closed] at done
  by_cases nothing : src.length = 0
  · rw [if_pos nothing] at done
    cases done
    rw [eq_nil_of_length_eq_zero nothing, append_nil]
    exact ⟨a, p, b, rfl, user, conn, buf, sealing⟩
  rw [if_neg nothing] at done
  rcases sealing.write (A := e.alloc) encrypts src with
    ⟨b', conn', sent, served, ring, cipher⟩ | ⟨b', q, k, failure, served, hard⟩
  · rw [served] at done
    cases done
    refine ⟨_, _, b', rfl, rfl, rfl, rfl, ring, sealing.queue, cipher, ?_⟩
    rw [← sealing.plain, empty, append_nil, append_nil]
  rw [served] at done
  cases done
  rcases soft with void | again
  · cases void
  cases again
  exact absurd rfl hard

end

end EngineConn

/-- The calls that send on a TLS connection. -/
inductive TlsOp
  | write (p : Bytes)
  | enqueueWrite (owner : Buf) (size : Nat) (fits : size ≤ owner.bytes.length)
  | flushN (maxBytes : Int)

namespace TlsOp

variable {π : Type}

def payload : TlsOp → Bytes
  | .write p => p
  | .enqueueWrite owner size _ => owner.bytes.take size
  | .flushN _ => []

/-- A direct write is made only when nothing waits; there is no such step otherwise. -/
def apply (e : ConnEnv π) (c : EngineConn π) : TlsOp → Option (EngineConn π × Option Err)
  | .write p =>
    if c.pendingWrite = 0 then (c.write e p).map fun (c, _, err) => (c, err) else none
  | .enqueueWrite owner size _ => some (c.enqueueWrite e owner size, none)
  | .flushN maxBytes => (c.flushN e maxBytes).map fun (c, _, err) => (c, err)

/-- One call after another, each under the settings of its moment, with their errors. -/
def runAll (c : EngineConn π) :
    List (ConnEnv π × TlsOp) → Option (EngineConn π × List (Option Err))
  | [] => some (c, [])
  | (e, op) :: rest =>
    match op.apply e c with
    | none => none
    | some (c, err) => (runAll c rest).map fun (c, errs) => (c, err :: errs)

variable {lib : TlsLib π}

theorem apply_seals (encrypts : lib.Encrypts) {e : ConnEnv (Logged π)} (uses : e.tls = lib.logged)
    {c c' : EngineConn (Logged π)} {submitted : Bytes} (seals : c.Seals submitted) (op : TlsOp)
    (done : op.apply e c = some (c', err)) (soft : Soft err) :
    c'.Seals (submitted ++ op.payload) := by
  cases op with
  | write p =>
    unfold apply at done
    dsimp only at done
    split at done
    · rename_i idle
      obtain ⟨⟨c₁, n, err₁⟩, wrote, same⟩ := map_eq_some_iff.mp done
      cases same
      exact seals.write encrypts uses idle p wrote soft
    · cases done
  | enqueueWrite owner size fits =>
    cases done
    exact seals.enqueueWrite owner size fits
  | flushN maxBytes =>
    obtain ⟨⟨c₁, n, err₁⟩, flushed, same⟩ := map_eq_some_iff.mp done
    cases same
    rw [payload, append_nil]
    exact (seals.flushN encrypts uses maxBytes flushed).1 soft

theorem runAll_seals (encrypts : lib.Encrypts) (ops : List (ConnEnv (Logged π) × TlsOp))
    (uses : ∀ op ∈ ops, op.1.tls = lib.logged) {c c' : EngineConn (Logged π)}
    {submitted : Bytes} (seals : c.Seals submitted) {errs : List (Option Err)}
    (ran : runAll c ops = some (c', errs)) (soft : ∀ err ∈ errs, Soft err) :
    c'.Seals (submitted ++ (ops.map fun op => op.2.payload).flatten) := by
  induction ops generalizing c submitted errs with
  | nil =>
    cases ran
    rw [map_nil, flatten_nil, append_nil]
    exact seals
  | cons op rest ih =>
    obtain ⟨e, op⟩ := op
    unfold runAll at ran
    split at ran
    · cases ran
    rename_i next err applied
    obtain ⟨⟨c₁, errs₁⟩, ranRest, same⟩ := map_eq_some_iff.mp ran
    cases same
    have step := apply_seals encrypts (uses (e, op) mem_cons_self) seals op applied
      (soft err mem_cons_self)
    rw [map_cons, flatten_cons, ← append_assoc]
    exact ih (fun op member => uses op (mem_cons_of_mem _ member)) step ranRest
      (fun err member => soft err (mem_cons_of_mem _ member))

end TlsOp

/-- A userspace TLS connection after its handshake, and any calls on it that did not fail
for good. What the socket took followed by the waiting ciphertext is what `tls.Conn` has
produced; what `tls.Conn` was given followed by the waiting plaintext is what was
submitted; and any flush from there comes to an end and sends no more than its limit. -/
theorem tls_send_order {π : Type} (lib : TlsLib π) (encrypts : lib.Encrypts)
    (c : EngineConn (Logged π)) (conn : π) (heap : Heap UInt8) (cin : RingBuffer) (rx : Bool)
    (preRead : Bytes) (off : Nat)
    (engine : c.tls = some ⟨some ⟨conn, [], []⟩, some ⟨heap, cin, newRingBuffer⟩, false,
      rx, preRead, off⟩)
    (idle : c.wq = empty) (unsent : c.sock.accepted = [])
    (ops : List (ConnEnv (Logged π) × TlsOp)) (uses : ∀ op ∈ ops, op.1.tls = lib.logged)
    (c' : EngineConn (Logged π)) (errs : List (Option Err))
    (ran : TlsOp.runAll c ops = some (c', errs)) (soft : ∀ err ∈ errs, Soft err) :
    ∃ a p b, c'.tls = some a ∧ a.tls = some p ∧ a.buf = some b ∧
      c'.sock.accepted ++ content b.heap b.cout = p.produced ∧
      p.given ++ c'.wq.content = (ops.map fun op => op.2.payload).flatten ∧
      ∀ (e : ConnEnv (Logged π)) (maxBytes : Int), e.tls = lib.logged →
        (∃ rounds, (c'.flushN { e with rounds := rounds } maxBytes).isSome = true) ∧
        ∀ c'' n err, c'.flushN e maxBytes = some (c'', n, err) →
          ∃ w, c''.sock.accepted = c'.sock.accepted ++ w ∧
            (0 < maxBytes → (w.length : Int) ≤ maxBytes) := by
  have start : c.Seals [] := by
    refine ⟨_, _, _, engine, rfl, rfl, rfl, new_ok heap, ?_, ?_, ?_⟩
    · rw [idle]
      exact empty_ok
    · rw [unsent]
      rfl
    rw [idle]
    rfl
  have seals := TlsOp.runAll_seals encrypts ops uses start ran soft
  obtain ⟨a, p, b, engine', user, tls, buf, sealing⟩ := id seals
  refine ⟨a, p, b, engine', tls, buf, sealing.cipher, sealing.plain, ?_⟩
  intro e maxBytes uses
  exact ⟨seals.flushN_returns encrypts uses maxBytes, fun c'' n err flushed =>
    (seals.flushN encrypts uses maxBytes flushed).2⟩

/-- A library that puts a type byte before what it is given. -/
def plainRecords : TlsLib Unit where
  read _ _ := .done ((), [], none)
  write _ src := .write (23 :: src) fun
    | (_, none) => .done ((), src.length, none)
    | (_, some _) => .done ((), 0, some .ENOMEM)
  close _ := .done ()

theorem plainRecords_encrypts : plainRecords.Encrypts := fun _ _ =>
  .write _ _ (.done ()) fun _ _ => .done () 0 .ENOMEM nofun

/-- A kernel that takes one byte of the first write and then everything it is given. -/
def sealedWrites : EngineConn (Logged Unit) × List (ConnEnv (Logged Unit) × TlsOp) :=
  let env : ConnEnv (Logged Unit) := ⟨⟨128, 0, 2, 0, 0, 8, 8⟩,
    BytesAlloctor.allocator 4 3 fun _ _ => 0, plainRecords.logged, 5⟩
  let answers : Nat → SysWrite
    | 0 => .short 1
    | _ => .full
  (EngineConn.new 5 1 false ⟨[], answers, 0⟩ (some ⟨some ⟨(), [], []⟩,
      some ⟨⟨fun _ => [], 1, []⟩, newRingBuffer, newRingBuffer⟩,
        false, false, [], 0⟩),
    [(env, .write [1, 2]), (env, .enqueueWrite ⟨9, [4, 5, 0]⟩ 2 short_fits), (env, .flushN 2)])

theorem tls_send_order_sealedWrites : ∃ c' errs,
    TlsOp.runAll sealedWrites.1 sealedWrites.2 = some (c', errs) ∧ (∀ err ∈ errs, Soft err) ∧
      ∃ a p b, c'.tls = some a ∧ a.tls = some p ∧ a.buf = some b ∧
        c'.sock.accepted ++ content b.heap b.cout = p.produced ∧
        p.given ++ c'.wq.content = [1, 2, 4, 5] := by
  have results : (TlsOp.runAll sealedWrites.1 sealedWrites.2).map Prod.snd =
      some [none, none, none] := by decide
  obtain ⟨⟨c', errs⟩, ran, same⟩ := map_eq_some_iff.mp results
  cases same
  have soft : ∀ err ∈ [none, none, none], Soft err := by decide
  obtain ⟨a, p, b, engine, tls, buf, cipher, plain, _⟩ :=
    tls_send_order plainRecords plainRecords_encrypts sealedWrites.1 () ⟨fun _ => [], 1, []⟩
      newRingBuffer false [] 0 rfl rfl rfl sealedWrites.2 (by simp [sealedWrites]) c' _
      ran soft
  exact ⟨c', _, ran, soft, a, p, b, engine, tls, buf, cipher, plain⟩

end Connaxis
