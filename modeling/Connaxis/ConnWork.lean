import Connaxis.EngineConn

namespace Connaxis

open Option

variable {π : Type} {e : ConnEnv π}

/-- Everything the read and send paths do to an open connection, in any order. -/
inductive Works (e : ConnEnv π) (c : EngineConn π) : EngineConn π → Prop
  | refl : Works e c c
  | ring {d : EngineConn π} (before : Works e c d) (ring : RingBuffer) :
      Works e c { d with recvbuf := ring }
  | stamp {d : EngineConn π} (before : Works e c d) (sec : Int) :
      Works e c { d with lastRecv := sec }
  | read {d d' : EngineConn π} (before : Works e c d) {len : Nat} {answers : List SysRead}
      {bytes : Bytes} {err : Option Err} (done : d.read e len answers = some (d', bytes, err)) :
      Works e c d'
  | emit {d d' : EngineConn π} (before : Works e c d) {n n' : Nat} {out : Bytes}
      {err : Option Err} (done : d.emitOutput e n out = some (d', n', err)) : Works e c d'
  | drain {d d' : EngineConn π} (before : Works e c d) {sum : Int} {err : Option Err}
      (done : d.drainWrite e = some (d', sum, err)) : Works e c d'

variable {d : EngineConn π}

variable {f : EngineConn π}

variable {c : EngineConn π}

theorem Works.trans (first : Works e c d) (second : Works e d f) : Works e c f := by
  induction second with
  | refl => exact first
  | ring _ ring ih => exact ih.ring ring
  | stamp _ sec ih => exact ih.stamp sec
  | read _ done ih => exact ih.read done
  | emit _ done ih => exact ih.emit done
  | drain _ done ih => exact ih.drain done

/-- A property of connections that the single operations keep. -/
structure Lasting (e : ConnEnv π) (P : EngineConn π → Prop) : Prop where
  ring : ∀ c ring, P c → P { c with recvbuf := ring }
  stamp : ∀ c sec, P c → P { c with lastRecv := sec }
  read : ∀ c len answers c' bytes err, c.read e len answers = some (c', bytes, err) → P c → P c'
  emit : ∀ c n out c' n' err, c.emitOutput e n out = some (c', n', err) → P c → P c'
  drain : ∀ c c' sum err, c.drainWrite e = some (c', sum, err) → P c → P c'

theorem Works.keeps {P : EngineConn π → Prop} (lasting : Lasting e P) (works : Works e c d)
    (start : P c) : P d := by
  induction works with
  | refl => exact start
  | ring _ ring ih => exact lasting.ring _ ring ih
  | stamp _ sec ih => exact lasting.stamp _ sec ih
  | read _ done ih => exact lasting.read _ _ _ _ _ _ done ih
  | emit _ done ih => exact lasting.emit _ _ _ _ _ _ done ih
  | drain _ done ih => exact lasting.drain _ _ _ _ done ih

/-- What the packet loop does to an open connection: it replies, and keeps what is
unparsed. The counter is the one the names of buffers come from. -/
inductive Replies (e : ConnEnv π) (n : Nat) (c : EngineConn π) : Nat → EngineConn π → Prop
  | refl : Replies e n c n c
  | ring {n' : Nat} {d : EngineConn π} (before : Replies e n c n' d) (ring : RingBuffer) :
      Replies e n c n' { d with recvbuf := ring }
  | emit {m n' : Nat} {d d' : EngineConn π} (before : Replies e n c m d) {out : Bytes}
      {err : Option Err} (done : d.emitOutput e m out = some (d', n', err)) :
      Replies e n c n' d'

theorem Replies.trans {n m n' : Nat} (first : Replies e n c m d) (second : Replies e m d n' f) :
    Replies e n c n' f := by
  induction second with
  | refl => exact first
  | ring _ ring ih => exact ih.ring ring
  | emit _ done ih => exact ih.emit done

theorem Replies.works {n n' : Nat} (replies : Replies e n c n' d) : Works e c d := by
  induction replies with
  | refl => exact .refl
  | ring _ ring ih => exact ih.ring ring
  | emit _ done ih => exact ih.emit done

/-- A property of connections that the calls which send keep. -/
structure Sends (e : ConnEnv π) (P : EngineConn π → Prop) : Prop where
  queue : ∀ c wq, P c → P { c with wq := wq }
  write : ∀ c b c' n err, c.write e b = some (c', n, err) → P c → P c'
  flushN : ∀ c maxBytes c' n err, c.flushN e maxBytes = some (c', n, err) → P c → P c'

variable {err : Option Err} {n' : Nat} {out : Bytes}

variable {P : EngineConn π → Prop} {c c' : EngineConn π}

variable {sum : Int}

/-- Draining keeps what each of its flushes keeps. -/
theorem EngineConn.drainWrite_rule
    (flushes : ∀ c maxBytes c' n err, c.flushN e maxBytes = some (c', n, err) → P c → P c')
    (done : c.drainWrite e = some (c', sum, err)) (start : P c) : P c' := by
  unfold drainWrite at done
  split at done
  · cases done
    exact start
  rename_i waits
  clear waits
  generalize e.rounds + c.pendingWrite + 1 = rounds at done
  generalize (0 : Int) = total at done
  induction rounds generalizing c total with
  | zero => cases done
  | succ rounds ih =>
    unfold drainLoop at done
    split at done
    · cases done
    · rename_i flushed
      cases done
      exact flushes _ _ _ _ _ flushed start
    rename_i next n flushed
    have now := flushes _ _ _ _ _ flushed start
    dsimp only at done
    generalize (if n > 0 then total + n else total) = sofar at done
    split at done
    · cases done
      exact now
    · exact ih now _ done

namespace Sends

section

variable (sends : Sends e P)
include sends

theorem drain (done : c.drainWrite e = some (c', sum, err)) (start : P c) : P c' :=
  c.drainWrite_rule sends.flushN done start

theorem copy {n : Nat} (done : c.enqueueCopy e n out = (c', n', err)) (start : P c) : P c' := by
  unfold EngineConn.enqueueCopy at done
  split at done
  · cases done
    exact start
  cases done
  exact sends.queue _ _ start

theorem emit {n : Nat} (done : c.emitOutput e n out = some (c', n', err)) (start : P c) : P c' := by
  unfold EngineConn.emitOutput at done
  split at done
  · cases done
    exact start
  split at done
  · split at done
    · cases done
    rename_i wrote
    have now := sends.write _ _ _ _ _ wrote start
    split at done
    · cases done
      exact now
    split at done
    · exact sends.copy (some.inj done) now
    · exact sends.copy (some.inj done) now
    cases done
    exact now
  · exact sends.copy (some.inj done) start

theorem replies (ring : ∀ c ring, P c → P { c with recvbuf := ring }) {n : Nat}
    (replies : Replies e n c n' c') (start : P c) : P c' := by
  induction replies with
  | refl => exact start
  | ring _ kept ih => exact ring _ kept ih
  | emit _ done ih => exact sends.emit done ih

end

end Sends

/-- Who a connection is, which engine carries it, and what the kernel says to its writes. -/
structure Identity where
  fd : Nat
  id : UInt64
  loopID : Nat
  client : Bool
  /-- Absent on a plain connection. -/
  ktls : Option Bool
  answers : Nat → SysWrite

def EngineConn.identity (c : EngineConn π) : Identity :=
  ⟨c.fd, c.id, c.loopID, c.client, c.tls.map ATLSConn.ktls, c.sock.answers⟩

/-- What stays of a connection's identity from the day it is made. -/
def EngineConn.name (c : EngineConn π) : Identity := { c.identity with fd := 0, loopID := 0 }

theorem Socket.write_answers (s : Socket) (b : Bytes) : (s.write b).1.answers = s.answers := by
  unfold Socket.write
  split <;> rfl

theorem Socket.writev_answers (s : Socket) (iovecs : List Bytes) :
    (s.writev iovecs).1.answers = s.answers := by
  unfold Socket.writev
  split
  · rfl
  · exact s.write_answers _

/-- A property of a socket and a queue that the single writes of a flush keep. -/
structure Flushes (P : Socket → WriteQueue → Prop) : Prop where
  sent : ∀ s wq iovecs, P s wq → P (s.writev iovecs).1 wq
  taken : ∀ s wq n, P s wq → P s (wq.consume n)

theorem answers_flushes (answers : Nat → SysWrite) : Flushes fun s _ => s.answers = answers where
  sent s _ iovecs same := (s.writev_answers iovecs).trans same
  taken _ _ _ same := same

variable {rounds : Nat} {maxBytes : Int}

section Flushes

variable {P : Socket → WriteQueue → Prop} {s s' : Socket} {wq wq' : WriteQueue} {n : Int}

theorem Flushes.writeQueue (flushes : Flushes P) (start : P s wq) (fd : Nat) (maxBytes : Int) :
    P (flushWriteQueue fd s wq maxBytes).1 (flushWriteQueue fd s wq maxBytes).2.1 := by
  unfold flushWriteQueue
  split
  · exact start
  split
  · exact start
  dsimp only
  split
  · exact start
  have now := flushes.sent s wq
    (WriteQueue.iovecs maxBytes (wq.items.drop wq.head) maxWritevIovecs maxBytes) start
  generalize s.writev _ = answer at now ⊢
  obtain ⟨after, count, failure⟩ := answer
  generalize (if failure = some Err.EAGAIN ∧ count < 0 then 0 else count) = moved
  split
  · exact now
  · exact flushes.taken _ _ _ now

variable {A : Memory.Allocator UInt8} {lib : TlsLib π} {a a' : ATLSConn π} {fd : Nat}

/-- The state a round has led to, whether it is the last one or not. -/
def FlushState.reached : Except (FlushState π × Option Err) (FlushState π) → FlushState π
  | .error (y, _) => y
  | .ok y => y

/-- What every round keeps a flush keeps. -/
theorem flushLoop_keeps {I : FlushState π → Prop} {limit : Bool}
    (round : ∀ x, I x → I (FlushState.reached (ATLSConn.flushRound A lib limit x)))
    {x y : FlushState π} (start : I x)
    (done : ATLSConn.flushLoop A lib limit rounds x = some (y, err)) : I y := by
  induction rounds generalizing x with
  | zero => cases done
  | succ rounds ih =>
    have next := round x start
    unfold ATLSConn.flushLoop at done
    generalize ATLSConn.flushRound A lib limit x = one at done next
    cases one with
    | error ended =>
      cases done
      exact next
    | ok y => exact ih next done

theorem Flushes.round (flushes : Flushes P) (limit : Bool) (x : FlushState π) (start : P x.s x.wq) :
    P (FlushState.reached (ATLSConn.flushRound A lib limit x)).s
      (FlushState.reached (ATLSConn.flushRound A lib limit x)).wq := by
  unfold ATLSConn.flushRound
  split
  · exact start
  split
  · have now := flushes.sent x.s x.wq (ATLSConn.cipherVecs x.b limit x.remaining) start
    generalize x.s.writev (ATLSConn.cipherVecs x.b limit x.remaining) = answer at now ⊢
    obtain ⟨next, count, failure⟩ := answer
    dsimp only
    generalize (if failure = some Err.EAGAIN ∧ count < 0 then 0 else count) = moved
    split <;> exact now
  split
  · exact start
  split
  · exact start
  generalize x.b.serve A _ = served
  obtain ⟨b, p, count, failure⟩ := served
  have now : P x.s (if count > 0 then x.wq.consume count else x.wq) := by
    split
    · exact flushes.taken _ _ _ start
    · exact start
  cases failure <;> exact now

theorem Flushes.flushN (flushes : Flushes P) (start : P s wq)
    (done : a.flushN A lib rounds fd s wq maxBytes = some (a', s', wq', n, err)) :
    a'.ktls = a.ktls ∧ P s' wq' := by
  unfold ATLSConn.flushN at done
  split at done
  · cases done
    exact ⟨rfl, start⟩
  split at done
  · cases done
    exact ⟨rfl, flushes.writeQueue start fd maxBytes⟩
  split at done
  · cases done
    exact ⟨rfl, start⟩
  split at done
  · cases done
  split at done
  · cases done
  rename_i looped
  cases done
  exact ⟨rfl, flushLoop_keeps (flushes.round _) start looped⟩

theorem Flushes.conn (flushes : Flushes P) {c c' : EngineConn π} (start : P c.sock c.wq)
    (done : c.flushN e maxBytes = some (c', n, err)) : P c'.sock c'.wq := by
  unfold EngineConn.flushN at done
  split at done
  · cases done
    exact flushes.writeQueue start _ _
  split at done
  · cases done
  rename_i flushed
  cases done
  exact (flushes.flushN start flushed).2

end Flushes

variable {n : Int}

variable {len : Nat} {answers : List SysRead} {b : Bytes}

namespace ATLSConn

variable {A : Memory.Allocator UInt8} {lib : TlsLib π} {a a' : ATLSConn π} {fd : Nat}

/-- After the handshake no call changes who carries the records. -/
theorem read_ktls {result : Bytes × Option Err}
    (done : a.read A lib fd len answers = some (a', result)) : a'.ktls = a.ktls := by
  unfold read at done
  split at done
  · cases done
    rfl
  split at done
  · cases done
    rfl
  split at done
  · dsimp only at done
    split at done <;> cases done <;> rfl
  split at done
  · split at done
    · cases done
    · exact congrArg ktls (Prod.mk.inj (some.inj done)).1.symm
  split at done
  · split at done
    · cases done
    cases done
    rfl
  · cases done

variable {s s' : Socket}

theorem write_ktls (done : a.write A lib fd s b = some (a', s', n, err)) :
    a'.ktls = a.ktls ∧ s'.answers = s.answers := by
  unfold write at done
  split at done
  · cases done
    exact ⟨rfl, rfl⟩
  split at done
  · cases done
    exact ⟨rfl, rfl⟩
  split at done
  · cases done
    exact ⟨rfl, s.write_answers b⟩
  split at done
  · cases done
    exact ⟨rfl, rfl⟩
  · cases done

theorem flushN_ktls {wq wq' : WriteQueue}
    (done : a.flushN A lib rounds fd s wq maxBytes = some (a', s', wq', n, err)) :
    a'.ktls = a.ktls :=
  ((answers_flushes s.answers).flushN rfl done).1

end ATLSConn

namespace EngineConn

variable {c c' : EngineConn π}

theorem read_identity {bytes : Bytes} (done : c.read e len answers = some (c', bytes, err)) :
    c'.identity = c.identity ∧ c'.wq = c.wq ∧ c'.sock = c.sock ∧ c'.recvbuf = c.recvbuf := by
  unfold read at done
  split at done
  · split at done
    · cases done
    · cases done
      exact ⟨rfl, rfl, rfl, rfl⟩
    cases done
    exact ⟨rfl, rfl, rfl, rfl⟩
  rename_i a found
  split at done
  · cases done
  rename_i a' _ _ served
  cases done
  have same := ATLSConn.read_ktls served
  refine ⟨?_, rfl, rfl, rfl⟩
  simp only [identity, found, map_some, same]

theorem write_identity (done : c.write e b = some (c', n, err)) :
    c'.identity = c.identity ∧ c'.recvbuf = c.recvbuf ∧ c'.wq = c.wq := by
  unfold write at done
  split at done
  · split at done
    · cases done
      exact ⟨rfl, rfl, rfl⟩
    have shape := (Prod.mk.inj (some.inj done)).1
    rw [← shape]
    exact ⟨congrArg (Identity.mk _ _ _ _ _) (c.sock.write_answers b), rfl, rfl⟩
  rename_i a found
  split at done
  · cases done
  rename_i a' _ _ _ served
  cases done
  obtain ⟨same, kernel⟩ := ATLSConn.write_ktls served
  refine ⟨?_, rfl, rfl⟩
  simp only [identity, found, map_some, same, kernel]

theorem flushN_identity (done : c.flushN e maxBytes = some (c', n, err)) :
    c'.identity = c.identity ∧ c'.recvbuf = c.recvbuf := by
  have kernel : c'.sock.answers = c.sock.answers := (answers_flushes _).conn rfl done
  unfold flushN at done
  split at done
  · cases done
    exact ⟨congrArg (Identity.mk _ _ _ _ _) kernel, rfl⟩
  rename_i a found
  split at done
  · cases done
  rename_i served
  cases done
  refine ⟨congrArg₂ (Identity.mk c.fd c.id c.loopID c.client) ?_ kernel, rfl⟩
  rw [found]
  exact congrArg some (ATLSConn.flushN_ktls served)

/-- Sending keeps a connection's identity and its receive buffer. -/
theorem identity_sends (who : Identity) (ring : RingBuffer) :
    Sends e fun c => c.identity = who ∧ c.recvbuf = ring where
  queue _ _ same := same
  write _ _ _ _ _ done same := by
    obtain ⟨identity, kept, _⟩ := write_identity done
    exact ⟨identity.trans same.1, kept.trans same.2⟩
  flushN _ _ _ _ _ done same := by
    obtain ⟨identity, kept⟩ := flushN_identity done
    exact ⟨identity.trans same.1, kept.trans same.2⟩

theorem drainWrite_identity (done : c.drainWrite e = some (c', sum, err)) :
    c'.identity = c.identity ∧ c'.recvbuf = c.recvbuf :=
  (identity_sends c.identity c.recvbuf).drain done ⟨rfl, rfl⟩

theorem emitOutput_identity {n : Nat} (done : c.emitOutput e n out = some (c', n', err)) :
    c'.identity = c.identity ∧ c'.recvbuf = c.recvbuf :=
  (identity_sends c.identity c.recvbuf).emit done ⟨rfl, rfl⟩

/-- Closing a connection takes nothing from it but its descriptor. -/
theorem close_identity (c : EngineConn π) : (c.close e).identity = { c.identity with fd := 0 } := by
  unfold close identity
  cases c.tls with
  | none => rfl
  | some a =>
    dsimp only [map_some]
    unfold ATLSConn.close
    split <;> rfl

/-- An open connection stays who it is. -/
theorem identity_lasting (who : Identity) : Lasting e fun c => c.identity = who where
  ring _ _ same := same
  stamp _ _ same := same
  read _ _ _ _ _ _ done same := (read_identity done).1.trans same
  emit _ _ _ _ _ _ done same := (emitOutput_identity done).1.trans same
  drain _ _ _ _ done same := (drainWrite_identity done).1.trans same

end EngineConn

theorem Works.identity (works : Works e c d) : d.identity = c.identity :=
  works.keeps (EngineConn.identity_lasting c.identity) rfl

theorem Works.fd (works : Works e c d) : d.fd = c.fd :=
  congrArg Identity.fd works.identity

end Connaxis
