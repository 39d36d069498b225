import Connaxis.ConnWork
import Connaxis.RingBufferFrame
import Connaxis.TlsSend

namespace Connaxis

open Memory List RingBuffer Option

namespace Bio

variable {α : Type}

/-- What a transport that holds the bytes `q` of the peer answers to a read. -/
def answer (q : Bytes) (len : Nat) : Bytes × Option Err :=
  if len = 0 then ([], none)
  else if q = [] then ([], some .wouldBlock)
  else (q.take len, none)

/-- A call on such a transport, which may do with its writes what it likes. -/
inductive Over : Bytes → Bio α → Bytes → α → Prop
  | done (q : Bytes) (result : α) : Over q (.done result) q result
  | read {q q' : Bytes} {len : Nat} {next : Bytes × Option Err → Bio α} {result : α}
      (rest : Over (q.drop len) (next (answer q len)) q' result) :
      Over q (.read len next) q' result
  | write {q q' p : Bytes} {next : Nat × Option Err → Bio α} {result : α}
      (taken : Nat × Option Err) (rest : Over q (next taken) q' result) :
      Over q (.write p next) q' result

end Bio

variable {err : Option Err}

namespace TlsBufferConn

variable {A : Allocator UInt8} {b b' : TlsBufferConn}

/-- The ciphertext that was received and not yet read by the library. -/
def incoming (b : TlsBufferConn) : Bytes := content b.heap b.cin

/-- The incoming ring is in order and shares no buffer with the outgoing one. -/
structure Parted (b : TlsBufferConn) : Prop where
  cin : Ok b.heap b.cin
  known : b.cout.buf.base < b.heap.next
  nonzero : 0 < b.cin.size → b.cin.buf.base ≠ 0
  other : 0 < b.cin.size → b.cin.buf.base ≠ b.cout.buf.base

theorem Parted.read (parted : b.Parted) (len : Nat) :
    (b.read len).1.Parted ∧ (b.read len).1.incoming = b.incoming.drop len ∧
      (b.read len).2 = Bio.answer b.incoming len := by
  have nil_iff : b.incoming = [] ↔ b.cin.has = 0 := by
    rw [← length_eq_zero_iff, incoming, content_length]
  unfold TlsBufferConn.read Bio.answer
  split
  · rename_i zero
    rw [zero]
    exact ⟨parted, rfl, rfl⟩
  rename_i positive
  split
  · rename_i void
    have empty := nil_iff.mpr void
    rw [if_pos empty, show b.incoming.drop len = [] by rw [empty, drop_nil]]
    exact ⟨parted, empty, rfl⟩
  rename_i filled
  rw [if_neg fun empty => filled (nil_iff.mp empty)]
  obtain ⟨ok, rest, taken, counted, buf, size⟩ :=
    read_queue parted.cin (Nat.pos_of_ne_zero positive)
  rcases served : b.cin.read b.heap len len true with ⟨cin, result⟩
  rw [served] at ok rest taken counted buf size
  dsimp only at ok rest taken counted buf size ⊢
  rw [if_neg fun void => filled (counted.mp void)]
  refine ⟨⟨ok, parted.known, fun nonempty => ?_, fun nonempty => ?_⟩, rest, by rw [taken]; rfl⟩
  · rw [buf]
    exact parted.nonzero (size ▸ nonempty)
  rw [buf]
  exact parted.other (size ▸ nonempty)

theorem Parted.write (parted : b.Parted) (p : Bytes) :
    (b.write A p).1.Parted ∧ (b.write A p).1.incoming = b.incoming := by
  unfold TlsBufferConn.write
  split
  · exact ⟨parted, rfl⟩
  rename_i filled
  rcases wrote : b.cout.write A (b.heap.lend p).1 (b.heap.lend p).2 (b.heap.lend p).2.len true
      with ⟨h, cout, n⟩
  dsimp only
  rw [wrote]
  obtain ⟨inside, moved⟩ := write_only (Nat.pos_of_ne_zero filled) wrote
  have only : b.heap.Only h b.cout.buf.base :=
    (Heap.Only.lend b.heap p b.cout.buf.base).trans inside (.inl rfl)
  obtain ⟨ok, same⟩ := parted.cin.only only parted.other
  have lent : (b.heap.lend p).1.next = b.heap.next + 1 := rfl
  have grown := only.grown
  have known := parted.known
  have kept : TlsBufferConn.Parted { b with heap := h, cout := cout } := by
    refine ⟨ok, ?_, parted.nonzero, fun nonempty => ?_⟩
    · dsimp only
      omega
    have live := (parted.cin.live nonempty).1
    have nonzero := parted.nonzero nonempty
    have other := parted.other nonempty
    dsimp only
    omega
  split <;> exact ⟨kept, same⟩

/-- The in-memory connection is such a transport. -/
theorem Parted.serve {α : Type} (parted : b.Parted) (bio : Bio α) :
    (b.serve A bio).1.Parted ∧
      Bio.Over b.incoming bio (b.serve A bio).1.incoming (b.serve A bio).2 := by
  induction bio generalizing b with
  | done result => exact ⟨parted, .done _ _⟩
  | read len next ih =>
    obtain ⟨ok, rest, answer⟩ := parted.read len
    rw [TlsBufferConn.serve]
    rcases served : b.read len with ⟨b₁, bytes, err⟩
    rw [served] at ok rest answer
    dsimp only at ok rest answer ⊢
    obtain ⟨kept, answered⟩ := ih (bytes, err) ok
    rw [rest, answer] at answered
    rw [answer] at kept ⊢
    exact ⟨kept, .read answered⟩
  | write p next ih =>
    obtain ⟨ok, same⟩ := parted.write (A := A) p
    rw [TlsBufferConn.serve]
    rcases served : b.write A p with ⟨b₁, n, err⟩
    rw [served] at ok same
    dsimp only at ok same ⊢
    obtain ⟨kept, answered⟩ := ih (n, err) ok
    rw [same] at answered
    exact ⟨kept, .write (n, err) answered⟩

/-- What `readCiphertext` gets from the kernel. -/
def received (A : Allocator UInt8) (b : TlsBufferConn) : SysRead → Bytes
  | .fail _ => []
  | .data bytes => bytes.take (b.cin.peekWrite A b.heap tlsCipherReadSize).2.2.len

/-- More ciphertext goes behind what is there; a failed read changes nothing. -/
theorem Parted.readCiphertext (parted : b.Parted) {answer : SysRead}
    (done : b.readCiphertext A answer = (b', err)) :
    b'.Parted ∧ b'.incoming = b.incoming ++ b.received A answer ∧
      (err ≠ none → b.received A answer = []) := by
  unfold TlsBufferConn.readCiphertext at done
  rcases window : b.cin.peekWrite A b.heap tlsCipherReadSize with ⟨h, cin, buf⟩
  obtain ⟨moves, inside⟩ := peekWrite_queue parted.cin window
  obtain ⟨ok, same⟩ := moves.kept parted.cin
  have only := moves.only b.cin.buf.base
  have moved := moves.place
  rw [window] at done
  dsimp only at done
  have grown := only.grown
  have known := parted.known
  have place (nonempty : 0 < cin.size) : cin.buf.base ≠ 0 ∧ cin.buf.base ≠ b.cout.buf.base := by
    rcases moved with ⟨base, size⟩ | ⟨_, void⟩ | ⟨fresh, _⟩
    · rw [base]
      exact ⟨parted.nonzero (size ▸ nonempty), parted.other (size ▸ nonempty)⟩
    · omega
    · omega
  have kept : TlsBufferConn.Parted { b with heap := h, cin := cin } :=
    ⟨ok, Nat.lt_of_lt_of_le known grown, fun filled => (place filled).1,
      fun filled => (place filled).2⟩
  have unchanged (void : b.received A answer = []) :
      content h cin = b.incoming ++ b.received A answer := by
    rw [void, append_nil]
    exact same
  have empty (bytes : Bytes) (void : (bytes.take buf.len).length = 0) :
      b.received A (.data bytes) = [] := by
    rw [received, window]
    exact eq_nil_of_length_eq_zero void
  split at done
  · rename_i void
    cases done
    have nothing : b.received A answer = [] := by
      cases answer with
      | fail => rfl
      | data bytes =>
        refine empty bytes ?_
        rw [void, take_zero]
        rfl
    exact ⟨kept, unchanged nothing, fun _ => nothing⟩
  rename_i room
  split at done
  · cases done
    exact ⟨kept, unchanged rfl, fun _ => rfl⟩
  rename_i bytes
  split at done
  · rename_i void
    cases done
    exact ⟨kept, unchanged (empty bytes void), fun _ => empty bytes void⟩
  rename_i filled
  cases done
  obtain ⟨after, appended, at', size⟩ := forward_written ok
    (inside (Nat.pos_of_ne_zero room)) (bytes.take buf.len) (length_take_le _ _)
    (Nat.pos_of_ne_zero filled)
  have all : content (h.store buf (bytes.take buf.len))
      (cin.forward (bytes.take buf.len).length .opWrite).1 =
      b.incoming ++ b.received A (.data bytes) := by
    rw [appended, same, received, window]
    rfl
  refine ⟨⟨after, Nat.lt_of_lt_of_le known grown, fun filled => ?_, fun filled => ?_⟩,
    all, fun wrong => absurd rfl wrong⟩
  · rw [at']
    exact (place (size ▸ filled)).1
  rw [at']
  exact (place (size ▸ filled)).2

end TlsBufferConn

/-- What `tls.Conn` keeps of the peer's bytes: plaintext that has not been handed out, and
ciphertext that has not been decrypted. -/
structure TlsView (π : Type) where
  plain : π → Bytes
  raw : π → Bytes

/-- A whole TLS record is at the front: five bytes of header, of which the last two give
the length of what follows. -/
def HoldsRecord : Bytes → Prop
  | _ :: _ :: _ :: hi :: lo :: body => hi.toNat * 256 + lo.toNat ≤ body.length
  | _ => False

instance : ∀ bytes, Decidable (HoldsRecord bytes)
  | [] | [_] | [_, _] | [_, _, _] | [_, _, _, _] => isFalse not_false
  | _ :: _ :: _ :: _ :: _ :: _ => inferInstanceAs (Decidable (_ ≤ _))

/-- What is assumed of `tls.Conn`. A `Read` comes back with nothing, and without having
failed for good, only when no whole record is buffered; a `Write` leaves alone what was
received. -/
structure TlsLib.Reads {π : Type} (lib : TlsLib π) (view : TlsView π) : Prop where
  empty : ∀ p q len q' p' bytes err, 0 < len →
    Bio.Over q (lib.read p len) q' (p', bytes, err) → bytes.take len = [] →
    err = none ∨ err = some .wouldBlock ∨ err = some .EAGAIN →
    view.plain p' = [] ∧ ¬ HoldsRecord (view.raw p' ++ q')
  write : ∀ p q src q' p' n err, Bio.Over q (lib.write p src) q' (p', n, err) →
    view.plain p' = view.plain p ∧ view.raw p' = view.raw p ∧ q' = q

variable {π : Type} {A : Allocator UInt8} {lib : TlsLib π} {view : TlsView π}

/-- No whole record and no plaintext is left between the socket and the reader. -/
def Exhausted (view : TlsView π) (p : π) (b : TlsBufferConn) : Prop :=
  view.plain p = [] ∧ ¬ HoldsRecord (view.raw p ++ b.incoming)

/-- The receiving half has been left alone. -/
structure Undisturbed (view : TlsView π) (p : π) (b : TlsBufferConn) (p' : π)
    (b' : TlsBufferConn) : Prop where
  plain : view.plain p' = view.plain p
  raw : view.raw p' = view.raw p
  incoming : b'.incoming = b.incoming
  parted : b'.Parted

theorem Undisturbed.refl (view : TlsView π) (p : π) {b : TlsBufferConn} (parted : b.Parted) :
    Undisturbed view p b p b :=
  ⟨rfl, rfl, rfl, parted⟩

theorem Undisturbed.trans {p₁ p₂ p₃ : π} {b₁ b₂ b₃ : TlsBufferConn}
    (first : Undisturbed view p₁ b₁ p₂ b₂) (second : Undisturbed view p₂ b₂ p₃ b₃) :
    Undisturbed view p₁ b₁ p₃ b₃ :=
  ⟨second.plain.trans first.plain, second.raw.trans first.raw,
    second.incoming.trans first.incoming, second.parted⟩

variable {p p' : π}

theorem Undisturbed.exhausted {b b' : TlsBufferConn} (same : Undisturbed view p b p' b')
    (held : Exhausted view p b) : Exhausted view p' b' := by
  unfold Exhausted
  rw [same.plain, same.raw, same.incoming]
  exact held

theorem serve_undisturbed (reads : lib.Reads view) {b : TlsBufferConn} (parted : b.Parted) (p : π)
    (src : Bytes) :
    Undisturbed view p b (b.serve A (lib.write p src)).2.1 (b.serve A (lib.write p src)).1 := by
  obtain ⟨kept, answered⟩ := parted.serve (A := A) (lib.write p src)
  obtain ⟨plain, raw, incoming⟩ := reads.write _ _ _ _ _ _ _ answered
  exact ⟨plain, raw, incoming, kept⟩

/-- Nothing in a flush reads. -/
theorem flushRound_undisturbed (reads : lib.Reads view) (limit : Bool) (x : FlushState π)
    (parted : x.b.Parted) :
    Undisturbed view x.p x.b (FlushState.reached (ATLSConn.flushRound A lib limit x)).p
      (FlushState.reached (ATLSConn.flushRound A lib limit x)).b := by
  have same := Undisturbed.refl view x.p parted
  unfold ATLSConn.flushRound
  split
  · exact same
  split
  · generalize x.s.writev (ATLSConn.cipherVecs x.b limit x.remaining) = wrote
    obtain ⟨s, n, err⟩ := wrote
    dsimp only
    generalize (if err = some Err.EAGAIN ∧ n < 0 then 0 else n) = m
    split
    · have buf : (x.b.cout.forward m.toNat .opRead).1.buf = x.b.cout.buf := by
        unfold forward
        dsimp only
        split
        · rfl
        · split <;> rfl
      refine ⟨rfl, rfl, rfl, parted.cin, ?_, parted.nonzero, fun filled => ?_⟩
      · change (x.b.cout.forward m.toNat .opRead).1.buf.base < _
        rw [buf]
        exact parted.known
      change x.b.cin.buf.base ≠ (x.b.cout.forward m.toNat .opRead).1.buf.base
      rw [buf]
      exact parted.other filled
    · exact same
  split
  · exact same
  generalize x.chunkLimit limit = chunkLimit
  split
  · exact same
  have served := serve_undisturbed (A := A) reads parted x.p (x.wq.peek.take chunkLimit.toNat)
  generalize x.b.serve A (lib.write x.p (x.wq.peek.take chunkLimit.toNat)) = result at served ⊢
  obtain ⟨b, p, n, err⟩ := result
  cases err <;> exact served

namespace ATLSConn

/-- The receiving half of a connection: its rings are apart, and when it has been `drained`
nothing whole is left in it. -/
structure Receiving (view : TlsView π) (drained : Prop) (a : ATLSConn π) : Prop where
  parted : ∀ b, a.buf = some b → b.Parted
  served : drained → a.preRead.length ≤ a.preReadOff
  exhausted : drained → ∀ p b, a.tls = some p → a.buf = some b → Exhausted view p b

variable {drained : Prop} {a a' : ATLSConn π}

theorem Receiving.undisturbed (held : a.Receiving view drained) {b b' : TlsBufferConn}
    (conn : a.tls = some p) (buf : a.buf = some b) (same : Undisturbed view p b p' b') :
    Receiving view drained { a with tls := some p', buf := some b' } where
  parted _ found := some.inj found ▸ same.parted
  served := held.served
  exhausted given _ _ foundConn foundBuf :=
    some.inj foundConn ▸ some.inj foundBuf ▸
      same.exhausted (held.exhausted given p b conn buf)

variable {fd : Nat}

section

variable (reads : lib.Reads view)
include reads

theorem Receiving.write (held : a.Receiving view drained) {s : Socket} {src : Bytes}
    (done : a.write A lib fd s src = some (a', s', n, err)) : a'.Receiving view drained := by
  unfold ATLSConn.write at done
  split at done
  · cases done
    exact held
  split at done
  · cases done
    exact held
  split at done
  · cases done
    exact held
  split at done
  · rename_i p b conn buf
    cases done
    exact held.undisturbed conn buf (serve_undisturbed reads (held.parted b buf) p src)
  · cases done

theorem Receiving.flushN (held : a.Receiving view drained) {rounds : Nat} {s : Socket}
    {wq wq' : WriteQueue} {maxBytes : Int}
    (done : a.flushN A lib rounds fd s wq maxBytes = some (a', s', wq', n, err)) :
    a'.Receiving view drained := by
  unfold ATLSConn.flushN at done
  split at done
  · cases done
    exact held
  split at done
  · cases done
    exact held
  split at done
  · cases done
    exact held
  rename_i b buf
  split at done
  · cases done
  rename_i p conn
  split at done
  · cases done
  rename_i looped
  cases done
  refine held.undisturbed conn buf (flushLoop_keeps
    (fun x same => same.trans (flushRound_undisturbed reads _ x same.parted))
    (I := fun x => Undisturbed view p b x.p x.b) (.refl _ _ (held.parted b buf)) looped)

/-- The loop of `Read` gives up for now only when nothing whole is left. -/
theorem readLoop_exhausted {len : Nat} (positive : 0 < len) (answers : List SysRead)
    {b b' : TlsBufferConn} (parted : b.Parted) {bytes : Bytes}
    (done : readLoop A lib p b len answers = some ((p', b'), bytes, err)) :
    b'.Parted ∧ (err = some .EAGAIN → Exhausted view p' b') := by
  -- One round either returns like that or has found nothing whole.
  have round {p : π} {b : TlsBufferConn} (parted : b.Parted) :
      (readRound A lib p b len).1.2.Parted ∧
        match readRound A lib p b len with
        | ((p, b), some (_, err)) => err = some .EAGAIN → Exhausted view p b
        | ((p, b), none) => Exhausted view p b := by
    obtain ⟨kept, answered⟩ := parted.serve (A := A) (lib.read p len)
    unfold readRound
    generalize b.serve A (lib.read p len) = served at kept answered
    obtain ⟨b₁, p₁, bytes, err⟩ := served
    dsimp only at kept answered ⊢
    have empty := reads.empty _ _ _ _ _ _ _ positive answered
    split
    · exact ⟨kept, nofun⟩
    have nothing : bytes.take len = [] := eq_nil_of_length_eq_zero (by omega)
    split
    · exact ⟨kept, fun _ => empty nothing (.inl rfl)⟩
    · exact ⟨kept, empty nothing (.inr (.inl rfl))⟩
    refine ⟨kept, fun again => ?_⟩
    cases again
    exact empty nothing (.inr (.inr rfl))
  fun_induction readLoop A lib p b len answers with
  | case1 answers p b state result returned =>
    obtain ⟨kept, ends⟩ := round (p := p) parted
    rw [returned] at kept ends
    cases done
    exact ⟨kept, ends⟩
  | case2 => cases done
  | case3 p b p₁ b₁ wanted answer rest b₂ failure failed =>
    obtain ⟨kept, ends⟩ := round (p := p) parted
    rw [wanted] at kept ends
    cases done
    obtain ⟨ok, same, nothing⟩ := TlsBufferConn.Parted.readCiphertext kept failed
    refine ⟨ok, fun _ => ?_⟩
    unfold Exhausted
    rw [same, nothing nofun, append_nil]
    exact ends
  | case4 p b p₁ b₁ wanted answer rest b₂ more ih =>
    have kept := (round (p := p) parted).1
    rw [wanted] at kept
    exact ih (TlsBufferConn.Parted.readCiphertext kept more).1 done

/-- In userspace mode `Read` reports `EAGAIN` only once nothing whole is left. -/
theorem Receiving.read (held : a.Receiving view False) (user : a.ktls = false) {len : Nat}
    {answers : List SysRead} {bytes : Bytes}
    (done : a.read A lib fd len answers = some (a', bytes, err)) :
    a'.Receiving view (err = some .EAGAIN) := by
  have other {a₁ : ATLSConn π} {failure : Option Err} (buf : a₁.buf = a.buf)
      (not : failure ≠ some .EAGAIN) : a₁.Receiving view (failure = some .EAGAIN) :=
    ⟨buf ▸ held.parted, fun is => absurd is not, fun is => absurd is not⟩
  unfold ATLSConn.read at done
  split at done
  · cases done
    exact other rfl nofun
  split at done
  · cases done
    exact other rfl nofun
  rename_i positive
  split at done
  · dsimp only at done
    split at done <;> cases done <;> exact other rfl nofun
  rename_i served
  rw [user] at done
  simp only [Bool.false_eq_true, false_and, if_false] at done
  split at done
  · rename_i p b conn buf
    split at done
    · cases done
    rename_i looped
    cases done
    obtain ⟨ok, ends⟩ := readLoop_exhausted reads (Nat.pos_of_ne_zero positive) answers
      (held.parted b buf) looped
    exact ⟨fun _ found => some.inj found ▸ ok, fun _ => Nat.not_lt.mp served,
      fun again _ _ foundConn foundBuf =>
        some.inj foundConn ▸ some.inj foundBuf ▸ ends again⟩
  · cases done

end

end ATLSConn

end Connaxis
