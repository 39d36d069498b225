import Connaxis.TlsRecv

namespace Connaxis

open Memory List

namespace Bio

variable {α : Type}

/-- A call on a transport that delivers the peer's bytes `w` in any pieces and may time out
at any point. Other failures come behind the last byte. -/
inductive Draws : Bytes → Bio α → Bytes → α → Prop
  | done (w : Bytes) (result : α) : Draws w (.done result) w result
  | read {got rest w' : Bytes} {len : Nat} {next : Bytes × Option Err → Bio α} {result : α}
      (err : Option Err) (fits : got.length ≤ len)
      (calm : err = none ∨ err = some .wouldBlock ∨ rest = [])
      (more : Draws rest (next (got, err)) w' result) :
      Draws (got ++ rest) (.read len next) w' result
  | write {w w' p : Bytes} {next : Nat × Option Err → Bio α} {result : α}
      (taken : Nat × Option Err) (more : Draws w (next taken) w' result) :
      Draws w (.write p next) w' result

variable {bio : Bio α} {result : α}

theorem Draws.took {w w' : Bytes} (drawn : Draws w bio w' result) : ∃ took, w = took ++ w' := by
  induction drawn with
  | done => exact ⟨[], rfl⟩
  | read err fits calm more ih =>
    obtain ⟨took, same⟩ := ih
    exact ⟨_ ++ took, by rw [same, append_assoc]⟩
  | write taken more ih => exact ih

/-- What the in-memory transport holds comes before what is still to arrive. -/
theorem Over.draws {q q' : Bytes} (served : Over q bio q' result) (later : Bytes) :
    Draws (q ++ later) bio (q' ++ later) result := by
  induction served with
  | done q result => exact .done _ _
  | @read q q' len next result rest ih =>
    rw [answer] at ih
    split at ih
    · rename_i zero
      rw [zero] at ih ⊢
      change Draws ([] ++ (q ++ later)) _ _ _
      exact .read none (Nat.zero_le _) (.inl rfl) ih
    split at ih
    · rename_i empty
      rw [empty, drop_nil] at ih
      rw [empty]
      exact .read (some .wouldBlock) (Nat.zero_le _) (.inr (.inl rfl)) ih
    have cut : q ++ later = q.take len ++ (q.drop len ++ later) := by
      rw [← append_assoc, take_append_drop]
    rw [cut]
    exact .read none (length_take_le _ _) (.inl rfl) ih
  | write taken rest ih => exact .write taken ih

end Bio

/-- What is assumed of `tls.Conn`: it hands out the plaintext of the peer's stream in order.
`future p w` is the plaintext still to come when the bytes `w` follow. -/
structure TlsLib.Streams {π : Type} (lib : TlsLib π) (future : π → Bytes → Bytes) : Prop where
  read : ∀ p w len w' p' bytes err, 0 < len →
    Bio.Draws w (lib.read p len) w' (p', bytes, err) →
    future p w = bytes.take len ++ future p' w'

namespace ATLSConn

variable {π : Type} (A : Allocator UInt8) (lib : TlsLib π)

/-- What the kernel gives to one call of the loop of `Read`. -/
def receivedLoop (p : π) (b : TlsBufferConn) (len : Nat) : List SysRead → Bytes
  | [] => []
  | answer :: rest =>
    match readRound A lib p b len with
    | (_, some _) => []
    | ((p, b), none) =>
      b.received A answer ++
        match b.readCiphertext A answer with
        | (_, some _) => []
        | (b, none) => receivedLoop p b len rest

/-- What the kernel gives to one call of `Read` in userspace mode. -/
def received (c : ATLSConn π) (fd len : Nat) (answers : List SysRead) : Bytes :=
  if fd = 0 ∨ len = 0 ∨ c.preReadOff < c.preRead.length then []
  else match c.tls, c.buf with
    | some p, some b => receivedLoop A lib p b len answers
    | _, _ => []

/-- One call of `Read` after the other: what they return, and what the kernel gives to them. -/
def readAll (fd : Nat) : ATLSConn π → List (Nat × List SysRead) →
    Option (ATLSConn π × Bytes × Bytes)
  | c, [] => some (c, [], [])
  | c, (len, answers) :: rest =>
    match c.read A lib fd len answers with
    | none => none
    | some (c', bytes, _) =>
      match readAll fd c' rest with
      | none => none
      | some (last, got, taken) =>
        some (last, bytes ++ got, c.received A lib fd len answers ++ taken)

/-- The plaintext a connection in userspace mode has still to return when the ciphertext `w`
follows. -/
def unread (future : π → Bytes → Bytes) (c : ATLSConn π) (w : Bytes) : Bytes :=
  c.preRead.drop c.preReadOff ++
    match c.tls, c.buf with
    | some p, some b => future p (b.incoming ++ w)
    | _, _ => []

variable {A} {lib} {future : π → Bytes → Bytes}

variable {c : ATLSConn π}

section

variable (streams : lib.Streams future)
include streams

variable {p p' : π} {b b' : TlsBufferConn} {len : Nat}

theorem readRound_stream (parted : b.Parted) (positive : 0 < len)
    {out : Option (Bytes × Option Err)} (done : readRound A lib p b len = ((p', b'), out)) :
    b'.Parted ∧ ∀ w, future p (b.incoming ++ w) =
      (out.elim [] Prod.fst) ++ future p' (b'.incoming ++ w) := by
  obtain ⟨kept, ran⟩ := parted.serve (A := A) (lib.read p len)
  unfold readRound at done
  generalize b.serve A (lib.read p len) = served at kept ran done
  obtain ⟨b₁, p₁, bytes, err⟩ := served
  dsimp only at kept ran done
  have law (w : Bytes) := streams.read _ _ _ _ _ _ _ positive (ran.draws w)
  split at done
  · cases done
    exact ⟨kept, law⟩
  rename_i void
  have nothing : bytes.take len = [] := eq_nil_of_length_eq_zero (by omega)
  rw [nothing] at law
  split at done
  · cases done
    exact ⟨kept, law⟩
  · cases done
    exact ⟨kept, law⟩
  cases done
  exact ⟨kept, law⟩

variable {bytes : Bytes} {err : Option Err}

theorem readLoop_stream (positive : 0 < len) (answers : List SysRead) (parted : b.Parted)
    (done : readLoop A lib p b len answers = some ((p', b'), bytes, err)) :
    b'.Parted ∧ ∀ w, future p (b.incoming ++ (receivedLoop A lib p b len answers ++ w)) =
      bytes ++ future p' (b'.incoming ++ w) := by
  fun_induction readLoop A lib p b len answers with
  | case1 answers p b state result returned =>
    cases done
    cases answers
    · exact readRound_stream streams parted positive returned
    rw [receivedLoop, returned]
    exact readRound_stream streams parted positive returned
  | case2 => cases done
  | case3 p b p₁ b₁ wanted answer rest b₂ failure failed =>
    obtain ⟨kept, before⟩ := readRound_stream streams parted positive wanted
    cases done
    obtain ⟨ok, same, nothing⟩ := TlsBufferConn.Parted.readCiphertext kept failed
    rw [receivedLoop, wanted]
    dsimp only
    rw [failed, nothing (by simp), same, nothing (by simp)]
    rw [append_nil, append_nil]
    exact ⟨ok, before⟩
  | case4 p b p₁ b₁ wanted answer rest b₂ more ih =>
    obtain ⟨kept, before⟩ := readRound_stream streams parted positive wanted
    obtain ⟨ok, same, _⟩ := TlsBufferConn.Parted.readCiphertext kept more
    obtain ⟨final, after⟩ := ih ok done
    refine ⟨final, fun w => ?_⟩
    rw [receivedLoop, wanted]
    dsimp only
    rw [more, before, ← after, same]
    simp only [Option.elim_none, nil_append, append_assoc]

variable {fd : Nat}

/-- A `Read` in userspace mode returns the next bytes of the plaintext, and loses none. -/
theorem read_stream {c' : ATLSConn π} {answers : List SysRead} (user : c.ktls = false)
    (parted : ∀ b, c.buf = some b → b.Parted)
    (done : c.read A lib fd len answers = some (c', bytes, err)) :
    c'.ktls = false ∧ (∀ b, c'.buf = some b → b.Parted) ∧
      ∀ w, c.unread future (c.received A lib fd len answers ++ w) =
        bytes ++ c'.unread future w := by
  unfold ATLSConn.read at done
  split at done
  · rename_i closed
    cases done
    rw [received, if_pos (.inl closed)]
    exact ⟨user, parted, fun w => rfl⟩
  rename_i opened
  split at done
  · rename_i zero
    cases done
    rw [received, if_pos (.inr (.inl zero))]
    exact ⟨user, parted, fun w => rfl⟩
  rename_i positive
  split at done
  · rename_i held
    rw [received, if_pos (.inr (.inr held))]
    dsimp only at done
    have cut : (c.preRead.drop c.preReadOff).take len ++ c.preRead.drop
        (c.preReadOff + ((c.preRead.drop c.preReadOff).take len).length) =
        c.preRead.drop c.preReadOff := by
      have inside : ((c.preRead.drop c.preReadOff).take len).length =
          min len (c.preRead.drop c.preReadOff).length := length_take
      rw [← drop_drop, inside]
      rcases Nat.le_total len (c.preRead.drop c.preReadOff).length with short | long
      · rw [Nat.min_eq_left short, take_append_drop]
      rw [Nat.min_eq_right long, take_of_length_le long, drop_length, append_nil]
    split at done
    · rename_i last
      cases done
      refine ⟨user, parted, fun w => ?_⟩
      rw [drop_eq_nil_of_le last, append_nil] at cut
      rw [unread, unread, cut]
      rfl
    cases done
    refine ⟨user, parted, fun w => ?_⟩
    rw [unread, unread, ← append_assoc, cut]
    rfl
  rename_i served
  have serves : ¬ (fd = 0 ∨ len = 0 ∨ c.preReadOff < c.preRead.length) := by
    simp only [opened, positive, served, or_self, not_false_eq_true]
  have spent : c.preRead.drop c.preReadOff = [] := drop_eq_nil_of_le (by omega)
  split at done
  · rename_i kernel
    rw [user] at kernel
    cases kernel.1
  split at done
  · rename_i p b conn buf
    split at done
    · cases done
    rename_i looped
    cases done
    rw [received, if_neg serves, conn, buf]
    obtain ⟨ok, law⟩ := readLoop_stream streams (Nat.pos_of_ne_zero positive) answers
      (parted b buf) looped
    refine ⟨user, fun _ same => Option.some.inj same ▸ ok, fun w => ?_⟩
    rw [unread, unread, conn, buf, spent]
    exact law w
  · cases done

/-- However the rest of the ciphertext arrives and is read, the calls return a front part of
the plaintext and the rest is still to be had. -/
theorem readAll_stream (calls : List (Nat × List SysRead)) {last : ATLSConn π} {got taken : Bytes}
    (user : c.ktls = false) (parted : ∀ b, c.buf = some b → b.Parted)
    (done : c.readAll A lib fd calls = some (last, got, taken)) (rest : Bytes) :
    got ++ last.unread future rest = c.unread future (taken ++ rest) := by
  induction calls generalizing c got taken with
  | nil =>
    cases done
    rfl
  | cons call calls ih =>
    unfold readAll at done
    split at done
    · cases done
    rename_i c₁ bytes err once
    split at done
    · cases done
    rename_i more
    cases done
    obtain ⟨mode, kept, law⟩ := read_stream streams user parted once
    rw [append_assoc, ih mode kept more, append_assoc, law]

end

/-- Whatever `Read` calls follow, what they return and what is still to come make up `stream`,
when the kernel holds the ciphertext `w`. -/
def Delivers (A : Allocator UInt8) (lib : TlsLib π) (future : π → Bytes → Bytes) (c : ATLSConn π)
    (w stream : Bytes) : Prop :=
  ∀ fd calls last got taken rest, c.readAll A lib fd calls = some (last, got, taken) →
    w = taken ++ rest → got ++ last.unread future rest = stream

theorem delivers_iff (streams : lib.Streams future) (user : c.ktls = false)
    (parted : ∀ b, c.buf = some b → b.Parted) (w stream : Bytes) :
    Delivers A lib future c w stream ↔ c.unread future w = stream := by
  constructor
  · intro delivers
    exact delivers 0 [] c [] [] w rfl rfl
  intro same fd calls last got taken rest done all
  rw [readAll_stream streams calls user parted done, ← all, same]

end ATLSConn

end Connaxis
