import Connaxis.Ktls.Enable
import Connaxis.Lib.Framing
import Connaxis.TlsConn

namespace Connaxis.Ktls

open List Framing

def recordTypeChangeCipherSpec : UInt8 := 20
def recordTypeHandshake : UInt8 := 22

def handshakeTypeClientHello : UInt8 := 1
def handshakeTypeServerHello : UInt8 := 2

/-- The lengths of the two layers: `int(hi)<<8 | int(lo)`, and one byte more. -/
def uint16 (high low : UInt8) : Nat := high.toNat * 256 + low.toNat

def uint24 (high mid low : UInt8) : Nat := high.toNat * 65536 + mid.toNat * 256 + low.toNat

/-- A random is there once its `got` flag is set. -/
structure RecordParser where
  buf : Bytes
  hs : Bytes
  cipherOn : Bool
  seq : UInt64
  clientRandom : Option (FixedBytes 32)
  serverRandom : Option (FixedBytes 32)
deriving DecidableEq

namespace RecordParser

def new : RecordParser := ⟨[], [], false, 0, none, none⟩

def handleHandshake (p : RecordParser) (typ : UInt8) (body : Bytes) : RecordParser :=
  let random := copyTo (zeros 32) ((body.drop 2).take 32)
  if typ = handshakeTypeClientHello then
    if p.clientRandom.isSome ∨ body.length < 34 then p
    else { p with clientRandom := some random }
  else if typ = handshakeTypeServerHello then
    if p.serverRandom.isSome ∨ body.length < 34 then p
    else { p with serverRandom := some random }
  else p

/-- The loop over the handshake messages. A round takes at least four bytes. -/
def handshakeLoop : Nat → RecordParser → RecordParser
  | 0, p => p
  | rounds + 1, p =>
    match p.hs with
    | hsType :: high :: mid :: low :: rest =>
      let hsLen := uint24 high mid low
      if rest.length < hsLen then p
      else
        handshakeLoop rounds
          { p.handleHandshake hsType (rest.take hsLen) with hs := rest.drop hsLen }
    | _ => p

def handleRecord (p : RecordParser) (typ : UInt8) (payload : Bytes) : RecordParser :=
  if typ = recordTypeChangeCipherSpec then { p with cipherOn := true }
  else if p.cipherOn then { p with seq := p.seq + 1 }
  else if typ ≠ recordTypeHandshake then p
  else handshakeLoop (p.hs ++ payload).length { p with hs := p.hs ++ payload }

/-- The loop over the records. A round takes at least five bytes. -/
def recordLoop : Nat → RecordParser → RecordParser
  | 0, p => p
  | rounds + 1, p =>
    match p.buf with
    | typ :: _ :: _ :: high :: low :: rest =>
      let length := uint16 high low
      if rest.length < length then p
      else
        recordLoop rounds
          (handleRecord { p with buf := rest.drop length } typ (rest.take length))
    | _ => p

def feed (p : RecordParser) (data : Bytes) : RecordParser :=
  if data.length = 0 then p
  else recordLoop (p.buf ++ data).length { p with buf := p.buf ++ data }

end RecordParser

/-- How long the record at the front is, once its header is there. -/
def recordLength : Bytes → Nat
  | _ :: _ :: _ :: high :: low :: _ => 5 + uint16 high low
  | _ => 0

theorem recordLength_stable : PrefixStable recordLength := by
  intro x y known
  match x with
  | _ :: _ :: _ :: _ :: _ :: _ => rfl
  | [] | [_] | [_, _] | [_, _, _] | [_, _, _, _] => cases known

/-- The whole records at the front, and what follows them. -/
abbrev records (bytes : Bytes) : List Bytes × Bytes := frames recordLength bytes

def recordType (record : Bytes) : UInt8 := record.headD 0

namespace RecordParser

def takeRecord (p : RecordParser) (record : Bytes) : RecordParser :=
  p.handleRecord (recordType record) (record.drop 5)

/-- The parser with other unparsed bytes. -/
def keeping (p : RecordParser) (buf : Bytes) : RecordParser := { p with buf := buf }

variable (p : RecordParser)

@[simp] theorem keeping_buf (buf : Bytes) : (p.keeping buf).buf = buf := rfl

@[simp] theorem keeping_keeping (buf buf' : Bytes) :
    (p.keeping buf).keeping buf' = p.keeping buf' := rfl

theorem handleHandshake_keeping (buf : Bytes) (typ : UInt8) (body : Bytes) :
    (p.keeping buf).handleHandshake typ body = (p.handleHandshake typ body).keeping buf := by
  unfold handleHandshake keeping
  split <;> split <;> first | rfl | (split <;> rfl)

theorem handshakeLoop_keeping (rounds : Nat) (p : RecordParser) (buf : Bytes) :
    handshakeLoop rounds (p.keeping buf) = (handshakeLoop rounds p).keeping buf := by
  induction rounds generalizing p with
  | zero => rfl
  | succ rounds ih =>
    rw [handshakeLoop, handshakeLoop, show (p.keeping buf).hs = p.hs from rfl]
    split
    · dsimp only
      split
      · rfl
      rw [handleHandshake_keeping]
      exact ih { p.handleHandshake _ _ with hs := _ }
    · rfl

/-- A record is handled without a look at the bytes behind it. -/
theorem handleRecord_keeping (buf : Bytes) (typ : UInt8) (payload : Bytes) :
    (p.keeping buf).handleRecord typ payload = (p.handleRecord typ payload).keeping buf := by
  unfold handleRecord
  split
  · rfl
  split
  · rename_i on
    rw [if_pos (show p.cipherOn = true from on)]
    rfl
  rename_i off
  rw [if_neg (show ¬ p.cipherOn = true from off)]
  split
  · rfl
  · exact handshakeLoop_keeping _ { p with hs := p.hs ++ payload } buf

theorem foldl_takeRecord_keeping (list : List Bytes) (p : RecordParser) (buf : Bytes) :
    list.foldl takeRecord (p.keeping buf) = (list.foldl takeRecord p).keeping buf := by
  induction list generalizing p with
  | nil => rfl
  | cons record rest ih =>
    rw [foldl_cons, foldl_cons, takeRecord, handleRecord_keeping]
    exact ih _

/-- The loop takes the whole records off the buffer. -/
theorem recordLoop_records (rounds : Nat) (p : RecordParser) (enough : p.buf.length ≤ rounds) :
    recordLoop rounds p =
      ((records p.buf).1.foldl takeRecord p).keeping (records p.buf).2 := by
  induction rounds generalizing p with
  | zero =>
    have empty : p.buf = [] := eq_nil_of_length_eq_zero (Nat.le_zero.mp enough)
    rw [recordLoop, empty, records, frames_nil, foldl_nil, ← empty]
    rfl
  | succ rounds ih =>
    have stop (short : ¬ (0 < recordLength p.buf ∧ recordLength p.buf ≤ p.buf.length)) :
        ((records p.buf).1.foldl takeRecord p).keeping (records p.buf).2 = p := by
      rw [records, frames_stop _ _ short]
      rfl
    unfold recordLoop
    split
    · rename_i typ a b high low rest shape
      dsimp only
      have size : recordLength p.buf = uint16 high low + 5 := by
        rw [shape]
        exact Nat.add_comm _ _
      have length : p.buf.length = rest.length + 5 := by rw [shape]; rfl
      generalize uint16 high low = n at size ⊢
      split
      · rename_i short
        exact (stop (by omega)).symm
      rename_i whole
      have front : p.buf.take (n + 5) = typ :: a :: b :: high :: low :: rest.take n := by
        rw [shape]
        rfl
      have behind : p.buf.drop (n + 5) = rest.drop n := by
        rw [shape]
        rfl
      change recordLoop rounds ((p.keeping (rest.drop n)).handleRecord typ (rest.take n)) = _
      rw [handleRecord_keeping, ih _ (by
        rw [keeping_buf, length_drop]
        omega), keeping_buf, foldl_takeRecord_keeping, keeping_keeping]
      rw [records, records, frames_step _ p.buf (by omega), size, behind, front, foldl_cons]
      rfl
    rename_i partly
    refine (stop fun complete => ?_).symm
    match shape : p.buf with
    | typ :: a :: b :: high :: low :: rest => exact partly typ a b high low rest shape
    | [] | [_] | [_, _] | [_, _, _] | [_, _, _, _] =>
      rw [shape] at complete
      cases complete.1

/-- Whatever the pieces in which the bytes arrived, their whole records have been handled
and the rest is kept. -/
theorem feeds_records (chunks : List Bytes) :
    chunks.foldl feed new =
      ((records chunks.flatten).1.foldl takeRecord new).keeping (records chunks.flatten).2 := by
  induction chunks using reverseRecOn with
  | nil =>
    rw [flatten_nil, records, frames_nil]
    rfl
  | append_singleton chunks chunk ih =>
    rw [foldl_append, foldl_cons, foldl_nil, ih, flatten_append, flatten_singleton, feed]
    split
    · rename_i void
      rw [eq_nil_of_length_eq_zero void, append_nil]
    rw [keeping_buf]
    change recordLoop _ (keeping _ _) = _
    rw [recordLoop_records _ _ (Nat.le_of_eq (congrArg _ (keeping_buf _ _))), keeping_buf,
      keeping_keeping, foldl_takeRecord_keeping, keeping_keeping, ← foldl_append,
      show records (chunks.flatten ++ chunk) = _ from
        frames_append _ recordLength_stable chunks.flatten chunk]

/-- The records behind the peer's `ChangeCipherSpec`. -/
def afterChange (list : List Bytes) : List Bytes :=
  (list.dropWhile fun record => recordType record ≠ recordTypeChangeCipherSpec).tail

theorem afterChange_cons {record : Bytes} (list : List Bytes)
    (other : recordType record ≠ recordTypeChangeCipherSpec) :
    afterChange (record :: list) = afterChange list := by
  rw [afterChange, dropWhile_cons_of_pos (by simpa using other)]
  rfl

theorem afterChange_append {first : List Bytes}
    (changed : ∃ record ∈ first, recordType record = recordTypeChangeCipherSpec)
    (second : List Bytes) : afterChange (first ++ second) = afterChange first ++ second := by
  induction first with
  | nil =>
    obtain ⟨record, member, _⟩ := changed
    cases member
  | cons record rest ih =>
    by_cases change : recordType record = recordTypeChangeCipherSpec
    · simp [afterChange, change]
    · rw [cons_append, afterChange_cons _ change, afterChange_cons _ change]
      exact ih (by simpa [change] using changed)

theorem handleHandshake_seq (typ : UInt8) (body : Bytes) :
    (p.handleHandshake typ body).seq = p.seq ∧
      (p.handleHandshake typ body).cipherOn = p.cipherOn := by
  unfold handleHandshake
  split
  · split <;> exact ⟨rfl, rfl⟩
  split
  · split <;> exact ⟨rfl, rfl⟩
  · exact ⟨rfl, rfl⟩

/-- Handshake messages are not counted. -/
theorem handshakeLoop_seq (rounds : Nat) (p : RecordParser) :
    (handshakeLoop rounds p).seq = p.seq ∧ (handshakeLoop rounds p).cipherOn = p.cipherOn := by
  induction rounds generalizing p with
  | zero => exact ⟨rfl, rfl⟩
  | succ rounds ih =>
    -- a split under the projections would have the kernel compute the length field
    generalize result : handshakeLoop (rounds + 1) p = final
    rw [handshakeLoop] at result
    split at result
    · rename_i typ high mid low rest _
      dsimp only at result
      split at result
      · rw [← result]
        exact ⟨rfl, rfl⟩
      obtain ⟨seq, on⟩ := handleHandshake_seq p typ (rest.take (uint24 high mid low))
      rw [← result, (ih _).1, (ih _).2]
      exact ⟨seq, on⟩
    rw [← result]
    exact ⟨rfl, rfl⟩

/-- Before the change nothing is counted, behind it every record that is not a second change. -/
theorem foldl_takeRecord_seq (list : List Bytes) (p : RecordParser) :
    (list.foldl takeRecord p).seq = p.seq + UInt64.ofNat
      ((if p.cipherOn then list else afterChange list).countP fun record =>
        recordType record ≠ recordTypeChangeCipherSpec) := by
  induction list generalizing p with
  | nil => simp [afterChange]
  | cons record rest ih =>
    rw [foldl_cons, ih]
    unfold takeRecord handleRecord
    by_cases change : recordType record = recordTypeChangeCipherSpec
    · rw [if_pos change]
      simp only [↓reduceIte]
      cases p.cipherOn <;> simp [afterChange, change]
    rw [if_neg change]
    cases on : p.cipherOn with
    | true =>
      simp only [↓reduceIte]
      rw [countP_cons_of_pos (by simpa using change), UInt64.ofNat_add,
        UInt64.add_assoc, UInt64.add_comm (UInt64.ofNat _)]
      rfl
    | false =>
      rw [afterChange_cons rest change]
      simp only [Bool.false_eq_true, ↓reduceIte]
      split
      · rw [on]
        rfl
      rw [(handshakeLoop_seq _ _).1, (handshakeLoop_seq _ _).2]
      simp

end RecordParser

/-- The descriptor during the handshake. `incoming` is what the peer's side still delivers;
`grants` says how much of it the kernel gives to each call, and `last` what it answers once
there is nothing left: no error stands for the end of the stream. -/
structure FdConn where
  incoming : Bytes
  grants : Nat → Nat
  last : Nat → Option Err
  calls : Nat
  sock : Socket

namespace FdConn

/-- `fdTimeoutError`, which like `errWouldBlock` is a timeout. -/
def timeout : Err → Err
  | .EAGAIN => .wouldBlock
  | err => err

def read (c : FdConn) (len : Nat) : FdConn × Bytes × Option Err :=
  let bytes := c.incoming.take (min len (c.grants c.calls))
  let c' := { c with incoming := c.incoming.drop bytes.length, calls := c.calls + 1 }
  if bytes.length > 0 then (c', bytes, none)
  else if c.incoming.length > 0 then (c', [], some (timeout .EAGAIN))
  else (c', [], (c.last c.calls).map timeout)

def write (c : FdConn) (p : Bytes) : FdConn × Nat × Option Err :=
  let (sock, n, err) := c.sock.write p
  ({ c with sock := sock }, n.toNat, err.map timeout)

end FdConn

/-- `recordConn` over the descriptor. -/
structure RecordConn where
  fd : FdConn
  inp : RecordParser
  out : RecordParser

namespace RecordConn

def read (c : RecordConn) (len : Nat) : RecordConn × Bytes × Option Err :=
  let (fd, bytes, err) := c.fd.read len
  ({ c with fd := fd, inp := if bytes.length > 0 then c.inp.feed bytes else c.inp }, bytes, err)

def write (c : RecordConn) (p : Bytes) : RecordConn × Nat × Option Err :=
  let (fd, n, err) := c.fd.write p
  ({ c with fd := fd, out := if n > 0 then c.out.feed (p.take n) else c.out }, n, err)

def clientRandom (c : RecordConn) : Bytes :=
  match c.inp.clientRandom, c.out.clientRandom with
  | some random, _ => random.toList
  | none, some random => random.toList
  | none, none => []

def serverRandom (c : RecordConn) : Bytes :=
  match c.inp.serverRandom, c.out.serverRandom with
  | some random, _ => random.toList
  | none, some random => random.toList
  | none, none => []

def inSeq (c : RecordConn) : UInt64 := c.inp.seq

def outSeq (c : RecordConn) : UInt64 := c.out.seq

/-- Run one call of `tls.Conn` while `tlsBufferConn` passes its transport on to `direct`. -/
def serve {α : Type} (c : RecordConn) : Bio α → RecordConn × α
  | .done result => (c, result)
  | .read len next =>
    if len = 0 then c.serve (next ([], none))
    else
      let (c, bytes, err) := c.read len
      c.serve (next (bytes, err))
  | .write p next =>
    if p.length = 0 then c.serve (next (0, none))
    else
      let (c, n, err) := c.write p
      c.serve (next (n, err))

end RecordConn

end Connaxis.Ktls
