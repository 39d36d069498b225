import Connaxis.Ktls.Finalize

namespace Connaxis.Ktls

open List BigEndian Framing

variable {π : Type}

/-- What `tls.Conn` keeps of the records behind the handshake: plaintext that was not handed
out, bytes that were not opened, the number of records that were, and the sequence number of
the next one. It is `Steady` before some input if no record among its own bytes and that input
changes the keys or makes the connection fail. -/
structure RecordView (π : Type) where
  plain : π → Bytes
  raw : π → Bytes
  opened : π → Nat
  seq : π → Nat
  Steady : π → Bytes → Prop

/-- The plaintext of consecutive records, the first of which has number `n`. -/
def texts (text : Nat → Bytes → Bytes) : Nat → List Bytes → Bytes
  | _, [] => []
  | n, record :: rest => text n record ++ texts text (n + 1) rest

theorem texts_append (text : Nat → Bytes → Bytes) (n : Nat) (first second : List Bytes) :
    texts text n (first ++ second) =
      texts text n first ++ texts text (n + first.length) second := by
  induction first generalizing n with
  | nil => rfl
  | cons record rest ih =>
    rw [cons_append, texts, texts, ih, append_assoc, length_cons, Nat.add_right_comm, Nat.add_assoc]

/-- A string of bytes that is one record. -/
def IsRecord (record : Bytes) : Prop :=
  0 < recordLength record ∧ recordLength record = record.length

instance (record : Bytes) : Decidable (IsRecord record) := inferInstanceAs (Decidable (_ ∧ _))

/-- `tls.Conn` has taken `took` from its transport, opened the records in `list` and handed
out `out`. -/
structure Opened (view : RecordView π) (text : Nat → Bytes → Bytes) (p p' : π) (took out : Bytes)
    (list : List Bytes) : Prop where
  whole : ∀ record ∈ list, IsRecord record
  bytes : view.raw p ++ took = list.flatten ++ view.raw p'
  plain : view.plain p ++ texts text (view.opened p) list = out ++ view.plain p'
  count : view.opened p' = view.opened p + list.length
  seq : view.seq p' = view.seq p + list.length

/-- What is assumed of `tls.Conn` and of the look at its sequence numbers: while it is steady
it opens one record after the other and counts them, and a read brings nothing only when all
whole records are opened and the socket has nothing left. -/
structure KtlsEnv.Opens (K : KtlsEnv π) (view : RecordView π) (text : Nat → Bytes → Bytes) :
    Prop where
  read : ∀ p took w len p' bytes err, 0 < len → view.Steady p (took ++ w) →
    Bio.Draws (took ++ w) (K.lib.read p len) w (p', bytes, err) →
    view.Steady p' w ∧ ∃ list, Opened view text p p' took (bytes.take len) list
  idle : ∀ p (rc : RecordConn) len rc' p' bytes err, 0 < len → (∀ n, 0 < rc.fd.grants n) →
    view.Steady p rc.fd.incoming → rc.serve (K.lib.read p len) = (rc', p', bytes, err) →
    bytes.take len = [] →
    rc'.fd.incoming = [] ∧ view.plain p' = [] ∧ (records (view.raw p')).1 = []
  seq : ∀ p inSeq outSeq, K.recSeq p = some (inSeq, outSeq) →
    inSeq = seqBytes (UInt64.ofNat (view.seq p))

section

variable {view : RecordView π} {text : Nat → Bytes → Bytes} {p p₁ p₂ : π}
  {took₁ took₂ out₁ out₂ : Bytes} {list₁ list₂ : List Bytes}

theorem Opened.refl (view : RecordView π) (text : Nat → Bytes → Bytes) (p : π) :
    Opened view text p p [] [] [] :=
  ⟨nofun, append_nil _, append_nil _, rfl, rfl⟩

theorem Opened.trans (first : Opened view text p p₁ took₁ out₁ list₁)
    (second : Opened view text p₁ p₂ took₂ out₂ list₂) :
    Opened view text p p₂ (took₁ ++ took₂) (out₁ ++ out₂) (list₁ ++ list₂) where
  whole record member := (mem_append.mp member).elim (first.whole record) (second.whole record)
  bytes := by
    rw [← append_assoc, first.bytes, append_assoc, second.bytes, flatten_append, append_assoc]
  plain := by
    rw [texts_append, ← append_assoc, first.plain, ← first.count, append_assoc,
      second.plain, append_assoc]
  count := by rw [second.count, first.count, length_append, Nat.add_assoc]
  seq := by rw [second.seq, first.seq, length_append, Nat.add_assoc]

/-- All the plaintext that is to come: what is kept, and what stands in the records that are
there or arrive. -/
def RecordView.ahead (view : RecordView π) (text : Nat → Bytes → Bytes) (p : π) (w : Bytes) :
    Bytes :=
  view.plain p ++ texts text (view.opened p) (records (view.raw p ++ w)).1

theorem Opened.ahead {w : Bytes} (opened : Opened view text p p₁ took₁ out₁ list₁) :
    view.ahead text p (took₁ ++ w) = out₁ ++ view.ahead text p₁ w := by
  unfold RecordView.ahead
  rw [← append_assoc, opened.bytes, append_assoc, records,
    frames_whole _ recordLength_stable list₁ opened.whole, texts_append, ← append_assoc,
    opened.plain, opened.count, append_assoc]

theorem RecordConn.read_grants (rc : RecordConn) (len : Nat) :
    (rc.read len).1.fd.grants = rc.fd.grants := by
  unfold RecordConn.read FdConn.read
  dsimp only
  split
  · rfl
  · split <;> rfl

theorem RecordConn.serve_grants {α : Type} (rc : RecordConn) (bio : Bio α) :
    (rc.serve bio).1.fd.grants = rc.fd.grants := by
  induction bio generalizing rc with
  | done result => rfl
  | read len next ih =>
    rw [RecordConn.serve]
    split
    · exact ih _ rc
    exact (ih _ _).trans (rc.read_grants len)
  | write p next ih =>
    rw [RecordConn.serve]
    split
    · exact ih _ rc
    · exact ih _ (rc.write p).1

variable {K : KtlsEnv π} {tc : π} {rc : RecordConn}

/-- A drain that does not come to its limit takes everything that is there. -/
theorem drainLoop_empties (opens : K.Opens view text) (maxBytes rounds : Nat) (out : Bytes)
    (flows : ∀ n, 0 < rc.fd.grants n) (steady : view.Steady tc rc.fd.incoming)
    (enough : maxBytes ≤ out.length + rounds)
    (few : out.length + (view.ahead text tc rc.fd.incoming).length < maxBytes) :
    ∃ tc' rc' brought list, drainLoop K.lib maxBytes rounds tc rc out = (tc', rc', out ++ brought) ∧
      Opened view text tc tc' rc.fd.incoming brought list ∧ rc'.fd.incoming = [] ∧
      view.plain tc' = [] ∧ (records (view.raw tc')).1 = [] := by
  induction rounds generalizing tc rc out with
  | zero => omega
  | succ rounds ih =>
    obtain ⟨len, chunk⟩ : ∃ len, min 4096 (maxBytes - out.length) = len := ⟨_, rfl⟩
    have positive : 0 < len := by omega
    obtain ⟨⟨rc₁, tc₁, bytes, err⟩, served⟩ : ∃ result, rc.serve (K.lib.read tc len) = result :=
      ⟨_, rfl⟩
    have drawn := rc.serve_draws (K.lib.read tc len)
    rw [served] at drawn
    obtain ⟨took, all⟩ := drawn.took
    dsimp only at all
    rw [all] at drawn
    obtain ⟨steady₁, list₁, first⟩ := opens.read _ _ _ _ _ _ _ positive (all ▸ steady) drawn
    have idle := opens.idle _ _ _ _ _ _ _ positive flows steady served
    rw [drainLoop, if_pos (by omega)]
    dsimp only
    rw [chunk, served]
    dsimp only
    split
    · rename_i filled
      have same : rc₁.fd.grants = rc.fd.grants := by
        have kept := rc.serve_grants (K.lib.read tc len)
        rwa [served] at kept
      have rest := congrArg length (first.ahead (w := rc₁.fd.incoming))
      rw [← all, length_append] at rest
      obtain ⟨tc', rc', brought, list₂, done, second, dry, void, last⟩ :=
        ih (out ++ bytes.take len) (fun n => same ▸ flows n) steady₁
          (by rw [length_append]; omega) (by rw [length_append]; omega)
      refine ⟨tc', rc', bytes.take len ++ brought, list₁ ++ list₂, ?_, ?_, dry, void, last⟩
      · rw [done, append_assoc]
      · rw [all]
        exact first.trans second
    rename_i nothing
    have nothing : bytes.take len = [] := eq_nil_of_length_eq_zero (by omega)
    obtain ⟨dry, void, last⟩ := idle nothing
    rw [nothing] at first
    refine ⟨tc₁, rc₁, [], list₁, by rw [append_nil], ?_, dry, void, last⟩
    rw [all, dry, append_nil]
    exact first

end

/-- A drain keeps to its limit. -/
theorem drainLoop_length (lib : TlsLib π) (maxBytes rounds : Nat) (tc : π) (rc : RecordConn)
    {out : Bytes} (within : out.length ≤ maxBytes) :
    (drainLoop lib maxBytes rounds tc rc out).2.2.length ≤ maxBytes := by
  induction rounds generalizing tc rc out with
  | zero => exact within
  | succ rounds ih =>
    rw [drainLoop]
    split
    · dsimp only
      split
      · refine ih _ _ ?_
        rw [length_append, length_take]
        omega
      · exact within
    · exact within

theorem drain_length (lib : TlsLib π) (tc : π) (rc : RecordConn) (maxBytes : Int) :
    (drainBufferedTLSPlaintext lib tc rc maxBytes).2.2.length ≤ maxBytes.toNat := by
  unfold drainBufferedTLSPlaintext
  split
  · exact Nat.zero_le _
  · exact drainLoop_length _ _ _ _ _ (Nat.zero_le _)

/-- A client has sent its side of the handshake, `hello`, and then `stream`, of which `k`
bytes were read from the socket before the handshake was over. -/
structure Handshaken (K : KtlsEnv π) (view : RecordView π) (c : Pending π) (tc : π)
    (b : TlsBufferConn) (rc : RecordConn) (answers : Nat → Option Err) (hello stream : Bytes)
    (k : Nat) : Prop where
  ready : c.Ready tc b rc
  kernel : c.kernel = .untouched answers
  within : k ≤ stream.length
  int : k < 9223372036854775808
  fed : ∃ chunks : List Bytes, chunks.flatten = hello ++ stream.take k ∧
    rc.inp = chunks.foldl RecordParser.feed .new
  rest : rc.fd.incoming = stream.drop k
  whole : (records hello).2 = []
  changed : (K.connectionState tc).version = VersionTLS12 →
    ∃ record ∈ (records hello).1, recordType record = recordTypeChangeCipherSpec
  once : ∀ record ∈ RecordParser.afterChange (records hello).1,
    recordType record ≠ recordTypeChangeCipherSpec
  raw : view.raw tc = stream.take k
  plain : view.plain tc = []
  opened : view.opened tc = 0
  seq : (K.connectionState tc).version = VersionTLS13 → view.seq tc = 0

/-- How many records the client has protected with the keys that the kernel is given: in
TLS 1.2 those behind its `ChangeCipherSpec`, in TLS 1.3 those behind the handshake. -/
def protectedRecords (version : UInt16) (hello bytes : Bytes) : Nat :=
  if version = VersionTLS12 then (RecordParser.afterChange (records (hello ++ bytes)).1).length
  else (records bytes).1.length

/-- The kernel goes on exactly where userspace has stopped: behind `taken` bytes of the stream. -/
structure TakesOver (text : Nat → Bytes → Bytes) (version : UInt16) (hello stream : Bytes)
    (k taken : Nat) (preRead unread : Bytes) (info : CryptoInfo) : Prop where
  reached : k ≤ taken ∧ taken ≤ stream.length
  unread : unread = stream.drop taken
  early : texts text 0 (records (stream.take k)).1 <+: preRead
  preRead : preRead = texts text 0 (records (stream.take taken)).1
  partly : (records (stream.take taken)).2 = [] ∧
    ((records (stream.take k)).2 ≠ [] → k < taken)
  seq : info.recSeq =
    seqBytes (UInt64.ofNat (protectedRecords version hello (stream.take taken)))

/-- Receiving has been handed over to the kernel without a loss and without a gap in the
sequence numbers. -/
def HandsOver (K : KtlsEnv π) (text : Nat → Bytes → Bytes) (c : Pending π) (version : UInt16)
    (hello stream : Bytes) (k : Nat) : Prop :=
  ∃ rc' taken info, (c.finalizeServerKTLS K).1.handshakeRC = some rc' ∧
    (c.finalizeServerKTLS K).1.kernel.rx = some info ∧
    TakesOver text version hello stream k taken
      (c.finalizeServerKTLS K).1.conn.preRead rc'.fd.incoming info

/-- In TLS 1.2, where nothing is drained: the `k` bytes are whole records without plaintext and
without a further change of cipher. -/
structure NoData (text : Nat → Bytes → Bytes) (early : Bytes) : Prop where
  whole : (records early).2 = []
  void : texts text 0 (records early).1 = []
  unchanged : ∀ record ∈ (records early).1, recordType record ≠ recordTypeChangeCipherSpec

theorem seqBytes_ofNat {m n : Nat}
    (same : seqBytes (UInt64.ofNat m) = seqBytes (UInt64.ofNat n)) :
    m % 18446744073709551616 = n % 18446744073709551616 := by
  have values := congrArg (fun bytes : FixedBytes 8 => value bytes.toList) same
  have back (seq : UInt64) : value (seqBytes seq).toList = seq.toNat :=
    value_encode 8 seq.toNat seq.toNat_lt
  rw [back, back] at values
  exact values

section

variable {K : KtlsEnv π} {view : RecordView π} {text : Nat → Bytes → Bytes} {c : Pending π}
  {tc : π} {b : TlsBufferConn} {rc : RecordConn} {answers : Nat → Option Err}
  {hello stream : Bytes} {k : Nat}

section

variable (start : Handshaken K view c tc b rc answers hello stream k)
include start

/-- The parser counts what the client protects, apart from a further change of cipher. -/
theorem Handshaken.inSeq (version : (K.connectionState tc).version = VersionTLS12) :
    ∃ n, rc.inSeq = UInt64.ofNat n ∧
      n + (records (stream.take k)).1.countP (recordType · = recordTypeChangeCipherSpec) =
        protectedRecords (K.connectionState tc).version hello (stream.take k) := by
  obtain ⟨chunks, all, fed⟩ := start.fed
  have parts : (records (hello ++ stream.take k)).1 =
      (records hello).1 ++ (records (stream.take k)).1 := by
    rw [records, frames_append _ recordLength_stable, start.whole, nil_append]
  have counted : rc.inSeq = (((records (hello ++ stream.take k)).1.foldl
      RecordParser.takeRecord .new).keeping (records (hello ++ stream.take k)).2).seq := by
    rw [RecordConn.inSeq, fed, RecordParser.feeds_records, all]
  change rc.inSeq = ((records _).1.foldl RecordParser.takeRecord .new).seq at counted
  have after := RecordParser.afterChange_append (start.changed version) (records (stream.take k)).1
  rw [RecordParser.foldl_takeRecord_seq, if_neg (by decide), parts, after] at counted
  refine ⟨_, counted.trans (UInt64.zero_add _), ?_⟩
  have every : (RecordParser.afterChange (records hello).1).countP (fun record =>
      recordType record ≠ recordTypeChangeCipherSpec) =
      (RecordParser.afterChange (records hello).1).length :=
    countP_eq_length.mpr fun record member => by simpa using start.once record member
  rw [protectedRecords, if_pos version, parts, after, countP_append, every, length_append,
    length_eq_countP_add_countP (recordType · = recordTypeChangeCipherSpec)
      (l := (records (stream.take k)).1)]
  simp only [decide_eq_true_eq, ne_eq]
  omega

/-- In TLS 1.2 everything is decided by the `k` bytes. -/
theorem takesOver_tls12 (version : (K.connectionState tc).version = VersionTLS12)
    {info : CryptoInfo} (seq : info.recSeq = seqBytes rc.inSeq) :
    (∃ taken, TakesOver text (K.connectionState tc).version hello stream k taken []
      rc.fd.incoming info) ↔ NoData text (stream.take k) := by
  obtain ⟨n, counted, protect⟩ := start.inSeq version
  rw [counted] at seq
  constructor
  · rintro ⟨taken, done⟩
    have same : taken = k := by
      have sizes := congrArg length (start.rest.symm.trans done.unread)
      rw [length_drop, length_drop] at sizes
      have reached := done.reached
      omega
    subst same
    have numbers := seqBytes_ofNat (seq.symm.trans done.seq)
    -- a record is not counted only if its number does not fit, and there are fewer than that
    have few : (records (stream.take taken)).1.countP (recordType · = recordTypeChangeCipherSpec) ≤
        taken :=
      Nat.le_trans countP_le_length
        (Nat.le_trans (frames_length _ _) (length_take_le _ _))
    have small := start.int
    have zero : (records (stream.take taken)).1.countP
        (recordType · = recordTypeChangeCipherSpec) = 0 := by omega
    exact ⟨done.partly.1, done.preRead.symm, fun record member change =>
      countP_eq_zero.mp zero record member (decide_eq_true change)⟩
  intro calm
  have zero : (records (stream.take k)).1.countP
      (recordType · = recordTypeChangeCipherSpec) = 0 :=
    countP_eq_zero.mpr fun record member => by simpa using calm.unchanged record member
  refine ⟨k, ⟨Nat.le_refl k, start.within⟩, start.rest, calm.void ▸ prefix_rfl, calm.void.symm,
    ⟨calm.whole, fun cut => absurd calm.whole cut⟩, ?_⟩
  rw [seq, ← protect, zero, Nat.add_zero]

/-- In TLS 1.3 all of the stream has been taken, and a record that is cut is lost. -/
theorem takesOver_tls13 (version : (K.connectionState tc).version = VersionTLS13) {tc' : π}
    {preRead : Bytes} {list : List Bytes}
    (opened : Opened view text tc tc' rc.fd.incoming preRead list) (void : view.plain tc' = [])
    (last : (records (view.raw tc')).1 = [])
    {info : CryptoInfo} (seq : info.recSeq = seqBytes (UInt64.ofNat (view.seq tc'))) :
    (∃ taken, TakesOver text (K.connectionState tc).version hello stream k taken preRead []
      info) ↔ (records stream).2 = [] := by
  have cut : stream = list.flatten ++ view.raw tc' := by
    rw [← opened.bytes, start.raw, start.rest, take_append_drop]
  have found : (records stream).1 = list := by
    rw [cut, records, frames_whole _ recordLength_stable list opened.whole, last,
      append_nil]
  constructor
  · rintro ⟨taken, done⟩
    have all : stream.length ≤ taken := drop_eq_nil_iff.mp done.unread.symm
    have whole := done.partly.1
    rwa [take_of_length_le all] at whole
  intro whole
  have plain := opened.plain
  rw [start.plain, start.opened, void, nil_append, append_nil] at plain
  refine ⟨stream.length, ⟨start.within, Nat.le_refl _⟩, drop_length.symm, ?_, ?_, ?_, ?_⟩
  · have parts := frames_append _ recordLength_stable (stream.take k) (stream.drop k)
    rw [take_append_drop] at parts
    rw [← plain, ← found, show records stream = _ from parts, texts_append]
    exact prefix_append _ _
  · rw [take_length, found, plain]
  · refine ⟨by rw [take_length, whole], fun broken => Nat.lt_of_le_of_ne start.within ?_⟩
    intro same
    rw [same, take_length] at broken
    exact broken whole
  have other : ¬ (K.connectionState tc).version = VersionTLS12 := by
    rw [version]
    decide
  rw [seq, opened.seq, start.seq version, protectedRecords, if_neg other, take_length, found,
    Nat.zero_add]

end

end

/-- What `opening` knows: raw bytes, the rest of a record, and how many were opened. -/
structure Inbox where
  raw : Bytes
  plain : Bytes
  opened : Nat

/-- Application data is what stands behind the header, and no other record has any. -/
def withoutHeader (_ : Nat) (record : Bytes) : Bytes :=
  if recordType record = 23 then record.drop 5 else []

/-- Take bytes until the record at the front is whole, and open it. -/
def openRecord (len : Nat) : Nat → Inbox → Bio (Inbox × Bytes × Option Err)
  | 0, p => .done (p, [], none)
  | rounds + 1, p =>
    let n := recordLength p.raw
    if 0 < n ∧ n ≤ p.raw.length then
      let text := withoutHeader 0 (p.raw.take n)
      .done (⟨p.raw.drop n, text.drop len, p.opened + 1⟩, text.take len, none)
    else .read 1 fun (bytes, err) =>
      if bytes = [] then .done (p, [], err)
      else openRecord len rounds { p with raw := p.raw ++ bytes }

/-- A library that opens one record a call. No record is longer than 65540 bytes. -/
def opening : TlsLib Inbox where
  read p len :=
    if p.plain ≠ [] then .done ({ p with plain := p.plain.drop len }, p.plain.take len, none)
    else openRecord len 65541 p
  write p src := .done (p, src.length, none)
  close p := .done p

def inboxView : RecordView Inbox where
  plain := Inbox.plain
  raw := Inbox.raw
  opened := Inbox.opened
  seq := Inbox.opened
  Steady p w := ∀ record ∈ (records (p.raw ++ w)).1, withoutHeader 0 record ≠ []

/-- A kernel that takes everything, with receiving wanted. -/
def obliging (version suite : UInt16) : KtlsEnv Inbox where
  lib := opening
  crypto := (noModule true).crypto
  connectionState _ := ⟨version, suite⟩
  recSeq p := some (seqBytes (UInt64.ofNat p.opened), zeros 8)
  kernelSupportsKTLS13 := true
  enableRX := true
  disableSessionTickets := false
  clientSessionCache := false
  postHandshakeTimeout := 10
  postHandshakeReadMaxBytes := 64 * 1024

theorem isRecord_take {x : Bytes} (positive : 0 < recordLength x)
    (whole : recordLength x ≤ x.length) : IsRecord (x.take (recordLength x)) := by
  have length : (x.take (recordLength x)).length = recordLength x := by
    rw [length_take, Nat.min_eq_left whole]
  have same : recordLength (x.take (recordLength x)) = recordLength x := by
    match x with
    | a :: b :: d :: high :: low :: rest =>
      rw [show recordLength (a :: b :: d :: high :: low :: rest) =
        uint16 high low + 5 from Nat.add_comm _ _]
      exact Nat.add_comm _ _
    | [] | [_] | [_, _] | [_, _, _] | [_, _, _, _] => cases positive
  refine ⟨?_, same.trans length.symm⟩
  rw [same]
  exact positive

/-- A record that is not whole is shorter than the longest one. -/
theorem short_of_not_whole {x : Bytes} (cut : ¬ (0 < recordLength x ∧ recordLength x ≤ x.length)) :
    x.length < 65540 := by
  match x with
  | _ :: _ :: _ :: high :: low :: rest =>
    have short : ¬ 5 + uint16 high low ≤ rest.length + 5 := fun whole =>
      cut ⟨Nat.lt_of_lt_of_le (by decide) (Nat.le_add_right 5 _), whole⟩
    have bound : uint16 high low ≤ 65535 := by
      have := high.toNat_lt
      have := low.toNat_lt
      unfold uint16
      omega
    simp only [length_cons]
    omega
  | [] | [_] | [_, _] | [_, _, _] | [_, _, _, _] =>
    simp only [length_cons, length_nil]
    omega

theorem Opened.steady {p p' : Inbox} {took out w : Bytes} {list : List Bytes}
    (opened : Opened inboxView withoutHeader p p' took out list)
    (steady : inboxView.Steady p (took ++ w)) : inboxView.Steady p' w := by
  intro record member
  refine steady record ?_
  rw [← append_assoc, show p.raw ++ took = _ from opened.bytes, append_assoc, records,
    frames_whole _ recordLength_stable list opened.whole]
  exact mem_append_right _ member

theorem openRecord_opened (len rounds : Nat) {p p' : Inbox} {took w bytes : Bytes}
    {err : Option Err} (empty : p.plain = [])
    (drawn : Bio.Draws (took ++ w) (openRecord len rounds p) w (p', bytes, err)) :
    ∃ list, Opened inboxView withoutHeader p p' took (bytes.take len) list := by
  have idle (p : Inbox) (took : Bytes) (same : took ++ w = w) :
      ∃ list, Opened inboxView withoutHeader p p took ([].take len) list := by
    rw [append_left_eq_self.mp same, take_nil]
    exact ⟨[], .refl inboxView withoutHeader p⟩
  induction rounds generalizing p took with
  | zero =>
    generalize stream : took ++ w = all at drawn
    cases drawn
    exact idle _ took stream
  | succ rounds ih =>
    unfold openRecord at drawn
    dsimp only at drawn
    split at drawn
    · rename_i whole
      generalize stream : took ++ w = all at drawn
      cases drawn
      have void : took = [] := append_left_eq_self.mp stream
      refine ⟨[p.raw.take (recordLength p.raw)], ?_, ?_, ?_, rfl, rfl⟩
      · intro record member
        cases mem_singleton.mp member
        exact isRecord_take whole.1 whole.2
      · rw [void, append_nil, flatten_singleton]
        exact (take_append_drop _ _).symm
      rw [take_take, Nat.min_self]
      change p.plain ++ (withoutHeader _ _ ++ []) = _
      rw [empty, append_nil, nil_append]
      exact (take_append_drop _ _).symm
    generalize stream : took ++ w = all at drawn
    cases drawn with
    | @read got _ _ _ _ _ err fits calm more =>
      dsimp only at more
      split at more
      · rename_i nothing
        cases more
        rw [nothing] at stream
        exact idle _ took stream
      obtain ⟨later, rest⟩ := more.took
      rw [rest] at more stream
      rw [← append_assoc] at stream
      obtain ⟨list, opened⟩ := ih (p := { p with raw := p.raw ++ got }) empty more
      have first : Opened inboxView withoutHeader p { p with raw := p.raw ++ got } got [] [] :=
        ⟨nofun, rfl, append_nil _, rfl, rfl⟩
      rw [append_cancel_right stream]
      exact ⟨list, first.trans opened⟩

theorem RecordConn.read_one {rc : RecordConn} (flows : ∀ n, 0 < rc.fd.grants n) :
    (rc.read 1).2.1 = rc.fd.incoming.take 1 ∧
      (rc.read 1).1.fd.incoming = rc.fd.incoming.drop 1 := by
  have one : min 1 (rc.fd.grants rc.fd.calls) = 1 := Nat.min_eq_left (flows rc.fd.calls)
  unfold RecordConn.read FdConn.read
  dsimp only
  rw [one]
  cases rc.fd.incoming with
  | nil => exact ⟨rfl, rfl⟩
  | cons byte rest => exact ⟨rfl, rfl⟩

theorem openRecord_idle {len : Nat} (positive : 0 < len) (rounds : Nat) {p p' : Inbox}
    {rc rc' : RecordConn} {bytes : Bytes} {err : Option Err}
    (fuel : 0 < rounds ∧ 65541 ≤ p.raw.length + rounds) (empty : p.plain = [])
    (flows : ∀ n, 0 < rc.fd.grants n) (steady : inboxView.Steady p rc.fd.incoming)
    (served : rc.serve (openRecord len rounds p) = (rc', p', bytes, err))
    (nothing : bytes.take len = []) :
    rc'.fd.incoming = [] ∧ p'.plain = [] ∧ (records p'.raw).1 = [] := by
  induction rounds generalizing p rc with
  | zero => exact absurd fuel.1 (Nat.lt_irrefl 0)
  | succ rounds ih =>
    unfold openRecord at served
    dsimp only at served
    split at served
    · rename_i whole
      cases served
      rw [take_take, Nat.min_self] at nothing
      refine absurd ((take_eq_nil_iff.mp nothing).resolve_left (Nat.ne_of_gt positive))
        (steady (p.raw.take (recordLength p.raw)) ?_)
      rw [records, frames_append _ recordLength_stable, frames_step _ p.raw whole]
      exact mem_cons_self
    rename_i cut
    obtain ⟨got, rest⟩ := rc.read_one flows
    have same := rc.read_grants 1
    rw [RecordConn.serve, if_neg (by decide)] at served
    generalize rc.read 1 = result at got rest same served
    obtain ⟨rc₁, bytes₁, err₁⟩ := result
    dsimp only at got rest same served
    split at served
    · rename_i dry
      cases served
      have gone : rc.fd.incoming = [] := by
        rw [dry] at got
        exact (take_eq_nil_iff.mp got.symm).resolve_left (by decide)
      rw [rest, gone, records, frames_stop _ _ cut]
      exact ⟨rfl, empty, rfl⟩
    rename_i filled
    have more : 0 < bytes₁.length := length_pos_iff.mpr filled
    have short := short_of_not_whole cut
    have grown : (p.raw ++ bytes₁).length = p.raw.length + bytes₁.length := length_append
    refine ih (p := { p with raw := p.raw ++ bytes₁ }) ?_ empty (fun n => same ▸ flows n) ?_ served
    · have one : bytes₁.length ≤ 1 := by
        rw [got]
        exact length_take_le _ _
      dsimp only
      omega
    · intro record member
      refine steady record ?_
      rwa [rest, append_assoc, got, take_append_drop] at member

theorem obliging_opens (version suite : UInt16) :
    (obliging version suite).Opens inboxView withoutHeader where
  seq p inSeq outSeq found := by
    cases found
    rfl
  read p took w len p' bytes err _ steady drawn := by
    have found : ∃ list, Opened inboxView withoutHeader p p' took (bytes.take len) list := by
      dsimp only [obliging, opening] at drawn
      split at drawn
      · generalize stream : took ++ w = all at drawn
        cases drawn
        have void : took = [] := append_left_eq_self.mp stream
        refine ⟨[], nofun, ?_, ?_, rfl, rfl⟩
        · rw [void]
          exact append_nil _
        rw [take_take, Nat.min_self]
        exact (append_nil _).trans (take_append_drop _ _).symm
      rename_i empty
      exact openRecord_opened len _ (Classical.not_not.mp empty) drawn
    obtain ⟨list, opened⟩ := found
    exact ⟨opened.steady steady, list, opened⟩
  idle p rc len rc' p' bytes err positive flows steady served nothing := by
    dsimp only [obliging, opening] at served
    split at served
    · rename_i filled
      cases served
      rw [take_take, Nat.min_self] at nothing
      exact absurd ((take_eq_nil_iff.mp nothing).resolve_left (Nat.ne_of_gt positive)) filled
    rename_i empty
    exact openRecord_idle positive _ ⟨by decide, Nat.le_add_left _ _⟩
      (Classical.not_not.mp empty) flows steady served nothing

/-- A hello with its random, the change of cipher and a protected `Finished`. -/
def clientFlight : List Bytes :=
  [[22, 3, 1, 0, 38, 1, 0, 0, 34, 3, 3] ++ List.replicate 32 7, [20, 3, 3, 0, 1, 1],
    [22, 3, 3, 0, 1, 0]]

def firstRecord : Bytes := [23, 3, 3, 0, 1, 65]

def closeNotify : Bytes := [21, 3, 3, 0, 2, 1, 0]

/-- `k` bytes of the record behind the handshake have come with its end, and a read takes as
many as are `there`. -/
def pipelinedRC (record : Bytes) (k there : Nat) : RecordConn where
  fd := ⟨record.drop k, fun _ => there, fun _ => some .EAGAIN, 0, ⟨[], fun _ => .full, 0⟩⟩
  inp := RecordParser.new.feed (clientFlight.flatten ++ record.take k)
  out := { RecordParser.new with serverRandom := some (zeros 32) }

def pipelinedConn (record : Bytes) (k there : Nat) : Pending Inbox where
  conn := ⟨some ⟨record.take k, [], 0⟩, some emptyRings, false, false, [], 0⟩
  handshakeRC := some (pipelinedRC record k there)
  handshakeKLW := some ⟨[1], [], [1], [2]⟩
  state := none
  kernel := .untouched fun _ => none

theorem records_clientFlight : records clientFlight.flatten = (clientFlight, []) := by
  have split := frames_whole recordLength recordLength_stable clientFlight (by decide) []
  rw [append_nil, frames_nil, append_nil] at split
  exact split

theorem records_single {record : Bytes} (whole : IsRecord record) :
    records record = ([record], []) := by
  have split := frames_whole recordLength recordLength_stable [record]
    (fun x member => mem_singleton.mp member ▸ whole) []
  rw [append_nil, frames_nil, append_nil, flatten_singleton] at split
  exact split

theorem pipelined_handshaken (version suite : UInt16) (record : Bytes) (k there : Nat)
    (within : k ≤ record.length) (int : k < 9223372036854775808) :
    Handshaken (obliging version suite) inboxView (pipelinedConn record k there)
      ⟨record.take k, [], 0⟩ emptyRings (pipelinedRC record k there) (fun _ => none)
      clientFlight.flatten record k where
  ready := ⟨rfl, rfl, emptyRings_parted, rfl⟩
  kernel := rfl
  within := within
  int := int
  fed := by
    refine ⟨[clientFlight.flatten ++ record.take k], flatten_singleton, ?_⟩
    rw [foldl_cons, foldl_nil, pipelinedRC]
  rest := rfl
  whole := by rw [records_clientFlight]
  changed _ := by
    rw [records_clientFlight]
    decide
  once := by
    rw [records_clientFlight]
    decide
  raw := rfl
  plain := rfl
  opened := rfl
  seq _ := rfl

end Connaxis.Ktls
