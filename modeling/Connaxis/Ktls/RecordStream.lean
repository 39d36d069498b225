import Connaxis.Ktls.RecordConn

namespace Connaxis.Ktls

open List Framing

/-- How long the handshake message at the front is, once its header is there. -/
def messageLength : Bytes → Nat
  | _ :: high :: mid :: low :: _ => 4 + uint24 high mid low
  | _ => 0

theorem messageLength_stable : PrefixStable messageLength := by
  intro x y known
  match x with
  | _ :: _ :: _ :: _ :: _ => rfl
  | [] | [_] | [_, _] | [_, _, _] => cases known

/-- The whole handshake messages at the front, and what follows them. -/
abbrev messages (bytes : Bytes) : List Bytes × Bytes := frames messageLength bytes

def isChange (record : Bytes) : Bool := recordType record = recordTypeChangeCipherSpec

def isHandshake (record : Bytes) : Bool := recordType record = recordTypeHandshake

/-- The plaintext handshake, put together again from the records before the first
`ChangeCipherSpec`. -/
def plainHandshake : List Bytes → Bytes
  | [] => []
  | record :: list =>
    if isChange record then []
    else if isHandshake record then record.drop 5 ++ plainHandshake list
    else plainHandshake list

variable {record : Bytes}

theorem isHandshake_change (change : isChange record = true) : isHandshake record = false := by
  rw [isHandshake, of_decide_eq_true change]
  rfl

theorem plainHandshake_snoc (list : List Bytes) (record : Bytes) :
    plainHandshake (list ++ [record]) = plainHandshake list ++
      if list.any isChange = false ∧ isHandshake record then record.drop 5 else [] := by
  induction list with
  | nil =>
    have apart : isChange record = true → isHandshake record = false := isHandshake_change
    cases change : isChange record <;> simp_all [plainHandshake]
  | cons first list ih =>
    cases change : isChange first <;> cases handshake : isHandshake first <;>
      simp_all [plainHandshake]

/-- Bytes 2 to 34 of the body, if the message is of the type and has so many. -/
def helloRandom (typ : UInt8) (message : Bytes) : Option Bytes :=
  if message.headD 0 = typ ∧ 34 ≤ (message.drop 4).length then
    some (((message.drop 4).drop 2).take 32)
  else none

/-- The two messages that carry a random. -/
inductive Hello
  | client
  | server
deriving DecidableEq

def Hello.typ : Hello → UInt8
  | client => handshakeTypeClientHello
  | server => handshakeTypeServerHello

namespace RecordParser

def captured (p : RecordParser) : Hello → Option Bytes
  | .client => p.clientRandom.map Vector.toList
  | .server => p.serverRandom.map Vector.toList

variable (p : RecordParser)

theorem handleHandshake_captured (typ a b c : UInt8) (body : Bytes) (hello : Hello) :
    (p.handleHandshake typ body).captured hello =
      (p.captured hello).or (helloRandom hello.typ (typ :: a :: b :: c :: body)) := by
  have server : handshakeTypeServerHello ≠ handshakeTypeClientHello := by decide
  simp only [helloRandom, headD_cons, drop_succ_cons, drop_zero]
  by_cases short : body.length < 34
  · rw [if_neg fun both => Nat.not_le.mpr short both.2, Option.or_none]
    simp [handleHandshake, short]
  have full : (copyTo (zeros 32) ((body.drop 2).take 32)).toList = (body.drop 2).take 32 := by
    apply copyTo_full
    rw [length_take, length_drop]
    omega
  have long : 34 ≤ body.length := by omega
  cases hello with
  | client =>
    by_cases own : typ = handshakeTypeClientHello
    · cases known : p.clientRandom <;>
        simp [handleHandshake, captured, Hello.typ, own, known, short, long, full]
    by_cases other : typ = handshakeTypeServerHello <;>
      simp [handleHandshake, captured, Hello.typ, own, other, server]
    split <;> rfl
  | server =>
    by_cases own : typ = handshakeTypeServerHello
    · cases known : p.serverRandom <;>
        simp [handleHandshake, captured, Hello.typ, own, known, server, short, long, full]
    by_cases other : typ = handshakeTypeClientHello <;>
      simp [handleHandshake, captured, Hello.typ, own, other, server.symm]
    split <;> rfl

theorem no_message (short : ¬ (0 < messageLength p.hs ∧ messageLength p.hs ≤ p.hs.length)) :
    p.hs = (messages p.hs).2 ∧ ∀ hello, p.captured hello =
      (p.captured hello).or ((messages p.hs).1.findSome? (helloRandom hello.typ)) := by
  rw [messages, frames_stop _ _ short]
  exact ⟨rfl, fun _ => Option.or_none.symm⟩

/-- The loop takes the whole messages off the handshake. -/
theorem handshakeLoop_messages (rounds : Nat) (enough : p.hs.length ≤ rounds) :
    (handshakeLoop rounds p).hs = (messages p.hs).2 ∧
      ∀ hello, (handshakeLoop rounds p).captured hello =
        (p.captured hello).or ((messages p.hs).1.findSome? (helloRandom hello.typ)) := by
  induction rounds generalizing p with
  | zero =>
    rw [handshakeLoop]
    apply no_message
    omega
  | succ rounds ih =>
    generalize result : handshakeLoop (rounds + 1) p = final
    unfold handshakeLoop at result
    split at result
    · rename_i typ high mid low rest shape
      dsimp only at result
      have size : messageLength p.hs = uint24 high mid low + 4 := by
        rw [shape]
        exact Nat.add_comm _ _
      have length : p.hs.length = rest.length + 4 := by rw [shape]; rfl
      generalize uint24 high mid low = n at size result
      split at result
      · rw [← result]
        exact p.no_message (by omega)
      have front : p.hs.take (n + 4) = typ :: high :: mid :: low :: rest.take n := by
        rw [shape]
        rfl
      have behind : p.hs.drop (n + 4) = rest.drop n := by
        rw [shape]
        rfl
      have handled := handleHandshake_captured p typ high mid low (rest.take n)
      generalize p.handleHandshake typ (rest.take n) = next at result handled
      obtain ⟨left, taken⟩ := ih { next with hs := rest.drop n } (by
        rw [length_drop]
        omega)
      rw [← result, messages, frames_step _ p.hs (by omega), size, behind, front]
      refine ⟨left, fun hello => ?_⟩
      have now : ({ next with hs := rest.drop n } : RecordParser).captured hello = _ :=
        handled hello
      rw [taken, now, Option.or_assoc, findSome?_cons]
      cases helloRandom hello.typ (typ :: high :: mid :: low :: rest.take n) <;> rfl
    rename_i partly
    rw [← result]
    refine p.no_message fun complete => ?_
    rcases shape : p.hs with _ | ⟨typ, _ | ⟨high, _ | ⟨mid, _ | ⟨low, rest⟩⟩⟩⟩
    case cons.cons.cons.cons => exact partly typ high mid low rest shape
    all_goals
      rw [shape] at complete
      cases complete.1

theorem takeRecord_cipherOn (record : Bytes) :
    (p.takeRecord record).cipherOn = (p.cipherOn || isChange record) := by
  unfold takeRecord handleRecord isChange
  split
  · simp [*]
  split
  · simp [*]
  split
  · simp [*]
  rw [(handshakeLoop_seq _ _).2]
  simp [*]

/-- Only a handshake record before the change tells of the handshake. -/
theorem takeRecord_other (other : ¬ (p.cipherOn = false ∧ isHandshake record = true)) :
    (p.takeRecord record).hs = p.hs ∧ (p.takeRecord record).captured = p.captured := by
  unfold takeRecord handleRecord
  split
  · exact ⟨rfl, by funext hello; cases hello <;> rfl⟩
  split
  · exact ⟨rfl, by funext hello; cases hello <;> rfl⟩
  split
  · exact ⟨rfl, rfl⟩
  · simp_all [isHandshake]

theorem takeRecord_handshake (off : p.cipherOn = false) (handshake : isHandshake record = true) :
    p.takeRecord record =
      handshakeLoop (p.hs ++ record.drop 5).length { p with hs := p.hs ++ record.drop 5 } := by
  have typ : recordType record = recordTypeHandshake := of_decide_eq_true handshake
  rw [takeRecord, handleRecord, typ, off]
  rfl

/-- The messages are those of the whole handshake, however the records cut it. -/
theorem foldl_takeRecord_messages (list : List Bytes) :
    (list.foldl takeRecord new).cipherOn = list.any isChange ∧
    (list.foldl takeRecord new).hs = (messages (plainHandshake list)).2 ∧
    ∀ hello, (list.foldl takeRecord new).captured hello =
      (messages (plainHandshake list)).1.findSome? (helloRandom hello.typ) := by
  induction list using reverseRecOn with
  | nil =>
    have nothing : messages (plainHandshake []) = ([], []) := frames_nil _
    rw [nothing]
    exact ⟨rfl, rfl, fun hello => by cases hello <;> rfl⟩
  | append_singleton list record ih =>
    rw [foldl_append, foldl_cons, foldl_nil, any_append, plainHandshake_snoc]
    generalize list.foldl takeRecord new = p at ih ⊢
    obtain ⟨on, hs, known⟩ := ih
    refine ⟨by simp [takeRecord_cipherOn, on], ?_⟩
    by_cases plain : list.any isChange = false ∧ isHandshake record = true
    · obtain ⟨left, taken⟩ := handshakeLoop_messages { p with hs := p.hs ++ record.drop 5 } _
        (Nat.le_refl _)
      rw [if_pos plain, p.takeRecord_handshake (on.trans plain.1) plain.2,
        show messages (plainHandshake list ++ record.drop 5) = _ from
          frames_append _ messageLength_stable _ _, ← hs]
      refine ⟨left, fun hello => ?_⟩
      rw [taken, findSome?_append, ← known]
      cases hello <;> rfl
    rw [if_neg plain, append_nil, (p.takeRecord_other (on ▸ plain)).1,
      (p.takeRecord_other (on ▸ plain)).2]
    exact ⟨hs, known⟩

/-- However the bytes were cut into reads, the parser ends as after one feed of them all. It
keeps the incomplete record; it has counted the records behind the first `ChangeCipherSpec`
that are not another one; and it has the randoms of the first hellos long enough to have one
in the plaintext handshake, however that was cut into records. -/
theorem feed_boundaries_irrelevant (chunks : List Bytes) :
    let p := chunks.foldl feed new
    let list := (records chunks.flatten).1
    p = new.feed chunks.flatten ∧
    list.flatten ++ p.buf = chunks.flatten ∧ records p.buf = ([], p.buf) ∧
    p.cipherOn = list.any isChange ∧
    p.seq = UInt64.ofNat ((afterChange list).countP fun record => !isChange record) ∧
    p.hs = (messages (plainHandshake list)).2 ∧
    p.clientRandom.map Vector.toList = (messages (plainHandshake list)).1.findSome?
      (helloRandom handshakeTypeClientHello) ∧
    p.serverRandom.map Vector.toList = (messages (plainHandshake list)).1.findSome?
      (helloRandom handshakeTypeServerHello) := by
  have whole := feeds_records [chunks.flatten]
  rw [List.flatten_singleton, ← feeds_records chunks] at whole
  obtain ⟨on, hs, known⟩ := foldl_takeRecord_messages (records chunks.flatten).1
  have seq := foldl_takeRecord_seq (records chunks.flatten).1 new
  have changes (record : Bytes) : (!isChange record) =
      decide (recordType record ≠ recordTypeChangeCipherSpec) := by simp [isChange]
  refine ⟨whole.symm, ?_⟩
  rw [feeds_records]
  refine ⟨frames_flatten _ _, frames_rest _ _, on, ?_, hs, known .client,
    known .server⟩
  simp only [changes]
  rw [← UInt64.zero_add (UInt64.ofNat _)]
  exact seq

end RecordParser

end Connaxis.Ktls
