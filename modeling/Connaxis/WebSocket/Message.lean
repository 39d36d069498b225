import Connaxis.WebSocket.Client
import Mathlib.Data.List.GetD

namespace Connaxis.WebSocket

open Memory List

/-- What a scan of text has found out. -/
structure Scanned (inp : Bytes) (checked : Nat) (complete ok : Bool) : Prop where
  bound : checked ≤ inp.length
  valid : Utf8.valid (inp.take checked) = true
  complete_iff : complete = true ↔ Utf8.valid inp = true
  ok_iff : ok = true ↔ Utf8.Extendable inp

variable {ok : Bool}

theorem scanLoop_scanned (rounds : Nat) (inp : Bytes) (checked : Nat)
    (bound : checked ≤ inp.length) (enough : inp.length - checked < rounds)
    (valid : Utf8.valid (inp.take checked) = true) {k : Nat} {complete : Bool}
    (done : scanLoop rounds inp checked = (k, complete, ok)) : Scanned inp k complete ok := by
  induction rounds generalizing checked with
  | zero => omega
  | succ rounds ih =>
    have rest := Utf8.valid_append valid (inp.drop checked)
    rw [take_append_drop] at rest
    -- A well-formed piece moves the boundary behind it.
    have moved {size : Nat} (fits : size ≤ (inp.drop checked).length)
        (piece : Utf8.valid ((inp.drop checked).take size) = true) :
        checked + size ≤ inp.length ∧ Utf8.valid (inp.take (checked + size)) = true := by
      rw [length_drop] at fits
      refine ⟨by omega, ?_⟩
      rw [take_add]
      exact (Utf8.valid_append valid _).1.mpr piece
    unfold scanLoop at done
    split at done
    · rename_i more
      have front : inp.drop checked = inp.getD checked 0 :: inp.drop (checked + 1) := by
        rw [drop_eq_getElem_cons more, getD_eq_getElem _ _ more]
      split at done
      · rename_i ascii
        have piece : Utf8.valid ((inp.drop checked).take 1) = true := by
          rw [front, Utf8.valid_iff]
          simp only [take_succ_cons, take_zero, Utf8.run, Utf8.step_ascii ascii]
        obtain ⟨bound', valid'⟩ := moved (by rw [length_drop]; omega) piece
        exact ih (checked + 1) bound' (by omega) valid' done
      rename_i wide
      have judged := Utf8.front _ (inp.drop (checked + 1)) (UInt8.not_lt.mp wide)
      rw [← front] at judged
      cases judged with
      | whole size decoded other positive fits back =>
        rw [decoded, if_neg other] at done
        obtain ⟨bound', valid'⟩ := moved fits ((Utf8.valid_iff _).mpr back)
        exact ih (checked + size) bound' (by omega) valid' done
      | broken decoded full stuck =>
        rw [decoded, if_pos rfl, if_pos full] at done
        cases done
        have dead : ¬ Utf8.Extendable inp := by
          rw [rest.2, Utf8.extendable_iff, stuck]
          exact fun alive => alive rfl
        refine ⟨bound, valid, iff_of_false (by simp) fun whole => ?_, iff_of_false (by simp) dead⟩
        exact dead (Utf8.valid_extendable whole)
      | cut decoded owed state waiting inside =>
        rw [decoded, if_pos rfl, if_neg (by simp [owed])] at done
        cases done
        refine ⟨bound, valid, iff_of_false (by simp) ?_, iff_of_true rfl ?_⟩
        · rw [rest.1, Utf8.valid_iff, waiting]
          exact fun back => inside (Option.some.inj back)
        · simp [rest.2, Utf8.extendable_iff, waiting]
    rename_i all
    cases done
    have whole : Utf8.valid inp = true := by
      rw [← take_of_length_le (Nat.not_lt.mp all)]
      exact valid
    exact ⟨bound, valid, iff_of_true rfl whole, iff_of_true rfl (Utf8.valid_extendable whole)⟩

variable {inp : Bytes}

theorem scanUTF8Prefix_scanned {checked : Nat} {complete : Bool}
    (done : scanUTF8Prefix inp = (checked, complete, ok)) : Scanned inp checked complete ok :=
  scanLoop_scanned _ inp 0 (Nat.zero_le _) (by omega) rfl done

namespace ClientBuf

/-- The buffer holds a message so far, of which a valid front part has been checked. -/
structure Holds (c : ClientBuf) (body : Bytes) : Prop where
  size : c.writeOffset = body.length
  bytes : c.buf.take body.length = body
  bound : c.checkOffset ≤ body.length
  checked : Utf8.valid (body.take c.checkOffset) = true

theorem empty_holds : empty.Holds [] := ⟨rfl, rfl, Nat.le_refl _, rfl⟩

variable {c : ClientBuf}

variable {body : Bytes}

theorem Holds.length_le (holds : c.Holds body) : body.length ≤ c.buf.length := by
  have length := congrArg length holds.bytes
  rw [length_take] at length
  omega

theorem Holds.bytes_eq (holds : c.Holds body) : c.bytes = body := by
  unfold ClientBuf.bytes
  rw [holds.size]
  split
  · rename_i void
    exact (eq_nil_of_length_eq_zero void).symm
  · exact holds.bytes

variable {c' : ClientBuf}

section

variable (holds : c.Holds body)
include holds

/-- Bytes behind the message leave what was checked of it alone. -/
theorem Holds.append (inp : Bytes) (size : c'.writeOffset = c.writeOffset + inp.length)
    (same : c'.checkOffset = c.checkOffset)
    (bytes : c'.buf.take (body.length + inp.length) = body ++ inp) : c'.Holds (body ++ inp) := by
  have length : (body ++ inp).length = body.length + inp.length := length_append
  have bound := holds.bound
  refine ⟨by rw [size, holds.size, length], by rw [length]; exact bytes, by omega, ?_⟩
  rw [same, take_append_of_le_length bound]
  exact holds.checked

theorem write_holds {A : Allocator UInt8} {n : Nat} (done : c.write A n inp = some c') :
    c'.Holds (body ++ inp) := by
  have fits := holds.length_le
  unfold write at done
  split at done
  · cases done
    refine holds.append inp rfl rfl ?_
    rw [holds.size, overwrite_take _ _ _ fits, holds.bytes]
  split at done
  · cases done
  rename_i buf granted
  cases done
  have room := A.sized _ _ _ granted
  refine holds.append inp rfl rfl ?_
  rw [holds.size] at room ⊢
  split
  · have moved := overwrite_take buf 0 (c.buf.take body.length) (Nat.zero_le _)
    have long := overwrite_length buf 0 (c.buf.take body.length)
    rw [holds.bytes, Nat.zero_add, take_zero, nil_append] at moved
    rw [holds.bytes] at long ⊢
    rw [overwrite_take _ _ _ (by omega), moved]
  have empty : body = [] := eq_nil_of_length_eq_zero (by omega)
  rw [empty]
  exact overwrite_take buf 0 inp (Nat.zero_le _)

/-- A buffer is refused only where the pool has none of the size. -/
theorem write_refused {A : Allocator UInt8} {n : Nat} (refused : c.write A n inp = none) :
    A.get n (body ++ inp).length = none := by
  unfold write at refused
  rw [holds.size, ← length_append] at refused
  split at refused
  · cases refused
  split at refused
  · rename_i void
    exact void
  · cases refused

/-- The verdict on a text message so far: it is valid, or can become so. -/
theorem validateBufferedText_holds {final : Bool} (done : validateBufferedText c final = (c', ok)) :
    c'.Holds body ∧
      (ok = true ↔ if final then Utf8.valid body = true else Utf8.Extendable body) := by
  unfold validateBufferedText at done
  split at done
  · rename_i void
    cases done
    have empty : body = [] := eq_nil_of_length_eq_zero (holds.size ▸ void)
    rw [empty] at holds ⊢
    refine ⟨holds, iff_of_true rfl ?_⟩
    split
    · rfl
    · exact Utf8.valid_extendable rfl
  have text : c.buf.take c.writeOffset = body := holds.size ▸ holds.bytes
  dsimp only at done
  rw [text] at done
  rcases scan : scanUTF8Prefix (body.drop c.checkOffset) with ⟨checked, complete, fine⟩
  have scanned := scanUTF8Prefix_scanned scan
  have whole := Utf8.valid_append holds.checked (body.drop c.checkOffset)
  rw [take_append_drop] at whole
  rw [scan] at done
  have bound := scanned.bound
  rw [length_drop] at bound
  have prior := holds.bound
  have further : (ClientBuf.mk c.buf c.writeOffset (c.checkOffset + checked)).Holds body := by
    refine ⟨holds.size, holds.bytes, by dsimp only; omega, ?_⟩
    dsimp only
    rw [take_add]
    exact (Utf8.valid_append holds.checked _).1.mpr scanned.valid
  dsimp only at done
  cases fine with
  | false =>
    cases done
    have dead : ¬ Utf8.Extendable body := fun alive =>
      nomatch scanned.ok_iff.mpr (whole.2.mp alive)
    refine ⟨further, iff_of_false nofun ?_⟩
    split
    · exact fun valid => dead (Utf8.valid_extendable valid)
    · exact dead
  | true =>
    cases done
    refine ⟨further, ?_⟩
    cases final with
    | true => simp only [Bool.not_true, Bool.or_false, if_true,
      scanned.complete_iff, whole.1]
    | false =>
      simp only [Bool.not_false, Bool.or_true, Bool.false_eq_true, if_false, true_iff]
      exact whole.2.mpr (scanned.ok_iff.mp rfl)

end

end ClientBuf

namespace WsClient

/-- The fragments received so far. -/
def held (c : WsClient) : ClientBuf := c.buf.getD ClientBuf.empty

@[simp] theorem resetBuf_held (c : WsClient) : c.resetBuf.held = ClientBuf.empty := by
  unfold held resetBuf
  cases c.buf <;> rfl

@[simp] theorem resetMessageState_held (c : WsClient) :
    c.resetMessageState.held = ClientBuf.empty :=
  resetBuf_held _

/-- What a message does not change. -/
def SameConn (c c' : WsClient) : Prop :=
  c'.cid = c.cid ∧ c'.perMessageDeflate = c.perMessageDeflate

end WsClient

variable {σ : Type} {e : WsEnv σ} {cli cli' : WsClient} {hs : σ} {opCode : UInt8}
  {payload body : Bytes} {fin fragmentedText compressed : Bool}

/-- The message is longer than it may be. -/
def TooLong (e : WsEnv σ) (size : Nat) : Prop :=
  e.WSMaxMessageBytes > 0 ∧ (size : Int) > e.WSMaxMessageBytes

instance (size : Nat) : Decidable (TooLong e size) := inferInstanceAs (Decidable (_ ∧ _))

/-- The ways a complete message ends. -/
inductive Finished (e : WsEnv σ) (cli : WsClient) (hs : σ) (fragmentedText compressed : Bool)
    (opCode : UInt8) (payload : Bytes) : Processed σ → Prop
  | tooLarge (why : expand e compressed payload = .error .tooLarge ∨
      ∃ content, expand e compressed payload = .ok content ∧ TooLong e content.length) :
      Finished e cli hs fragmentedText compressed opCode payload
        (refuse cli.resetMessageState hs 1009)
  | corrupt (why : expand e compressed payload = .error .corrupt) :
      Finished e cli hs fragmentedText compressed opCode payload
        (refuse cli.resetMessageState hs 1002)
  | badText (content : Bytes) (inflated : expand e compressed payload = .ok content)
      (text : opCode = MessageText) (unchecked : fragmentedText = false)
      (invalid : Utf8.valid content = false) :
      Finished e cli hs fragmentedText compressed opCode payload
        (refuse cli.resetMessageState hs 1007)
  | delivered (content : Bytes) (inflated : expand e compressed payload = .ok content)
      (within : ¬ TooLong e content.length)
      (valid : opCode = MessageText → fragmentedText = false → Utf8.valid content = true) :
      Finished e cli hs fragmentedText compressed opCode payload
        ⟨cli.resetMessageState, (processUserdata e cli.cid hs content opCode).1,
          (processUserdata e cli.cid hs content opCode).2, false, some content⟩

theorem finishMessage_cases (hs : σ) (fragmentedText compressed : Bool) (payload : Bytes)
    (first : cli.firstop = 0) (known : opCode ≠ 0) :
    Finished e cli hs fragmentedText compressed opCode payload
      (finishMessage e cli hs true fragmentedText compressed opCode payload) := by
  have quiet : WsClient.resetBuf { cli with fragmentCompressed := false } =
      cli.resetMessageState := by
    unfold WsClient.resetMessageState
    rw [← first]
  unfold finishMessage
  dsimp only
  rw [if_pos ⟨known, rfl⟩]
  cases inflated : expand e compressed payload with
  | error err =>
    cases err with
    | tooLarge => exact .tooLarge (.inl inflated)
    | corrupt => exact .corrupt inflated
  | ok content =>
    dsimp only
    split
    · rename_i long
      exact .tooLarge (.inr ⟨content, inflated, long⟩)
    rename_i within
    split
    · rename_i bad
      simp only [Bool.not_eq_true'] at bad
      exact .badText content inflated bad.1 bad.2.1 bad.2.2
    rename_i fine
    simp only [Bool.not_eq_true'] at fine
    rw [quiet]
    refine .delivered content inflated within fun text unchecked => ?_
    cases valid : Utf8.valid content with
    | true => rfl
    | false => exact absurd ⟨text, unchecked, valid⟩ fine

/-- The fragment makes the message longer than it may be, or than the pool has room for. -/
def Oversize (e : WsEnv σ) (size : Nat) : Prop :=
  TooLong e size ∨ ∃ n, e.alloc.get n size = none

/-- The verdict on the text that has been received. -/
def TextFine (final : Bool) (text : Bytes) : Prop :=
  if final then Utf8.valid text = true else Utf8.Extendable text

/-- The ways a fragment ends. -/
inductive Added (e : WsEnv σ) (cli : WsClient) (hs : σ) (fin fragmentedText : Bool)
    (whole : Bytes) : Processed σ → Prop
  | oversize (cli' : WsClient) (same : cli.SameConn cli') (why : Oversize e whole.length) :
      Added e cli hs fin fragmentedText whole (refuse cli'.resetMessageState hs 1009)
  | badText (cli' : WsClient) (same : cli.SameConn cli') (within : ¬ TooLong e whole.length)
      (text : cli.firstop = MessageText) (plain : cli.fragmentCompressed = false)
      (bad : ¬ TextFine fin whole) :
      Added e cli hs fin fragmentedText whole (refuse cli'.resetMessageState hs 1007)
  | more (cli' : WsClient) (same : cli.SameConn cli') (within : ¬ TooLong e whole.length)
      (open_ : fin = false) (holds : cli'.held.Holds whole) (first : cli'.firstop = cli.firstop)
      (kind : cli'.fragmentCompressed = cli.fragmentCompressed)
      (fine : cli.firstop = MessageText → cli.fragmentCompressed = false → TextFine fin whole) :
      Added e cli hs fin fragmentedText whole ⟨cli', hs, [], false, none⟩
  | last (cli' : WsClient) (same : cli.SameConn cli') (within : ¬ TooLong e whole.length)
      (ends : fin = true) (first : cli'.firstop = 0)
      (fine : cli.firstop = MessageText → cli.fragmentCompressed = false → TextFine fin whole) :
      Added e cli hs fin fragmentedText whole
        (finishMessage e cli' hs true fragmentedText cli.fragmentCompressed cli.firstop whole)

/-- The check of a text fragment; other fragments pass. -/
theorem checked_holds {buf buf' : ClientBuf} {whole : Bytes} (stored : buf.Holds whole)
    (checked : (if cli.firstop = MessageText ∧ !cli.fragmentCompressed then
      validateBufferedText buf fin else (buf, true)) = (buf', ok)) :
    buf'.Holds whole ∧
      (ok = false → cli.firstop = MessageText ∧ cli.fragmentCompressed = false ∧
        ¬ TextFine fin whole) ∧
      (ok = true → cli.firstop = MessageText → cli.fragmentCompressed = false →
        TextFine fin whole) := by
  simp only [Bool.not_eq_true'] at checked
  split at checked
  · rename_i text
    obtain ⟨holds, verdict⟩ := ClientBuf.validateBufferedText_holds stored checked
    refine ⟨holds, fun refused => ⟨text.1, text.2, fun fine => ?_⟩, fun fine _ _ => verdict.mp fine⟩
    rw [verdict.mpr fine] at refused
    cases refused
  rename_i other
  cases checked
  exact ⟨stored, nofun, fun _ text plain => absurd ⟨text, plain⟩ other⟩

theorem addFragment_cases (hs : σ) (fin fragmentedText : Bool) (payload : Bytes)
    (holds : cli.held.Holds body) :
    Added e cli hs fin fragmentedText (body ++ payload)
      (addFragment e cli hs fin fragmentedText payload) := by
  have length : cli.held.size + payload.length = (body ++ payload).length := by
    rw [length_append, ClientBuf.size, holds.size]
  have held : cli.buf.getD ClientBuf.empty = cli.held := rfl
  unfold addFragment
  dsimp only
  rw [held, length]
  split
  · rename_i long
    exact .oversize { cli with buf := some cli.held } ⟨rfl, rfl⟩ (.inl long)
  rename_i within
  cases written : cli.held.write e.alloc cli.gets payload with
  | none =>
    exact .oversize { cli with buf := some cli.held } ⟨rfl, rfl⟩
      (.inr ⟨_, ClientBuf.write_refused holds written⟩)
  | some buf =>
    dsimp only
    rcases checked : (if cli.firstop = MessageText ∧ !cli.fragmentCompressed then
      validateBufferedText buf fin else (buf, true)) with ⟨buf', ok⟩
    obtain ⟨stored, refused, fine⟩ :=
      checked_holds (ClientBuf.write_holds holds written) checked
    cases ok with
    | false =>
      obtain ⟨text, plain, bad⟩ := refused rfl
      exact .badText { cli with buf := some buf', gets := cli.gets + 1 } ⟨rfl, rfl⟩
        within text plain bad
    | true =>
      cases fin with
      | false =>
        exact .more { cli with buf := some buf', gets := cli.gets + 1 } ⟨rfl, rfl⟩
          within rfl stored rfl rfl (fine rfl)
      | true =>
        rw [stored.bytes_eq]
        exact .last { cli with buf := some buf', gets := cli.gets + 1, firstop := 0,
                               fragmentCompressed := false }
          ⟨rfl, rfl⟩ within rfl rfl (fine rfl)

end Connaxis.WebSocket
