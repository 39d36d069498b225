import Connaxis.WebSocket.Message

namespace Connaxis.WebSocket

variable {σ : Type} {e : WsEnv σ} {cli cli' : WsClient} {hs : σ} {inp body : Bytes}

/-- A client in the state in which a fragment finds it: in the middle of a message, or
with a new one begun by the frame itself. -/
inductive Begun (cli : WsClient) (fin : Bool) : WsClient → Prop
  | first (opCode : UInt8) (compressed : Bool) (idle : cli.firstop = 0)
      (kind : opCode = MessageText ∨ opCode = MessageBinary) (open_ : fin = false)
      (negotiated : compressed = true → cli.perMessageDeflate = true) :
      Begun cli fin { cli with firstop := opCode, fragmentCompressed := compressed }
  | next (busy : cli.firstop ≠ 0) : Begun cli fin cli

/-- Everything `processFrame` can do. -/
inductive Handled (e : WsEnv σ) (cli : WsClient) (hs : σ) (inp : Bytes) : Processed σ → Prop
  | refused : Handled e cli hs inp (refuse cli hs 1002)
  | closing (payload : Bytes) (small : payload.length ≤ 125) :
      Handled e cli hs inp ⟨cli, hs, buildClose payload, true, none⟩
  | ping (payload : Bytes) (small : payload.length ≤ 125) :
      Handled e cli hs inp ⟨cli, hs, buildPong payload, false, none⟩
  | pong : Handled e cli hs inp ⟨cli, hs, [], false, none⟩
  | fragment (cli' : WsClient) (fin fragmentedText : Bool) (payload : Bytes)
      (begun : Begun cli fin cli') :
      Handled e cli hs inp (addFragment e cli' hs fin fragmentedText payload)
  | single (fragmentedText compressed : Bool) (payload : Bytes) (idle : cli.firstop = 0)
      (kind : inp.getD 0 0 &&& 0x0f = MessageText ∨ inp.getD 0 0 &&& 0x0f = MessageBinary) :
      Handled e cli hs inp (finishMessage e cli hs true fragmentedText compressed
        (inp.getD 0 0 &&& 0x0f) payload)

theorem processControl_cases (cli : WsClient) (hs : σ) (fin rsv1 : Bool) (opCode : UInt8)
    (payload : Bytes) :
    Handled e cli hs inp (processControl cli hs fin rsv1 opCode payload) := by
  unfold processControl
  split
  · exact .refused
  split
  · exact .refused
  rename_i small
  rw [not_or, Nat.not_lt] at small
  split
  · exact .closing payload small.1
  split
  · exact .ping payload small.1
  split
  · exact .pong
  · exact .refused

theorem data_opcodes {b : UInt8} (low : ¬ b ≥ 3) (other : b ≠ 0) :
    b = MessageText ∨ b = MessageBinary := by
  have bound : b.toNat < 3 := UInt8.lt_iff_toNat_lt.mp (UInt8.not_le.mp low)
  have nonzero : b.toNat ≠ 0 := fun zero => other (UInt8.toNat.inj zero)
  have cases : b.toNat = 1 ∨ b.toNat = 2 := by omega
  rcases cases with one | two
  · exact .inl (UInt8.toNat.inj one)
  · exact .inr (UInt8.toNat.inj two)

theorem processData_cases (cli : WsClient) (hs : σ) (fin rsv1 : Bool) (payload : Bytes)
    (low : ¬ inp.getD 0 0 &&& 0x0f ≥ 3) :
    Handled e cli hs inp (processData e cli hs fin rsv1 (inp.getD 0 0 &&& 0x0f) payload) := by
  unfold processData
  dsimp only
  generalize code : inp.getD 0 0 &&& 0x0f = opCode at low
  split
  · exact .refused
  split
  · exact .refused
  rename_i bare compressible
  split
  · exact .refused
  rename_i order
  rw [Decidable.not_not] at order
  rcases order with ⟨idle, known⟩ | ⟨busy, continued⟩
  · have kind := data_opcodes low known
    have negotiated : rsv1 = true → cli.perMessageDeflate = true := by
      intro flag
      cases agreed : cli.perMessageDeflate with
      | true => rfl
      | false => exact absurd ⟨known, flag, .inl (by rw [agreed]; rfl)⟩ compressible
    rw [if_neg known]
    cases fin with
    | false =>
      have opened : (if opCode ≠ 0 ∧ (!false) = true then
          ({ cli with firstop := opCode, fragmentCompressed := rsv1 } : WsClient)
          else cli) = { cli with firstop := opCode, fragmentCompressed := rsv1 } :=
        if_pos ⟨known, rfl⟩
      rw [opened, if_pos (by exact known)]
      exact .fragment _ _ _ _ (.first opCode rsv1 idle kind rfl negotiated)
    | true =>
      have same : (if opCode ≠ 0 ∧ (!true) = true then
          ({ cli with firstop := opCode, fragmentCompressed := rsv1 } : WsClient)
          else cli) = cli := if_neg fun both => nomatch both.2
      rw [same, if_neg (not_not.mpr idle), ← code]
      rw [← code] at kind
      exact .single _ _ _ idle kind
  have same : (if opCode ≠ 0 ∧ (!fin) = true then
      ({ cli with firstop := opCode, fragmentCompressed :=
          if opCode = 0 then cli.fragmentCompressed else rsv1 } : WsClient)
      else cli) = cli := if_neg fun both => both.1 continued
  rw [same, if_pos busy]
  exact .fragment _ _ _ _ (.next busy)

theorem processFrame_cases (cli : WsClient) (hs : σ) (inp : Bytes) :
    Handled e cli hs inp (processFrame e cli hs inp) := by
  unfold processFrame
  split
  · exact .refused
  unfold processPayload
  dsimp only
  split
  · exact .refused
  split
  · exact processControl_cases cli hs _ _ _ _
  rename_i low
  exact processData_cases cli hs _ _ _ low

/-- The state between two frames: the message received so far is within the limit, and
between two messages there is none. -/
structure Kept (e : WsEnv σ) (cli : WsClient) (body : Bytes) : Prop where
  kind : cli.firstop = 0 ∨ cli.firstop = MessageText ∨ cli.firstop = MessageBinary
  holds : cli.held.Holds body
  idle : cli.firstop = 0 → cli.fragmentCompressed = false ∧ body = []
  within : ¬ TooLong e body.length
  negotiated : cli.fragmentCompressed = true → cli.perMessageDeflate = true

theorem not_tooLong_zero (e : WsEnv σ) : ¬ TooLong e 0 := by
  unfold TooLong
  omega

theorem resetMessageState_kept (e : WsEnv σ) (cli : WsClient) :
    Kept e cli.resetMessageState [] where
  kind := Or.inl rfl
  holds := by
    rw [WsClient.resetMessageState_held]
    exact ClientBuf.empty_holds
  idle _ := ⟨rfl, rfl⟩
  within := not_tooLong_zero e
  negotiated flag := nomatch flag

/-- What a step leaves: a state between two frames of the same connection, and no message
above the limit handed over. -/
structure StepKept (e : WsEnv σ) (cli : WsClient) (r : Processed σ) : Prop where
  kept : ∃ body, Kept e r.cli body
  agreed : r.cli.perMessageDeflate = cli.perMessageDeflate
  within : ∀ content ∈ r.delivered, ¬ TooLong e content.length

theorem finishMessage_kept (hs : σ) (fragmentedText compressed : Bool) {opCode : UInt8}
    (payload : Bytes) (first : cli.firstop = 0) (known : opCode ≠ 0) :
    StepKept e cli (finishMessage e cli hs true fragmentedText compressed opCode payload) := by
  have cases := finishMessage_cases (e := e) hs fragmentedText compressed payload first known
  generalize finishMessage e cli hs true fragmentedText compressed opCode payload = r at cases
  have reset := resetMessageState_kept e cli
  cases cases with
  | tooLarge | corrupt | badText => exact ⟨⟨_, reset⟩, rfl, nofun⟩
  | delivered content inflated within =>
    refine ⟨⟨_, reset⟩, rfl, fun other found => ?_⟩
    rw [← Option.some.inj found]
    exact within

theorem addFragment_kept {fin fragmentedText : Bool} {payload : Bytes} (begun : Begun cli fin cli')
    (kept : Kept e cli body) :
    StepKept e cli (addFragment e cli' hs fin fragmentedText payload) := by
  obtain ⟨holds, kind, agreed, negotiated⟩ : cli'.held.Holds body ∧
      (cli'.firstop = MessageText ∨ cli'.firstop = MessageBinary) ∧
      cli'.perMessageDeflate = cli.perMessageDeflate ∧
      (cli'.fragmentCompressed = true → cli.perMessageDeflate = true) := by
    cases begun with
    | first opCode compressed idle kind open_ negotiated =>
      exact ⟨kept.holds, kind, rfl, negotiated⟩
    | next busy => exact ⟨kept.holds, kept.kind.resolve_left busy, rfl, kept.negotiated⟩
  have known : cli'.firstop ≠ 0 := by
    rcases kind with text | binary
    · rw [text]
      decide
    rw [binary]
    decide
  have cases := addFragment_cases (e := e) hs fin fragmentedText payload holds
  generalize addFragment e cli' hs fin fragmentedText payload = r at cases
  cases cases with
  | oversize after same | badText after same =>
    exact ⟨⟨_, resetMessageState_kept e after⟩, same.2.trans agreed, nofun⟩
  | more after same within open_ stored first compressed =>
    refine ⟨⟨_, ⟨.inr (first ▸ kind), stored, fun idle => ?_, within, fun flag => ?_⟩⟩,
      same.2.trans agreed, nofun⟩
    · exact absurd (first.symm.trans idle) known
    rw [same.2, agreed]
    exact negotiated (compressed ▸ flag)
  | last after same within ends first =>
    obtain ⟨done, same', small⟩ := finishMessage_kept (e := e) hs fragmentedText
      cli'.fragmentCompressed (body ++ payload) first known
    exact ⟨done, same'.trans (same.2.trans agreed), small⟩

theorem processFrame_kept (hs : σ) (kept : Kept e cli body) (inp : Bytes) :
    StepKept e cli (processFrame e cli hs inp) := by
  have cases := processFrame_cases (e := e) cli hs inp
  generalize processFrame e cli hs inp = r at cases
  cases cases with
  | refused | closing | ping | pong => exact ⟨⟨_, kept⟩, rfl, nofun⟩
  | fragment cli' fin fragmentedText payload begun => exact addFragment_kept begun kept
  | single fragmentedText compressed payload idle kind =>
    refine finishMessage_kept hs fragmentedText compressed payload idle ?_
    rcases kind with text | binary
    · rw [text]
      decide
    rw [binary]
    decide

theorem processFrames_kept (hs : σ) (kept : Kept e cli body) (frames : List Bytes) :
    (∃ body, Kept e (processFrames e cli hs frames).cli body) ∧
      (processFrames e cli hs frames).cli.perMessageDeflate = cli.perMessageDeflate ∧
      ∀ content ∈ (processFrames e cli hs frames).delivered, ¬ TooLong e content.length := by
  induction frames generalizing cli hs body with
  | nil => exact ⟨⟨body, kept⟩, rfl, nofun⟩
  | cons inp frames ih =>
    have one := processFrame_kept hs kept inp
    unfold processFrames
    dsimp only
    split
    · exact ⟨one.kept, one.agreed, fun content member => one.within content (by simpa using member)⟩
    obtain ⟨body', kept'⟩ := one.kept
    obtain ⟨held, agreed, within⟩ := ih (processFrame e cli hs inp).hs kept'
    refine ⟨held, agreed.trans one.agreed, List.forall_mem_append.mpr ⟨?_, within⟩⟩
    exact fun content member => one.within content (by simpa using member)

/-- A client that has just been upgraded. -/
def WsClient.fresh (cid : UInt64) (perMessageDeflate : Bool) : WsClient :=
  ⟨cid, 0, perMessageDeflate, false, none, 0⟩

theorem fresh_kept (e : WsEnv σ) (cid : UInt64) (perMessageDeflate : Bool) :
    Kept e (WsClient.fresh cid perMessageDeflate) [] where
  kind := Or.inl rfl
  holds := ClientBuf.empty_holds
  idle _ := ⟨rfl, rfl⟩
  within := not_tooLong_zero e
  negotiated flag := nomatch flag

/-- Whatever is sent, the state of a client between two frames is a proper one. -/
theorem client_invariant (e : WsEnv σ) (cid : UInt64) (perMessageDeflate : Bool) (hs : σ)
    (frames : List Bytes) :
    let s := processFrames e (WsClient.fresh cid perMessageDeflate) hs frames
    (s.cli.firstop = 0 ∨ s.cli.firstop = MessageText ∨ s.cli.firstop = MessageBinary) ∧
      (s.cli.firstop = 0 → s.cli.fragmentCompressed = false ∧ s.cli.held.bytes = [] ∧
        s.cli.held.writeOffset = 0 ∧ s.cli.held.checkOffset = 0) ∧
      s.cli.held.checkOffset ≤ s.cli.held.writeOffset ∧
      s.cli.held.writeOffset ≤ s.cli.held.buf.length ∧
      (e.WSMaxMessageBytes > 0 → (s.cli.held.writeOffset : Int) ≤ e.WSMaxMessageBytes ∧
        ∀ content ∈ s.delivered, (content.length : Int) ≤ e.WSMaxMessageBytes) ∧
      (s.cli.fragmentCompressed = true → perMessageDeflate = true) := by
  intro s
  obtain ⟨⟨body, kept⟩, agreed, small⟩ :=
    processFrames_kept hs (fresh_kept e cid perMessageDeflate) frames
  have size := kept.holds.size
  refine ⟨kept.kind, fun idle => ?_, ?_, ?_, fun limited => ⟨?_, fun content member => ?_⟩,
    fun flag => ?_⟩
  · obtain ⟨plain, empty⟩ := kept.idle idle
    have bound := kept.holds.bound
    rw [empty] at size bound
    exact ⟨plain, kept.holds.bytes_eq.trans empty, size, Nat.le_zero.mp bound⟩
  · exact size ▸ kept.holds.bound
  · exact size ▸ kept.holds.length_le
  · exact size ▸ Int.not_lt.mp fun long => kept.within ⟨limited, long⟩
  · exact Int.not_lt.mp fun long => small content member ⟨limited, long⟩
  · exact agreed.symm.trans (kept.negotiated flag)

end Connaxis.WebSocket
