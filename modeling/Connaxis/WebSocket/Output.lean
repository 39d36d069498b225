import Connaxis.WebSocket.ClientState
import Connaxis.WebSocket.FrameCodec

namespace Connaxis.WebSocket

open BigEndian

variable {σ : Type} {e : WsEnv σ} {cli cli' : WsClient} {hs : σ} {inp body out payload : Bytes}
  {opCode : UInt8}

/-- The header of a frame from the server. -/
def serverHeader (opCode : UInt8) (payload : Bytes) : Header :=
  ⟨true, 0, opCode, false, noMask, payload.length⟩

/-- The output is exactly one frame: final, without reserved bits, unmasked. -/
structure OneFrame (out : Bytes) (opCode : UInt8) (payload : Bytes) : Prop where
  parsed : parseFrame 0 out = ((out.length : Int), (out.length : Int))
  header : readHeader out = serverHeader opCode payload
  payload : out.drop (calcHeaderSize (out.getD 1 0)) = payload

theorem buildFrame_oneFrame (known : opCode < 16)
    (fits : (headerBytes (serverHeader opCode payload)).length + payload.length < 2 ^ 63) :
    OneFrame (buildFrame (serverHeader opCode payload) payload) opCode payload := by
  have second : (headerBytes (serverHeader opCode payload) ++ payload).getD 1 0 =
      secondByte (serverHeader opCode payload) := rfl
  rw [buildFrame_eq rfl fits]
  refine ⟨?_, readHeader_headerBytes rfl fits (show (0 : UInt8) < 8 by decide) known payload, ?_⟩
  · have parsed := parseFrame_headerBytes rfl fits
      (show (0 : Int) > 0 → _ from fun limited => nomatch limited) [] rfl
    rw [List.append_nil] at parsed
    exact parsed
  · rw [second, calcHeaderSize_secondByte, List.drop_left]

/-- A frame too long for an `int` is not built. -/
theorem buildFrame_huge (sized : payload.length < 2 ^ 63)
    (huge : ¬ (headerBytes (serverHeader opCode payload)).length + payload.length < 2 ^ 63) :
    buildFrame (serverHeader opCode payload) payload = [] := by
  have small := headerBytes_length_le (serverHeader opCode payload)
  have header : (calcPktSize (serverHeader opCode payload)).2 = _ := calcPktSize_header rfl
  have wrapped : (calcPktSize (serverHeader opCode payload)).1 ≤ 0 := by
    change int64 ((calcPktSize (serverHeader opCode payload)).2 + (payload.length : Int)) ≤ 0
    rw [header, int64, Int.bmod_def]
    split <;> omega
  unfold buildFrame
  exact if_pos (.inl wrapped)

theorem headerBytes_server_short (opCode : UInt8) (payload : Bytes) (small : payload.length ≤ 125) :
    (headerBytes (serverHeader opCode payload)).length + payload.length < 2 ^ 63 := by
  have bound := headerBytes_length_le (serverHeader opCode payload)
  omega

/-- What a close frame may carry: nothing, or a status code and a reason. -/
def ClosePayload (payload : Bytes) : Prop :=
  payload = [] ∨ 2 ≤ payload.length ∧ isValidCloseCode (closeCode payload) = true ∧
    Utf8.valid (payload.drop 2) = true

theorem closeFrame (payload : Bytes) (small : payload.length ≤ 125) (fine : ClosePayload payload) :
    ∃ carried, OneFrame (buildFrame (serverHeader 0x8 payload) payload) 0x8 carried ∧
      carried.length ≤ 125 ∧ ClosePayload carried :=
  ⟨payload, buildFrame_oneFrame (by decide) (headerBytes_server_short _ _ small), small, fine⟩

/-- Whatever is to be echoed, the answer is a proper close frame. -/
theorem buildClose_oneFrame (inp : Bytes) (small : inp.length ≤ 125) :
    ∃ carried, OneFrame (buildClose inp) 0x8 carried ∧ carried.length ≤ 125 ∧
      ClosePayload carried := by
  have protocolError : closeRounds 1 (encode 2 1002) =
      buildFrame (serverHeader 0x8 (encode 2 1002)) (encode 2 1002) := by decide
  have standard : ClosePayload (encode 2 1002) := .inr (by decide)
  unfold buildClose closeRounds
  split
  · rw [protocolError]
    exact closeFrame _ (by decide) standard
  rename_i enough
  split
  · rw [protocolError]
    exact closeFrame _ (by decide) standard
  rename_i code
  dsimp only
  split
  · exact closeFrame [] (by decide) (.inl rfl)
  rename_i reason
  refine closeFrame inp small ?_
  by_cases void : inp = []
  · exact .inl void
  have positive : 0 < inp.length := List.length_pos_iff.mpr void
  refine .inr ⟨by omega, ?_, ?_⟩
  · by_contra bad
    exact code ⟨positive, by simpa using bad⟩
  by_cases long : inp.length > 2
  · by_contra bad
    exact reason ⟨long, by simpa using bad⟩
  rw [List.drop_eq_nil_of_le (by omega)]
  rfl

/-- One proper output: nothing, or one frame. The frame is a close frame exactly when the
connection is to be closed; a reply has the opcode of the message it answers. -/
inductive Output (answered : UInt8) (r : Processed σ) : Prop
  | silent (out : r.out = []) (stays : r.close = false) : Output answered r
  | closing (payload : Bytes) (frame : OneFrame r.out 0x8 payload) (small : payload.length ≤ 125)
      (fine : ClosePayload payload) (closes : r.close = true) : Output answered r
  | pong (payload : Bytes) (frame : OneFrame r.out 0xa payload) (small : payload.length ≤ 125)
      (stays : r.close = false) : Output answered r
  | reply (payload : Bytes) (frame : OneFrame r.out answered payload)
      (kind : answered = MessageText ∨ answered = MessageBinary) (stays : r.close = false) :
      Output answered r

theorem refuse_output (answered : UInt8) (cli : WsClient) (hs : σ) (code : Nat) :
    Output answered (refuse cli hs code) := by
  obtain ⟨payload, frame, small, fine⟩ := buildClose_oneFrame (encode 2 code)
    (by rw [encode_length]; decide)
  exact .closing payload frame small fine rfl

theorem finishMessage_output {fragmentedText compressed : Bool} (first : cli.firstop = 0)
    (kind : opCode = MessageText ∨ opCode = MessageBinary) :
    Output opCode (finishMessage e cli hs true fragmentedText compressed opCode payload) := by
  have known : opCode ≠ 0 ∧ opCode < 16 := by
    rcases kind with rfl | rfl <;> decide
  have cases := finishMessage_cases (e := e) hs fragmentedText compressed payload first known.1
  generalize finishMessage e cli hs true fragmentedText compressed opCode payload = r at cases
  cases cases with
  | tooLarge | corrupt | badText => exact refuse_output _ _ _ _
  | delivered content =>
    have sized := e.handler.sized hs cli.cid content
    unfold processUserdata
    rcases answer : e.handler.onUserData hs cli.cid content with ⟨hs', reply⟩
    rw [answer] at sized
    cases reply with
    | none => exact .silent rfl rfl
    | some reply =>
      dsimp only
      rw [if_neg fun both => kind.elim both.1 both.2]
      by_cases fits : (headerBytes (serverHeader opCode reply)).length +
        reply.length < 2 ^ 63
      · exact .reply reply (buildFrame_oneFrame known.2 fits) kind rfl
      · exact .silent (buildFrame_huge (sized reply rfl) fits) rfl

/-- The opcode of the message that a frame belongs to. -/
def messageOpcode (cli : WsClient) (inp : Bytes) : UInt8 :=
  if cli.firstop ≠ 0 then cli.firstop else inp.getD 0 0 &&& 0x0f

theorem processFrame_output (kept : Kept e cli body) (inp : Bytes) :
    Output (messageOpcode cli inp) (processFrame e cli hs inp) := by
  have cases := processFrame_cases (e := e) cli hs inp
  generalize processFrame e cli hs inp = r at cases
  cases cases with
  | refused => exact refuse_output _ _ _ _
  | closing payload small =>
    obtain ⟨carried, frame, short, fine⟩ := buildClose_oneFrame payload small
    exact .closing carried frame short fine rfl
  | ping payload small =>
    exact .pong payload
      (buildFrame_oneFrame (by decide) (headerBytes_server_short _ _ small)) small rfl
  | pong => exact .silent rfl rfl
  | single fragmentedText compressed payload idle kind =>
    rw [messageOpcode, if_neg (not_not.mpr idle)]
    exact finishMessage_output idle kind
  | fragment cli' fin fragmentedText payload begun =>
    have holds : cli'.held.Holds body := by
      cases begun with
      | first | next => exact kept.holds
    have cases := addFragment_cases (e := e) hs fin fragmentedText payload holds
    generalize addFragment e cli' hs fin fragmentedText payload = r at cases
    cases cases with
    | oversize | badText => exact refuse_output _ _ _ _
    | more => exact .silent rfl rfl
    | last after same within ends first =>
      cases begun with
      | first opCode compressed idle kind open_ => exact nomatch open_.symm.trans ends
      | next busy =>
        rw [messageOpcode, if_pos busy]
        exact finishMessage_output first (kept.kind.resolve_left busy)

/-- Everything that is sent to a client is one well-formed frame or nothing. -/
theorem output_wellFormed (e : WsEnv σ) (cid : UInt64) (perMessageDeflate : Bool) (hs : σ)
    (frames : List Bytes) (inp : Bytes) :
    let s := processFrames e (WsClient.fresh cid perMessageDeflate) hs frames
    Output (messageOpcode s.cli inp) (processFrame e s.cli s.hs inp) := by
  obtain ⟨⟨body, kept⟩, _⟩ :=
    processFrames_kept hs (fresh_kept e cid perMessageDeflate) frames
  exact processFrame_output kept inp

end Connaxis.WebSocket
