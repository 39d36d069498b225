import Connaxis.WebSocket.ClientState
import Connaxis.WebSocket.FrameCodec

namespace Connaxis.WebSocket

open List Utf8

/-- At each of the four places in the key the words start where it starts again. -/
theorem remain_aligned : ∀ mpos : Fin 4, (mpos.val + remain[mpos]) % 4 = 0 := by decide

theorem maskByte_congr (mask : FixedBytes 4) {i j : Nat} (same : i % 4 = j % 4) :
    maskByte mask i = maskByte mask j := by
  simp only [maskByte, same]

/-- Masking works byte by byte, whatever the size of the words it is done in. -/
theorem cipher_eq (payload : Bytes) (mask : FixedBytes 4) (offset : Nat) :
    cipher payload mask offset = payload.mapIdx fun i b => b ^^^ maskByte mask (offset + i) := by
  unfold cipher
  dsimp only
  split
  · rfl
  have inside : offset % 4 < 4 := Nat.mod_lt _ (by decide)
  have aligned := remain_aligned ⟨offset % 4, inside⟩
  change (offset % 4 + remain[offset % 4]) % 4 = 0 at aligned
  generalize remain[offset % 4] = ln at aligned ⊢
  congr 1
  funext i b
  split
  · rw [maskByte_congr mask (show (offset % 4 + i) % 4 = (offset + i) % 4 by omega)]
  · rw [maskByte_congr mask (show (i - ln) % 8 % 4 = (offset + i) % 4 by omega)]

/-- Masking twice with one key gives the bytes back. -/
theorem cipher_cipher (payload : Bytes) (mask : FixedBytes 4) (offset : Nat) :
    cipher (cipher payload mask offset) mask offset = payload := by
  rw [cipher_eq, cipher_eq]
  apply ext_getElem
  · rw [length_mapIdx, length_mapIdx]
  intro i _ _
  rw [getElem_mapIdx, getElem_mapIdx, UInt8.xor_assoc, UInt8.xor_self, UInt8.xor_zero]

theorem cipher_length (payload : Bytes) (mask : FixedBytes 4) (offset : Nat) :
    (cipher payload mask offset).length = payload.length := by
  rw [cipher_eq, length_mapIdx]

variable {σ : Type} {e : WsEnv σ} {cli : WsClient} {hs : σ} {opCode : UInt8}
  {payload : Bytes} {fin rsv1 : Bool} {key : Option (FixedBytes 4)}

/-- The header of a frame that a client sends, masked if there is a key. -/
def clientHeader (fin rsv1 : Bool) (opCode : UInt8) (key : Option (FixedBytes 4))
    (payload : Bytes) : Header :=
  ⟨fin, if rsv1 then 4 else 0, opCode, key.isSome, key.getD noMask, payload.length⟩

def clientFrame (fin rsv1 : Bool) (opCode : UInt8) (key : Option (FixedBytes 4))
    (payload : Bytes) : Bytes :=
  buildFrame (clientHeader fin rsv1 opCode key payload)
    (if key.isSome then cipher payload (key.getD noMask) 0 else payload)

/-- The first byte of such a frame, bit by bit. -/
theorem clientFrame_bits (fin rsv1 : Bool) (op : Fin 16) :
    let b0 := firstByte ⟨fin, if rsv1 then 4 else 0, UInt8.ofNat op, false, noMask, 0⟩
    decide (b0 &&& 0x80 ≠ 0) = fin ∧ decide (b0 &&& 0x40 ≠ 0) = rsv1 ∧ b0 &&& 0x30 = 0 ∧
      b0 &&& 0x0f = UInt8.ofNat op := by
  revert fin rsv1 op
  decide +kernel

/-- The payload of an encoded frame, as its receiver unmasks it. -/
theorem clearPayload_headerBytes (h : Header) (pl : Bytes) :
    clearPayload (headerBytes h ++ pl) = if h.masked then cipher pl h.mask 0 else pl := by
  have second : (headerBytes h ++ pl).getD 1 0 = secondByte h := rfl
  unfold clearPayload
  dsimp only
  rw [second, calcHeaderSize_secondByte, drop_left]
  simp only [secondByte_masked]
  cases masked : h.masked with
  | false => simp only [Bool.false_eq_true, false_and, if_false]
  | true =>
    have layout : headerBytes h ++ pl =
        (firstByte h :: secondByte h :: extendedLength h.length.toNat) ++
          (h.mask.toList ++ pl) := by
      rw [headerBytes, masked, if_pos rfl]
      simp only [cons_append, append_assoc]
    have size : (headerBytes h).length =
        (firstByte h :: secondByte h :: extendedLength h.length.toNat).length + 4 := by
      rw [headerBytes_length, masked, if_pos rfl, length_cons, length_cons]
      omega
    rw [layout, maskKey_append _ _ _ _ size]
    simp only [true_and, if_true]
    split
    · rfl
    rename_i void
    rw [eq_nil_of_length_eq_zero (Nat.eq_zero_of_not_pos void)]
    rfl

/-- The receiver of such a frame finds its fields, and its payload in the clear. -/
theorem processFrame_client (cli : WsClient) (hs : σ) (fin rsv1 : Bool) (known : opCode < 16)
    (fits : payload.length + 14 < 2 ^ 63)
    (masked : e.WSRequireClientMask = true → key.isSome = true) :
    processFrame e cli hs (clientFrame fin rsv1 opCode key payload) =
      if opCode ≥ 3 then processControl cli hs fin rsv1 opCode payload
      else processData e cli hs fin rsv1 opCode payload := by
  have small := headerBytes_length_le (clientHeader fin rsv1 opCode key payload)
  have length : (if key.isSome then cipher payload (key.getD noMask) 0
      else payload).length = payload.length := by
    split
    · exact cipher_length _ _ _
    · rfl
  have clear : clearPayload (headerBytes (clientHeader fin rsv1 opCode key payload) ++
      if key.isSome then cipher payload (key.getD noMask) 0 else payload) = payload := by
    rw [clearPayload_headerBytes]
    cases key with
    | none => rfl
    | some key => exact cipher_cipher payload key 0
  have bits := clientFrame_bits fin rsv1 ⟨opCode.toNat, UInt8.lt_iff_toNat_lt.mp known⟩
  simp only [UInt8.ofNat_toNat] at bits
  obtain ⟨final, reserved, others, code⟩ := bits
  have first (pl : Bytes) :
      (headerBytes (clientHeader fin rsv1 opCode key payload) ++ pl).getD 0 0 =
      firstByte ⟨fin, if rsv1 then 4 else 0, opCode, false, noMask, 0⟩ := rfl
  have second (pl : Bytes) :
      (headerBytes (clientHeader fin rsv1 opCode key payload) ++ pl).getD 1 0 =
      secondByte (clientHeader fin rsv1 opCode key payload) := rfl
  have marked := secondByte_masked (clientHeader fin rsv1 opCode key payload)
  have sized : (clientHeader fin rsv1 opCode key payload).length =
      (if key.isSome then cipher payload (key.getD noMask) 0 else payload).length := by
    rw [length]
    rfl
  rw [clientFrame, buildFrame_eq sized (by omega)]
  unfold processFrame
  rw [clear, first, second, if_neg fun both => marked.mpr (masked both.1) both.2]
  unfold processPayload
  dsimp only
  rw [final, reserved, code, if_neg (not_not.mpr others)]

theorem data_known (kind : opCode = MessageText ∨ opCode = MessageBinary) : opCode ≠ 0 := by
  rcases kind with rfl | rfl <;> decide

theorem data_allowed (kind : opCode = MessageText ∨ opCode = MessageBinary)
    (negotiated : rsv1 = true → cli.perMessageDeflate = true) :
    ¬ (opCode ≠ 0 ∧ rsv1 = true ∧ ((!cli.perMessageDeflate) = true ∨
      (opCode ≠ MessageText ∧ opCode ≠ MessageBinary))) := by
  rintro ⟨_, flag, refused | other⟩
  · rw [negotiated flag] at refused
    cases refused
  · exact kind.elim other.1 other.2

/-- A new message, of one frame or of more. -/
theorem processData_new (hs : σ) (fin rsv1 : Bool) (payload : Bytes) (idle : cli.firstop = 0)
    (kind : opCode = MessageText ∨ opCode = MessageBinary)
    (negotiated : rsv1 = true → cli.perMessageDeflate = true) :
    processData e cli hs fin rsv1 opCode payload =
      bif fin then finishMessage e cli hs true false rsv1 opCode payload
      else addFragment e { cli with firstop := opCode, fragmentCompressed := rsv1 } hs false false
        payload := by
  have known := data_known kind
  unfold processData
  dsimp only
  rw [if_neg fun both => known both.1, if_neg (data_allowed kind negotiated),
    if_neg (not_not.mpr (.inl ⟨idle, known⟩)), if_neg known]
  cases fin with
  | true =>
    rw [if_neg (show ¬ (opCode ≠ 0 ∧ (!true) = true) from fun both => nomatch both.2),
      if_neg (not_not.mpr idle), idle]
    rfl
  | false =>
    rw [if_pos (show opCode ≠ 0 ∧ (!false) = true from ⟨known, rfl⟩), if_pos (by exact known), idle]
    rfl

/-- A message goes on. -/
theorem processData_next (hs : σ) (fin : Bool) (payload : Bytes) (busy : cli.firstop ≠ 0) :
    processData e cli hs fin false 0 payload =
      addFragment e cli hs fin (decide (cli.firstop = MessageText) && !cli.fragmentCompressed)
        payload := by
  simp [processData, busy]

variable {cli' : WsClient} {hs' : σ}

variable {xs ys : List Bytes}

/-- Two stretches of frames, of which the first leaves the connection open. -/
theorem processFrames_append {outs delivered : List Bytes}
    (first : processFrames e cli hs xs = ⟨cli', hs', outs, delivered, false⟩) :
    processFrames e cli hs (xs ++ ys) =
      { processFrames e cli' hs' ys with
        outs := outs ++ (processFrames e cli' hs' ys).outs
        delivered := delivered ++ (processFrames e cli' hs' ys).delivered } := by
  induction xs generalizing cli hs outs delivered with
  | nil =>
    cases first
    rfl
  | cons inp xs ih =>
    simp only [cons_append, processFrames] at first ⊢
    split at first
    · cases first
    rename_i goesOn
    rw [if_neg goesOn]
    cases later : processFrames e (processFrame e cli hs inp).cli
      (processFrame e cli hs inp).hs xs
      with
    | mk cli₁ hs₁ outs₁ delivered₁ closed₁ =>
      rw [later] at first
      cases first
      rw [ih later]
      simp only [cons_append, append_assoc]

/-- Nothing is read after the frame that closes the connection. -/
theorem processFrames_closed (closed : (processFrames e cli hs xs).closed = true) :
    processFrames e cli hs (xs ++ ys) = processFrames e cli hs xs := by
  induction xs generalizing cli hs with
  | nil => cases closed
  | cons inp xs ih =>
    simp only [cons_append, processFrames] at closed ⊢
    split
    · rfl
    rename_i goesOn
    rw [if_neg goesOn] at closed
    rw [ih closed]

variable {out : Bytes} {delivered : Option Bytes} {close : Bool}

theorem processFrames_one {inp : Bytes}
    (done : processFrame e cli hs inp = ⟨cli', hs', out, close, delivered⟩) :
    processFrames e cli hs [inp] = ⟨cli', hs', [out], delivered.toList, close⟩ := by
  unfold processFrames
  rw [done]
  cases close with
  | true => rfl
  | false => simp only [processFrames, Bool.false_eq_true, if_false, append_nil]

/-- A ping or a pong. -/
structure Control where
  ping : Bool
  key : Option (FixedBytes 4)
  payload : Bytes
  small : payload.length ≤ 125

namespace Control

def frame (c : Control) : Bytes :=
  clientFrame true false (if c.ping then 0x9 else 0xa) c.key c.payload

/-- A ping is answered with a pong of its payload. -/
def answer (c : Control) : Bytes := if c.ping then buildPong c.payload else []

def Masked (e : WsEnv σ) (c : Control) : Prop :=
  e.WSRequireClientMask = true → c.key.isSome = true

/-- Whatever the state, a control frame leaves it alone. -/
theorem processFrame_frame (cli : WsClient) (hs : σ) (c : Control) (masked : c.Masked e) :
    processFrame e cli hs c.frame = ⟨cli, hs, c.answer, false, none⟩ := by
  have small := c.small
  unfold frame answer
  cases c.ping with
  | true | false =>
    rw [processFrame_client _ _ _ _ (by decide) (by omega) masked, if_pos (by decide)]
    simp [processControl, Nat.not_lt.mpr small]

theorem processFrames_controls (cs : List Control) (masked : ∀ c ∈ cs, c.Masked e) :
    processFrames e cli hs (cs.map frame) = ⟨cli, hs, cs.map answer, [], false⟩ := by
  induction cs with
  | nil => rfl
  | cons c cs ih =>
    have one := processFrames_one (processFrame_frame cli hs c (masked c mem_cons_self))
    have later := ih fun other member => masked other (mem_cons_of_mem _ member)
    rw [map_cons, ← singleton_append, processFrames_append one, later]
    rfl

end Control

/-- A piece of a message, with the control frames that come before it. -/
structure Fragment where
  controls : List Control
  key : Option (FixedBytes 4)
  data : Bytes

namespace Fragment

def frames (fin rsv1 : Bool) (opCode : UInt8) (f : Fragment) : List Bytes :=
  f.controls.map Control.frame ++ [clientFrame fin rsv1 opCode f.key f.data]

/-- What goes out for the frames of a fragment, the last of which is answered by `out`. -/
def outs (out : Bytes) (f : Fragment) : List Bytes := f.controls.map Control.answer ++ [out]

/-- The frames are masked if they have to be, and the length is an `int`. -/
structure Sendable (e : WsEnv σ) (f : Fragment) : Prop where
  controls : ∀ c ∈ f.controls, c.Masked e
  masked : e.WSRequireClientMask = true → f.key.isSome = true
  fits : f.data.length + 14 < 2 ^ 63

theorem Sendable.processFrames_frames {f : Fragment} (sendable : f.Sendable e) (low : opCode < 3)
    (done : processData e cli hs fin rsv1 opCode f.data = ⟨cli', hs', out, close, delivered⟩) :
    processFrames e cli hs (f.frames fin rsv1 opCode) =
      ⟨cli', hs', f.outs out, delivered.toList, close⟩ := by
  have known : opCode < 16 := UInt8.lt_trans low (by decide)
  have frame := processFrame_client (e := e) cli hs fin rsv1 known sendable.fits sendable.masked
  rw [if_neg (UInt8.not_le.mpr low), done] at frame
  rw [frames, processFrames_append (Control.processFrames_controls f.controls sendable.controls),
    processFrames_one frame]
  rfl

end Fragment

/-- The frames after the first one of a message. -/
def continued : List Fragment → List Bytes
  | [] => []
  | f :: rest => f.frames rest.isEmpty false 0 ++ continued rest

/-- What goes out for the frames of a message, the last of which is answered by `reply`. -/
def outsOf (reply : Bytes) : List Fragment → List Bytes
  | [] => []
  | f :: rest => f.outs (if rest.isEmpty then reply else []) ++ outsOf reply rest

def joined (fragments : List Fragment) : Bytes := (fragments.map Fragment.data).flatten

theorem TooLong.mono {small large : Nat} (le : small ≤ large) (long : TooLong e small) :
    TooLong e large :=
  ⟨long.1, Int.lt_of_lt_of_le long.2 (Int.ofNat_le.mpr le)⟩

/-- A message, cut into one fragment or more. -/
structure Message where
  text : Bool
  compressed : Bool
  first : Fragment
  rest : List Fragment

namespace Message

def op (m : Message) : UInt8 := if m.text then MessageText else MessageBinary

def frames (m : Message) : List Bytes :=
  m.first.frames m.rest.isEmpty m.compressed m.op ++ continued m.rest

def body (m : Message) : Bytes := m.first.data ++ joined m.rest

def content (e : WsEnv σ) (m : Message) : Bytes :=
  if m.compressed then (e.flate (m.body ++ extPMDDecodeTail)).1.flatten else m.body

def outs (reply : Bytes) (m : Message) : List Bytes := outsOf reply (m.first :: m.rest)

/-- A message that a connection may send: of a size within the limit and the largest
buffer of the pool, compressed only if that was agreed upon, and with valid text. -/
structure Proper (e : WsEnv σ) (perMessageDeflate : Bool) (m : Message) : Prop where
  fragments : ∀ f ∈ m.first :: m.rest, f.Sendable e
  negotiated : m.compressed = true → perMessageDeflate = true
  inflates : m.compressed = true → (e.flate (m.body ++ extPMDDecodeTail)).2 = true
  valid : m.text = true → valid (m.content e) = true
  within : ¬ TooLong e m.body.length ∧ ¬ TooLong e (m.content e).length
  stored : ∀ n size, size ≤ m.body.length → (e.alloc.get n size).isSome = true

variable {m : Message} {perMessageDeflate : Bool}

theorem op_kind (m : Message) : m.op = MessageText ∨ m.op = MessageBinary := by
  unfold op
  split
  · exact .inl rfl
  · exact .inr rfl

theorem op_low (m : Message) : m.op < 3 := by
  rcases m.op_kind with text | binary
  · rw [text]
    decide
  rw [binary]
  decide

theorem op_text (text : m.op = MessageText) : m.text = true := by
  unfold op at text
  split at text
  · assumption
  · cases text

theorem inflateLoop_ok (chunks : List Bytes) (out : Bytes)
    (within : ¬ TooLong e (out ++ chunks.flatten).length) :
    inflateLoop e.WSMaxMessageBytes true chunks out = .ok (out ++ chunks.flatten) := by
  induction chunks generalizing out with
  | nil => simp only [inflateLoop, if_true, flatten_nil, append_nil]
  | cons chunk rest ih =>
    rw [flatten_cons, ← append_assoc] at within ⊢
    unfold inflateLoop
    have le : (out ++ chunk).length ≤ (out ++ chunk ++ rest.flatten).length :=
      (sublist_append_left _ _).length_le
    rw [if_neg fun long => within (TooLong.mono le long.2), ih _ within]

theorem Proper.expand_eq (proper : m.Proper e perMessageDeflate) :
    expand e m.compressed m.body = .ok (m.content e) := by
  have within := proper.within.2
  unfold expand
  unfold content at within ⊢
  split
  · rename_i compressed
    rw [if_pos compressed] at within
    unfold inflatePermessageDeflate
    dsimp only
    rw [proper.inflates compressed]
    exact inflateLoop_ok _ [] within
  · rfl

theorem Proper.roomy (proper : m.Proper e perMessageDeflate) {part : Bytes}
    (le : part.length ≤ m.body.length) : ¬ Oversize e part.length := by
  rintro (long | ⟨n, void⟩)
  · exact proper.within.1 (TooLong.mono le long)
  have filled := proper.stored n _ le
  rw [void] at filled
  cases filled

end Message

/-- The state between two messages. -/
structure WsClient.Idle (cli : WsClient) : Prop where
  first : cli.firstop = 0
  written : cli.held.writeOffset = 0
  checked : cli.held.checkOffset = 0

theorem WsClient.Idle.holds (idle : cli.Idle) : cli.held.Holds [] :=
  ⟨idle.written, rfl, Nat.le_of_eq idle.checked, by rw [take_nil]; rfl⟩

theorem WsClient.resetMessageState_idle (cli : WsClient) : cli.resetMessageState.Idle :=
  ⟨rfl, by rw [resetMessageState_held]; rfl, by rw [resetMessageState_held]; rfl⟩

/-- The state between two fragments of a message of which `body` was received. -/
structure Receiving (cli : WsClient) (opCode : UInt8) (compressed : Bool)
    (body : Bytes) : Prop where
  first : cli.firstop = opCode
  kind : cli.fragmentCompressed = compressed
  holds : cli.held.Holds body

section Steps

variable {compressed fragmentedText : Bool} {body content : Bytes}

theorem finishMessage_delivers (hs : σ) (fragmentedText : Bool) (first : cli.firstop = 0)
    (known : opCode ≠ 0)
    (inflated : expand e compressed payload = .ok content) (within : ¬ TooLong e content.length)
    (valid : opCode = MessageText → fragmentedText = false → valid content = true) :
    finishMessage e cli hs true fragmentedText compressed opCode payload =
      ⟨cli.resetMessageState, (processUserdata e cli.cid hs content opCode).1,
        (processUserdata e cli.cid hs content opCode).2, false, some content⟩ := by
  have cases := finishMessage_cases (e := e) hs fragmentedText compressed payload first known
  generalize finishMessage e cli hs true fragmentedText compressed opCode payload = r at cases
  cases cases with
  | tooLarge why =>
    rw [inflated] at why
    obtain failed | ⟨other, same, long⟩ := why
    · cases failed
    cases same
    exact absurd long within
  | corrupt why =>
    rw [inflated] at why
    cases why
  | badText other same text unchecked invalid =>
    rw [inflated] at same
    cases same
    rw [valid text unchecked] at invalid
    cases invalid
  | delivered other same =>
    rw [inflated] at same
    cases same
    rfl

/-- A fragment that is not the last one is stored. -/
theorem addFragment_stores (hs : σ) (fragmentedText : Bool)
    (receiving : Receiving cli opCode compressed body)
    (room : ¬ Oversize e (body ++ payload).length)
    (alive : opCode = MessageText → compressed = false → Extendable (body ++ payload)) :
    ∃ cli', addFragment e cli hs false fragmentedText payload = ⟨cli', hs, [], false, none⟩ ∧
      Receiving cli' opCode compressed (body ++ payload) ∧ cli.SameConn cli' := by
  have cases := addFragment_cases (e := e) hs false fragmentedText payload receiving.holds
  generalize addFragment e cli hs false fragmentedText payload = r at cases
  cases cases with
  | oversize _ _ why => exact absurd why room
  | badText _ _ _ text plain bad =>
    exact absurd (alive (receiving.first ▸ text) (receiving.kind ▸ plain)) bad
  | more cli' same _ _ holds first kind =>
    exact ⟨cli', rfl, ⟨first.trans receiving.first, kind.trans receiving.kind, holds⟩, same⟩
  | last _ _ _ ends => cases ends

/-- The last fragment completes the message. -/
theorem addFragment_delivers (hs : σ) (fragmentedText : Bool)
    (receiving : Receiving cli opCode compressed body)
    (known : opCode ≠ 0) (room : ¬ Oversize e (body ++ payload).length)
    (inflated : expand e compressed (body ++ payload) = .ok content)
    (within : ¬ TooLong e content.length)
    (valid : opCode = MessageText → valid content = true) :
    ∃ cli', addFragment e cli hs true fragmentedText payload =
        ⟨cli', (processUserdata e cli.cid hs content opCode).1,
          (processUserdata e cli.cid hs content opCode).2, false, some content⟩ ∧
      cli'.Idle ∧ cli.SameConn cli' := by
  have cases := addFragment_cases (e := e) hs true fragmentedText payload receiving.holds
  generalize addFragment e cli hs true fragmentedText payload = r at cases
  cases cases with
  | oversize _ _ why => exact absurd why room
  | badText _ _ _ text plain bad =>
    have plain : compressed = false := receiving.kind ▸ plain
    rw [plain] at inflated
    cases inflated
    exact absurd (valid (receiving.first ▸ text)) bad
  | more _ _ _ open_ => cases open_
  | last cli' same _ _ first _ =>
    rw [receiving.first, receiving.kind,
      finishMessage_delivers hs fragmentedText first known inflated within fun text _ =>
        valid text, same.1]
    exact ⟨_, rfl, cli'.resetMessageState_idle, same⟩

end Steps

/-- The rest of a message whose first fragments have been stored. -/
theorem continued_delivers (hs : σ) {m : Message} {perMessageDeflate : Bool}
    (proper : m.Proper e perMessageDeflate) (rest : List Fragment) (filled : rest ≠ [])
    (sendable : ∀ f ∈ rest, f.Sendable e) {body : Bytes}
    (receiving : Receiving cli m.op m.compressed body) (whole : m.body = body ++ joined rest) :
    ∃ cli', processFrames e cli hs (continued rest) =
        ⟨cli', (processUserdata e cli.cid hs (m.content e) m.op).1,
          outsOf (processUserdata e cli.cid hs (m.content e) m.op).2 rest,
          [m.content e], false⟩ ∧
      cli'.Idle ∧ cli.SameConn cli' := by
  induction rest generalizing cli body with
  | nil => exact absurd rfl filled
  | cons f rest ih =>
    have known := data_known m.op_kind
    have step (fin : Bool) := processData_next (e := e) hs fin f.data (receiving.first.symm ▸ known)
    have split : m.body = body ++ f.data ++ joined rest := by
      rw [whole, append_assoc]
      rfl
    have room : ¬ Oversize e (body ++ f.data).length := by
      refine proper.roomy ?_
      rw [split]
      exact (sublist_append_left _ _).length_le
    have sent := sendable f mem_cons_self
    cases rest with
    | nil =>
      have all : m.body = body ++ f.data := split.trans (append_nil _)
      obtain ⟨cli', done, idle, same⟩ := addFragment_delivers hs _ receiving known room
        (all ▸ proper.expand_eq) proper.within.2
        (fun text => proper.valid (Message.op_text text))
      refine ⟨cli', ?_, idle, same⟩
      rw [continued, isEmpty_nil,
        processFrames_append (sent.processFrames_frames (by decide) ((step true).trans done))]
      simp only [continued, processFrames, outsOf, isEmpty_nil, if_true, append_nil, Option.toList]
    | cons g rest =>
      have alive : m.op = MessageText → m.compressed = false →
          Extendable (body ++ f.data) := by
        intro text plain
        have valid := proper.valid (Message.op_text text)
        rw [Message.content, if_neg (by rw [plain]; nofun), split] at valid
        exact ⟨_, valid⟩
      obtain ⟨cli', done, receiving', same⟩ :=
        addFragment_stores hs _ receiving room alive
      obtain ⟨last, later, idle, same'⟩ := ih nofun
        (fun other member => sendable other (mem_cons_of_mem _ member)) receiving' split
      refine ⟨last, ?_, idle, same'.1.trans same.1, same'.2.trans same.2⟩
      rw [same.1] at later
      rw [continued, isEmpty_cons,
        processFrames_append (sent.processFrames_frames (by decide) ((step false).trans done)),
        later]
      rfl

theorem Message.processFrames_frames (hs : σ) {m : Message} (idle : cli.Idle)
    (proper : m.Proper e cli.perMessageDeflate) :
    ∃ cli', processFrames e cli hs m.frames =
        ⟨cli', (processUserdata e cli.cid hs (m.content e) m.op).1,
          m.outs (processUserdata e cli.cid hs (m.content e) m.op).2, [m.content e], false⟩ ∧
      cli'.Idle ∧ cli.SameConn cli' := by
  have known := data_known m.op_kind
  have sent := proper.fragments m.first mem_cons_self
  cases rest : m.rest with
  | nil =>
    have all : m.body = m.first.data := by
      rw [body, rest]
      exact append_nil _
    have done := (processData_new (e := e) hs true m.compressed m.first.data idle.first m.op_kind
      proper.negotiated).trans (finishMessage_delivers hs false idle.first known
        (all ▸ proper.expand_eq) proper.within.2
        fun text _ => proper.valid (op_text text))
    refine ⟨cli.resetMessageState, ?_, cli.resetMessageState_idle, rfl, rfl⟩
    rw [frames, outs, rest, isEmpty_nil,
      processFrames_append (sent.processFrames_frames m.op_low done)]
    simp only [continued, processFrames, outsOf, isEmpty_nil, if_true, append_nil, Option.toList]
  | cons g more =>
    have split : m.body = m.first.data ++ joined (g :: more) := by rw [body, rest]
    have alive : m.op = MessageText → m.compressed = false →
        Extendable ([] ++ m.first.data) := by
      intro text plain
      have valid := proper.valid (op_text text)
      rw [content, if_neg (by rw [plain]; nofun), split] at valid
      exact ⟨_, valid⟩
    have room : ¬ Oversize e ([] ++ m.first.data).length := by
      refine proper.roomy ?_
      exact (sublist_append_left _ _).length_le
    obtain ⟨cli', done, receiving, same⟩ := addFragment_stores (e := e) hs false
      (show Receiving { cli with firstop := m.op, fragmentCompressed := m.compressed } m.op
        m.compressed [] from ⟨rfl, rfl, idle.holds⟩) room alive
    obtain ⟨last, later, idle', same'⟩ := continued_delivers hs proper (g :: more) nofun
      (fun f member => proper.fragments f (mem_cons_of_mem _ (rest ▸ member)))
      receiving split
    refine ⟨last, ?_, idle', same'.1.trans same.1, same'.2.trans same.2⟩
    have first := (processData_new (e := e) hs false m.compressed m.first.data idle.first m.op_kind
      proper.negotiated).trans done
    rw [same.1] at later
    rw [frames, outs, rest, isEmpty_cons,
      processFrames_append (sent.processFrames_frames m.op_low first), later]
    rfl

/-- The handler's state and the frames sent once it has been given the messages in order. -/
def serve (e : WsEnv σ) (cid : UInt64) : σ → List Message → σ × List Bytes
  | hs, [] => (hs, [])
  | hs, m :: rest =>
    let (hs, reply) := processUserdata e cid hs (m.content e) m.op
    let (hs, outs) := serve e cid hs rest
    (hs, m.outs reply ++ outs)

/-- However messages are cut into fragments, masked and interleaved with pings and pongs,
each one is handed over once, whole and in order. -/
theorem messages_reassembled (e : WsEnv σ) (cli : WsClient) (hs : σ) (messages : List Message)
    (last : List Control) (idle : cli.Idle)
    (proper : ∀ m ∈ messages, m.Proper e cli.perMessageDeflate) (masked : ∀ c ∈ last, c.Masked e) :
    let s := processFrames e cli hs
      ((messages.map Message.frames).flatten ++ last.map Control.frame)
    s.delivered = messages.map (Message.content e) ∧
      s.outs = (serve e cli.cid hs messages).2 ++ last.map Control.answer ∧
      s.hs = (serve e cli.cid hs messages).1 ∧ s.closed = false ∧ s.cli.Idle := by
  induction messages generalizing cli hs with
  | nil =>
    rw [map_nil, flatten_nil, nil_append, Control.processFrames_controls last masked]
    exact ⟨rfl, rfl, rfl, rfl, idle⟩
  | cons m rest ih =>
    obtain ⟨cli', first, idle', same⟩ := Message.processFrames_frames hs idle
      (proper m mem_cons_self)
    obtain ⟨delivered, outs, state, goesOn, ends⟩ := ih cli'
      (processUserdata e cli.cid hs (m.content e) m.op).1 idle'
      fun other member => same.2 ▸ proper other (mem_cons_of_mem _ member)
    simp only [map_cons, flatten_cons, append_assoc, processFrames_append first]
    rw [same.1] at outs state
    refine ⟨?_, ?_, state, goesOn, ends⟩
    · rw [delivered]
      rfl
    rw [outs]
    simp only [serve, append_assoc]

/-- A server that answers every message, with an unlimited pool. -/
def greeter : WsEnv Unit where
  WSMaxFramePayloadBytes := 0
  WSMaxMessageBytes := 8
  WSRequireClientMask := true
  alloc := exactly
  flate _ := ([[104], [105]], true)
  handler := ⟨fun s _ _ => (s, some [111, 107]), by
    intro s cid data out replied
    cases replied
    decide⟩

/-- Text in three fragments that split a character, with a ping before the second, then a
compressed message. -/
theorem messages_reassembled_two :
    let key : Option (FixedBytes 4) := some #v[1, 2, 3, 4]
    let ping : Control := ⟨true, key, [7], by decide⟩
    let text : Message := ⟨true, false, ⟨[], key, [104, 0xc3]⟩,
      [⟨[ping], key, [0xa9]⟩, ⟨[], key, []⟩]⟩
    let packed : Message := ⟨true, true, ⟨[], key, [1]⟩, []⟩
    let s := processFrames greeter (.fresh 5 true) ()
      (([text, packed].map Message.frames).flatten ++ [ping].map Control.frame)
    s.delivered = [[104, 0xc3, 0xa9], [104, 105]] ∧
      s.outs = [[], [0x8a, 1, 7], [], [0x81, 2, 111, 107], [0x81, 2, 111, 107], [0x8a, 1, 7]] := by
  intro key ping text packed s
  have proper : ∀ m ∈ [text, packed], m.Proper greeter true := by
    intro m member
    have sendable : ∀ f ∈ m.first :: m.rest, f.Sendable greeter := by
      intro f fragment
      simp only [mem_cons, not_mem_nil, or_false] at member
      rcases member with rfl | rfl <;>
        simp only [text, packed, mem_cons, not_mem_nil, or_false] at fragment
      · rcases fragment with rfl | rfl | rfl <;>
          exact ⟨by intro c found; simp_all [ping, Control.Masked, key], fun _ => rfl, by decide⟩
      rw [fragment]
      exact ⟨nofun, fun _ => rfl, by decide⟩
    simp only [mem_cons, not_mem_nil, or_false] at member
    rcases member with rfl | rfl <;>
      exact ⟨sendable, fun _ => rfl, fun _ => rfl, fun _ => by decide, by decide, fun _ _ _ => rfl⟩
  obtain ⟨delivered, outs, _⟩ := messages_reassembled greeter (.fresh 5 true) () [text, packed]
    [ping] ⟨rfl, rfl, rfl⟩ proper (by intro c found _; simp_all [ping, key])
  exact ⟨delivered.trans (by decide), outs.trans (by decide)⟩

end Connaxis.WebSocket
