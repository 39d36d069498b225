import Connaxis.Ktls.RecordConn
import Connaxis.TlsStream

namespace Connaxis.Ktls

open KernelTls List

variable {π : Type}

/-- The fields of `tls.ConnectionState` that decide about kernel TLS. -/
structure ConnState where
  version : UInt16
  cipherSuite : UInt16
deriving DecidableEq, Repr

/-- What the set-up of kernel TLS finds around it. `recSeq` is `TLSConnRecSeq`, which looks
for the sequence numbers inside `tls.Conn` and need not find them. -/
structure KtlsEnv (π : Type) where
  lib : TlsLib π
  crypto : Crypto
  connectionState : π → ConnState
  recSeq : π → Option (FixedBytes 8 × FixedBytes 8)
  kernelSupportsKTLS13 : Bool
  enableRX : Bool
  disableSessionTickets : Bool
  clientSessionCache : Bool
  postHandshakeTimeout : Int
  postHandshakeReadMaxBytes : Int

/-- The loop of `drainBufferedTLSPlaintext`. A round that goes on has brought a byte. -/
def drainLoop (lib : TlsLib π) (maxBytes : Nat) :
    Nat → π → RecordConn → Bytes → π × RecordConn × Bytes
  | 0, tc, rc, out => (tc, rc, out)
  | rounds + 1, tc, rc, out =>
    if out.length < maxBytes then
      let len := min 4096 (maxBytes - out.length)
      let (rc, tc, bytes, _) := rc.serve (lib.read tc len)
      let bytes := bytes.take len
      if bytes.length > 0 then drainLoop lib maxBytes rounds tc rc (out ++ bytes)
      else (tc, rc, out)
    else (tc, rc, out)

def drainBufferedTLSPlaintext (lib : TlsLib π) (tc : π) (rc : RecordConn) (maxBytes : Int) :
    π × RecordConn × Bytes :=
  if maxBytes ≤ 0 then (tc, rc, [])
  else drainLoop lib maxBytes.toNat maxBytes.toNat tc rc []

namespace KtlsEnv

variable (K : KtlsEnv π)

def drainClientTickets (tc : π) (rc : RecordConn) : π × RecordConn × Bytes :=
  if K.postHandshakeTimeout ≤ 0 ∨ K.postHandshakeReadMaxBytes ≤ 0 then (tc, rc, [])
  else
    let len := K.postHandshakeReadMaxBytes.toNat
    let (rc, tc, bytes, _) := rc.serve (K.lib.read tc len)
    (tc, rc, bytes.take len)

/-- The TLS 1.2 keys, unless something of the handshake has not been captured. -/
def keys12 (rc : RecordConn) (klw : KeyLogWriter) (suite : UInt16) : Option TlsKeys :=
  if rc.clientRandom.length ≠ 32 ∨ rc.serverRandom.length ≠ 32 then none
  else match klw.secrets with
    | none => none
    | some (_, masterSecret) =>
      if masterSecret.length = 0 then none
      else
        (K.crypto.deriveTLS12Keys masterSecret rc.clientRandom rc.serverRandom suite).toOption

/-- The TLS 1.3 keys, unless the secrets have not been captured. -/
def keys13 (klw : KeyLogWriter) (suite : UInt16) : Option TlsKeys :=
  match klw.trafficSecrets with
  | none => none
  | some (clientSecret, serverSecret) =>
    (K.crypto.deriveTLS13Keys clientSecret serverSecret suite).toOption

end KtlsEnv

/-- A server connection that has finished its handshake, and its socket. -/
structure Pending (π : Type) where
  conn : ATLSConn π
  handshakeRC : Option RecordConn
  handshakeKLW : Option KeyLogWriter
  state : Option ConnState
  kernel : KernelTls

namespace Pending

variable (K : KtlsEnv π) (c : Pending π)

/-- The ending that leaves everything to the kernel. -/
def kernelBoth (preRead : Bytes) : Pending π :=
  { c with conn := { c.conn with
      tls := none
      ktls := true
      ktlsRX := true
      preRead := preRead
      preReadOff := 0 } }

/-- The ending that leaves receiving to `tls.Conn`. -/
def kernelTX (tc : π) (rc : RecordConn) : Pending π :=
  let (tc, rc, preRead) := drainBufferedTLSPlaintext K.lib tc rc K.postHandshakeReadMaxBytes
  { c with
    handshakeRC := some rc
    conn := { c.conn with
      tls := some tc
      ktls := true
      ktlsRX := false
      preRead := preRead
      preReadOff := 0 } }

def finalizeTLS12 (tc : π) (rc : RecordConn) (suite : UInt16) : Pending π :=
  match c.handshakeKLW.bind fun klw => K.keys12 rc klw suite with
  | none => c
  | some keys =>
    match enableKTLS K.enableRX c.kernel false suite keys rc.inSeq rc.outSeq with
    | (kernel, some _) => { c with kernel := kernel }
    | (kernel, none) =>
      if K.enableRX then kernelBoth { c with kernel := kernel } []
      else kernelTX K { c with kernel := kernel } tc rc

/-- What is taken out of `tls.Conn` before the kernel is asked to receive. -/
def drainFirst (tc : π) (rc : RecordConn) : π × RecordConn × Bytes :=
  if K.enableRX then drainBufferedTLSPlaintext K.lib tc rc K.postHandshakeReadMaxBytes
  else (tc, rc, [])

def finalizeTLS13 (tc : π) (rc : RecordConn) (suite : UInt16) : Pending π :=
  if K.kernelSupportsKTLS13 = false then c
  else match c.handshakeKLW.bind fun klw => K.keys13 klw suite with
    | none => c
    | some keys =>
      let (tc, rc, preRead) := drainFirst K tc rc
      let c := { c with
        handshakeRC := some rc
        conn := { c.conn with tls := some tc } }
      match K.recSeq tc with
      | none => c
      | some (inSeq, outSeq) =>
        match enableKTLS13 K.enableRX c.kernel false suite keys inSeq outSeq with
        | (kernel, some _) => { c with kernel := kernel }
        | (kernel, none) =>
          if K.enableRX then kernelBoth { c with kernel := kernel } preRead
          else kernelTX K { c with kernel := kernel } tc rc

def finalizeServerKTLS : Pending π × Option KtlsErr :=
  match c.conn.tls with
  | none => (c, some (.text "tls conn not initialized"))
  | some tc =>
    let state := K.connectionState tc
    let c := { c with state := some state }
    if isKTLSCipher state.cipherSuite = false then (c, none)
    else match c.handshakeRC with
      | none => (c, none)
      | some rc =>
        if state.version = VersionTLS12 then
          (c.finalizeTLS12 K tc rc state.cipherSuite, none)
        else if state.version = VersionTLS13 then
          (c.finalizeTLS13 K tc rc state.cipherSuite, none)
        else (c, none)

end Pending

def newStdTLSFallback (b : TlsBufferConn) (tc : π) (preRead : Bytes) : ATLSConn π :=
  ⟨some tc, some b, false, false, preRead, 0⟩

/-- `newKTLSConn` from the end of the handshake on. -/
def newKTLSConn (K : KtlsEnv π) (isClient : Bool) (tc : π) (b : TlsBufferConn) (rc : RecordConn)
    (klw : KeyLogWriter) (kernel : KernelTls) : ATLSConn π × RecordConn × KernelTls :=
  let state := K.connectionState tc
  if isKTLSCipher state.cipherSuite = false then (newStdTLSFallback b tc [], rc, kernel)
  else
    let (tc, rc, preRead) := drainBufferedTLSPlaintext K.lib tc rc K.postHandshakeReadMaxBytes
    if state.version = VersionTLS12 then
      match K.keys12 rc klw state.cipherSuite with
      | none => (newStdTLSFallback b tc preRead, rc, kernel)
      | some keys =>
        match enableKTLS K.enableRX kernel isClient state.cipherSuite keys rc.inSeq rc.outSeq with
        | (kernel, some _) => (newStdTLSFallback b tc preRead, rc, kernel)
        | (kernel, none) =>
          if K.enableRX then (⟨none, none, true, true, preRead, 0⟩, rc, kernel)
          else (⟨some tc, some b, true, false, preRead, 0⟩, rc, kernel)
    else if state.version = VersionTLS13 then
      if K.kernelSupportsKTLS13 = false then (newStdTLSFallback b tc preRead, rc, kernel)
      else
        let (tc, rc, preRead) :=
          if isClient ∧ K.disableSessionTickets = false ∧ K.clientSessionCache then
            let (tc, rc, ticketData) := K.drainClientTickets tc rc
            (tc, rc, preRead ++ ticketData)
          else (tc, rc, preRead)
        match K.keys13 klw state.cipherSuite with
        | none => (newStdTLSFallback b tc preRead, rc, kernel)
        | some keys =>
          match K.recSeq tc with
          | none => (newStdTLSFallback b tc preRead, rc, kernel)
          | some (inSeq, outSeq) =>
            match enableKTLS13 K.enableRX kernel isClient state.cipherSuite keys inSeq
                outSeq with
            | (kernel, some _) => (newStdTLSFallback b tc preRead, rc, kernel)
            | (kernel, none) =>
              if K.enableRX then (⟨none, none, true, true, preRead, 0⟩, rc, kernel)
              else (⟨some tc, some b, true, false, preRead, 0⟩, rc, kernel)
    else (newStdTLSFallback b tc preRead, rc, kernel)

/-- The descriptor is a transport that delivers what is incoming. -/
theorem RecordConn.serve_draws {α : Type} (rc : RecordConn) (bio : Bio α) :
    Bio.Draws rc.fd.incoming bio (rc.serve bio).1.fd.incoming (rc.serve bio).2 := by
  induction bio generalizing rc with
  | done result => exact .done _ _
  | read len next ih =>
    rw [RecordConn.serve]
    split
    · change Bio.Draws ([] ++ rc.fd.incoming) _ _ _
      exact .read none (Nat.zero_le _) (.inl rfl) (ih _ rc)
    have cut : rc.fd.incoming = (rc.read len).2.1 ++ (rc.read len).1.fd.incoming ∧
        (rc.read len).2.1.length ≤ len ∧ ((rc.read len).2.2 = none ∨
          (rc.read len).2.2 = some .wouldBlock ∨ (rc.read len).1.fd.incoming = []) := by
      obtain ⟨n, bound⟩ : ∃ n, min len (rc.fd.grants rc.fd.calls) = n := ⟨_, rfl⟩
      have all : rc.fd.incoming.take n ++
          rc.fd.incoming.drop (rc.fd.incoming.take n).length = rc.fd.incoming := by
        rw [length_take]
        rcases Nat.le_total n rc.fd.incoming.length with short | long
        · rw [Nat.min_eq_left short, take_append_drop]
        rw [Nat.min_eq_right long, take_of_length_le long, drop_length, append_nil]
      unfold RecordConn.read FdConn.read
      dsimp only
      rw [bound]
      split
      · refine ⟨all.symm, ?_, .inl rfl⟩
        rw [length_take]
        omega
      have empty : rc.fd.incoming.take n = [] :=
        eq_nil_of_length_eq_zero (by omega)
      rw [empty] at all
      split
      · rw [empty]
        exact ⟨all.symm, Nat.zero_le _, .inr (.inl rfl)⟩
      have gone : rc.fd.incoming = [] := eq_nil_of_length_eq_zero (by omega)
      rw [empty]
      refine ⟨all.symm, Nat.zero_le _, .inr (.inr ?_)⟩
      rw [gone, drop_nil]
    obtain ⟨same, fits, calm⟩ := cut
    rw [same]
    exact .read _ fits calm (ih _ _)
  | write p next ih =>
    rw [RecordConn.serve]
    split
    · exact .write (0, none) (ih _ rc)
    · exact .write ((rc.write p).2.1, (rc.write p).2.2) (ih _ (rc.write p).1)

/-- Some reads of `tls.Conn` during the set-up, and the plaintext they have brought. -/
inductive Drains (lib : TlsLib π) : π → RecordConn → π → RecordConn → Bytes → Prop
  | nil (tc : π) (rc : RecordConn) : Drains lib tc rc tc rc []
  | read {tc tc₁ tc' : π} {rc rc₁ rc' : RecordConn} {len : Nat} {bytes out : Bytes}
      {err : Option Err} (positive : 0 < len)
      (served : rc.serve (lib.read tc len) = (rc₁, tc₁, bytes, err))
      (more : Drains lib tc₁ rc₁ tc' rc' out) : Drains lib tc rc tc' rc' (bytes.take len ++ out)

section

variable {lib : TlsLib π} {tc tc' tc'' : π} {rc rc' rc'' : RecordConn} {out out' : Bytes}

theorem Drains.trans (first : Drains lib tc rc tc' rc' out)
    (second : Drains lib tc' rc' tc'' rc'' out') : Drains lib tc rc tc'' rc'' (out ++ out') := by
  induction first with
  | nil => exact second
  | read positive served more ih =>
    rw [append_assoc]
    exact .read positive served (ih second)

theorem drainLoop_drains (lib : TlsLib π) (maxBytes rounds : Nat) (tc : π) (rc : RecordConn)
    (out : Bytes) :
    ∃ brought, (drainLoop lib maxBytes rounds tc rc out).2.2 = out ++ brought ∧
      Drains lib tc rc (drainLoop lib maxBytes rounds tc rc out).1
        (drainLoop lib maxBytes rounds tc rc out).2.1 brought := by
  induction rounds generalizing tc rc out with
  | zero => exact ⟨[], (append_nil out).symm, .nil _ _⟩
  | succ rounds ih =>
    rw [drainLoop]
    split
    · rename_i room
      obtain ⟨len, chunk⟩ : ∃ len, min 4096 (maxBytes - out.length) = len := ⟨_, rfl⟩
      have positive : 0 < len := by omega
      obtain ⟨⟨rc₁, tc₁, bytes, err⟩, served⟩ : ∃ result, rc.serve (lib.read tc len) = result :=
        ⟨_, rfl⟩
      dsimp only
      rw [chunk, served]
      dsimp only
      split
      · obtain ⟨brought, all, drains⟩ := ih tc₁ rc₁ (out ++ bytes.take len)
        refine ⟨bytes.take len ++ brought, ?_, .read positive served drains⟩
        rw [all, append_assoc]
      rename_i void
      have nothing : bytes.take len = [] := eq_nil_of_length_eq_zero (by omega)
      refine ⟨bytes.take len ++ [], ?_, .read positive served (.nil _ _)⟩
      rw [nothing, append_nil, append_nil]
    · exact ⟨[], (append_nil out).symm, .nil _ _⟩

theorem drain_drains (lib : TlsLib π) (tc : π) (rc : RecordConn) (maxBytes : Int) :
    Drains lib tc rc (drainBufferedTLSPlaintext lib tc rc maxBytes).1
      (drainBufferedTLSPlaintext lib tc rc maxBytes).2.1
      (drainBufferedTLSPlaintext lib tc rc maxBytes).2.2 := by
  unfold drainBufferedTLSPlaintext
  split
  · exact .nil _ _
  obtain ⟨brought, all, drains⟩ := drainLoop_drains lib maxBytes.toNat maxBytes.toNat tc rc []
  rw [all]
  exact drains

/-- What was read early and what is read later is the plaintext of the stream. -/
theorem Drains.stream {future : π → Bytes → Bytes} (streams : lib.Streams future)
    (drains : Drains lib tc rc tc' rc' out) :
    future tc rc.fd.incoming = out ++ future tc' rc'.fd.incoming := by
  induction drains with
  | nil => rfl
  | @read tc tc₁ tc' rc rc₁ rc' len bytes out err positive served more ih =>
    have drawn := rc.serve_draws (lib.read tc len)
    rw [served] at drawn
    rw [streams.read _ _ _ _ _ _ _ positive drawn, ih, append_assoc]

end

theorem KtlsEnv.drainClientTickets_drains (K : KtlsEnv π) (tc : π) (rc : RecordConn) :
    Drains K.lib tc rc (K.drainClientTickets tc rc).1 (K.drainClientTickets tc rc).2.1
      (K.drainClientTickets tc rc).2.2 := by
  unfold drainClientTickets
  split
  · exact .nil _ _
  rename_i wanted
  have positive : 0 < K.postHandshakeReadMaxBytes.toNat := by omega
  rcases served : rc.serve (K.lib.read tc K.postHandshakeReadMaxBytes.toNat)
      with ⟨rc₁, tc₁, bytes, err⟩
  dsimp only
  rw [served, ← append_nil (bytes.take _)]
  exact .read positive served (.nil _ _)

namespace Pending

variable {K : KtlsEnv π} {c : Pending π} {tc : π} {b : TlsBufferConn} {rc : RecordConn}

/-- A pending connection as the handshake leaves it. Its rings have not been used. -/
structure Ready (c : Pending π) (tc : π) (b : TlsBufferConn) (rc : RecordConn) : Prop where
  conn : c.conn = ⟨some tc, some b, false, false, [], 0⟩
  record : c.handshakeRC = some rc
  parted : b.Parted
  unused : b.incoming = []

/-- The plaintext that is taken out of `tls.Conn` ahead of steps that can still fail. -/
def setAside (K : KtlsEnv π) (c : Pending π) : Bytes :=
  match c.conn.tls, c.handshakeRC with
  | some tc, some rc =>
    let state := K.connectionState tc
    if isKTLSCipher state.cipherSuite = true ∧ state.version = VersionTLS13 ∧
        K.kernelSupportsKTLS13 = true ∧
        (c.handshakeKLW.bind fun klw => K.keys13 klw state.cipherSuite).isSome = true then
      (drainFirst K tc rc).2.2
    else []
  | _, _ => []

theorem drainFirst_drains (K : KtlsEnv π) (tc : π) (rc : RecordConn) :
    Drains K.lib tc rc (drainFirst K tc rc).1 (drainFirst K tc rc).2.1
      (drainFirst K tc rc).2.2 := by
  unfold drainFirst
  split
  · exact drain_drains _ _ _ _
  · exact .nil _ _

end Pending

/-- The kernel was not asked, or it has refused. -/
def Refused (K : KtlsEnv π) (isClient : Bool) (suite : UInt16) (kernel kernel' : KernelTls) :
    Prop :=
  kernel' = kernel ∨
    (∃ keys inSeq outSeq err,
      enableKTLS K.enableRX kernel isClient suite keys inSeq outSeq = (kernel', some err)) ∨
    ∃ keys inSeq outSeq err,
      enableKTLS13 K.enableRX kernel isClient suite keys inSeq outSeq = (kernel', some err)

/-- The ways in which `finalizeServerKTLS` leaves the connection `conn` of a client that is
handled by `tls.Conn` so far. A fallback has lost what was set aside. -/
inductive Outcome (K : KtlsEnv π) (c : Pending π) (tc : π) (b : TlsBufferConn) (rc : RecordConn) :
    ATLSConn π → RecordConn → KernelTls → Prop
  | fallback {tc' : π} {rc' : RecordConn} {kernel' : KernelTls}
      (drains : Drains K.lib tc rc tc' rc' (c.setAside K))
      (refused : Refused K false (K.connectionState tc).cipherSuite c.kernel kernel') :
      Outcome K c tc b rc (newStdTLSFallback b tc' []) rc' kernel'
  | sending {tc' : π} {rc' : RecordConn} {kernel' : KernelTls} {preRead : Bytes}
      (drains : Drains K.lib tc rc tc' rc' preRead) :
      Outcome K c tc b rc ⟨some tc', some b, true, false, preRead, 0⟩ rc' kernel'
  | both12 {kernel' : KernelTls} {keys : TlsKeys}
      (version : (K.connectionState tc).version = VersionTLS12)
      (enabled : enableKTLS true c.kernel false (K.connectionState tc).cipherSuite keys rc.inSeq
        rc.outSeq = (kernel', none)) :
      Outcome K c tc b rc ⟨none, some b, true, true, [], 0⟩ rc kernel'
  | both13 {tc' : π} {rc' : RecordConn} {kernel' : KernelTls} {preRead : Bytes} {keys : TlsKeys}
      {inSeq outSeq : FixedBytes 8} (version : (K.connectionState tc).version = VersionTLS13)
      (drained : drainBufferedTLSPlaintext K.lib tc rc K.postHandshakeReadMaxBytes =
        (tc', rc', preRead))
      (seqs : K.recSeq tc' = some (inSeq, outSeq))
      (enabled : enableKTLS13 true c.kernel false (K.connectionState tc).cipherSuite keys inSeq
        outSeq = (kernel', none)) :
      Outcome K c tc b rc ⟨none, some b, true, true, preRead, 0⟩ rc' kernel'

variable {K : KtlsEnv π} {tc : π} {b : TlsBufferConn} {rc : RecordConn}

theorem Pending.finalize_outcome {c : Pending π} (ready : c.Ready tc b rc) :
    ∃ rc', (c.finalizeServerKTLS K).1.handshakeRC = some rc' ∧
      Outcome K c tc b rc (c.finalizeServerKTLS K).1.conn rc'
        (c.finalizeServerKTLS K).1.kernel := by
  obtain ⟨conn, handshakeRC, handshakeKLW, state, kernel⟩ := c
  obtain ⟨rfl, rfl, _, _⟩ := ready
  -- All but one of the early ways out come before anything was read.
  have early (kernel' : KernelTls)
      (nothing : setAside K ⟨⟨some tc, some b, false, false, [], 0⟩, some rc, handshakeKLW, state,
        kernel⟩ = [])
      (refused : Refused K false (K.connectionState tc).cipherSuite kernel kernel') :
      Outcome K ⟨⟨some tc, some b, false, false, [], 0⟩, some rc, handshakeKLW, state, kernel⟩
        tc b rc (newStdTLSFallback b tc []) rc kernel' :=
    .fallback (by rw [nothing]; exact .nil _ _) refused
  unfold setAside at early
  dsimp only at early
  have alone {tc₁ : π} {rc₁ : RecordConn} (kernel' : KernelTls)
      (drains : Drains K.lib tc rc tc₁ rc₁ []) :
      Outcome K ⟨⟨some tc, some b, false, false, [], 0⟩, some rc, handshakeKLW, state, kernel⟩
        tc b rc (kernelTX K ⟨⟨some tc₁, some b, false, false, [], 0⟩, some rc₁, handshakeKLW,
          some (K.connectionState tc), kernel'⟩ tc₁ rc₁).conn
        (drainBufferedTLSPlaintext K.lib tc₁ rc₁ K.postHandshakeReadMaxBytes).2.1 kernel' :=
    .sending (drains.trans (drain_drains K.lib tc₁ rc₁ K.postHandshakeReadMaxBytes))
  unfold finalizeServerKTLS
  dsimp only
  split
  · rename_i cipher
    refine ⟨rc, rfl, early _ (if_neg fun taken => ?_) (.inl rfl)⟩
    rw [cipher] at taken
    cases taken.1
  rename_i cipher
  split
  · rename_i old
    have other : ¬ (K.connectionState tc).version = VersionTLS13 := by
      rw [old]
      decide
    have early := fun kernel' => early kernel' (if_neg fun taken => other taken.2.1)
    unfold finalizeTLS12
    dsimp only
    split
    · exact ⟨rc, rfl, early _ (.inl rfl)⟩
    split
    · rename_i refused
      exact ⟨rc, rfl, early _ (.inr (.inl ⟨_, _, _, _, refused⟩))⟩
    rename_i enabled
    split
    · rename_i rx
      rw [rx] at enabled
      exact ⟨rc, rfl, .both12 old enabled⟩
    · exact ⟨_, rfl, alone _ (.nil _ _)⟩
  split
  · rename_i new
    unfold finalizeTLS13
    dsimp only
    split
    · rename_i kernel13
      refine ⟨rc, rfl, early _ (if_neg fun taken => ?_) (.inl rfl)⟩
      rw [kernel13] at taken
      cases taken.2.2.1
    rename_i kernel13
    split
    · rename_i missing
      refine ⟨rc, rfl, early _ (if_neg fun taken => ?_) (.inl rfl)⟩
      rw [missing] at taken
      cases taken.2.2.2
    rename_i keys found
    have drains := drainFirst_drains K tc rc
    have late (kernel' : KernelTls)
        (refused : Refused K false (K.connectionState tc).cipherSuite kernel kernel') :
        Outcome K ⟨⟨some tc, some b, false, false, [], 0⟩, some rc, handshakeKLW, state,
          kernel⟩ tc b rc (newStdTLSFallback b (drainFirst K tc rc).1 [])
          (drainFirst K tc rc).2.1 kernel' := by
      refine .fallback ?_ refused
      unfold setAside
      dsimp only
      rw [if_pos ⟨Bool.not_eq_false _ ▸ cipher, new, Bool.not_eq_false _ ▸ kernel13,
        by rw [found]; rfl⟩]
      exact drains
    split
    · exact ⟨_, rfl, late _ (.inl rfl)⟩
    rename_i inSeq outSeq seqs
    split
    · rename_i refused
      exact ⟨_, rfl, late _ (.inr (.inr ⟨_, _, _, _, refused⟩))⟩
    rename_i enabled
    split
    · rename_i rx
      rw [rx] at enabled
      exact ⟨_, rfl, .both13 new (if_pos rx).symm seqs enabled⟩
    rename_i rx
    have unread : drainFirst K tc rc = (tc, rc, []) := if_neg rx
    rw [unread]
    exact ⟨_, rfl, alone _ (.nil _ _)⟩
  rename_i new
  exact ⟨rc, rfl, early _ (if_neg fun taken => new taken.2.1) (.inl rfl)⟩

theorem Pending.finalize_fallback {c : Pending π} (ready : c.Ready tc b rc)
    (user : (c.finalizeServerKTLS K).1.conn.ktls = false) :
    ∃ tc' rc', (c.finalizeServerKTLS K).1.conn = newStdTLSFallback b tc' [] ∧
      (c.finalizeServerKTLS K).1.handshakeRC = some rc' ∧
      Drains K.lib tc rc tc' rc' (c.setAside K) ∧
      Refused K false (K.connectionState tc).cipherSuite c.kernel
        (c.finalizeServerKTLS K).1.kernel := by
  obtain ⟨rc', record, outcome⟩ := finalize_outcome (K := K) ready
  generalize (c.finalizeServerKTLS K).1.conn = conn at user outcome ⊢
  cases outcome with
  | fallback drains refused => exact ⟨_, rc', rfl, record, drains, refused⟩
  | sending | both12 | both13 => cases user

/-- What a fallback keeps of a connection that `newKTLSConn` builds: all of it. -/
theorem newKTLSConn_fallback {isClient : Bool} {klw : KeyLogWriter} {kernel : KernelTls}
    (user : (newKTLSConn K isClient tc b rc klw kernel).1.ktls = false) :
    ∃ tc' rc' preRead kernel',
      newKTLSConn K isClient tc b rc klw kernel = (newStdTLSFallback b tc' preRead, rc', kernel') ∧
      Drains K.lib tc rc tc' rc' preRead ∧
      Refused K isClient (K.connectionState tc).cipherSuite kernel kernel' := by
  unfold newKTLSConn at user ⊢
  dsimp only at user ⊢
  by_cases cipher : isKTLSCipher (K.connectionState tc).cipherSuite = false
  · rw [if_pos cipher]
    exact ⟨tc, rc, [], kernel, rfl, .nil _ _, .inl rfl⟩
  rw [if_neg cipher] at user ⊢
  have drains := drain_drains K.lib tc rc K.postHandshakeReadMaxBytes
  generalize drainBufferedTLSPlaintext K.lib tc rc K.postHandshakeReadMaxBytes = drained
    at user drains ⊢
  obtain ⟨tc₁, rc₁, preRead⟩ := drained
  dsimp only at user drains ⊢
  by_cases old : (K.connectionState tc).version = VersionTLS12
  · rw [if_pos old] at user ⊢
    split at user
    · exact ⟨_, _, _, _, rfl, drains, .inl rfl⟩
    split at user
    · rename_i refused
      exact ⟨_, _, _, _, rfl, drains, .inr (.inl ⟨_, _, _, _, refused⟩)⟩
    split at user
    · cases user
    · cases user
  rw [if_neg old] at user ⊢
  by_cases new : (K.connectionState tc).version = VersionTLS13
  · rw [if_pos new] at user ⊢
    by_cases kernel13 : K.kernelSupportsKTLS13 = false
    · rw [if_pos kernel13]
      exact ⟨_, _, _, _, rfl, drains, .inl rfl⟩
    rw [if_neg kernel13] at user ⊢
    -- The tickets' drain is one more read of the same kind.
    obtain ⟨⟨tc₂, rc₂, all⟩, tickets⟩ : ∃ result, (if isClient = true ∧
        K.disableSessionTickets = false ∧ K.clientSessionCache = true then
        ((K.drainClientTickets tc₁ rc₁).1, (K.drainClientTickets tc₁ rc₁).2.1,
          preRead ++ (K.drainClientTickets tc₁ rc₁).2.2)
      else (tc₁, rc₁, preRead)) = result := ⟨_, rfl⟩
    have both : Drains K.lib tc rc tc₂ rc₂ all := by
      split at tickets
      · cases tickets
        exact drains.trans (K.drainClientTickets_drains tc₁ rc₁)
      cases tickets
      exact drains
    rw [tickets] at user ⊢
    split at user
    · exact ⟨_, _, _, _, rfl, both, .inl rfl⟩
    split at user
    · exact ⟨_, _, _, _, rfl, both, .inl rfl⟩
    split at user
    · rename_i refused
      exact ⟨_, _, _, _, rfl, both, .inr (.inr ⟨_, _, _, _, refused⟩)⟩
    split at user
    · cases user
    · cases user
  rw [if_neg new]
  exact ⟨_, _, _, _, rfl, drains, .inl rfl⟩

/-- The sending half of a refused socket is left to userspace, unless the kernel has stopped
between the two directions. -/
theorem Refused.untouched {isClient : Bool} {suite : UInt16} {answers : Nat → Option Err}
    {kernel' : KernelTls} (refused : Refused K isClient suite (.untouched answers) kernel')
    (whole12 : ¬ HalfEnabled K.enableRX (Gcm.of12 suite) answers)
    (whole13 : ¬ HalfEnabled K.enableRX (Gcm.of13 suite) answers) :
    kernel'.tx = none ∧ kernel'.rx = none ∧
      ∀ encrypt record, kernel'.transmit encrypt record = record := by
  rcases refused with rfl | ⟨keys, inSeq, outSeq, err, failed⟩ | ⟨keys, inSeq, outSeq, err, failed⟩
  · exact ⟨rfl, rfl, fun _ _ => rfl⟩
  · have clean := (switchOn_clean answers K.enableRX (Gcm.of12 suite) unsupported12
      (layouts12 (keys.halves isClient).1 outSeq)
      (layouts12 (keys.halves isClient).2 inSeq)).mpr whole12
    change AllOrNothing (enableKTLS K.enableRX _ isClient suite keys inSeq outSeq) at clean
    rw [failed] at clean
    exact clean nofun
  have clean := (switchOn_clean answers K.enableRX (Gcm.of13 suite) unsupported13
    (layouts13 (keys.halves isClient).1 outSeq)
    (layouts13 (keys.halves isClient).2 inSeq)).mpr whole13
  change AllOrNothing (enableKTLS13 K.enableRX _ isClient suite keys inSeq outSeq) at clean
  rw [failed] at clean
  exact clean nofun

section

variable {A : Memory.Allocator UInt8} {lib : TlsLib π} {future : π → Bytes → Bytes}

theorem fallback_delivers (streams : lib.Streams future) {b : TlsBufferConn} (parted : b.Parted)
    (unused : b.incoming = []) (tc : π) (preRead w stream : Bytes) :
    (newStdTLSFallback b tc preRead).Delivers A lib future w stream ↔
      preRead ++ future tc w = stream := by
  have unread : (newStdTLSFallback b tc preRead).unread future w =
      preRead ++ future tc (b.incoming ++ w) := rfl
  have rings : ∀ b', (newStdTLSFallback b tc preRead).buf = some b' → b'.Parted := by
    intro b' same
    cases same
    exact parted
  rw [ATLSConn.delivers_iff streams rfl rings, unread, unused, nil_append]

end

/-- A connection that falls back to userspace still returns the whole plaintext, if and only
if nothing was set aside for the kernel. -/
theorem ktls_fallback_stream (A : Memory.Allocator UInt8) (K : KtlsEnv π)
    (future : π → Bytes → Bytes) (streams : K.lib.Streams future) (c : Pending π) (tc : π)
    (b : TlsBufferConn) (rc : RecordConn) (ready : c.Ready tc b rc)
    (user : (c.finalizeServerKTLS K).1.conn.ktls = false) :
    (∃ rc', (c.finalizeServerKTLS K).1.handshakeRC = some rc' ∧
      (c.finalizeServerKTLS K).1.conn.Delivers A K.lib future rc'.fd.incoming
        (future tc rc.fd.incoming)) ↔ c.setAside K = [] := by
  obtain ⟨tc', rc', conn, record, drains, _⟩ := Pending.finalize_fallback ready user
  have whole := drains.stream streams
  rw [conn, record]
  constructor
  · rintro ⟨_, same, delivers⟩
    cases same
    have same := (fallback_delivers streams ready.parted ready.unused _ _ _ _).mp delivers
    rw [whole, List.nil_append] at same
    exact List.self_eq_append_left.mp same
  intro nothing
  refine ⟨rc', rfl, (fallback_delivers streams ready.parted ready.unused _ _ _ _).mpr ?_⟩
  rw [whole, nothing]

/-- A library that has some plaintext at hand and passes on what arrives behind it. -/
def passing : TlsLib Bytes where
  read p len :=
    if p = [] then .read len fun (bytes, err) => .done ([], bytes, err)
    else .done (p.drop len, p.take len, none)
  write p src := .done (p, src.length, none)
  close p := .done p

theorem passing_streams : passing.Streams fun p w => p ++ w where
  read p w len w' p' bytes err _ drawn := by
    dsimp only [passing] at drawn
    split at drawn
    · rename_i empty
      cases drawn with
      | read err fits calm more =>
        cases more
        rw [empty, take_of_length_le fits, nil_append, nil_append]
    cases drawn
    rw [take_take, Nat.min_self, ← append_assoc, take_append_drop]

/-- TLS 1.3 on a machine whose kernel has no TLS module, with one byte of plaintext at hand. -/
def noModule (enableRX : Bool) : KtlsEnv Bytes where
  lib := passing
  crypto := ⟨fun h _ _ => List.replicate h.size 0, fun _ _ _ => List.length_replicate,
    fun _ _ _ n => some (List.replicate n 0)⟩
  connectionState _ := ⟨VersionTLS13, TLS_AES_128_GCM_SHA256⟩
  recSeq _ := some (zeros 8, zeros 8)
  kernelSupportsKTLS13 := true
  enableRX := enableRX
  disableSessionTickets := false
  clientSessionCache := false
  postHandshakeTimeout := 10
  postHandshakeReadMaxBytes := 64 * 1024

def smallPool : Memory.Allocator UInt8 := BytesAlloctor.allocator 4 3 fun _ _ => 0

def emptyRings : TlsBufferConn := ⟨⟨fun _ => [], 1, []⟩, .newRingBuffer, .newRingBuffer⟩

theorem emptyRings_parted : emptyRings.Parted :=
  ⟨RingBuffer.new_ok _, by decide, nofun, nofun⟩

def earlyByteRC : RecordConn :=
  ⟨⟨[], fun _ => 0, fun _ => some .EAGAIN, 0, ⟨[], fun _ => .full, 0⟩⟩, .new, .new⟩

def earlyByte : Pending Bytes where
  conn := ⟨some [65], some emptyRings, false, false, [], 0⟩
  handshakeRC := some earlyByteRC
  handshakeKLW := some ⟨[], [], [1], [2]⟩
  state := none
  kernel := .untouched fun _ => some (.other 2)

theorem earlyByte_ready : earlyByte.Ready [65] emptyRings earlyByteRC :=
  ⟨rfl, rfl, emptyRings_parted, rfl⟩

theorem ktls_fallback_stream_tx_only :
    ∃ last, (earlyByte.finalizeServerKTLS (noModule false)).1.conn.readAll smallPool passing 5
        [(8, [])] = some (last, [65], []) ∧ [65] ++ last.unread (fun p w => p ++ w) [] = [65] := by
  obtain ⟨rc', record, delivers⟩ := (ktls_fallback_stream smallPool (noModule false)
    (fun p w => p ++ w) passing_streams earlyByte [65] emptyRings earlyByteRC earlyByte_ready
    rfl).mpr rfl
  cases record
  exact ⟨_, rfl, delivers 5 [(8, [])] _ _ _ [] rfl rfl⟩

/-- With receiving wanted the byte is read early, the kernel refuses, and `Read` never
returns the byte. -/
theorem early_byte_lost : passing.Streams (fun p w => p ++ w) ∧
    ∃ c, earlyByte.finalizeServerKTLS (noModule true) = (c, none) ∧ c.conn.ktls = false ∧
      ∀ fd calls last got, c.conn.readAll smallPool passing fd calls = some (last, got, []) →
        got = [] := by
  refine ⟨passing_streams, _, rfl, rfl, fun fd calls last got done => ?_⟩
  have parted : ∀ b, (newStdTLSFallback emptyRings ([] : Bytes) []).buf = some b → b.Parted := by
    intro b same
    cases same
    exact emptyRings_parted
  have all := ATLSConn.readAll_stream passing_streams calls rfl parted done []
  exact (List.append_eq_nil_iff.mp all).1

/-- `newKTLSConn` hands what it has read early to the fallback, on every way out. -/
theorem newKTLSConn_fallback_stream (A : Memory.Allocator UInt8) (K : KtlsEnv π)
    (future : π → Bytes → Bytes) (streams : K.lib.Streams future) (isClient : Bool) (tc : π)
    (b : TlsBufferConn) (rc : RecordConn) (klw : KeyLogWriter) (kernel : KernelTls)
    (parted : b.Parted) (unused : b.incoming = [])
    (user : (newKTLSConn K isClient tc b rc klw kernel).1.ktls = false) :
    (newKTLSConn K isClient tc b rc klw kernel).1.Delivers A K.lib future
      (newKTLSConn K isClient tc b rc klw kernel).2.1.fd.incoming
      (future tc rc.fd.incoming) := by
  obtain ⟨tc', rc', preRead, kernel', out, drains, _⟩ := newKTLSConn_fallback user
  rw [out]
  exact (fallback_delivers streams parted unused _ _ _ _).mpr (drains.stream streams).symm

theorem newKTLSConn_fallback_stream_early_byte :
    (newKTLSConn (noModule true) true [65] emptyRings earlyByteRC ⟨[], [], [1], [2]⟩
      earlyByte.kernel).1.Delivers smallPool passing (fun p w => p ++ w) [] [65] :=
  newKTLSConn_fallback_stream smallPool (noModule true) (fun p w => p ++ w) passing_streams true
    [65] emptyRings earlyByteRC _ _ emptyRings_parted rfl rfl

/-- Both callers go on in userspace with a socket that leaves their records alone. -/
theorem ktls_fallback_untouched (K : KtlsEnv π) (answers : Nat → Option Err) (tc : π)
    (b : TlsBufferConn) (rc : RecordConn)
    (whole12 : ¬ HalfEnabled K.enableRX (Gcm.of12 (K.connectionState tc).cipherSuite) answers)
    (whole13 : ¬ HalfEnabled K.enableRX (Gcm.of13 (K.connectionState tc).cipherSuite) answers) :
    (∀ c : Pending π, c.Ready tc b rc → c.kernel = .untouched answers →
      (c.finalizeServerKTLS K).1.conn.ktls = false →
      ∀ encrypt record, (c.finalizeServerKTLS K).1.kernel.transmit encrypt record = record) ∧
    ∀ isClient klw, (newKTLSConn K isClient tc b rc klw (.untouched answers)).1.ktls = false →
      ∀ encrypt record, (newKTLSConn K isClient tc b rc klw
        (.untouched answers)).2.2.transmit encrypt record = record := by
  refine ⟨fun c ready fresh user => ?_, fun isClient klw user => ?_⟩
  · obtain ⟨_, _, _, _, _, refused⟩ := Pending.finalize_fallback ready user
    rw [fresh] at refused
    exact (refused.untouched whole12 whole13).2.2
  obtain ⟨_, _, _, _, out, _, refused⟩ := newKTLSConn_fallback user
  rw [out]
  exact (refused.untouched whole12 whole13).2.2

theorem ktls_fallback_untouched_no_module :
    (earlyByte.finalizeServerKTLS (noModule true)).1.kernel.transmit (fun _ _ => []) [1] = [1] :=
  (ktls_fallback_untouched (noModule true) (fun _ => some (.other 2)) [65] emptyRings earlyByteRC
    (by simp [HalfEnabled]) (by simp [HalfEnabled])).1 earlyByte earlyByte_ready rfl rfl _ _

end Connaxis.Ktls
