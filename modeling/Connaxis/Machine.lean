import Connaxis.LoopCmd
import Connaxis.Lib.Runs

namespace Connaxis

open Memory

/-- Where the loop goroutine stands. `poll` is between two callbacks; the states from
`accept` to `trigger` are the stages of `processCmd`. -/
inductive Pc
  | poll
  | send (c : Ref) (readable : Bool)
  | read (c : Ref)
  | softSend (c : Ref)
  | listen (fd : Nat) (mode : ConnType) (i : Nat)
  | accept (accepted : Nat)
  | cmd (consumed : Nat)
  | dial (consumed : Nat)
  | flush (flushed : Nat)
  | store
  | checkCmd
  | checkDial
  | checkAccept
  | checkFlush
  | cas
  | trigger
  | stopped
deriving DecidableEq, Repr

/-- Where a goroutine stands that calls `AddCmd` or `AddClient`. -/
inductive Producer
  | idle
  | pushCmd (dial : Bool) (cmd : CmdData)
  | pushClient (c : Ref)
  | cas
  | trigger

/-- A loop with its channels, its wake-up flag and the goroutines that feed it.
`tokens` is the counter of the wake descriptor. -/
structure Sys (σ π : Type) where
  loop : LoopConn σ π
  cmdChan : List CmdData
  cmdDialChan : List CmdData
  acceptChan : List Ref
  triggered : Bool
  tokens : Nat
  stopping : Bool
  pc : Pc
  producers : Nat → Producer

structure Event where
  err : Bool
  write : Bool
  read : Bool
deriving DecidableEq, Repr

/-- The outcome of one `accept` of a listener: refused (nothing left, or overloaded), a
socket that could not be set up, or a connection. `gen` is what a custom id generator
would return. -/
inductive Accepted
  | refused
  | unusable
  | conn (fd : Nat) (gen : UInt64) (sock : Socket) (registered : Bool)

/-- One step with every choice the environment makes in it. -/
inductive Label (π : Type)
  /-- `AddCmd` is called on a connection: the command takes its descriptor and id. -/
  | issue (p : Nat) (c : Ref) (cmd : Cmd) (data : Bytes)
  /-- `AddClient` is called with a connection that is new to the loop. -/
  | join (p : Nat) (fd : Nat) (id : UInt64) (client : Bool) (sock : Socket)
      (tls : Option (ATLSConn π))
  | push (p : Nat)
  | cas (p : Nat)
  | trigger (p : Nat)
  | syncTime (sec : Int)
  /-- `Poll.Close`: the flag, then the token. -/
  | halt
  | haltTrigger
  | wake
  | idle
  | event (fd : Nat) (ev : Event)
  | recv (answers : List (List SysRead))
  | accepted (outcome : Accepted)
  | attach (registered : Bool) (answers : List (List SysRead))
  | flush (fd : Nat)
  /-- A step of the loop that leaves nothing to choose. -/
  | tau

namespace Sys

variable {σ π : Type} (e : Env σ π)

/-- A loop budget: unlimited unless it is positive. -/
def spent (budget : Int) (n : Nat) : Bool := budget > 0 && n ≥ budget

def setProducer (s : Sys σ π) (p : Nat) (now : Producer) : Sys σ π :=
  { s with producers := Function.update s.producers p now }

/-- The command `AddCmd` builds; `none` when there is no buffer for its data. -/
def newCmd (l : LoopConn σ π) (c : Ref) (cmd : Cmd) (data : Bytes) :
    Option (LoopConn σ π × CmdData) :=
  let fd := (l.conns c).fd
  let id := (l.conns c).id
  if data.length = 0 then some (l, CmdData.bare cmd fd id)
  else match granted : e.alloc.get l.owners data.length with
    | none => none
    | some owner =>
      have fits : data.length ≤ (overwrite owner 0 data).length := by
        have room := e.alloc.sized _ _ _ granted
        rw [overwrite_length _ _ _ (by omega)]
        exact room
      some ({ l with owners := l.owners + 1 },
        CmdData.carrying cmd fd id ⟨l.owners, overwrite owner 0 data⟩ data.length fits)

/-- The channel send of `AddCmd` and `AddClient`; a full channel is an error to the
caller and no step for the loop. -/
def pushStep (s : Sys σ π) (p : Nat) : Option (Sys σ π) :=
  match s.producers p with
  | .pushCmd dial cmd =>
    if dial then
      if s.cmdDialChan.length < e.chanSize then
        some ({ s with cmdDialChan := s.cmdDialChan ++ [cmd] }.setProducer p .cas)
      else some ({ s with loop := s.loop.reset cmd }.setProducer p .idle)
    else
      if s.cmdChan.length < e.chanSize then
        some ({ s with cmdChan := s.cmdChan ++ [cmd] }.setProducer p .cas)
      else some ({ s with loop := s.loop.reset cmd }.setProducer p .idle)
  | .pushClient c =>
    if s.acceptChan.length < e.chanSize then
      some ({ s with acceptChan := s.acceptChan ++ [c] }.setProducer p .cas)
    else some (s.setProducer p .idle)
  | _ => none

/-- The callback for an event on a descriptor other than the wake descriptor. -/
def eventStep (s : Sys σ π) (fd : Nat) (ev : Event) : Sys σ π :=
  match s.loop.connByFD e fd with
  | some c =>
    if ev.err then { s with loop := s.loop.closeConn e c (some .CLOSE_EPOLL_ERR) }
    else if ev.write ∨ (s.loop.conns c).pendingWrite > 0 then { s with pc := .send c ev.read }
    else if ev.read then { s with pc := .read c }
    else s
  | none =>
    if ev.read then
      match e.listeners.find? fun lis => lis.1 = fd with
      | some lis => { s with pc := .listen fd lis.2 0 }
      | none => s
    else s

/-- One round of `accept` or `acceptTLS`. A TLS connection goes to the handshake workers
with its id and comes back through `AddClient`. -/
def acceptStep
    (attachClient : LoopConn σ π → Ref → Bool → List (List SysRead) → Option (LoopConn σ π))
    (s : Sys σ π) (fd : Nat) (mode : ConnType) (i : Nat) (outcome : Accepted) :
    Option (Sys σ π) :=
  if (i : Int) < e.tuning.maxAcceptPerEvent then
    match outcome with
    | .refused => some { s with pc := .poll }
    | .unusable => some { s with pc := .listen fd mode (i + 1) }
    | .conn nfd gen sock registered =>
      if nfd = 0 then none
      else
        let (seq, id) := allocID (if e.idg then some gen else none) s.loop.idx s.loop.seq nfd
        let l := { s.loop with seq := seq }
        match mode with
        | .TYPE_CONN =>
          let (l, c) := l.addConn (EngineConn.new nfd id false sock none)
          match attachClient l c registered [] with
          | none => none
          | some l => some { s with loop := l, pc := .listen fd mode (i + 1) }
        | .TYPE_CONN_TLS => some { s with loop := l, pc := .listen fd mode (i + 1) }
  else none

/-- The steps of the loop goroutine that leave nothing to choose. -/
def tauStep (s : Sys σ π) : Option (Sys σ π) :=
  match s.pc with
  | .send c readable =>
    match s.loop.processSend e c with
    | none => none
    | some l =>
      some { s with loop := l, pc := if (l.conns c).fd ≠ 0 ∧ readable then .read c else .poll }
  | .softSend c =>
    match s.loop.processSend e c with
    | none => none
    | some l => some { s with loop := l, pc := .poll }
  | .listen _ _ i =>
    if (i : Int) < e.tuning.maxAcceptPerEvent then none else some { s with pc := .poll }
  | .accept n =>
    if spent e.tuning.maxAcceptPerEvent n ∨ s.acceptChan = [] then some { s with pc := .cmd 0 }
    else none
  | .cmd n =>
    if spent e.tuning.maxCmdPerEvent n then some { s with pc := .dial 0 }
    else match s.cmdChan with
      | [] => some { s with pc := .dial 0 }
      | cmd :: rest =>
        some { s with cmdChan := rest, loop := s.loop.consumeCmd e cmd, pc := .cmd (n + 1) }
  | .dial n =>
    if spent e.tuning.maxCmdPerEvent n then some { s with pc := .flush 0 }
    else match s.cmdDialChan with
      | [] => some { s with pc := .flush 0 }
      | cmd :: rest =>
        some { s with cmdDialChan := rest, loop := s.loop.consumeCmd e cmd,
                      pc := .dial (n + 1) }
  | .flush n =>
    if spent e.tuning.maxCmdFlushConnsPerEvent n ∨ s.loop.cmdFlushSet = ∅ then
      some { s with pc := .store }
    else none
  | .store => some { s with triggered := false, pc := .checkCmd }
  | .checkCmd => some { s with pc := if s.cmdChan.length > 0 then .cas else .checkDial }
  | .checkDial => some { s with pc := if s.cmdDialChan.length > 0 then .cas else .checkAccept }
  | .checkAccept => some { s with pc := if s.acceptChan.length > 0 then .cas else .checkFlush }
  | .checkFlush => some { s with pc := if s.loop.cmdFlushSet ≠ ∅ then .cas else .poll }
  | .cas =>
    if s.triggered then some { s with pc := .poll }
    else some { s with triggered := true, pc := .trigger }
  | .trigger => some { s with tokens := s.tokens + 1, pc := .poll }
  | _ => none

/-- The steps, with the two functions left open that call `OnConnected` and `OnData`. -/
def stepWith (processRead : LoopConn σ π → Ref → List (List SysRead) → Option (LoopConn σ π))
    (attachClient : LoopConn σ π → Ref → Bool → List (List SysRead) → Option (LoopConn σ π))
    (s : Sys σ π) : Label π → Option (Sys σ π)
  | .issue p c cmd data =>
    match s.producers p with
    | .idle =>
      if c < s.loop.nconns then
        match newCmd e s.loop c cmd data with
        | none => none
        | some (l, built) =>
          some ({ s with loop := l }.setProducer p (.pushCmd (s.loop.conns c).client built))
      else none
    | _ => none
  | .join p fd id client sock tls =>
    match s.producers p with
    | .idle =>
      if fd = 0 then none
      else
        let (l, c) := s.loop.addConn (EngineConn.new fd id client sock tls)
        some ({ s with loop := l }.setProducer p (.pushClient c))
    | _ => none
  | .push p => s.pushStep e p
  | .cas p =>
    match s.producers p with
    | .cas =>
      if s.triggered then some (s.setProducer p .idle)
      else some ({ s with triggered := true }.setProducer p .trigger)
    | _ => none
  | .trigger p =>
    match s.producers p with
    | .trigger => some ({ s with tokens := s.tokens + 1 }.setProducer p .idle)
    | _ => none
  | .syncTime sec => some { s with loop := { s.loop with nowSec := sec } }
  | .halt => some { s with stopping := true }
  | .haltTrigger => if s.stopping then some { s with tokens := s.tokens + 1 } else none
  | .wake =>
    if s.pc = .poll ∧ s.tokens > 0 then
      if s.stopping then
        some { s with tokens := 0, loop := s.loop.shutdown e, pc := .stopped }
      else some { s with tokens := 0, pc := .accept 0 }
    else none
  | .idle =>
    if s.pc = .poll then some { s with loop := s.loop.onIdle e, pc := .accept 0 } else none
  | .event fd ev => if s.pc = .poll ∧ fd ≠ 0 then some (s.eventStep e fd ev) else none
  | .recv answers =>
    match s.pc with
    | .read c =>
      match processRead s.loop c answers with
      | none => none
      | some l =>
        some { s with loop := l, pc := if (l.conns c).fd ≠ 0 ∧ (l.conns c).pendingWrite > 0
          then .softSend c else .poll }
    | _ => none
  | .accepted outcome =>
    match s.pc with
    | .listen fd mode i => s.acceptStep e attachClient fd mode i outcome
    | _ => none
  | .attach registered answers =>
    match s.pc with
    | .accept n =>
      if spent e.tuning.maxAcceptPerEvent n then none
      else match s.acceptChan with
        | [] => none
        | c :: rest =>
          match attachClient s.loop c registered answers with
          | none => none
          | some l => some { s with acceptChan := rest, loop := l, pc := .accept (n + 1) }
    | _ => none
  | .flush fd =>
    match s.pc with
    | .flush n =>
      if spent e.tuning.maxCmdFlushConnsPerEvent n ∨ fd ∉ s.loop.cmdFlushSet then none
      else match s.loop.flushFd e fd with
        | none => none
        | some (l, counted) =>
          some { s with loop := l, pc := .flush (if counted then n + 1 else n) }
    | _ => none
  | .tau => s.tauStep e

abbrev step : Sys σ π → Label π → Option (Sys σ π) :=
  stepWith e (LoopConn.processRead e) (LoopConn.attachClient e)

/-- The command a step takes off its channel. -/
def taken (s : Sys σ π) : Label π → Option CmdData
  | .tau => match s.pc with
    | .cmd n => if spent e.tuning.maxCmdPerEvent n then none else s.cmdChan.head?
    | .dial n => if spent e.tuning.maxCmdPerEvent n then none else s.cmdDialChan.head?
    | _ => none
  | _ => none

/-- A loop before its first event. `recvbuf` is its shared buffer. -/
def boot (idx : Nat) (hs : σ) (shared : Bytes) : Sys σ π :=
  { loop :=
      { idx := idx, recvbuf := ⟨1, 0, shared.length⟩, writeFds := ∅, closeOnDrain := ∅,
        cmdFlushSet := ∅, count := 0, dcount := 0, seq := 0, lastCheck := 0, nowSec := 0,
        checkList := [], elems := 0, touchMap := fun _ => none, poll := fun _ => none,
        fdTable := fun _ => none,
        conns := fun _ => EngineConn.new 0 0 false ⟨[], fun _ => .full, 0⟩ none, nconns := 0,
        heap := ⟨fun b => if b = 1 then shared else [], 2, []⟩, owners := 0, returned := [],
        hs := hs, trace := [] }
    cmdChan := [], cmdDialChan := [], acceptChan := [], triggered := false, tokens := 0,
    stopping := false, pc := .poll, producers := fun _ => .idle }

/-- The steps lead from the start of a loop to `s`. -/
abbrev Reached (idx : Nat) (hs : σ) (shared : Bytes) (labels : List (Label π)) (s : Sys σ π) :
    Prop :=
  Runs.run (step e) (boot idx hs shared) labels = some s

end Sys

/-- A small loop for concrete runs: plain connections from a listener on descriptor 3, every
read is one packet, and a pool of buffers of up to 16 bytes. -/
def Env.plain (onData : Bytes → Bytes × Bool) (cliSbufLimit : Int) : Env Unit Unit where
  tuning := ⟨128, 0, 0, 0, 0, 0, 0⟩
  alloc := BytesAlloctor.allocator 4 3 fun _ _ => 0
  tls := TlsLib.unused
  rounds := 0
  handler :=
    { parsePacket := fun _ _ b => ((), b.length, b.length)
      onData := fun _ _ b => ⟨(), (onData b).1, (onData b).2, b⟩
      onConnected := fun _ _ => ()
      onClosed := fun _ _ _ => () }
  tableSize := 16
  pktSizeLimit := 16
  cliSbufLimit := cliSbufLimit
  checkInterval := 0
  idleLimit := 0
  chanSize := 4
  listeners := [(3, .TYPE_CONN)]
  idg := false

/-- A kernel that takes one byte and no more. -/
def clogged : Nat → SysWrite
  | 0 => .short 1
  | _ => .fail .EAGAIN

/-- A client is accepted on descriptor `fd`. -/
def arrival (fd : Nat) (answers : Nat → SysWrite) : List (Label Unit) :=
  [.event 3 ⟨false, false, true⟩, .accepted (.conn fd 0 ⟨[], answers, 0⟩ true),
    .accepted .refused]

/-- `AddCmd` on connection `c`, from its call to its return, when it has to wake the loop. -/
def request (c : Ref) (cmd : Cmd) (data : Bytes) : List (Label Unit) :=
  [.issue 0 c cmd data, .push 0, .cas 0, .trigger 0]

/-- The same when the loop has been woken up already. -/
def laterRequest (c : Ref) (cmd : Cmd) (data : Bytes) : List (Label Unit) :=
  [.issue 0 c cmd data, .push 0, .cas 0]

/-- `processCmd` on `n` commands and the descriptors `fds`, with nothing left to do. -/
def batch (n : Nat) (fds : List Nat) : List (Label Unit) :=
  .wake :: List.replicate (n + 3) .tau ++ fds.map .flush ++ List.replicate 6 .tau

end Connaxis
