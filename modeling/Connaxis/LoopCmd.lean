import Connaxis.ProcessRead

namespace Connaxis

open Function

inductive Cmd
  | CMD_NOP
  | CMD_DATA
  | CMD_CLOSE
  | unknown (code : Nat)
deriving DecidableEq, Repr

/-- A command in flight. The buffer comes from the pool and may be longer than the payload. -/
structure CmdData where
  cmd : Cmd
  fd : Nat
  id : UInt64
  data : Option Buf
  size : Nat
  fits : ∀ owner ∈ data, size ≤ owner.bytes.length
  sized : data = none → size = 0

/-- A command without data. -/
def CmdData.bare (cmd : Cmd) (fd : Nat) (id : UInt64) : CmdData :=
  ⟨cmd, fd, id, none, 0, fun _ found => (nomatch found), fun _ => rfl⟩

/-- A command whose data has been copied to `owner`. -/
def CmdData.carrying (cmd : Cmd) (fd : Nat) (id : UInt64) (owner : Buf) (size : Nat)
    (fits : size ≤ owner.bytes.length) : CmdData :=
  ⟨cmd, fd, id, some owner, size, fun _ found => Option.some.inj found ▸ fits,
    fun void => (nomatch void)⟩

/-- The payload a command carries. -/
def CmdData.payload (cmd : CmdData) : Bytes :=
  match cmd.data with
  | none => []
  | some owner => owner.bytes.take cmd.size

namespace LoopConn

variable {σ π : Type} (e : Env σ π)

/-- `CmdData.reset`: what is still the command's own goes back to the pool. -/
def reset (l : LoopConn σ π) (cmd : CmdData) : LoopConn σ π :=
  match cmd.data with
  | none => l
  | some owner => { l with returned := l.returned ++ [owner.id] }

/-- The `CMD_DATA` branch once the connection is known to be the right one. -/
def enqueueCmd (l : LoopConn σ π) (r : Ref) (owner : Buf) (size : Nat) : LoopConn σ π :=
  let c := (l.conns r).enqueueWrite e.toConnEnv owner size
  let l := { l.setConn r c with cmdFlushSet := insert c.fd l.cmdFlushSet }
  match overLimit e c with
  | some err => l.closeConn e r (some err)
  | none => l

def consumeCmd (l : LoopConn σ π) (cmd : CmdData) : LoopConn σ π :=
  match l.connByFD e cmd.fd with
  | none => l.reset cmd
  | some r =>
    match cmd.cmd with
    | .CMD_DATA =>
      match cmd.data with
      | none => l
      | some owner =>
        if (l.conns r).id ≠ cmd.id ∨ cmd.size = 0 ∨ (l.conns r).fd = 0 then l.reset cmd
        else l.enqueueCmd e r owner cmd.size
    | .CMD_CLOSE => (l.closeConn e r (some .CLOSE_BY_CLOSE_CMD)).reset cmd
    | _ => l.reset cmd

/-- One descriptor of the flush stage. The flag tells whether it counts against the budget. -/
def flushFd (l : LoopConn σ π) (fd : Nat) : Option (LoopConn σ π × Bool) :=
  let l := { l with cmdFlushSet := l.cmdFlushSet.erase fd }
  match l.connByFD e fd with
  | none => some (l, false)
  | some r =>
    if (l.conns r).fd = 0 then some (l, false)
    else match (l.conns r).drainWrite e.toConnEnv with
      | none => none
      | some (c, _, err) =>
        let l := l.setConn r c
        if ¬ Soft err then some (l.closeConn e r (some .CLOSE_SEND_ERR), false)
        else match overLimit e c with
          | some err => some (l.closeConn e r (some err), false)
          | none => some (l.updateWriteFd r, true)

/-- Does a new connection have to be read at once? A TLS library may hold plaintext that
came with the handshake; with kernel TLS only what was set aside counts. -/
def readsAtOnce (c : EngineConn π) : Bool :=
  match c.tls with
  | none => false
  | some a => !a.ktls || a.preReadOff < a.preRead.length

/-- The handler learns of the connection, and so does the poller if it agrees. -/
def announce (l : LoopConn σ π) (r : Ref) (registered : Bool) : LoopConn σ π :=
  { l with
    hs := e.handler.onConnected l.hs (l.app r)
    trace := l.trace ++ [.connected r]
    poll := if registered then update l.poll (l.conns r).fd (some .read) else l.poll }

/-- `postAccept`, with its calls of the handler left open. `registered` is the poller's answer. The
flag is false when the connection must be closed again. -/
def acceptWith (announce : LoopConn σ π → Ref → Bool → LoopConn σ π)
    (processRead : LoopConn σ π → Ref → List (List SysRead) → Option (LoopConn σ π))
    (l : LoopConn σ π) (r : Ref) (registered : Bool) (answers : List (List SysRead)) :
    Option (LoopConn σ π × Bool) :=
  let l := announce l r registered
  if registered then
    if readsAtOnce (l.conns r) then
      match processRead l r answers with
      | none => none
      | some l => some (l, decide ((l.conns r).fd ≠ 0))
    else some (l, true)
  else some (l, false)

abbrev postAccept :
    LoopConn σ π → Ref → Bool → List (List SysRead) → Option (LoopConn σ π × Bool) :=
  acceptWith (announce e) (processRead e)

/-- Start watching a server connection for idleness. -/
def track (l : LoopConn σ π) (r : Ref) : LoopConn σ π :=
  if e.checkInterval > 0 ∧ e.idleLimit > 0 ∧ !(l.conns r).client then
    { l with touchMap := update l.touchMap (l.conns r).id (some ⟨l.nowSec, l.elems⟩),
             checkList := l.checkList ++ [(l.elems, r)], elems := l.elems + 1 }
  else l

/-- The first step of `attachClient`: a former owner of the descriptor is closed. -/
def closePrev (l : LoopConn σ π) (r : Ref) : LoopConn σ π :=
  match l.connByFD e (l.conns r).fd with
  | some prev => l.closeConn e prev (some .CLOSE_BY_DUP_ACCEPT)
  | none => l

def attachWith
    (postAccept : LoopConn σ π → Ref → Bool → List (List SysRead) → Option (LoopConn σ π × Bool))
    (l : LoopConn σ π) (r : Ref) (registered : Bool) (answers : List (List SysRead)) :
    Option (LoopConn σ π) :=
  match (l.closePrev e r).storeConn e r with
  | (l, false) => some (l.setConn r ((l.conns r).close e.toConnEnv))
  | (l, true) =>
    let l := { l with count := l.count + 1,
                      dcount := if (l.conns r).client then l.dcount + 1 else l.dcount }
    match postAccept l r registered answers with
    | none => none
    | some (l, false) => some (l.closeConn e r (some .CLOSE_BY_ACCEPT))
    | some (l, true) => some (l.track e r)

abbrev attachClient : LoopConn σ π → Ref → Bool → List (List SysRead) → Option (LoopConn σ π) :=
  attachWith e (postAccept e)

/-- A connection object that no loop knows yet. -/
def addConn (l : LoopConn σ π) (c : EngineConn π) : LoopConn σ π × Ref :=
  ({ l with conns := update l.conns l.nconns c, nconns := l.nconns + 1 }, l.nconns)

end LoopConn

end Connaxis
