import Connaxis.EngineConn
import Connaxis.Ident
import Mathlib.Data.Finset.Erase
import Mathlib.Data.Finset.Insert

namespace Connaxis

open Memory Function

/-- Connections are told apart by number: the loop holds pointers to them. -/
abbrev Ref := Nat

inductive CloseErr
  | CLOSE_EPOLL_ERR
  | CLOSE_SEND_ERR
  | CLOSE_READ_ERR
  | CLOSE_PKT_SIZE_LIMIT
  | CLOSE_PKT_PARSE_ERR
  | CLOSE_MEM_ALLOC_FAIL
  | CLOSE_BY_USER_LAND
  | CLOSE_BY_ANTI_IDLE
  | CLOSE_BY_ACCEPT
  | CLOSE_BY_DUP_ACCEPT
  | CLOSE_BY_CLOSE_CMD
  | CLOSE_BY_SLOW_READER
deriving DecidableEq, Repr

/-- What a handler sees of a connection. -/
structure AppConn where
  ref : Ref
  id : UInt64
  client : Bool
deriving DecidableEq, Repr

/-- What `OnData` gives back. `data` is what it leaves in the slice it was lent. -/
structure Reaction (σ : Type) where
  state : σ
  out : Bytes
  close : Bool
  data : Bytes

/-- The application: packet handler and connection callbacks over a state of their own. -/
structure Handler (σ : Type) where
  parsePacket : σ → AppConn → Bytes → σ × Int × Int
  onData : σ → AppConn → Bytes → Reaction σ
  onConnected : σ → AppConn → σ
  onClosed : σ → AppConn → Option CloseErr → σ

/-- The settings of a loop. -/
structure Env (σ π : Type) extends ConnEnv π where
  handler : Handler σ
  tableSize : Nat
  pktSizeLimit : Int
  cliSbufLimit : Int
  checkInterval : Int
  idleLimit : Int
  chanSize : Nat
  /-- Listening descriptors and the kind of connection they accept. -/
  listeners : List (Nat × ConnType)
  /-- A custom id generator is installed. -/
  idg : Bool

def RingBufferGuardByteSize : Nat := 8 * 1024 * 1024

/-- What the application and the peer can observe, in order. -/
inductive Obs
  | connected (c : Ref)
  | read (c : Ref) (bytes : Bytes)
  | data (c : Ref) (bytes : Bytes) (close : Bool)
  | closed (c : Ref) (err : Option CloseErr)
deriving DecidableEq, Repr

/-- The connection an observation is about. -/
def Obs.ref : Obs → Ref
  | .connected c | .read c _ | .data c _ _ | .closed c _ => c

/-- The observations of reading a connection. -/
def Obs.Traffic (r : Ref) : Obs → Prop
  | .read c _ | .data c _ _ => c = r
  | .connected _ | .closed _ _ => False

inductive Interest
  | read
  | readWrite
deriving DecidableEq, Repr

/-- `elem` names the connection's element of `checkList`. -/
structure ConnChecker where
  touch : Int
  elem : Nat
deriving DecidableEq, Repr

/-- One loop, with the parts of the world it owns: the descriptor table, the
connections, the receive buffers and the application's state. -/
structure LoopConn (σ π : Type) where
  idx : Nat
  recvbuf : Slice
  writeFds : Finset Nat
  closeOnDrain : Finset Nat
  cmdFlushSet : Finset Nat
  count : Int
  dcount : Int
  seq : UInt32
  lastCheck : Int
  nowSec : Int
  checkList : List (Nat × Ref)
  elems : Nat
  touchMap : UInt64 → Option ConnChecker
  poll : Nat → Option Interest
  fdTable : Nat → Option Ref
  conns : Ref → EngineConn π
  nconns : Nat
  heap : Heap UInt8
  /-- The name of the next send buffer. -/
  owners : Nat
  /-- Send buffers given back by the loop itself. -/
  returned : List Nat
  hs : σ
  trace : List Obs

def fdTableGet (size : Nat) (table : Nat → Option Ref) (fd : Nat) : Option Ref :=
  if fd < size then table fd else none

/-- The flag is false when the descriptor has no slot. -/
def fdTableSet (size : Nat) (table : Nat → Option Ref) (fd : Nat) (r : Ref) :
    (Nat → Option Ref) × Bool :=
  if fd < size then (update table fd (some r), true) else (table, false)

def fdTableClear (size : Nat) (table : Nat → Option Ref) (fd : Nat) (r : Ref) :
    Nat → Option Ref :=
  if fd < size ∧ table fd = some r then update table fd none else table

namespace LoopConn

variable {σ π : Type} (e : Env σ π)

def setConn (l : LoopConn σ π) (r : Ref) (c : EngineConn π) : LoopConn σ π :=
  { l with conns := update l.conns r c }

def observe (l : LoopConn σ π) (o : Obs) : LoopConn σ π := { l with trace := l.trace ++ [o] }

def app (l : LoopConn σ π) (r : Ref) : AppConn := ⟨r, (l.conns r).id, (l.conns r).client⟩

def connByFD (l : LoopConn σ π) (fd : Nat) : Option Ref :=
  match fdTableGet e.tableSize l.fdTable fd with
  | some r => if (l.conns r).loopID = l.idx then some r else none
  | none => none

def storeConn (l : LoopConn σ π) (r : Ref) : LoopConn σ π × Bool :=
  let l := l.setConn r { l.conns r with loopID := l.idx }
  let (table, stored) := fdTableSet e.tableSize l.fdTable (l.conns r).fd r
  ({ l with fdTable := table }, stored)

def clearConn (l : LoopConn σ π) (r : Ref) : LoopConn σ π :=
  { l with fdTable := fdTableClear e.tableSize l.fdTable (l.conns r).fd r }

def updateWriteFd (l : LoopConn σ π) (r : Ref) : LoopConn σ π :=
  let c := l.conns r
  if c.fd = 0 then l
  else
    let wantWrite := decide (c.pendingWrite > 0)
    let hasWrite := decide (c.fd ∈ l.writeFds)
    if wantWrite = hasWrite then l
    else if wantWrite then
      { l with poll := update l.poll c.fd (some .readWrite),
               writeFds := insert c.fd l.writeFds }
    else
      { l with poll := update l.poll c.fd (some .read),
               writeFds := l.writeFds.erase c.fd }

/-- Take the connection's element out of the idle list. -/
def untrack (l : LoopConn σ π) (id : UInt64) : LoopConn σ π :=
  if e.checkInterval > 0 ∧ e.idleLimit > 0 then
    match l.touchMap id with
    | none => l
    | some checker =>
      { l with checkList := l.checkList.filter fun item => item.1 ≠ checker.elem,
               touchMap := update l.touchMap id none }
  else l

def closeConn (l : LoopConn σ π) (r : Ref) (err : Option CloseErr) : LoopConn σ π :=
  let c := l.conns r
  if c.fd = 0 then l
  else
    let l := { l with closeOnDrain := l.closeOnDrain.erase c.fd }.untrack e c.id
    let l := { l with count := l.count - 1, dcount := if c.client then l.dcount - 1 else l.dcount,
                      poll := update l.poll c.fd none,
                      writeFds := l.writeFds.erase c.fd,
                      cmdFlushSet := l.cmdFlushSet.erase c.fd }
    let l := (l.clearConn e r).setConn r (c.close e.toConnEnv)
    { l with hs := e.handler.onClosed l.hs ⟨r, c.id, c.client⟩ err }.observe (.closed r err)

/-- The limit on what a connection may keep waiting, checked at three places. -/
def overLimit (c : EngineConn π) : Option CloseErr :=
  if c.client then
    if c.pendingWrite ≥ RingBufferGuardByteSize then some .CLOSE_SEND_ERR else none
  else if (c.pendingWrite : Int) > e.cliSbufLimit then some .CLOSE_BY_SLOW_READER else none

/-- `none` when the drain does not come to an end. -/
def processSend (l : LoopConn σ π) (r : Ref) : Option (LoopConn σ π) :=
  match (l.conns r).drainWrite e.toConnEnv with
  | none => none
  | some (c, _, err) =>
    let l := l.setConn r c
    if ¬ Soft err then some (l.closeConn e r (some .CLOSE_SEND_ERR))
    else if c.pendingWrite = 0 ∧ c.fd ∈ l.closeOnDrain then
      some (l.closeConn e r (some .CLOSE_BY_USER_LAND))
    else some (l.updateWriteFd r)

/-- The connection was heard of: it moves to the back of the idle list. -/
def touch (l : LoopConn σ π) (r : Ref) : LoopConn σ π :=
  if e.checkInterval > 0 ∧ e.idleLimit > 0 ∧ !(l.conns r).client then
    match l.touchMap (l.conns r).id with
    | none => l
    | some checker =>
      { l with touchMap := update l.touchMap (l.conns r).id
                 (some { checker with touch := l.nowSec }),
               checkList := (l.checkList.filter fun item => item.1 ≠ checker.elem) ++
                 l.checkList.filter fun item => item.1 = checker.elem }
  else l

/-- The loop of `onIdle` over the front of the idle list. -/
def idleLoop : Nat → LoopConn σ π → LoopConn σ π
  | 0, l => l
  | rounds + 1, l =>
    match l.checkList with
    | [] => l
    | (_, r) :: rest =>
      let id := (l.conns r).id
      match l.touchMap id with
      | none => l
      | some checker =>
        if l.nowSec - checker.touch > e.idleLimit then
          let l := { l with checkList := rest,
                            touchMap := update l.touchMap id none }
          idleLoop rounds (l.closeConn e r (some .CLOSE_BY_ANTI_IDLE))
        else l

def onIdle (l : LoopConn σ π) : LoopConn σ π :=
  if l.lastCheck = 0 then { l with lastCheck := l.nowSec }
  else if e.checkInterval > 0 ∧ l.nowSec - l.lastCheck ≥ e.checkInterval then
    let l := { l with lastCheck := l.nowSec }
    if e.idleLimit > 0 then l.idleLoop e l.checkList.length else l
  else l

/-- Close every connection of this loop, in the order of the table. -/
def shutdown (l : LoopConn σ π) : LoopConn σ π :=
  (List.range e.tableSize).foldl (fun l fd =>
    match l.connByFD e fd with
    | some r => l.closeConn e r none
    | none => l) l

end LoopConn

end Connaxis
