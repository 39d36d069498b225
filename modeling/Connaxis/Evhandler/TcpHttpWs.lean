import Connaxis.LoopConn
import Connaxis.Evhandler.Sniff

namespace Connaxis

open Function

variable {σ τ η : Type}

/-- A call of a connection's packet handler or of the event handler. -/
inductive Call
  | connected
  | parse (inp : Bytes)
  | data (inp : Bytes)
  | closed (err : Option CloseErr)
deriving DecidableEq, Repr

def Handler.call (h : Handler σ) (hs : σ) (c : AppConn) : Call → σ
  | .connected => h.onConnected hs c
  | .parse inp => (h.parsePacket hs c inp).1
  | .data inp => (h.onData hs c inp).state
  | .closed err => h.onClosed hs c err

def Handler.calls (h : Handler σ) (hs : σ) (calls : List (AppConn × Call)) : σ :=
  calls.foldl (fun hs call => h.call hs call.1 call.2) hs

/-- The inputs a packet handler was asked to parse, connection by connection. -/
abbrev Record := Ref → List Bytes

/-- A handler that writes down what it is asked to parse. -/
def Handler.recorded (h : Handler σ) : Handler (σ × Record) where
  parsePacket hs c inp :=
    let (next, length, expect) := h.parsePacket hs.1 c inp
    ((next, update hs.2 c.ref (hs.2 c.ref ++ [inp])), length, expect)
  onData hs c inp :=
    let reaction := h.onData hs.1 c inp
    ⟨(reaction.state, hs.2), reaction.out, reaction.close, reaction.data⟩
  onConnected hs c := (h.onConnected hs.1 c, hs.2)
  onClosed hs c err := (h.onClosed hs.1 c err, hs.2)

namespace Evhandler

/-- The HTTP and WebSocket handler, with its book of connections `clis`. -/
structure HttpWs (η : Type) extends Handler η where
  trackConnected : η → AppConn → η
  tracked : η → UInt64 → Bool

def HttpWs.recorded (h : HttpWs η) : HttpWs (η × Record) where
  toHandler := h.toHandler.recorded
  trackConnected hs c := (h.trackConnected hs.1 c, hs.2)
  tracked hs id := h.tracked hs.1 id

/-- The packet handler a connection can have. -/
inductive PktHandler
  | router
  | httpws
  | tcp
deriving DecidableEq, Repr

/-- The two handlers behind the router; that of TCP may be missing. -/
structure Protos (τ η : Type) where
  httpws : HttpWs η
  tcp : Option (Handler τ)

/-- The state of `ConnaxisTcpHttpWsHandler` and of what is behind it, and the packet handler
of each connection. -/
structure Router (τ η : Type) where
  httpws : η
  tcp : τ
  tcpConns : Finset UInt64
  tcpOnline : Int
  pkt : Ref → Option PktHandler

namespace Router

variable (p : Protos τ η)

def setPktHandler (h : Router τ η) (c : AppConn) : Router τ η :=
  { h with pkt := if h.pkt c.ref = none then update h.pkt c.ref (some .router) else h.pkt }

def updatePktHandler (h : Router τ η) (c : AppConn) (now : PktHandler) : Router τ η :=
  { h with pkt := update h.pkt c.ref (some now) }

def parseHTTP (h : Router τ η) (c : AppConn) (inp : Bytes) : Router τ η × Int × Int :=
  let (httpws, length, expect) := p.httpws.parsePacket h.httpws c inp
  ({ h with httpws := httpws }, length, expect)

def parseTCP (h : Router τ η) (tcp : Handler τ) (c : AppConn) (inp : Bytes) :
    Router τ η × Int × Int :=
  let (state, length, expect) := tcp.parsePacket h.tcp c inp
  ({ h with tcp := state }, length, expect)

def routeHTTP (h : Router τ η) (c : AppConn) (inp : Bytes) : Router τ η × Int × Int :=
  let h := { h with httpws := p.httpws.trackConnected h.httpws c }
  (h.updatePktHandler c .httpws).parseHTTP p c inp

def routeTCP (h : Router τ η) (c : AppConn) (inp : Bytes) : Router τ η × Int × Int :=
  match p.tcp with
  | none => (h, -1, -1)
  | some tcp =>
    let h :=
      if c.id ∈ h.tcpConns then h
      else
        let h := { h with tcpConns := insert c.id h.tcpConns, tcpOnline := h.tcpOnline + 1,
                          tcp := tcp.onConnected h.tcp c }
        h.updatePktHandler c .tcp
    h.parseTCP tcp c inp

/-- `ParsePacket` of the router itself. A connection is in `tcpConns` only if there is a TCP
handler. -/
def parsePacket (h : Router τ η) (c : AppConn) (inp : Bytes) : Router τ η × Int × Int :=
  match decide (c.id ∈ h.tcpConns), p.tcp with
  | true, some tcp => (h.updatePktHandler c .tcp).parseTCP tcp c inp
  | _, _ =>
    let (mode, expect) := sniffProtoByFirstLine inp
    match mode with
    | .connModeHTTP => h.routeHTTP p c inp
    | .connModeTCP => h.routeTCP p c inp
    | _ => (h, 0, expect)

def dataHTTP (h : Router τ η) (c : AppConn) (inp : Bytes) : Reaction (Router τ η) :=
  let reaction := p.httpws.onData h.httpws c inp
  ⟨{ h with httpws := reaction.state }, reaction.out, reaction.close, reaction.data⟩

def dataTCP (h : Router τ η) (tcp : Handler τ) (c : AppConn) (inp : Bytes) :
    Reaction (Router τ η) :=
  let reaction := tcp.onData h.tcp c inp
  ⟨{ h with tcp := reaction.state }, reaction.out, reaction.close, reaction.data⟩

def onData (h : Router τ η) (c : AppConn) (inp : Bytes) : Reaction (Router τ η) :=
  match decide (c.id ∈ h.tcpConns), p.tcp with
  | true, some tcp => h.dataTCP tcp c inp
  | _, _ =>
    if p.httpws.tracked h.httpws c.id then h.dataHTTP p c inp else ⟨h, [], true, inp⟩

def onClosed (h : Router τ η) (c : AppConn) (err : Option CloseErr) : Router τ η :=
  if c.id ∈ h.tcpConns then
    let h := { h with tcpConns := h.tcpConns.erase c.id, tcpOnline := h.tcpOnline - 1 }
    match p.tcp with
    | none => h
    | some tcp => { h with tcp := tcp.onClosed h.tcp c err }
  else if p.httpws.tracked h.httpws c.id then
    { h with httpws := p.httpws.onClosed h.httpws c err }
  else h

/-- What the loop calls: the connection's packet handler, and the router as event handler.
The loop announces a connection before it reads it, so the packet handler is not nil. -/
def handler : Handler (Router τ η) where
  parsePacket h c inp :=
    match h.pkt c.ref, p.tcp with
    | some .router, _ => h.parsePacket p c inp
    | some .httpws, _ => h.parseHTTP p c inp
    | some .tcp, some tcp => h.parseTCP tcp c inp
    | _, _ => (h, -1, -1)
  onData h c inp :=
    match h.pkt c.ref, p.tcp with
    | some .router, _ => h.onData p c inp
    | some .httpws, _ => h.dataHTTP p c inp
    | some .tcp, some tcp => h.dataTCP tcp c inp
    | _, _ => ⟨h, [], true, inp⟩
  onConnected h c := h.setPktHandler c
  onClosed h c err := h.onClosed p c err

end Router

end Evhandler

end Connaxis
