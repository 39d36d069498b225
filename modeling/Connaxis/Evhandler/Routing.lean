import Connaxis.Evhandler.TcpHttpWs

namespace Connaxis.Evhandler

variable {τ η : Type}

/-- Both handlers write down what they are asked to parse. -/
def Protos.recorded (p : Protos τ η) : Protos (τ × Record) (η × Record) :=
  ⟨p.httpws.recorded, p.tcp.map Handler.recorded⟩

abbrev Recorded (τ η : Type) := Router (τ × Record) (η × Record)

/-- One connection as the router sees it, and what the two handlers have seen of it. -/
structure View where
  pkt : Option PktHandler
  listed : Bool
  tcp : List Bytes
  http : List Bytes
deriving DecidableEq, Repr

namespace View

def new : View := ⟨none, false, [], []⟩

def toHTTP (v : View) (inp : Bytes) : View :=
  { v with pkt := some .httpws, http := v.http ++ [inp] }

def toTCP (v : View) (inp : Bytes) : View :=
  { v with pkt := some .tcp, listed := true, tcp := v.tcp ++ [inp] }

/-- The part of a call that concerns one connection, its own. `set` tells whether there is a
TCP handler. -/
def call (set : Bool) (v : View) : Call → View
  | .connected => if v.pkt = none then { v with pkt := some .router } else v
  | .parse inp =>
    match v.pkt with
    | none => v
    | some .router =>
      if set && v.listed then v.toTCP inp
      else match (sniffProtoByFirstLine inp).1 with
        | .connModeHTTP => v.toHTTP inp
        | .connModeTCP => if set then v.toTCP inp else v
        | _ => v
    | some .httpws => { v with http := v.http ++ [inp] }
    | some .tcp => if set then { v with tcp := v.tcp ++ [inp] } else v
  | .data _ => v
  | .closed _ => { v with listed := false }

end View

namespace Router

variable {p : Protos τ η} {h : Recorded τ η} {c app : AppConn}

def view (h : Recorded τ η) (c : AppConn) : View :=
  ⟨h.pkt c.ref, decide (c.id ∈ h.tcpConns), h.tcp.2 c.ref, h.httpws.2 c.ref⟩

variable (inp : Bytes)

theorem parseHTTP_view :
    (h.parseHTTP p.recorded c inp).1.view c =
      { h.view c with http := (h.view c).http ++ [inp] } :=
  congrArg (View.mk _ _ _) (Function.update_self _ _ _)

theorem parseTCP_view (tcp : Handler τ) (inp : Bytes) :
    (h.parseTCP tcp.recorded c inp).1.view c =
      { h.view c with tcp := (h.view c).tcp ++ [inp] } :=
  congrArg (View.mk _ _ · _) (Function.update_self _ _ _)

theorem updatePktHandler_view (now : PktHandler) :
    (h.updatePktHandler c now).view c = { h.view c with pkt := some now } :=
  congrArg (View.mk · _ _ _) (Function.update_self _ _ _)

theorem routeHTTP_view : (h.routeHTTP p.recorded c inp).1.view c = (h.view c).toHTTP inp := by
  unfold routeHTTP
  rw [parseHTTP_view, updatePktHandler_view]
  rfl

theorem recorded_tcp (p : Protos τ η) : p.recorded.tcp = p.tcp.map Handler.recorded := rfl

theorem routeTCP_view (new : (p.tcp.isSome && (h.view c).listed) = false) :
    (h.routeTCP p.recorded c inp).1.view c =
      if p.tcp.isSome then (h.view c).toTCP inp else h.view c := by
  unfold routeTCP
  rw [recorded_tcp]
  cases present : p.tcp with
  | none => rfl
  | some tcp =>
    rw [present, Option.isSome_some, Bool.true_and] at new
    dsimp only [Option.map_some]
    rw [if_neg (of_decide_eq_false new), parseTCP_view, updatePktHandler_view]
    simp only [view, View.toTCP, Handler.recorded, Finset.mem_insert, true_or, decide_true]
    rfl

/-- The router's own `ParsePacket`. -/
theorem parsePacket_view (own : h.pkt c.ref = some .router) :
    (h.parsePacket p.recorded c inp).1.view c = (h.view c).call p.tcp.isSome (.parse inp) := by
  have pkt : (h.view c).pkt = some .router := own
  unfold parsePacket
  rw [recorded_tcp]
  split
  · rename_i tcp known present
    obtain ⟨own, found, rfl⟩ := Option.map_eq_some_iff.mp present
    have listed : (h.view c).listed = true := known
    rw [parseTCP_view, updatePktHandler_view, found]
    simp only [View.call, pkt, listed, View.toTCP]
    rfl
  rename_i other
  have new : (p.tcp.isSome && (h.view c).listed) = false := by
    cases found : p.tcp with
    | none => rfl
    | some tcp =>
      refine Bool.eq_false_of_not_eq_true fun known => other tcp.recorded known ?_
      rw [found]
      rfl
  simp only [View.call, pkt, new]
  rcases sniffProtoByFirstLine inp with ⟨mode, expect⟩
  cases mode with
  | connModeHTTP => exact routeHTTP_view inp
  | connModeTCP => exact routeTCP_view inp new
  | connModeUnknown | connModeWS => rfl

theorem view_congr {h' : Recorded τ η} (pkt : h'.pkt c.ref = h.pkt c.ref)
    (listed : c.id ∈ h'.tcpConns ↔ c.id ∈ h.tcpConns) (tcp : h'.tcp.2 c.ref = h.tcp.2 c.ref)
    (http : h'.httpws.2 c.ref = h.httpws.2 c.ref) : h'.view c = h.view c := by
  simp only [view, pkt, tcp, http, decide_eq_decide.mpr listed]

/-- `OnData` changes nothing about the routing, whoever gets the packet. -/
theorem onData_view (h : Recorded τ η) (c app : AppConn) (inp : Bytes) :
    ((handler p.recorded).onData h c inp).state.view app = h.view app := by
  have http : (h.dataHTTP p.recorded c inp).state.view app = h.view app := rfl
  have routed : (h.onData p.recorded c inp).state.view app = h.view app := by
    unfold onData
    split
    · rename_i present
      obtain ⟨tcp, -, rfl⟩ := Option.map_eq_some_iff.mp present
      rfl
    split
    · exact http
    · rfl
  unfold handler
  dsimp only
  split
  · exact routed
  · exact http
  · rename_i present
    obtain ⟨tcp, -, rfl⟩ := Option.map_eq_some_iff.mp present
    rfl
  · rfl

theorem onClosed_frame (err : Option CloseErr) :
    (h.onClosed p.recorded c err).pkt = h.pkt ∧
      (h.onClosed p.recorded c err).tcpConns = h.tcpConns.erase c.id ∧
      (h.onClosed p.recorded c err).tcp.2 = h.tcp.2 ∧
      (h.onClosed p.recorded c err).httpws.2 = h.httpws.2 := by
  unfold onClosed
  rw [recorded_tcp]
  by_cases listed : c.id ∈ h.tcpConns
  · rw [if_pos listed]
    cases p.tcp with
    | none | some => exact ⟨rfl, rfl, rfl, rfl⟩
  rw [if_neg listed, Finset.erase_eq_of_notMem listed]
  split <;> exact ⟨rfl, rfl, rfl, rfl⟩

/-- A call for a connection changes its view as `View.call` has it. -/
theorem call_own (k : Call) :
    ((handler p.recorded).call h c k).view c = (h.view c).call p.tcp.isSome k := by
  cases k with
  | connected =>
    change (h.setPktHandler c).view c = (if h.pkt c.ref = none then _ else _)
    unfold setPktHandler
    by_cases new : h.pkt c.ref = none
    · rw [if_pos new, if_pos new]
      exact updatePktHandler_view .router
    · rw [if_neg new, if_neg new]
  | parse inp =>
    change ((handler p.recorded).parsePacket h c inp).1.view c = _
    unfold handler
    dsimp only
    cases pkt : h.pkt c.ref with
    | none =>
      have own : (h.view c).pkt = none := pkt
      simp only [View.call, own]
    | some now =>
      cases now with
      | router => exact parsePacket_view inp pkt
      | httpws =>
        have own : (h.view c).pkt = some .httpws := pkt
        simp only [View.call, parseHTTP_view, own]
      | tcp =>
        have own : (h.view c).pkt = some .tcp := pkt
        rw [recorded_tcp]
        simp only [View.call, own]
        cases p.tcp with
        | none => rfl
        | some tcp =>
          dsimp only [Option.map_some, Option.isSome_some]
          simp only [parseTCP_view, own, if_true]
  | data inp => exact onData_view h c c inp
  | closed err =>
    obtain ⟨pkt, listed, tcp, http⟩ := onClosed_frame (p := p) (h := h) (c := c) err
    change (h.onClosed p.recorded c err).view c = _
    simp only [view, View.call, pkt, listed, tcp, http, Finset.mem_erase, ne_eq,
      not_true_eq_false, false_and, decide_false]

/-- A call for another connection does not change the view. -/
theorem call_other (ref : c.ref ≠ app.ref) (id : c.id ≠ app.id) (k : Call) :
    ((handler p.recorded).call h c k).view app = h.view app := by
  have away {α : Type} (f : Ref → α) (x : α) : Function.update f c.ref x app.ref = f app.ref :=
    Function.update_of_ne ref.symm _ _
  have http (h : Recorded τ η) (inp : Bytes) :
      (h.parseHTTP p.recorded c inp).1.view app = h.view app :=
    view_congr rfl Iff.rfl rfl (away _ _)
  have tcp (h : Recorded τ η) (tcp : Handler τ) (inp : Bytes) :
      (h.parseTCP tcp.recorded c inp).1.view app = h.view app :=
    view_congr rfl Iff.rfl (away _ _) rfl
  have switched (h : Recorded τ η) (now : PktHandler) :
      (h.updatePktHandler c now).view app = h.view app :=
    view_congr (away _ _) Iff.rfl rfl rfl
  cases k with
  | connected =>
    change (h.setPktHandler c).view app = h.view app
    unfold setPktHandler
    split
    · exact switched h .router
    · rfl
  | parse inp =>
    have routed : (h.parsePacket p.recorded c inp).1.view app = h.view app := by
      unfold parsePacket
      split
      · rename_i present
        obtain ⟨handler, -, rfl⟩ := Option.map_eq_some_iff.mp present
        rw [tcp, switched]
      dsimp only
      split
      · unfold routeHTTP
        rw [http, switched]
        rfl
      · unfold routeTCP
        rw [recorded_tcp]
        cases p.tcp with
        | none => rfl
        | some handler =>
          dsimp only [Option.map_some]
          rw [tcp]
          split
          · rfl
          rw [switched]
          refine view_congr rfl ?_ rfl rfl
          rw [Finset.mem_insert]
          exact or_iff_right id.symm
      · rfl
    change ((handler p.recorded).parsePacket h c inp).1.view app = h.view app
    unfold handler
    dsimp only
    split
    · exact routed
    · exact http h inp
    · rename_i present
      obtain ⟨handler, -, rfl⟩ := Option.map_eq_some_iff.mp present
      exact tcp h handler inp
    · rfl
  | data inp => exact onData_view h c app inp
  | closed err =>
    obtain ⟨pkt, listed, tcp, http⟩ := onClosed_frame (p := p) (h := h) (c := c) err
    refine view_congr (congrFun pkt _) ?_ (congrFun tcp _) (congrFun http _)
    change app.id ∈ (h.onClosed p.recorded c err).tcpConns ↔ _
    rw [listed, Finset.mem_erase]
    exact and_iff_right id.symm

end Router

/-- A handler has seen the connection from its first byte on, once the bytes that had come
were of its kind. -/
def Sees (stream : Bytes) (mode : ConnMode) (inputs : List Bytes) : Prop :=
  ∃ first rest, inputs = first :: rest ∧ first <+: stream ∧
    (sniffProtoByFirstLine first).1 = mode

variable {stream : Bytes}

theorem Sees.more {mode : ConnMode} {inputs : List Bytes} (sees : Sees stream mode inputs)
    (inp : Bytes) : Sees stream mode (inputs ++ [inp]) := by
  obtain ⟨first, rest, rfl, front, verdict⟩ := sees
  exact ⟨first, rest ++ [inp], rfl, front, verdict⟩

theorem Sees.extend {mode : ConnMode} {inputs : List Bytes} (sees : Sees stream mode inputs)
    (more : Bytes) : Sees (stream ++ more) mode inputs := by
  obtain ⟨first, rest, same, front, verdict⟩ := sees
  exact ⟨first, rest, same, front.trans (List.prefix_append _ _), verdict⟩

namespace View

variable {v : View} {stream : Bytes} {set : Bool}

/-- Only the handler that the stream calls for has seen the connection, if any has. -/
structure Settled (stream : Bytes) (v : View) : Prop where
  before : v.pkt = none ∨ v.pkt = some .router → v.listed = false ∧ v.tcp = [] ∧ v.http = []
  tcp : v.pkt = some .tcp → Sees stream .connModeTCP v.tcp ∧ v.http = []
  http : v.pkt = some .httpws → Sees stream .connModeHTTP v.http ∧ v.tcp = []

theorem new_settled (stream : Bytes) : Settled stream new :=
  ⟨fun _ => ⟨rfl, rfl, rfl⟩, nofun, nofun⟩

theorem Settled.toHTTP (settled : Settled stream v) {inp : Bytes} (own : v.pkt = some .router)
    (front : inp <+: stream) (verdict : (sniffProtoByFirstLine inp).1 = .connModeHTTP) :
    Settled stream (v.toHTTP inp) := by
  obtain ⟨-, tcp, http⟩ := settled.before (.inr own)
  refine ⟨nofun, nofun, fun _ => ⟨⟨inp, [], ?_, front, verdict⟩, tcp⟩⟩
  rw [View.toHTTP, http, List.nil_append]

theorem Settled.toTCP (settled : Settled stream v) {inp : Bytes} (own : v.pkt = some .router)
    (front : inp <+: stream) (verdict : (sniffProtoByFirstLine inp).1 = .connModeTCP) :
    Settled stream (v.toTCP inp) := by
  obtain ⟨-, tcp, http⟩ := settled.before (.inr own)
  refine ⟨nofun, fun _ => ⟨⟨inp, [], ?_, front, verdict⟩, http⟩, nofun⟩
  rw [View.toTCP, tcp, List.nil_append]

/-- What the router does with a connection that is still its own. -/
theorem Settled.routed (settled : Settled stream v) (own : v.pkt = some .router) (inp : Bytes) :
    v.call set (.parse inp) =
      match (sniffProtoByFirstLine inp).1 with
      | .connModeHTTP => v.toHTTP inp
      | .connModeTCP => if set then v.toTCP inp else v
      | _ => v := by
  obtain ⟨listed, -, -⟩ := settled.before (.inr own)
  simp only [View.call, own, listed, Bool.and_false, Bool.false_eq_true, if_false]

theorem Settled.call (set : Bool) (settled : Settled stream v) (k : Call)
    (feeds : ∀ inp, k = .parse inp → v.pkt = some .router → inp <+: stream) :
    Settled stream (v.call set k) := by
  cases k with
  | connected =>
    unfold View.call
    dsimp only
    split
    · rename_i new
      exact ⟨fun _ => settled.before (.inl new), nofun, nofun⟩
    · exact settled
  | data inp => exact settled
  | closed err =>
    refine ⟨fun early => ?_, settled.tcp, settled.http⟩
    obtain ⟨-, tcp, http⟩ := settled.before early
    exact ⟨rfl, tcp, http⟩
  | parse inp =>
    cases pkt : v.pkt with
    | none =>
      simp only [View.call, pkt]
      exact settled
    | some now =>
      cases now with
      | router =>
        rw [settled.routed pkt]
        have front := feeds inp rfl pkt
        cases verdict : (sniffProtoByFirstLine inp).1 with
        | connModeHTTP => exact settled.toHTTP pkt front verdict
        | connModeTCP =>
          dsimp only
          split
          · exact settled.toTCP pkt front verdict
          · exact settled
        | connModeUnknown | connModeWS => exact settled
      | httpws =>
        simp only [View.call, pkt]
        obtain ⟨sees, tcp⟩ := settled.http pkt
        exact ⟨nofun, nofun, fun _ => ⟨sees.more inp, tcp⟩⟩
      | tcp =>
        simp only [View.call, pkt]
        obtain ⟨sees, http⟩ := settled.tcp pkt
        split
        · exact ⟨nofun, fun _ => ⟨sees.more inp, http⟩, nofun⟩
        · exact settled

/-- The handler of a stream. Without a TCP handler the router keeps the connection, and
closes it. -/
def target (set : Bool) (stream : Bytes) : PktHandler :=
  match (sniffProtoByFirstLine stream).1 with
  | .connModeHTTP => .httpws
  | .connModeTCP => if set then .tcp else .router
  | _ => .router

theorem target_front (set : Bool) {inp : Bytes} (front : inp <+: stream) :
    target set inp = .router ∨ target set inp = target set stream := by
  obtain ⟨more, rfl⟩ := front
  by_cases settled : (sniffProtoByFirstLine inp).1 = .connModeUnknown
  · left
    rw [target, settled]
  right
  rw [target, target, sniff_stable settled]

theorem Settled.pkt_router (set : Bool) (settled : Settled stream v)
    (own : v.pkt = some .router) (inp : Bytes) :
    (v.call set (.parse inp)).pkt = some (target set inp) := by
  rw [settled.routed own, target]
  cases (sniffProtoByFirstLine inp).1 with
  | connModeHTTP => rfl
  | connModeTCP =>
    dsimp only
    split
    · rfl
    · exact own
  | connModeUnknown | connModeWS => exact own

/-- Only the router's `ParsePacket` hands a connection on. -/
theorem pkt_kept (known : v.pkt ≠ none) (k : Call)
    (left : v.pkt = some .router → ∀ inp, k ≠ .parse inp) : (v.call set k).pkt = v.pkt := by
  cases k with
  | connected => simp only [View.call, if_neg known]
  | data | closed => rfl
  | parse inp =>
    cases pkt : v.pkt with
    | none => exact absurd pkt known
    | some now =>
      cases now with
      | router => exact absurd rfl (left pkt inp)
      | httpws => simp only [View.call, pkt]
      | tcp =>
        simp only [View.call, pkt]
        split
        · rfl
        · exact pkt

/-- The connection has been announced and is with a handler that the stream allows. -/
structure OnTrack (set : Bool) (stream : Bytes) (v : View) : Prop extends Settled stream v where
  allowed : v.pkt = some .router ∨ v.pkt = some (target set stream)

theorem OnTrack.known (track : OnTrack set stream v) : v.pkt ≠ none := by
  rcases track.allowed with own | there
  · rw [own]
    exact nofun
  rw [there]
  exact nofun

/-- One call for the connection. Once it is with the handler of the stream it stays there. -/
theorem OnTrack.call (track : OnTrack set stream v) (k : Call)
    (feeds : ∀ inp, k = .parse inp → v.pkt = some .router → inp <+: stream) :
    OnTrack set stream (v.call set k) ∧
      (v.pkt = some (target set stream) ∨ k = .parse stream →
        (v.call set k).pkt = some (target set stream)) := by
  have settled := track.toSettled.call set k feeds
  by_cases routing : v.pkt = some .router ∧ ∃ inp, k = .parse inp
  · obtain ⟨own, inp, rfl⟩ := routing
    have now := track.toSettled.pkt_router set own inp
    have front := target_front set (feeds inp rfl own)
    refine ⟨⟨settled, ?_⟩, ?_⟩
    · rw [now]
      exact front.imp (congrArg some) (congrArg some)
    rintro (there | whole)
    · rw [own] at there
      rw [now]
      rcases front with router | same
      · rw [router, there]
      · rw [same]
    · rw [now, Call.parse.inj whole]
  have kept : (v.call set k).pkt = v.pkt :=
    pkt_kept track.known k fun own inp parse => routing ⟨own, inp, parse⟩
  refine ⟨⟨settled, by rw [kept]; exact track.allowed⟩, ?_⟩
  rw [kept]
  rintro (there | whole)
  · exact there
  · exact track.allowed.resolve_left fun own => routing ⟨own, stream, whole⟩

end View

/-- Whenever the router is asked to parse the connection, it is shown the stream's first
bytes: as many as have come. -/
def Fed (p : Protos τ η) (app : AppConn) (stream : Bytes)
    (h : Recorded τ η) (calls : List (AppConn × Call)) : Prop :=
  ∀ before inp after, calls = before ++ (app, .parse inp) :: after →
    ((Router.handler p.recorded).calls h before).pkt app.ref = some .router → inp <+: stream

theorem Fed.tail {p : Protos τ η} {app : AppConn} {h : Recorded τ η}
    {call : AppConn × Call} {rest : List (AppConn × Call)}
    (fed : Fed p app stream h (call :: rest)) :
    Fed p app stream ((Router.handler p.recorded).call h call.1 call.2) rest := by
  intro before inp after same own
  exact fed (call :: before) inp after (by rw [same]; rfl) own

open View in
/-- Any sequence of calls, for this connection and for others. -/
theorem calls_onTrack {p : Protos τ η} {app : AppConn} (calls : List (AppConn × Call))
    {h : Recorded τ η}
    (others : ∀ call ∈ calls, call.1 = app ∨ call.1.ref ≠ app.ref ∧ call.1.id ≠ app.id)
    (fed : Fed p app stream h calls) (track : OnTrack p.tcp.isSome stream (h.view app)) :
    OnTrack p.tcp.isSome stream (((Router.handler p.recorded).calls h calls).view app) ∧
      ((h.view app).pkt = some (target p.tcp.isSome stream) ∨ (app, .parse stream) ∈ calls →
        (((Router.handler p.recorded).calls h calls).view app).pkt =
          some (target p.tcp.isSome stream)) := by
  induction calls generalizing h with
  | nil =>
    refine ⟨track, ?_⟩
    rintro (there | member)
    · exact there
    · cases member
  | cons call rest ih =>
    obtain ⟨c, k⟩ := call
    have later := fun call member => others call (List.mem_cons_of_mem _ member)
    rcases others (c, k) List.mem_cons_self with own | ⟨ref, id⟩
    · dsimp only at own
      subst own
      have feeds : ∀ inp, k = .parse inp → (h.view c).pkt = some .router → inp <+: stream := by
        rintro inp rfl own
        exact fed [] inp rest rfl own
      obtain ⟨next, arrived⟩ := track.call k feeds
      rw [← Router.call_own] at next arrived
      obtain ⟨final, there⟩ := ih later fed.tail next
      refine ⟨final, fun either => there ?_⟩
      rcases either with here | member
      · exact .inl (arrived (.inl here))
      rcases List.mem_cons.mp member with first | member
      · exact .inl (arrived (.inr (Prod.mk.inj first).2.symm))
      · exact .inr member
    have same : ((Router.handler p.recorded).call h c k).view app = h.view app :=
      Router.call_other ref id k
    rw [← same] at track
    obtain ⟨final, there⟩ := ih later fed.tail track
    refine ⟨final, fun either => there ?_⟩
    rcases either with here | member
    · exact .inl (same ▸ here)
    refine .inr ((List.mem_cons.mp member).resolve_left fun first => ref ?_)
    rw [(Prod.mk.inj first).1]

end Connaxis.Evhandler
