import Connaxis.Callbacks
import Connaxis.Evhandler.Routing

namespace Connaxis.Evhandler

variable {τ η π : Type} {set : Bool} {r : Ref} {id : UInt64} {trace : List Obs} {v : View}

open View List Runs Sys Router
open WebSocket (stringToBytes)

variable {stream longer : Bytes}

theorem Sees.front {mode : ConnMode} {inputs : List Bytes} (sees : Sees stream mode inputs)
    (front : stream <+: longer) : Sees longer mode inputs := by
  obtain ⟨more, rfl⟩ := front
  exact sees.extend more

theorem View.Settled.front (settled : Settled stream v) (front : stream <+: longer) :
    Settled longer v :=
  ⟨settled.before, fun own => (settled.tcp own).imp_left (·.front front),
    fun own => (settled.http own).imp_left (·.front front)⟩

/-- The connection is with the handler of what it has received. -/
structure Routed (set : Bool) (r : Ref) (trace : List Obs) (v : View) : Prop
    extends Settled (received r trace) v where
  there : v.pkt = some (target set (received r trace)) ∨
    v.pkt = none ∧ .connected r ∉ trace ∧ received r trace = []
  handed : delivered r trace ≠ [] → v.pkt = some .tcp ∨ v.pkt = some .httpws

variable {o : Obs}

/-- Observations that bring no bytes and no packet. -/
theorem Routed.quiet (routed : Routed set r trace v) (bytes : received r [o] = [])
    (packets : delivered r [o] = []) (other : o ≠ .connected r) :
    Routed set r (trace ++ [o]) v := by
  have stream : received r (trace ++ [o]) = received r trace := by
    rw [received_append, bytes, append_nil]
  have told : .connected r ∈ trace ++ [o] ↔ .connected r ∈ trace := by
    rw [mem_append]
    exact or_iff_left fun last => other (mem_singleton.mp last).symm
  refine ⟨stream ▸ routed.toSettled, ?_, fun filled => routed.handed ?_⟩
  · rw [stream, told]
    exact routed.there
  rw [delivered_append, packets, append_nil] at filled
  exact filled

theorem Routed.others (routed : Routed set r trace v) (other : o.ref ≠ r) :
    Routed set r (trace ++ [o]) v := by
  have about : ∀ o' ∈ [o], o'.ref ≠ r := fun o' member => mem_singleton.mp member ▸ other
  refine routed.quiet (received_others about) (delivered_others about) ?_
  rintro rfl
  exact other rfl

theorem target_nil (set : Bool) : target set [] = .router := rfl

variable {inp : Bytes}

section

variable (routed : Routed set r trace v)
include routed

theorem Routed.connected : Routed set r (trace ++ [.connected r]) (v.call set .connected) := by
  have stream : received r (trace ++ [.connected r]) = received r trace :=
    (received_append _ _ _).trans (append_nil _)
  have packets : delivered r (trace ++ [.connected r]) = delivered r trace :=
    (delivered_append _ _ _).trans (append_nil _)
  have settled := routed.toSettled.call set .connected (by simp)
  refine ⟨stream ▸ settled, .inl ?_, fun filled => ?_⟩
  · rw [stream]
    rcases routed.there with there | ⟨new, -, nothing⟩
    · rw [pkt_kept (by simp [there]) .connected (by simp)]
      exact there
    · rw [nothing, target_nil, View.call, if_pos new]
  rw [packets] at filled
  have handed := routed.handed filled
  rw [pkt_kept (by rcases handed with h | h <;> simp [h]) .connected (by simp)]
  exact handed

theorem Routed.closed (err : Option CloseErr) :
    Routed set r (trace ++ [.closed r err]) (v.call set (.closed err)) := by
  have after := routed.quiet (o := .closed r err) rfl rfl nofun
  exact ⟨after.toSettled.call set _ nofun, after.there, after.handed⟩

/-- A handler that has the connection keeps it. -/
theorem Routed.parsed (inp : Bytes) (handed : v.pkt = some .tcp ∨ v.pkt = some .httpws) :
    Routed set r trace (v.call set (.parse inp)) := by
  have away : v.pkt ≠ some .router := by
    rcases handed with tcp | http
    · rw [tcp]
      exact nofun
    rw [http]
    exact nofun
  have known : v.pkt ≠ none := by
    rcases handed with tcp | http
    · rw [tcp]
      exact nofun
    rw [http]
    exact nofun
  have kept : (v.call set (.parse inp)).pkt = v.pkt := pkt_kept known _ fun own => absurd own away
  refine ⟨routed.toSettled.call set _ fun _ _ own => absurd own away, ?_, ?_⟩
  · rw [kept]
    exact routed.there
  rw [kept]
  exact routed.handed

/-- Bytes come in, and `ParsePacket` is called. -/
theorem Routed.read {bytes : Bytes} (told : .connected r ∈ trace)
    (whole : delivered r trace = [] → inp = received r (trace ++ [.read r bytes])) :
    Routed set r (trace ++ [.read r bytes]) (v.call set (.parse inp)) := by
  have front : received r trace <+: received r (trace ++ [.read r bytes]) := by
    rw [received_append]
    exact prefix_append _ _
  have packets : delivered r (trace ++ [.read r bytes]) = delivered r trace :=
    (delivered_append _ _ _).trans (append_nil _)
  have there : v.pkt = some (target set (received r trace)) :=
    routed.there.resolve_right fun new => new.2.1 told
  have settled := routed.toSettled.front front
  by_cases own : v.pkt = some .router
  · have void : delivered r trace = [] := by
      by_contra filled
      rcases routed.handed filled with tcp | http
      · rw [own] at tcp
        cases tcp
      rw [own] at http
      cases http
    have all := whole void
    subst all
    refine ⟨settled.call set _ fun inp is _ => ?_, .inl (settled.pkt_router set own _),
      fun filled => ?_⟩
    · rw [← Call.parse.inj is]
    rw [packets] at filled
    exact absurd void filled
  have handed : v.pkt = some .tcp ∨ v.pkt = some .httpws := by
    rw [there] at own ⊢
    cases now : target set (received r trace) with
    | router => exact absurd (congrArg some now) own
    | httpws => exact .inr rfl
    | tcp => exact .inl rfl
  refine Routed.parsed ⟨settled, .inl ?_, fun _ => handed⟩ inp handed
  rcases target_front set front with router | same
  · rw [there, router] at own
    exact absurd rfl own
  rw [← same]
  exact there

theorem Routed.data (handed : v.pkt = some .tcp ∨ v.pkt = some .httpws) (packet : Bytes)
    (close : Bool) : Routed set r (trace ++ [.data r packet close]) v := by
  have stream : received r (trace ++ [.data r packet close]) = received r trace :=
    (received_append _ _ _).trans (append_nil _)
  refine ⟨stream ▸ routed.toSettled, .inl ?_, fun _ => handed⟩
  rw [stream]
  refine routed.there.resolve_right fun new => ?_
  rw [new.1] at handed
  rcases handed with tcp | http
  · cases tcp
  · cases http

end

variable {p : Protos τ η}

/-- A packet is announced only by a handler that has the connection. -/
theorem handed_of_length {h next : Router τ η} {c : AppConn} {length expect : Int}
    (asked : (handler p).parsePacket h c inp = (next, length, expect))
    (positive : 0 < length) : next.pkt c.ref = some .tcp ∨ next.pkt c.ref = some .httpws := by
  have switched (h : Router τ η) (now : PktHandler) :
      (h.updatePktHandler c now).pkt c.ref = some now := Function.update_self _ _ _
  unfold handler at asked
  dsimp only at asked
  cases pkt : h.pkt c.ref with
  | none =>
    rw [pkt] at asked
    cases asked
    omega
  | some now =>
    rw [pkt] at asked
    cases now with
    | router =>
      dsimp only [parsePacket] at asked
      split at asked
      · cases asked
        exact .inl (switched _ _)
      rename_i new
      split at asked
      · cases asked
        exact .inr (switched _ _)
      · dsimp only [routeTCP] at asked
        split at asked
        · cases asked
          omega
        rename_i tcp present
        rw [if_neg fun listed => new tcp (decide_eq_true listed) present] at asked
        cases asked
        exact .inl (switched _ _)
      cases asked
      omega
    | httpws =>
      cases asked
      exact .inr pkt
    | tcp =>
      cases present : p.tcp with
      | none =>
        rw [present] at asked
        cases asked
        omega
      | some tcp =>
        rw [present] at asked
        cases asked
        exact .inl pkt

variable {e : Env (Recorded τ η) π}

/-- The router keeps to what it has seen, call by call. -/
theorem router_follows (same : e.handler = handler p.recorded) (id : UInt64) :
    Follows e r id fun trace h =>
      Orderly r trace → Routed p.tcp.isSome r trace (h.view ⟨r, id, false⟩) := by
  have own (h : Recorded τ η) {app : AppConn} (named : Named r id app)
      (is : app.ref = r) (k : Call) :
      ((handler p.recorded).call h app k).view ⟨r, id, false⟩ =
        (h.view ⟨r, id, false⟩).call p.tcp.isSome k := by
    have known := named.mp is
    obtain ⟨ref, number, client⟩ := app
    cases is
    cases known
    exact call_own (c := ⟨ref, number, client⟩) k
  have other (h : Recorded τ η) {app : AppConn} (named : Named r id app)
      (away : app.ref ≠ r) (k : Call) :
      ((handler p.recorded).call h app k).view ⟨r, id, false⟩ = h.view ⟨r, id, false⟩ :=
    call_other away (fun clash => away (named.mpr clash)) k
  constructor
  · intro trace hs app named before orderly
    rw [same]
    change Routed _ r _ (((handler p.recorded).call hs app .connected).view _)
    by_cases is : app.ref = r
    · rw [own hs named is, is]
      exact (before orderly.front).connected
    rw [other hs named is]
    exact (before orderly.front).others is
  · intro trace hs app err named before orderly
    rw [same]
    change Routed _ r _ (((handler p.recorded).call hs app (.closed err)).view _)
    by_cases is : app.ref = r
    · rw [own hs named is, is]
      exact (before orderly.front).closed err
    rw [other hs named is]
    exact (before orderly.front).others is
  · intro trace hs app bytes inp named before whole orderly
    rw [same]
    change Routed _ r _ (((handler p.recorded).call hs app (.parse inp)).view _)
    by_cases is : app.ref = r
    · rw [own hs named is]
      have whole := whole is
      rw [is] at whole orderly ⊢
      exact (before orderly.front).read orderly.told whole
    rw [other hs named is]
    exact (before orderly.front).others is
  · intro trace hs app inp named before filled orderly
    rw [same]
    change Routed _ r _ (((handler p.recorded).call hs app (.parse inp)).view _)
    by_cases is : app.ref = r
    · rw [own hs named is]
      have routed := before orderly
      exact routed.parsed inp (routed.handed (filled is))
    rw [other hs named is]
    exact before orderly
  intro trace hs app inp next length expect packet named asked positive before orderly
  rw [same] at asked ⊢
  rw [onData_view]
  have routed := before orderly.front
  by_cases is : app.ref = r
  · have handed := handed_of_length asked positive
    rw [is] at handed ⊢
    exact routed.data handed _ _
  · exact routed.others is

/-- The router with no connection yet. -/
def Router.new (tcp : τ) (httpws : η) : Recorded τ η :=
  ⟨(httpws, fun _ => []), (tcp, fun _ => []), ∅, 0, fun _ => none⟩

/-- In every run of the loop a connection that was announced is with the handler of what it
has received. -/
theorem run_routed (same : e.handler = handler p.recorded)
    (steady : e.alloc.Steady) {idx : Nat} {tcp : τ} {httpws : η} {shared : Bytes}
    (serves : e.alloc.Serves shared.length) {labels : List (Label π)}
    {s : Sys (Recorded τ η) π}
    (done : run (step e) (boot idx (new tcp httpws) shared) labels = some s)
    (made : r < s.loop.nconns)
    (unique : ∀ q, q < s.loop.nconns → q ≠ r → (s.loop.conns q).id ≠ (s.loop.conns r).id) :
    Routed p.tcp.isSome r s.loop.trace (s.loop.hs.view (s.loop.app r)) := by
  have routed := run_follows steady (router_follows (r := r) same) serves (fun id _ => ?_) done
    made unique
  · exact routed (((life_upheld e).always done).2 r made).conduct.orderly
  · exact ⟨new_settled _, .inr ⟨rfl, not_mem_nil, rfl⟩, fun filled => absurd rfl filled⟩

/-- Two handlers that take whatever has come for a packet. -/
def eager : Protos Unit Unit :=
  let handler := (Env.plain (fun _ => ([], false)) 8).handler
  ⟨{ handler with trackConnected := fun _ _ => (), tracked := fun _ _ => true }, some handler⟩

def routing : Env (Router (Unit × Record) (Unit × Record)) Unit :=
  { Env.plain (fun _ => ([], false)) 8 with
    alloc := BytesAlloctor.allocator 4 14 fun _ _ => 0
    handler := handler eager.recorded }

/-- `GET /` in two reads. -/
def splitRequest : Option (Sys (Router (Unit × Record) (Unit × Record)) Unit) :=
  run (step routing) (boot 0 (new () ()) [0, 0, 0, 0, 0, 0, 0, 0])
    (arrival 5 (fun _ => .full) ++
      [.event 5 ⟨false, false, true⟩, .recv [[.data [71, 69]]],
        .event 5 ⟨false, false, true⟩, .recv [[.data [84, 32, 47]]]])

end Connaxis.Evhandler
