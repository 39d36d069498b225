import Connaxis.MachineSound

namespace Connaxis

open LoopConn Runs List

variable {σ π : Type} {e : Env σ π}

/-- The bits of an `unix.EpollEvent` that `Poll` looks at. -/
structure EpollEvents where
  epollin : Bool
  epollpri : Bool
  epollout : Bool
  epollerr : Bool
  epollhup : Bool
  epollrdhup : Bool
deriving DecidableEq, Repr

/-- A hang-up is an error only when there is nothing to read. -/
def EpollEvents.rEvents (ev : EpollEvents) : Event where
  err := ev.epollhup && !ev.epollin
  write := ev.epollerr || ev.epollout
  read := ev.epollin || ev.epollpri || ev.epollrdhup

/-- The loop under `Poll.Poll`. `evs` is what is left of the batch, and nothing while the
loop waits; `reported` remembers who was known under a descriptor when the wait returned. -/
structure Poll (σ π : Type) where
  sys : Sys σ π
  wfd : Nat
  evs : Option (List (Nat × EpollEvents))
  reported : Nat → Option Ref

inductive PollLabel (π : Type)
  | wait (evs : List (Nat × EpollEvents))
  | handle (a : Label π)

namespace Poll

/-- What is left of the batch once `a` has begun: every callback of the poller is for the
entry at the front, and the idle callback comes after the last one. -/
def left (x : Poll σ π) : Label π → Option (Option (List (Nat × EpollEvents)))
  | .wake => match x.evs with
    | some ((fd, _) :: rest) => if fd = x.wfd then some (some rest) else none
    | _ => none
  | .event fd ev => match x.evs with
    | some ((front, raw) :: rest) =>
      if front ≠ x.wfd ∧ front = fd ∧ raw.rEvents = ev then some (some rest) else none
    | _ => none
  | .idle => match x.evs with
    | some [] => some none
    | _ => none
  | _ => some x.evs

def step (e : Env σ π) (x : Poll σ π) : PollLabel π → Option (Poll σ π)
  | .wait evs =>
    if x.evs.isNone ∧ x.sys.pc = .poll then
      some { x with evs := some evs, reported := x.sys.loop.connByFD e }
    else none
  | .handle a => match x.left a, x.sys.step e a with
    | some evs, some s => some { x with sys := s, evs := evs }
    | _, _ => none

def boot (idx : Nat) (hs : σ) (shared : Bytes) (wfd : Nat) : Poll σ π :=
  ⟨Sys.boot idx hs shared, wfd, none, fun _ => none⟩

/-- Descriptors whose error is still to be handled. -/
def errors (x : Poll σ π) : List Nat :=
  ((x.evs.getD []).filter fun ev => ev.2.rEvents.err).map Prod.fst

end Poll

/-- The descriptor under which a step attaches a connection. -/
def Sys.binds (s : Sys σ π) : Label π → Option Nat
  | .accepted (.conn nfd _ _ _) => match s.pc with
    | .listen _ .TYPE_CONN _ => some nfd
    | _ => none
  | .attach _ _ => s.acceptChan.head?.map fun c => (s.loop.conns c).fd
  | _ => none

/-- Nobody is attached under a descriptor whose error is still to be handled. -/
def Poll.spares (x : Poll σ π) : PollLabel π → Bool
  | .handle a => match x.sys.binds a with
    | none => true
    | some fd => fd ∉ x.errors
  | .wait _ => true

/-- An error event closes nobody but the connection it was reported for. -/
def Poll.ClosesOwn (x : Poll σ π) (a : PollLabel π) (y : Poll σ π) : Prop :=
  ∀ fd ev, a = .handle (.event fd ev) → ev.err = true →
    ∀ r, (x.sys.loop.conns r).fd ≠ 0 → (y.sys.loop.conns r).fd = 0 → x.reported fd = some r

namespace Sys

variable {s s' : Sys σ π} {a : Label π}

/-- A slot that is taken after a step was taken before it, or the step has taken it. -/
theorem step_slot (wf : Wf e s) (done : s.step e a = some s') {fd : Nat} {r : Ref}
    (slot : s'.loop.fdTable fd = some r) : s.loop.fdTable fd = some r ∨ s.binds a = some fd := by
  have turn := step_turn wf done
  obtain ⟨own, live, _, _, made⟩ := turn.wf.sound.slot fd r slot
  -- Along the operations of the step a connection keeps the descriptor it came with.
  obtain ⟨_, _, names, slots⟩ := turn.acts.keeps (I := fun m => s.loop.nconns ≤ m.nconns ∧
      (∀ q, q < m.nconns → (m.conns q).fd ≠ 0 →
        q < s.loop.nconns ∧ (m.conns q).fd = (s.loop.conns q).fd ∨
          s.loop.nconns ≤ q ∧ ∃ c, Brings a c ∧ (m.conns q).fd = c.fd) ∧
      ∀ fd q, m.fdTable fd = some q → s.loop.fdTable fd = some q ∨ Admits s a q) wf.sound
    ⟨Nat.le_refl _, fun q made _ => .inl ⟨made, rfl⟩, fun _ _ slot => .inl slot⟩ (by
      intro m op m' sound serves act ⟨more, names, slots⟩
      have later : m.nconns ≤ m'.nconns := by
        rcases act.nconns sound with same | ⟨_, grown, _⟩ <;> omega
      refine ⟨Nat.le_trans more later, fun q made live => ?_, fun fd q slot => ?_⟩
      · by_cases known : q < m.nconns
        · have same := (act.kept sound known).fd live
          rw [same] at live ⊢
          exact names q known live
        rcases act.nconns sound with same | ⟨rfl, grown, _⟩
        · omega
        have new : q = m.nconns := by omega
        rw [new]
        exact .inr ⟨more, _, serves, rfl⟩
      rcases act.slot sound slot with before | rfl
      · exact slots fd q before
      · exact .inr serves)
  rcases slots fd r slot with before | admitted
  · exact .inl before
  refine .inr ?_
  have name := names r made (own ▸ live)
  rw [own] at name
  cases a with
  | attach registered answers =>
    have fresh := wf.queued r (mem_of_head? admitted)
    rcases name with ⟨_, same⟩ | ⟨new, _⟩
    · simp only [binds, show s.acceptChan.head? = some r from admitted, Option.map_some, same]
    · exact absurd fresh.made (Nat.not_lt.mpr new)
  | accepted outcome =>
    rcases name with ⟨old, _⟩ | ⟨_, c, brings, same⟩
    · exact absurd (show r = s.loop.nconns from admitted) (Nat.ne_of_lt old)
    rcases brings with ⟨nfd, id, gen, sock, registered, label, rfl⟩ | ⟨_, _, _, _, _, _, label, _⟩
    · cases label
      dsimp only [step, stepWith] at done
      split at done
      · rename_i listener mode i at_
        cases mode with
        | TYPE_CONN => simp only [binds, at_, same, EngineConn.new]
        | TYPE_CONN_TLS =>
          -- The handshake comes first, so the step makes no connection.
          unfold acceptStep at done
          split at done
          · dsimp only at done
            split at done
            · cases done
            cases done
            rw [show r = s.loop.nconns from admitted] at made
            exact absurd made (Nat.lt_irrefl _)
          · cases done
      · cases done
    · cases label
  | _ => exact admitted.elim

end Sys

namespace Poll

variable {x y : Poll σ π} {a : PollLabel π}

/-- Whoever is found under a descriptor with an error is who it was reported for. -/
structure Faithful (e : Env σ π) (x : Poll σ π) : Prop where
  wf : Sys.Wf e x.sys
  known : ∀ fd ∈ x.errors, ∀ r, x.sys.loop.fdTable fd = some r → x.reported fd = some r

theorem boot_faithful (idx : Nat) (hs : σ) (shared : Bytes) (wfd : Nat) :
    Faithful e (boot idx hs shared wfd : Poll σ π) :=
  ⟨Sys.boot_wf idx hs shared, nofun⟩

theorem errors_tail {ev : Nat × EpollEvents} {rest : List (Nat × EpollEvents)} {s : Sys σ π}
    (batch : x.evs = some (ev :: rest)) :
    errors { x with sys := s, evs := some rest } ⊆ x.errors := by
  unfold errors
  rw [batch]
  exact (((sublist_cons_self ev rest).filter _).map _).subset

/-- Handling an entry leaves fewer of them. -/
theorem left_errors {label : Label π} {evs : Option (List (Nat × EpollEvents))} {s : Sys σ π}
    (begun : x.left label = some evs) : errors { x with sys := s, evs := evs } ⊆ x.errors := by
  unfold left at begun
  split at begun
  · split at begun
    · rename_i batch
      split at begun <;> cases begun
      exact errors_tail batch
    · cases begun
  · split at begun
    · rename_i batch
      split at begun <;> cases begun
      exact errors_tail batch
    · cases begun
  · split at begun <;> cases begun
    exact nil_subset _
  cases begun
  exact Subset.refl _

/-- An error that is being handled was in the batch. -/
theorem left_event {fd : Nat} {ev : Event} {evs : Option (List (Nat × EpollEvents))}
    (begun : x.left (.event fd ev) = some evs) (err : ev.err = true) : fd ∈ x.errors := by
  unfold left at begun
  dsimp only at begun
  split at begun
  · rename_i front raw rest batch
    split at begun
    · rename_i entry
      obtain ⟨_, rfl, rfl⟩ := entry
      unfold errors
      rw [batch]
      exact mem_map.mpr ⟨(front, raw), mem_filter.mpr ⟨mem_cons_self, err⟩, rfl⟩
    · cases begun
  · cases begun

theorem step_faithful (faithful : Faithful e x) (done : x.step e a = some y)
    (guarded : x.spares a = true) : Faithful e y := by
  cases a with
  | wait evs =>
    dsimp only [step] at done
    split at done
    · cases done
      refine ⟨faithful.wf, fun fd _ r slot => ?_⟩
      have own := faithful.wf.sound.slot fd r slot
      have attached : Attached x.sys.loop r := ⟨own.1 ▸ own.2.1, own.1 ▸ slot⟩
      have found := faithful.wf.sound.found attached
      rw [own.1] at found
      exact found
    · cases done
  | handle label =>
    dsimp only [step] at done
    split at done
    · rename_i evs s begun stepped
      cases done
      refine ⟨(Sys.step_turn faithful.wf stepped).wf, fun fd member r slot => ?_⟩
      have before := left_errors begun member
      rcases Sys.step_slot faithful.wf stepped slot with held | bound
      · exact faithful.known fd before r held
      simp only [spares, bound, decide_eq_true_eq] at guarded
      exact absurd before guarded
    · cases done

theorem Faithful.closesOwn (faithful : Faithful e x) (done : x.step e a = some y) :
    x.ClosesOwn a y := by
  intro fd ev label err r live closed
  subst label
  dsimp only [step] at done
  split at done
  · rename_i evs s begun stepped
    cases done
    dsimp only [Sys.step, Sys.stepWith] at stepped
    split at stepped
    · cases stepped
      unfold Sys.eventStep at closed
      split at closed
      · rename_i c found
        rw [if_pos err] at closed
        by_cases same : r = c
        · rw [same]
          exact faithful.known fd (left_event begun err) c (connByFD_some found).2.1
        rw [closeConn_others _ same] at closed
        exact absurd closed live
      split at closed
      · split at closed <;> exact absurd closed live
      · exact absurd closed live
    · cases stepped
  · cases done

end Poll

/-- In every run in which nobody is attached under a descriptor whose error is still to be
handled in the batch, an error event closes only the connection that was registered under
its descriptor when the wait returned. -/
theorem error_events_close_own (e : Env σ π) (idx : Nat) (hs : σ) (shared : Bytes) (wfd : Nat)
    (labels : List (PollLabel π))
    (spares : Each (Poll.step e) (fun x a _ => x.spares a = true) (Poll.boot idx hs shared wfd)
      labels) :
    Each (Poll.step e) (fun x a y => x.ClosesOwn a y)
      (Poll.boot idx hs shared wfd) labels := by
  refine each_of_invariant (I := Poll.Faithful e)
    (fun x a y done guarded faithful => ?_) spares
    (Poll.boot_faithful idx hs shared wfd)
  exact ⟨faithful.closesOwn done, Poll.step_faithful faithful done guarded⟩

/-- A client on descriptor 5 and a request to close it, up to the next wait. The wake
descriptor is 7. -/
def hangup : List (PollLabel Unit) :=
  .wait [(3, ⟨true, false, false, false, false, false⟩)] ::
    (arrival 5 (fun _ => .full) ++ Label.idle :: replicate 9 Label.tau ++
      request 0 .CMD_CLOSE []).map .handle

/-- The wake-up: one command is consumed. -/
def wakeUp : List (PollLabel Unit) := (batch 1 []).map .handle

/-- The listener has a client for whom the kernel picks descriptor 5. -/
def nextClient : List (PollLabel Unit) := (arrival 5 fun _ => .full).map .handle

def handled (labels : List (PollLabel Unit)) : Option (Poll Unit Unit) :=
  run (Poll.step (Env.plain (fun b => (b, false)) 4)) (Poll.boot 0 () [0, 0, 0, 0] 7) labels

/-- The error comes first in the batch. -/
def errorFirst : List (PollLabel Unit) :=
  hangup ++ .wait [(5, ⟨false, false, false, false, true, false⟩),
      (7, ⟨true, false, false, false, false, false⟩),
      (3, ⟨true, false, false, false, false, false⟩)] ::
    .handle (.event 5 ⟨true, false, false⟩) :: wakeUp ++ nextClient

/-- The error comes last, behind the close request and the new client. -/
def errorLast : List (PollLabel Unit) :=
  hangup ++ .wait [(7, ⟨true, false, false, false, false, false⟩),
      (3, ⟨true, false, false, false, false, false⟩),
      (5, ⟨false, false, false, false, true, false⟩)] ::
    wakeUp ++ nextClient

theorem error_events_close_own_errorFirst :
    Each (Poll.step (Env.plain (fun b => (b, false)) 4)) (fun x a y => x.ClosesOwn a y)
      (Poll.boot 0 () [0, 0, 0, 0] 7) errorFirst ∧
    ∃ x, handled errorFirst = some x ∧ .closed 0 (some .CLOSE_EPOLL_ERR) ∈ x.sys.loop.trace ∧
      (x.sys.loop.conns 1).fd = 5 := by
  exact ⟨error_events_close_own _ 0 () _ 7 errorFirst (by decide), computed⟩

/-- The error was reported for the first client and closes the second. -/
theorem stale_error_closes_newcomer : ∃ x y, handled errorLast = some x ∧
    x.step (Env.plain (fun b => (b, false)) 4) (.handle (.event 5 ⟨true, false, false⟩)) = some y ∧
    x.reported 5 = some 0 ∧ (x.sys.loop.conns 1).fd = 5 ∧ (y.sys.loop.conns 1).fd = 0 ∧
    .closed 1 (some .CLOSE_EPOLL_ERR) ∈ y.sys.loop.trace := by
  obtain ⟨x, ran, reported, live, step⟩ : ∃ x, handled errorLast = some x ∧ x.reported 5 = some 0 ∧
      (x.sys.loop.conns 1).fd = 5 ∧
      ((x.step (Env.plain (fun b => (b, false)) 4)
        (.handle (.event 5 ⟨true, false, false⟩))).map fun y =>
          ((y.sys.loop.conns 1).fd, y.sys.loop.trace.getLast?)) =
        some (0, some (.closed 1 (some .CLOSE_EPOLL_ERR))) := computed
  obtain ⟨y, stepped, shape⟩ := Option.map_eq_some_iff.mp step
  obtain ⟨closed, last⟩ := Prod.mk.inj shape
  exact ⟨x, y, ran, stepped, reported, live, closed, mem_of_getLast? last⟩

end Connaxis
