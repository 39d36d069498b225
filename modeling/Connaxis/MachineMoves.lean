import Connaxis.Machine

namespace Connaxis

variable {σ π : Type} {e : Env σ π}

/-- The connection whose event is being handled. -/
def Pc.serving : Pc → Option Ref
  | .send c _ | .read c | .softSend c => some c
  | _ => none

namespace Sys

variable {s s' : Sys σ π} {a : Label π}

/-- The connection of an accepted socket, before it is attached. -/
def newcomer (s : Sys σ π) (seq : UInt32) (fd : Nat) (id : UInt64) (sock : Socket) :
    LoopConn σ π :=
  (LoopConn.addConn { s.loop with seq := seq } (EngineConn.new fd id false sock none)).1

/-- Everything a round of `accept` can do. -/
inductive AcceptRound (e : Env σ π) (s : Sys σ π) : Accepted → Sys σ π → Prop
  | passed {outcome : Accepted} (pc : Pc) (seq : UInt32) (free : pc.serving = none)
      (goes : pc ≠ .stopped) :
      AcceptRound e s outcome { s with loop := { s.loop with seq := seq }, pc := pc }
  | attached {l : LoopConn σ π} (fd : Nat) (gen : UInt64) (sock : Socket) (registered : Bool)
      (seq : UInt32) (id : UInt64) (pc : Pc) (free : pc.serving = none) (goes : pc ≠ .stopped)
      (live : fd ≠ 0)
      (attach : (s.newcomer seq fd id sock).attachClient e s.loop.nconns registered [] = some l) :
      AcceptRound e s (.conn fd gen sock registered) { s with loop := l, pc := pc }

theorem acceptStep_cases {fd i : Nat} {mode : ConnType} {outcome : Accepted}
    (done : s.acceptStep e (LoopConn.attachClient e) fd mode i outcome = some s') :
    AcceptRound e s outcome s' := by
  unfold acceptStep at done
  split at done
  · cases outcome with
    | refused =>
      cases done
      exact .passed .poll s.loop.seq rfl nofun
    | unusable =>
      cases done
      exact .passed (.listen fd mode (i + 1)) s.loop.seq rfl nofun
    | conn nfd gen sock registered =>
      dsimp only at done
      split at done
      · cases done
      rename_i live
      generalize allocID _ s.loop.idx s.loop.seq nfd = named at done
      obtain ⟨seq, id⟩ := named
      cases mode with
      | TYPE_CONN =>
        dsimp only at done
        split at done
        · cases done
        rename_i l attach
        cases done
        exact .attached nfd gen sock registered seq id _ rfl nofun live attach
      | TYPE_CONN_TLS =>
        cases done
        exact .passed (.listen fd .TYPE_CONN_TLS (i + 1)) seq rfl nofun
  · cases done

theorem acceptStep_pc {fd i : Nat} {mode : ConnType} {outcome : Accepted}
    (done : s.acceptStep e (LoopConn.attachClient e) fd mode i outcome = some s') :
    s'.pc = .poll ∨ ∃ i, s'.pc = .listen fd mode i := by
  unfold acceptStep at done
  split at done
  · cases outcome with
    | refused =>
      cases done
      exact .inl rfl
    | unusable =>
      cases done
      exact .inr ⟨_, rfl⟩
    | conn =>
      dsimp only at done
      split at done
      · cases done
      cases mode with
      | TYPE_CONN =>
        dsimp only at done
        split at done <;> cases done
        exact .inr ⟨_, rfl⟩
      | TYPE_CONN_TLS =>
        cases done
        exact .inr ⟨_, rfl⟩
  · cases done

/-- Everything a step can do, one constructor for each way through it. -/
inductive Moves (e : Env σ π) (s : Sys σ π) : Label π → Sys σ π → Prop
  | issue {p c kind data l cmd} (idle : s.producers p = .idle) (known : c < s.loop.nconns)
      (built : newCmd e s.loop c kind data = some (l, cmd)) :
      Moves e s (.issue p c kind data)
        ({ s with loop := l }.setProducer p (.pushCmd (s.loop.conns c).client cmd))
  | join {p fd id client sock tls} (idle : s.producers p = .idle) (live : fd ≠ 0) :
      Moves e s (.join p fd id client sock tls)
        ({ s with loop := (s.loop.addConn (EngineConn.new fd id client sock tls)).1 }.setProducer p
          (.pushClient s.loop.nconns))
  | pushDial {p cmd} (at_ : s.producers p = .pushCmd true cmd)
      (room : s.cmdDialChan.length < e.chanSize) :
      Moves e s (.push p) ({ s with cmdDialChan := s.cmdDialChan ++ [cmd] }.setProducer p .cas)
  | pushCmd {p cmd} (at_ : s.producers p = .pushCmd false cmd)
      (room : s.cmdChan.length < e.chanSize) :
      Moves e s (.push p) ({ s with cmdChan := s.cmdChan ++ [cmd] }.setProducer p .cas)
  | refuse {p dial cmd} (at_ : s.producers p = .pushCmd dial cmd)
      (full : ¬ (if dial then s.cmdDialChan else s.cmdChan).length < e.chanSize) :
      Moves e s (.push p) ({ s with loop := s.loop.reset cmd }.setProducer p .idle)
  | pushClient {p c} (at_ : s.producers p = .pushClient c)
      (room : s.acceptChan.length < e.chanSize) :
      Moves e s (.push p) ({ s with acceptChan := s.acceptChan ++ [c] }.setProducer p .cas)
  | refuseClient {p c} (at_ : s.producers p = .pushClient c)
      (full : ¬ s.acceptChan.length < e.chanSize) : Moves e s (.push p) (s.setProducer p .idle)
  | pass {p} (at_ : s.producers p = .cas) (up : s.triggered = true) :
      Moves e s (.cas p) (s.setProducer p .idle)
  | raise {p} (at_ : s.producers p = .cas) (down : s.triggered = false) :
      Moves e s (.cas p) ({ s with triggered := true }.setProducer p .trigger)
  | signal {p} (at_ : s.producers p = .trigger) :
      Moves e s (.trigger p) ({ s with tokens := s.tokens + 1 }.setProducer p .idle)
  | syncTime {sec} : Moves e s (.syncTime sec) { s with loop := { s.loop with nowSec := sec } }
  | halt : Moves e s .halt { s with stopping := true }
  | haltTrigger (asked : s.stopping = true) :
      Moves e s .haltTrigger { s with tokens := s.tokens + 1 }
  | shutdown (at_ : s.pc = .poll) (asked : s.stopping = true) :
      Moves e s .wake { s with tokens := 0, loop := s.loop.shutdown e, pc := .stopped }
  | wake (at_ : s.pc = .poll) : Moves e s .wake { s with tokens := 0, pc := .accept 0 }
  | idle (at_ : s.pc = .poll) :
      Moves e s .idle { s with loop := s.loop.onIdle e, pc := .accept 0 }
  | failed {fd ev c} (at_ : s.pc = .poll) (err : ev.err = true)
      (found : s.loop.connByFD e fd = some c) :
      Moves e s (.event fd ev) { s with loop := s.loop.closeConn e c (some .CLOSE_EPOLL_ERR) }
  | writable {fd ev c} (at_ : s.pc = .poll) (found : s.loop.connByFD e fd = some c) :
      Moves e s (.event fd ev) { s with pc := .send c ev.read }
  | readable {fd ev c} (at_ : s.pc = .poll) (found : s.loop.connByFD e fd = some c) :
      Moves e s (.event fd ev) { s with pc := .read c }
  | listener {fd ev mode} (at_ : s.pc = .poll) :
      Moves e s (.event fd ev) { s with pc := .listen fd mode 0 }
  | ignored {fd ev} (at_ : s.pc = .poll) : Moves e s (.event fd ev) s
  | recv {answers c l} (at_ : s.pc = .read c) (read : s.loop.processRead e c answers = some l) :
      Moves e s (.recv answers)
        { s with loop := l, pc := if (l.conns c).fd ≠ 0 ∧ (l.conns c).pendingWrite > 0
          then .softSend c else .poll }
  | accepted {outcome next fd mode i} (at_ : s.pc = .listen fd mode i)
      (pc : next.pc = .poll ∨ ∃ i, next.pc = .listen fd mode i)
      (round : AcceptRound e s outcome next) : Moves e s (.accepted outcome) next
  | attach {registered answers c rest n l} (at_ : s.pc = .accept n)
      (queue : s.acceptChan = c :: rest)
      (attached : s.loop.attachClient e c registered answers = some l) :
      Moves e s (.attach registered answers)
        { s with acceptChan := rest, loop := l, pc := .accept (n + 1) }
  | flush {fd n l counted} (at_ : s.pc = .flush n) (marked : fd ∈ s.loop.cmdFlushSet)
      (flushed : s.loop.flushFd e fd = some (l, counted)) :
      Moves e s (.flush fd) { s with loop := l, pc := .flush (if counted then n + 1 else n) }
  | send {c readable l} (at_ : s.pc = .send c readable)
      (sent : s.loop.processSend e c = some l) :
      Moves e s .tau
        { s with loop := l, pc := if (l.conns c).fd ≠ 0 ∧ readable then .read c else .poll }
  | softSend {c l} (at_ : s.pc = .softSend c) (sent : s.loop.processSend e c = some l) :
      Moves e s .tau { s with loop := l, pc := .poll }
  | endListen {fd mode i} (at_ : s.pc = .listen fd mode i) : Moves e s .tau { s with pc := .poll }
  | endAccept {n} (at_ : s.pc = .accept n) : Moves e s .tau { s with pc := .cmd 0 }
  | endCmd {n} (at_ : s.pc = .cmd n)
      (ends : spent e.tuning.maxCmdPerEvent n = true ∨ s.cmdChan = []) :
      Moves e s .tau { s with pc := .dial 0 }
  | cmd {n cmd rest} (at_ : s.pc = .cmd n) (left : ¬ spent e.tuning.maxCmdPerEvent n = true)
      (queue : s.cmdChan = cmd :: rest) :
      Moves e s .tau
        { s with cmdChan := rest, loop := s.loop.consumeCmd e cmd, pc := .cmd (n + 1) }
  | endDial {n} (at_ : s.pc = .dial n)
      (ends : spent e.tuning.maxCmdPerEvent n = true ∨ s.cmdDialChan = []) :
      Moves e s .tau { s with pc := .flush 0 }
  | dial {n cmd rest} (at_ : s.pc = .dial n) (left : ¬ spent e.tuning.maxCmdPerEvent n = true)
      (queue : s.cmdDialChan = cmd :: rest) :
      Moves e s .tau
        { s with cmdDialChan := rest, loop := s.loop.consumeCmd e cmd, pc := .dial (n + 1) }
  | endFlush {n} (at_ : s.pc = .flush n) : Moves e s .tau { s with pc := .store }
  | store (at_ : s.pc = .store) : Moves e s .tau { s with triggered := false, pc := .checkCmd }
  | checkCmd (at_ : s.pc = .checkCmd) :
      Moves e s .tau { s with pc := if s.cmdChan.length > 0 then .cas else .checkDial }
  | checkDial (at_ : s.pc = .checkDial) :
      Moves e s .tau { s with pc := if s.cmdDialChan.length > 0 then .cas else .checkAccept }
  | checkAccept (at_ : s.pc = .checkAccept) :
      Moves e s .tau { s with pc := if s.acceptChan.length > 0 then .cas else .checkFlush }
  | checkFlush (at_ : s.pc = .checkFlush) :
      Moves e s .tau { s with pc := if s.loop.cmdFlushSet ≠ ∅ then .cas else .poll }
  | selfPass (at_ : s.pc = .cas) (up : s.triggered = true) : Moves e s .tau { s with pc := .poll }
  | selfRaise (at_ : s.pc = .cas) (down : s.triggered = false) :
      Moves e s .tau { s with triggered := true, pc := .trigger }
  | selfSignal (at_ : s.pc = .trigger) :
      Moves e s .tau { s with tokens := s.tokens + 1, pc := .poll }

theorem pushStep_moves {p : Nat} (done : s.pushStep e p = some s') : Moves e s (.push p) s' := by
  unfold pushStep at done
  split at done
  · rename_i dial cmd at_
    cases dial with
    | true =>
      rw [if_pos rfl] at done
      split at done <;> cases done
      · exact .pushDial at_ (by assumption)
      · exact .refuse at_ (by assumption)
    | false =>
      rw [if_neg Bool.false_ne_true] at done
      split at done <;> cases done
      · exact .pushCmd at_ (by assumption)
      · exact .refuse at_ (by assumption)
  · rename_i c at_
    split at done <;> cases done
    · exact .pushClient at_ (by assumption)
    · exact .refuseClient at_ (by assumption)
  · cases done

theorem eventStep_moves (fd : Nat) (ev : Event) (at_ : s.pc = .poll) :
    Moves e s (.event fd ev) (s.eventStep e fd ev) := by
  unfold eventStep
  cases found : s.loop.connByFD e fd with
  | some c =>
    dsimp only
    split
    · exact .failed at_ (by assumption) found
    split
    · exact .writable at_ found
    split
    · exact .readable at_ found
    · exact .ignored at_
  | none =>
    dsimp only
    split
    · split
      · exact .listener at_
      · exact .ignored at_
    · exact .ignored at_

theorem tauStep_moves (done : s.tauStep e = some s') : Moves e s .tau s' := by
  unfold tauStep at done
  split at done
  · rename_i c readable at_
    split at done <;> cases done
    exact .send at_ (by assumption)
  · rename_i c at_
    split at done <;> cases done
    exact .softSend at_ (by assumption)
  · rename_i i at_
    split at done <;> cases done
    exact .endListen at_
  · rename_i n at_
    split at done <;> cases done
    exact .endAccept at_
  · rename_i n at_
    split at done
    · cases done
      exact .endCmd at_ (.inl (by assumption))
    split at done <;> cases done
    · exact .endCmd at_ (.inr (by assumption))
    · exact .cmd at_ (by assumption) (by assumption)
  · rename_i n at_
    split at done
    · cases done
      exact .endDial at_ (.inl (by assumption))
    split at done <;> cases done
    · exact .endDial at_ (.inr (by assumption))
    · exact .dial at_ (by assumption) (by assumption)
  · rename_i n at_
    split at done <;> cases done
    exact .endFlush at_
  · cases done
    exact .store (by assumption)
  · cases done
    exact .checkCmd (by assumption)
  · cases done
    exact .checkDial (by assumption)
  · cases done
    exact .checkAccept (by assumption)
  · cases done
    exact .checkFlush (by assumption)
  · rename_i at_
    split at done <;> cases done
    · exact .selfPass at_ (by assumption)
    · exact .selfRaise at_ (Bool.eq_false_iff.mpr (by assumption))
  · cases done
    exact .selfSignal (by assumption)
  · cases done

theorem step_moves (done : s.step e a = some s') : Moves e s a s' := by
  cases a <;> dsimp only [step, stepWith] at done
  case issue p c cmd data =>
    split at done
    · split at done
      · split at done <;> cases done
        exact .issue (by assumption) (by assumption) (by assumption)
      · cases done
    · cases done
  case join p fd id client sock tls =>
    split at done
    · split at done <;> cases done
      exact .join (by assumption) (by assumption)
    · cases done
  case push p => exact pushStep_moves done
  case cas p =>
    split at done
    · rename_i at_
      split at done <;> cases done
      · exact .pass at_ (by assumption)
      · exact .raise at_ (Bool.eq_false_iff.mpr (by assumption))
    · cases done
  case trigger p =>
    split at done <;> cases done
    exact .signal (by assumption)
  case syncTime sec =>
    cases done
    exact .syncTime
  case halt =>
    cases done
    exact .halt
  case haltTrigger =>
    split at done <;> cases done
    exact .haltTrigger (by assumption)
  case wake =>
    split at done
    · rename_i ready
      split at done <;> cases done
      · exact .shutdown ready.1 (by assumption)
      · exact .wake ready.1
    · cases done
  case idle =>
    split at done <;> cases done
    exact .idle (by assumption)
  case event fd ev =>
    split at done
    · rename_i ready
      cases done
      exact eventStep_moves fd ev ready.1
    · cases done
  case recv answers =>
    split at done
    · split at done <;> cases done
      exact .recv (by assumption) (by assumption)
    · cases done
  case accepted outcome =>
    split at done
    · exact .accepted (by assumption) (acceptStep_pc done) (acceptStep_cases done)
    · cases done
  case attach registered answers =>
    split at done
    · split at done
      · cases done
      split at done
      · cases done
      split at done <;> cases done
      exact .attach (by assumption) (by assumption) (by assumption)
    · cases done
  case flush fd =>
    split at done
    · split at done
      · cases done
      rename_i right
      rw [not_or, Decidable.not_not] at right
      split at done <;> cases done
      exact .flush (by assumption) right.2 (by assumption)
    · cases done
  case tau => exact tauStep_moves done

end Sys

end Connaxis
