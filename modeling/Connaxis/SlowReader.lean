import Connaxis.ConnLife

namespace Connaxis

open LoopConn Runs EngineConn Option List

variable {σ π : Type} {e : Env σ π}

namespace LoopConn

variable {l l' m : LoopConn σ π} {r : Ref}

/-- A server connection with nothing to send is within any limit. -/
theorem overLimit_drained {c : EngineConn π} (limit : 0 ≤ e.cliSbufLimit)
    (server : c.client = false)
    (drained : c.pendingWrite = 0) : overLimit e c = none := by
  unfold overLimit
  rw [if_neg (by rw [server]; nofun), drained]
  exact if_neg (by omega)

/-- The connection has not been blamed for slowness. -/
def Spared (l : LoopConn σ π) (r : Ref) : Prop :=
  .closed r (some .CLOSE_BY_SLOW_READER) ∉ l.trace

theorem Spared.closed {err : Option CloseErr} (kept : Spared l r)
    (other : err ≠ some .CLOSE_BY_SLOW_READER) : Spared (l.closeConn e r err) r := by
  intro member
  rcases closeConn_mem member with early | last
  · exact kept early
  · exact other (Obs.closed.inj last).2.symm

theorem Spared.updateWriteFd (kept : Spared l r) : Spared (l.updateWriteFd r) r := by
  rw [updateWriteFd_books]
  exact kept

theorem Spared.inside {ext : List Obs} (kept : Spared l r) (inside : Inside e l m r ext) :
    Spared m r := by
  intro member
  rw [inside.trace_eq] at member
  rcases mem_append.mp member with early | late
  · exact kept early
  · exact inside.about _ late

theorem processSend_spared (kept : Spared l r) (done : l.processSend e r = some l') :
    Spared l' r := by
  obtain ⟨c, sum, err, _, inside, ends⟩ := processSend_cases done
  rcases ends with ⟨rfl, _⟩ | ⟨_, _, _, rfl⟩ | ⟨_, _, rfl⟩
  · exact (kept.inside inside).closed nofun
  · exact (kept.inside inside).closed nofun
  · exact (kept.inside inside).updateWriteFd

theorem enqueueCmd_spared {owner : Buf} {size : Nat} (kept : Spared l r)
    (server : (l.conns r).client = false)
    (within : ((l.conns r).pendingWrite + size : Int) ≤ e.cliSbufLimit) :
    Spared (l.enqueueCmd e r owner size) r := by
  have quiet : overLimit e ((l.conns r).enqueueWrite e.toConnEnv owner size) = none := by
    unfold overLimit
    rw [enqueueWrite_pendingWrite]
    change (if (l.conns r).client = true then _ else _) = none
    rw [server, if_neg nofun]
    exact if_neg (by omega)
  unfold enqueueCmd
  dsimp only
  rw [quiet]
  exact kept

section

variable (unlimited : e.tuning.maxFlushBytesPerEvent = 0) (limit : 0 ≤ e.cliSbufLimit)
  (prompt : (l.conns r).Prompt) (server : (l.conns r).client = false)
  (live : (l.conns r).fd ≠ 0) (sending : (l.conns r).Sending)
include unlimited limit prompt server live sending

/-- After a drain such a connection is within its limit. -/
theorem within_after_drain {c : EngineConn π} (works : Works e.toConnEnv (l.conns r) c)
    {c' : EngineConn π} {sum : Int} {err : Option Err}
    (drained : c.drainWrite e.toConnEnv = some (c', sum, err)) : overLimit e c' = none := by
  have same := (works.drain drained).identity
  refine overLimit_drained limit ((congrArg Identity.client same).trans server) ?_
  refine (drainWrite_full unlimited (prompt.works works)
    (works.keeps sending_lasting sending) ?_ drained).2
  rw [works.fd]
  exact live

theorem processRead_spared {answers : List (List SysRead)} (kept : Spared l r)
    (done : l.processRead e r answers = some l') : Spared l' r := by
  obtain ⟨m, ext, inside, outcome⟩ := processRead_cases done
  have now := kept.inside inside
  cases outcome with
  | closed err heard slow =>
    refine now.closed fun blamed => ?_
    obtain ⟨⟨d, sum, failure, works, drained, _⟩, exceeds⟩ := slow (some.inj blamed)
    rw [within_after_drain unlimited limit prompt server live sending works drained] at exceeds
    cases exceeds
  | marked => exact Spared.updateWriteFd (l := m.mark r) now
  | waiting => exact now.updateWriteFd

theorem flushFd_spared {counted : Bool} (kept : Spared l r)
    (found : l.connByFD e (l.conns r).fd = some r)
    (done : l.flushFd e (l.conns r).fd = some (l', counted)) : Spared l' r := by
  rcases flushFd_cases done with ⟨_, absent⟩ | ⟨q, c, sum, err, owner, _, drained, ends⟩
  · exact absurd (absent r found) live
  rw [found] at owner
  cases owner
  rcases ends with ⟨rfl, _⟩ | ⟨why, _, exceeds, rfl⟩ | ⟨_, _, rfl⟩
  · exact Spared.closed kept nofun
  · rw [within_after_drain unlimited limit prompt server live sending .refl drained] at exceeds
    cases exceeds
  · exact Spared.updateWriteFd kept

end

end LoopConn

namespace Sys

/-- A data command that reaches the connection is consumed while backlog and payload together
are within the limit. -/
def withinLimit (e : Env σ π) (r : Ref) (s : Sys σ π) (a : Label π) : Bool :=
  match s.taken e a with
  | none => true
  | some cmd => cmd.cmd ≠ .CMD_DATA ∨ s.loop.connByFD e cmd.fd ≠ some r ∨
      ((s.loop.conns r).pendingWrite + cmd.size : Int) ≤ e.cliSbufLimit

end Sys

theorem spared_upheld (unlimited : e.tuning.maxFlushBytesPerEvent = 0)
    (limit : 0 ≤ e.cliSbufLimit) (own : Ref) :
    Upheld e (fun s a => s.withinLimit e own a = true) fun l r =>
      (r = own → (l.conns r).Prompt → (l.conns r).client = false → Spared l r) ∧
        ((l.conns r).fd ≠ 0 → Alive l r) where
  fresh s a l r _ fresh brought :=
    ⟨fun _ _ _ member => fresh.unseen _ member rfl,
      (alive_upheld e).fresh s a l r trivial fresh brought⟩
  frame l l' r same held := by
    refine ⟨fun named prompt server member => ?_, (alive_upheld e).frame l l' r same held.2⟩
    rw [same.conn] at prompt server
    obtain ⟨ext, extended, about⟩ := same.trace
    rw [extended] at member
    rcases mem_append.mp member with early | late
    · exact held.1 named prompt server early
    · exact about _ late rfl
  subject s a l op l' r guard sound made serves act own held := by
    refine ⟨fun named prompt' server' => ?_, act.alive sound own held.2⟩
    have name := (act.kept sound made).name
    have prompt := prompt'.of_name name
    have server : (l.conns r).client = false := (congrArg Identity.client name).symm.trans server'
    have kept := held.1 named prompt server
    have sending (live : (l.conns r).fd ≠ 0) := (held.2 live).sending prompt.plain
    cases act <;> cases own
    case close err _ => exact kept.closed serves.1
    case send attached done => exact processSend_spared kept done
    case read answers attached done =>
      exact processRead_spared unlimited limit prompt server attached.1 (sending attached.1) kept
        done
    case flush counted attached done =>
      exact flushFd_spared unlimited limit prompt server attached.1 (sending attached.1) kept
        (sound.found attached) done
    case enqueue owner size fits attached =>
      obtain ⟨rfl, cmd, front, kind, _, rfl, _, found, _⟩ := serves
      simp only [Sys.withinLimit, front, found, kind, ← named, ne_eq, not_true_eq_false, false_or,
        decide_eq_true_eq] at guard
      exact enqueueCmd_spared kept server guard
    case attach registered fresh small free greeted =>
      have conn : (l.placed e r registered).conns r = { l.conns r with loopID := l.idx } :=
        Function.update_self r _ _
      have now : Spared (l.placed e r registered) r := by
        intro member
        rcases mem_append.mp member with early | late
        · exact kept early
        · cases mem_singleton.mp late
      cases greeted with
      | refused => exact now.closed nofun
      | waits => exact now
      | read answers done =>
        refine processRead_spared unlimited limit ?_ ?_ (placed_attached fresh registered).1 ?_
          now done
        · rw [conn]
          exact ⟨prompt.plain, prompt.full⟩
        · rw [conn]
          exact server
        rw [conn]
        exact ⟨prompt.plain, (sending fresh.live).queue⟩
    case drop fresh => exact kept

/-- A connection that takes every byte at once is not dropped as a slow reader, in every
run in which each data command for it fits into the limit on top of what waits already. -/
theorem prompt_never_slow (e : Env σ π) (unlimited : e.tuning.maxFlushBytesPerEvent = 0)
    (limit : 0 ≤ e.cliSbufLimit) (idx : Nat) (hs : σ) (shared : Bytes) (labels : List (Label π))
    (s : Sys σ π) (done : Sys.Reached e idx hs shared labels s) (r : Ref)
    (within : Each (Sys.step e) (fun s a _ => s.withinLimit e r a = true)
      (Sys.boot idx hs shared) labels)
    (plain : (s.loop.conns r).tls = none) (server : (s.loop.conns r).client = false)
    (full : ∀ n, (s.loop.conns r).sock.answers n = .full) :
    .closed r (some .CLOSE_BY_SLOW_READER) ∉ s.loop.trace := by
  obtain ⟨wf, held⟩ := (spared_upheld unlimited limit r).run done within
  intro member
  exact (held r (wf.sound.seen _ member)).1 rfl ⟨plain, full⟩ server member

/-- A client whose kernel takes everything, and a limit of four bytes. -/
def bursts (labels : List (Label Unit)) : Option (Sys Unit Unit) :=
  run (Sys.step (Env.plain (fun b => (b, false)) 4)) (Sys.boot 0 () [0, 0, 0, 0])
    (arrival 5 (fun _ => .full) ++ labels)

def oneByOne : List (Label Unit) :=
  request 0 .CMD_DATA [1, 2, 3] ++ batch 1 [5] ++ request 0 .CMD_DATA [4, 5, 6] ++ batch 1 [5]

def together : List (Label Unit) :=
  request 0 .CMD_DATA [1, 2, 3] ++ laterRequest 0 .CMD_DATA [4, 5, 6] ++ [.wake, .tau, .tau, .tau]

theorem prompt_never_slow_oneByOne : ∃ s, bursts oneByOne = some s ∧
    (s.loop.conns 0).sock.accepted = [1, 2, 3, 4, 5, 6] ∧
    .closed 0 (some .CLOSE_BY_SLOW_READER) ∉ s.loop.trace := by
  obtain ⟨s, ran, accepted, plain, server⟩ : ∃ s, bursts oneByOne = some s ∧
      (s.loop.conns 0).sock.accepted = [1, 2, 3, 4, 5, 6] ∧ (s.loop.conns 0).tls.isNone ∧
      (s.loop.conns 0).client = false := computed
  have kernel : (bursts oneByOne).map (fun s => (s.loop.conns 0).sock.answers) =
      some fun _ => .full := rfl
  rw [ran] at kernel
  refine ⟨s, ran, accepted, ?_⟩
  exact prompt_never_slow _ rfl (by decide) 0 () _ _ s ran 0 (by decide)
    (isNone_iff_eq_none.mp plain) server (congrFun (some.inj kernel))

/-- With both payloads in one batch the second is held against the reader before the
socket has been offered anything. -/
theorem prompt_dropped_as_slow : ∃ s, bursts together = some s ∧
    (s.loop.conns 0).tls = none ∧ (s.loop.conns 0).client = false ∧
    (∀ n, (s.loop.conns 0).sock.answers n = .full) ∧ (s.loop.conns 0).sock.calls = 0 ∧
    .closed 0 (some .CLOSE_BY_SLOW_READER) ∈ s.loop.trace := by
  obtain ⟨s, ran, plain, server, idle, closed⟩ : ∃ s, bursts together = some s ∧
      (s.loop.conns 0).tls.isNone ∧ (s.loop.conns 0).client = false ∧
      (s.loop.conns 0).sock.calls = 0 ∧ .closed 0 (some .CLOSE_BY_SLOW_READER) ∈ s.loop.trace :=
    computed
  have kernel : (bursts together).map (fun s => (s.loop.conns 0).sock.answers) =
      some fun _ => .full := rfl
  rw [ran] at kernel
  exact ⟨s, ran, isNone_iff_eq_none.mp plain, server, congrFun (some.inj kernel),
    idle, closed⟩

end Connaxis
