import Connaxis.CmdChannel

namespace Connaxis

open LoopConn Runs

variable {σ π : Type} {e : Env σ π}

namespace Sys

variable {s s' : Sys σ π} {a : Label π}

/-- Consuming a command does not show at any connection but the one whose id it carries. -/
def Confined (e : Env σ π) (s : Sys σ π) (a : Label π) (s' : Sys σ π) : Prop :=
  ∀ cmd, s.taken e a = some cmd → ∀ r, r < s.loop.nconns → (s.loop.conns r).id ≠ cmd.id →
    Untouched s.loop s'.loop r

/-- A `CMD_CLOSE` is consumed while its descriptor is free or still belongs to the
connection that issued it. -/
def Timely (e : Env σ π) (s : Sys σ π) (a : Label π) : Prop :=
  ∀ cmd, s.taken e a = some cmd → cmd.cmd = .CMD_CLOSE → ∀ r,
    s.loop.connByFD e cmd.fd = some r → (s.loop.conns r).id = cmd.id

theorem confined_of_timely (wf : Wf e s) (done : s.step e a = some s') (timely : Timely e s a) :
    Confined e s a s' := by
  intro cmd front r made foreign
  rw [taken_consumed done front]
  have cases := consumeCmd_cases (e := e) s.loop cmd
  generalize s.loop.consumeCmd e cmd = l' at cases
  cases cases with
  | ignored tidy => exact tidy.untouched r
  | enqueued q owner found kind data own nonempty =>
    have attached := (wf.sound.attached found).1
    refine (enqueueCmd_effect wf.sound attached owner cmd.size).untouched attached ?_
    intro same
    exact foreign (same ▸ own)
  | closed q found kind tidy =>
    have attached := (wf.sound.attached found).1
    have closing := closeConn_effect wf.sound attached (some .CLOSE_BY_CLOSE_CMD)
    refine (closing.untouched attached ?_).trans (tidy.untouched r)
    intro same
    exact foreign (same ▸ timely cmd front kind q found)

/-- A close command that finds somebody else under its descriptor closes them. -/
theorem timely_of_confined (wf : Wf e s) (done : s.step e a = some s')
    (confined : Confined e s a s') : Timely e s a := by
  intro cmd front kind r found
  by_contra foreign
  have attached := (wf.sound.attached found).1
  have made := (wf.sound.slot _ r attached.2).2.2.2.2
  have same := (confined cmd front r made foreign).conn
  have gone : ((s.loop.consumeCmd e cmd).conns r).fd = 0 := by
    simp only [consumeCmd, found, kind]
    rw [reset_tidy, closeConn_open _ attached.1]
    simp only [Function.update_self]
    rfl
  rw [taken_consumed done front] at same
  rw [same] at gone
  exact attached.1 gone

end Sys

/-- Commands touch nobody but the connection they were issued for, in exactly those runs
in which no close command outlives its connection's hold on the descriptor. -/
theorem cmds_confined_iff (e : Env σ π) (idx : Nat) (hs : σ) (shared : Bytes)
    (labels : List (Label π)) :
    Each (Sys.step e) (Sys.Confined e) (Sys.boot idx hs shared) labels ↔
      Each (Sys.step e) (fun s a _ => Sys.Timely e s a) (Sys.boot idx hs shared) labels :=
  each_congr (I := Sys.Wf e) (fun _ _ _ step wf => (Sys.step_turn wf step).wf)
    (fun _ _ _ wf step => ⟨Sys.timely_of_confined wf step, Sys.confined_of_timely wf step⟩)
    (Sys.boot_wf idx hs shared)

/-- The first client asks to be closed and breaks off at once; the second one gets its
descriptor before the command is consumed. -/
def overtaken : Option (Sys Unit Unit) :=
  run (Sys.step (Env.plain (fun b => (b, false)) 8)) (Sys.boot 0 () [0, 0, 0, 0])
    (arrival 5 (fun _ => .full) ++
      [.issue 0 0 .CMD_CLOSE [], .push 0, .cas 0, .event 5 ⟨true, false, false⟩] ++
      arrival 5 (fun _ => .full) ++ [.trigger 0, .wake, .tau])

theorem stale_close_hits_new_owner : ∃ s ∈ overtaken,
    ∃ s' ∈ s.step (Env.plain (fun b => (b, false)) 8) .tau,
    ∃ cmd ∈ s.taken (Env.plain (fun b => (b, false)) 8) .tau,
      cmd.id = (s.loop.conns 0).id ∧ (s.loop.conns 1).id ≠ cmd.id ∧
      Attached s.loop 1 ∧ ¬ Attached s'.loop 1 ∧
      Obs.closed 1 (some .CLOSE_BY_CLOSE_CMD) ∈ s'.loop.trace := by
  decide

end Connaxis
