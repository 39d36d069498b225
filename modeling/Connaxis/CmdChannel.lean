import Connaxis.MachineSound

namespace Connaxis

open Runs List

variable {σ π : Type} {e : Env σ π}

namespace Sys

variable {s s' : Sys σ π} {a : Label π}

/-- The channel for the commands of dialled connections, or of accepted ones. -/
def chan (s : Sys σ π) (dial : Bool) : List CmdData := if dial then s.cmdDialChan else s.cmdChan

/-- The command a step puts on its channel: one that `AddCmd` reports as enqueued. -/
def sent (e : Env σ π) (s : Sys σ π) : Label π → Option CmdData
  | .push p => match s.producers p with
    | .pushCmd dial cmd => if (s.chan dial).length < e.chanSize then some cmd else none
    | _ => none
  | _ => none

/-- What a step does to the command channels: nothing, or it takes the first command off
one of them, or puts one at the end. -/
inductive Mail (e : Env σ π) (s : Sys σ π) (a : Label π) (s' : Sys σ π) : Prop
  | still (same : s'.chan = s.chan) (idle : s.taken e a = none) (unsent : s.sent e a = none)
  | took (dial : Bool) (cmd : CmdData) (front : s.taken e a = some cmd)
      (unsent : s.sent e a = none) (head : s.chan dial = cmd :: s'.chan dial)
      (other : s'.chan (!dial) = s.chan (!dial)) (consumed : s'.loop = s.loop.consumeCmd e cmd)
  | posted (p : Nat) (dial : Bool) (cmd : CmdData) (hand : s.producers p = .pushCmd dial cmd)
      (idle : s.taken e a = none) (out : s.sent e a = some cmd)
      (last : s'.chan dial = s.chan dial ++ [cmd]) (other : s'.chan (!dial) = s.chan (!dial))

variable {cmd : CmdData}

theorem step_mail (done : s.step e a = some s') : Mail e s a s' := by
  cases step_moves done with
  | pushDial at_ room =>
    refine .posted _ true _ at_ rfl ?_ rfl rfl
    simp only [sent, at_]
    exact if_pos room
  | pushCmd at_ room =>
    refine .posted _ false _ at_ rfl ?_ rfl rfl
    simp only [sent, at_]
    exact if_pos room
  | refuse at_ full =>
    refine .still rfl rfl ?_
    simp only [sent, at_]
    exact if_neg full
  | pushClient at_ | refuseClient at_ => exact .still rfl rfl (by simp only [sent, at_])
  | accepted _ _ round => cases round <;> exact .still rfl rfl rfl
  | endCmd at_ ends | endDial at_ ends =>
    refine .still rfl ?_ rfl
    rcases ends with used | empty
    · simp only [taken, at_, if_pos used]
    · simp only [taken, at_, empty, head?_nil, ite_self]
  | cmd at_ left queue =>
    refine .took false _ ?_ rfl queue rfl rfl
    simp only [taken, at_, if_neg left, queue, head?_cons]
  | dial at_ left queue =>
    refine .took true _ ?_ rfl queue rfl rfl
    simp only [taken, at_, if_neg left, queue, head?_cons]
  | send at_ | softSend at_ | endListen at_ | endAccept at_ | endFlush at_ | store at_
  | checkCmd at_ | checkDial at_ | checkAccept at_ | checkFlush at_ | selfPass at_ | selfRaise at_
  | selfSignal at_ => exact .still rfl (by simp only [taken, at_]) rfl
  | _ => exact .still rfl rfl rfl

theorem taken_consumed (done : s.step e a = some s') (front : s.taken e a = some cmd) :
    s'.loop = s.loop.consumeCmd e cmd := by
  cases step_mail done with
  | still _ idle | posted _ _ _ _ idle => cases idle.symm.trans front
  | took _ _ first _ _ _ consumed =>
    cases first.symm.trans front
    exact consumed

/-- A new command bears the descriptor and the id of the connection it was issued on. -/
theorem newCmd_names {l l' : LoopConn σ π} {c : Ref} {cmd : Cmd} {data : Bytes} {built : CmdData}
    (done : newCmd e l c cmd data = some (l', built)) :
    built.fd = (l.conns c).fd ∧ built.id = (l.conns c).id := by
  unfold newCmd at done
  dsimp only at done
  split at done
  · cases done
    exact ⟨rfl, rfl⟩
  split at done
  · cases done
  cases done
  exact ⟨rfl, rfl⟩

/-- A command in a producer's hand has been there before, or has just been issued. -/
def Issued (e : Env σ π) (s : Sys σ π) (p : Nat) (dial : Bool) (cmd : CmdData) : Prop :=
  s.producers p = .pushCmd dial cmd ∨
    ∃ c kind data l, c < s.loop.nconns ∧ newCmd e s.loop c kind data = some (l, cmd) ∧
      dial = (s.loop.conns c).client

theorem setProducer_issued {p q : Nat} {now : Producer} {dial : Bool}
    (hand : (s.setProducer p now).producers q = .pushCmd dial cmd)
    (away : ∀ dial cmd, now ≠ .pushCmd dial cmd) : Issued e s q dial cmd := by
  rw [setProducer_producers] at hand
  split at hand
  · exact absurd hand (away dial cmd)
  · exact .inl hand

theorem step_issued (done : s.step e a = some s') {q : Nat} {dial : Bool}
    (hand : s'.producers q = .pushCmd dial cmd) : Issued e s q dial cmd := by
  cases step_moves done with
  | issue _ known built =>
    rw [setProducer_producers] at hand
    split at hand
    · cases hand
      exact .inr ⟨_, _, _, _, known, built, rfl⟩
    · exact .inl hand
  | join | pushDial | pushCmd | refuse | pushClient | refuseClient | pass | raise | signal =>
    exact setProducer_issued hand fun _ _ clash => nomatch clash
  | accepted _ _ round => cases round <;> exact .inl hand
  | _ => exact .inl hand

/-- The commands that wait, on one channel and on the other. -/
def waiting (s : Sys σ π) : List CmdData := s.chan false ++ s.chan true

theorem waiting_perm (s : Sys σ π) (dial : Bool) :
    s.waiting.Perm (s.chan dial ++ s.chan (!dial)) := by
  cases dial
  · exact .refl _
  · exact perm_append_comm

theorem step_balance (done : s.step e a = some s') :
    ((s.sent e a).toList ++ s.waiting).Perm ((s.taken e a).toList ++ s'.waiting) := by
  cases step_mail done with
  | still same idle unsent => rw [waiting, waiting, same, idle, unsent]
  | took dial cmd front unsent head other =>
    have before := s.waiting_perm dial
    rw [head, ← other] at before
    rw [front, unsent]
    exact before.trans ((s'.waiting_perm dial).symm.cons cmd)
  | posted p dial cmd hand idle out last other =>
    have after := s'.waiting_perm dial
    rw [last, other, append_assoc] at after
    rw [idle, out]
    exact ((s.waiting_perm dial).cons cmd).trans (perm_middle.symm.trans after.symm)

theorem run_balance {labels : List (Label π)} (done : run (step e) s labels = some s') :
    (log (step e) (sent e) s labels ++ s.waiting).Perm
      (log (step e) (taken e) s labels ++ s'.waiting) := by
  induction labels generalizing s with
  | nil =>
    cases done
    exact .refl _
  | cons a rest ih =>
    obtain ⟨next, took, remaining⟩ := run_cons_cases done
    simp only [log, took, append_assoc]
    refine (perm_append_comm_assoc _ _ _).trans (((step_balance took).append_left _).trans ?_)
    exact (perm_append_comm_assoc _ _ _).trans ((ih remaining).append_left _)

end Sys

/-- No command is lost or doubled, whoever issues it and whenever: those that `AddCmd` has
accepted are those that the loop has consumed and those that wait. -/
theorem cmds_handled_once (e : Env σ π) (idx : Nat) (hs : σ) (shared : Bytes)
    (labels : List (Label π)) (s : Sys σ π)
    (done : Sys.Reached e idx hs shared labels s) :
    (log (Sys.step e) (Sys.sent e) (Sys.boot idx hs shared) labels).Perm
      (log (Sys.step e) (Sys.taken e) (Sys.boot idx hs shared) labels ++
        (s.cmdChan ++ s.cmdDialChan)) := by
  have whole := Sys.run_balance done
  rwa [show (Sys.boot idx hs shared : Sys σ π).waiting = [] from rfl, List.append_nil] at whole

theorem cmds_handled_once_request : ∃ (e : Env Unit Unit) (labels : List (Label Unit)), ∃ s,
    run (Sys.step e) (Sys.boot 0 () [0]) labels = some s ∧
    (log (Sys.step e) (Sys.sent e) (Sys.boot 0 () [0]) labels).length = 1 ∧
    (log (Sys.step e) (Sys.sent e) (Sys.boot 0 () [0]) labels).Perm
      (log (Sys.step e) (Sys.taken e) (Sys.boot 0 () [0]) labels ++
        (s.cmdChan ++ s.cmdDialChan)) :=
  ⟨.plain (fun b => (b, false)) 64,
    arrival 5 (fun _ => .full) ++ request 0 .CMD_CLOSE [] ++ batch 1 [], _, rfl, by decide,
    cmds_handled_once _ 0 () [0] _ _ rfl⟩

end Connaxis
