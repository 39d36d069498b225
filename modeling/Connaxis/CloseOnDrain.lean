import Connaxis.MachineSound
import Connaxis.SendOrder

namespace Connaxis

open LoopConn Runs

variable {σ π : Type} {e : Env σ π}

namespace LoopConn

variable {l l' m : LoopConn σ π} {r : Ref}

/-- A connection that waits for its last byte to go out has one left. -/
def Honoured (l : LoopConn σ π) (r : Ref) : Prop :=
  Attached l r → (l.conns r).fd ∈ l.closeOnDrain → (l.conns r).pendingWrite > 0

theorem closeConn_honoured (err : Option CloseErr) : Honoured (l.closeConn e r err) r :=
  fun attached _ => absurd (closeConn_fd err) attached.1

theorem Untouched.honoured (same : Untouched l l' r) (held : Honoured l r) : Honoured l' r := by
  intro attached marked
  have before := same.attached.mp attached
  rw [same.conn] at marked ⊢
  exact held before ((same.marked before).mp marked)

theorem processRead_honoured {answers : List (List SysRead)}
    (unmarked : (l.conns r).fd ∉ l.closeOnDrain) (done : l.processRead e r answers = some l') :
    Honoured l' r := by
  obtain ⟨m, ext, inside, outcome⟩ := processRead_cases done
  cases outcome with
  | closed err => exact closeConn_honoured _
  | marked heard waits =>
    rw [updateWriteFd_books]
    exact fun _ _ => waits
  | waiting =>
    rw [updateWriteFd_books]
    intro _ marked
    rw [inside.fd_eq, inside.closeOnDrain_eq] at marked
    exact absurd marked unmarked

theorem processSend_honoured (done : l.processSend e r = some l') : Honoured l' r := by
  obtain ⟨c, sum, err, _, _, ⟨rfl, _⟩ | ⟨_, _, _, rfl⟩ | ⟨_, open', rfl⟩⟩ := processSend_cases done
  · exact closeConn_honoured _
  · exact closeConn_honoured _
  rw [updateWriteFd_books]
  intro _ marked
  rw [setConn_self] at marked ⊢
  exact Nat.pos_of_ne_zero fun drained => open' ⟨drained, marked⟩

theorem flushFd_honoured {counted : Bool} (sound : Sound e l) (attached : Attached l r)
    (unmarked : (l.conns r).fd ∉ l.closeOnDrain)
    (done : l.flushFd e (l.conns r).fd = some (l', counted)) : Honoured l' r := by
  have found := sound.found attached
  rcases flushFd_cases done with ⟨_, absent⟩ | ⟨q, c, sum, err, owner, _, drained, ends⟩
  · exact absurd (absent r found) attached.1
  rw [found] at owner
  cases owner
  rcases ends with ⟨rfl, _⟩ | ⟨why, _, _, rfl⟩ | ⟨_, _, rfl⟩
  · exact closeConn_honoured _
  · exact closeConn_honoured _
  rw [updateWriteFd_books]
  intro _ marked
  rw [setConn_self, (Works.refl.drain drained).fd] at marked
  exact absurd marked unmarked

theorem enqueueCmd_honoured {owner : Buf} {size : Nat} (attached : Attached l r)
    (held : Honoured l r) : Honoured (l.enqueueCmd e r owner size) r := by
  unfold enqueueCmd
  dsimp only
  split
  · exact closeConn_honoured _
  intro _ marked
  rw [setConn_self] at marked ⊢
  rw [EngineConn.enqueueWrite_pendingWrite]
  exact Nat.add_pos_left (held attached marked) size

theorem Greeted.honoured (unmarked : (l.conns r).fd ∉ l.closeOnDrain)
    (greeted : Greeted e l r l') : Honoured l' r := by
  cases greeted with
  | refused => exact closeConn_honoured _
  | waits => exact fun _ marked => absurd marked unmarked
  | read answers done => exact processRead_honoured unmarked done

end LoopConn

namespace Sys

/-- The read stage is not entered for a connection that waits to be closed. -/
def readsUnmarked (s : Sys σ π) (a : Label π) : Bool :=
  match a, s.pc with
  | .recv _, .read c => (s.loop.conns c).fd ∉ s.loop.closeOnDrain
  | _, _ => true

/-- Neither is such a connection flushed for its commands. -/
def leavesMarked (s : Sys σ π) (a : Label π) : Bool :=
  s.readsUnmarked a && match a with
    | .flush fd => fd ∉ s.loop.closeOnDrain
    | _ => true

end Sys

theorem honoured_upheld : Upheld e (fun s a => s.leavesMarked a = true) Honoured where
  fresh _ _ l r _ fresh _ attached := absurd attached.2 (fresh.loose _)
  frame _ _ _ same held := same.honoured held
  subject s a l op l' r guard sound made serves act own held := by
    cases act <;> cases own
    case close err _ => exact closeConn_honoured err
    case send attached done => exact processSend_honoured done
    case read answers attached done =>
      obtain ⟨rfl, ⟨given, rfl⟩, at_⟩ := serves
      simp only [Sys.leavesMarked, Sys.readsUnmarked, at_, Bool.and_true,
        decide_eq_true_eq] at guard
      exact processRead_honoured guard done
    case flush counted attached done =>
      obtain ⟨rfl, rfl⟩ := serves
      simp only [Sys.leavesMarked, Sys.readsUnmarked, Bool.true_and, decide_eq_true_eq] at guard
      exact flushFd_honoured sound attached guard done
    case enqueue owner size _ attached => exact enqueueCmd_honoured attached held
    case attach registered fresh small free greeted =>
      apply greeted.honoured
      intro marked
      simp only [placed, Function.update_self] at marked
      exact sound.marked _ marked free
    case drop fresh =>
      intro attached
      rw [Attached, setConn_self] at attached
      exact absurd rfl attached.1

/-- A connection that waits to be closed has output left, in every run in which only write
events serve it while it waits. -/
theorem close_on_drain_honoured (e : Env σ π) (idx : Nat) (hs : σ) (shared : Bytes)
    (labels : List (Label π)) (s : Sys σ π)
    (done : Sys.Reached e idx hs shared labels s)
    (undisturbed : Each (Sys.step e) (fun s a _ => s.leavesMarked a = true)
      (Sys.boot idx hs shared) labels)
    (r : Ref) (attached : Attached s.loop r)
    (marked : (s.loop.conns r).fd ∈ s.loop.closeOnDrain) :
    (s.loop.conns r).pendingWrite > 0 := by
  obtain ⟨wf, held⟩ := honoured_upheld.run done undisturbed
  exact held r (wf.sound.slot _ r attached.2).2.2.2.2 attached marked

/-- A kernel that takes one byte, refuses the next two calls and takes the rest. -/
def stalling : Nat → SysWrite
  | 0 => .short 1
  | 1 | 2 => .fail .EAGAIN
  | _ => .full

/-- The handler answers the first packet with three bytes and asks to close. -/
def farewell (answers : Nat → SysWrite) : List (Label Unit) :=
  arrival 5 answers ++ [.event 5 ⟨false, false, true⟩, .recv [[.data [7]]], .tau]

def parting (labels : List (Label Unit)) : Option (Sys Unit Unit) :=
  run (Sys.step (Env.plain (fun _ => ([1, 2, 3], true)) 8)) (Sys.boot 0 () [0, 0, 0, 0]) labels

theorem close_on_drain_honoured_farewell :
    ∃ s, parting (farewell stalling) = some s ∧ s.pc = .poll ∧
    (s.loop.conns 0).fd ∈ s.loop.closeOnDrain ∧ (s.loop.conns 0).pendingWrite > 0 := by
  obtain ⟨s, ran, between, attached, marked⟩ : ∃ s, parting (farewell stalling) = some s ∧
      s.pc = .poll ∧ Attached s.loop 0 ∧ (s.loop.conns 0).fd ∈ s.loop.closeOnDrain := computed
  refine ⟨s, ran, between, marked, ?_⟩
  exact close_on_drain_honoured _ 0 () _ _ s ran (by decide) 0 attached marked

/-- The flush stage drains a connection that waits to be closed, and leaves it open. -/
theorem drained_and_left_open :
    ∃ s ∈ parting (farewell stalling ++ request 0 .CMD_DATA [9] ++ batch 1 [5]), s.pc = .poll ∧
      Attached s.loop 0 ∧ (s.loop.conns 0).fd ∈ s.loop.closeOnDrain ∧
      (s.loop.conns 0).pendingWrite = 0 ∧ (s.loop.conns 0).fd ∉ s.loop.writeFds := by
  decide

end Connaxis
