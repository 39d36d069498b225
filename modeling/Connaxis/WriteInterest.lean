import Connaxis.MachineSound

namespace Connaxis

open LoopConn Runs Sys

variable {σ π : Type}

/-- Output never waits without a wake-up, and the loop never waits to write nothing. This
holds after every step of every run, so it holds between any two callbacks. -/
theorem write_interest (e : Env σ π) (idx : Nat) (hs : σ) (shared : Bytes) (labels : List (Label π))
    (s : Sys σ π) (done : Reached e idx hs shared labels s) (r : Ref)
    (attached : Attached s.loop r) (userspace : ¬ UsesKernelTls (s.loop.conns r)) :
    ((s.loop.conns r).pendingWrite > 0 →
        (s.loop.conns r).fd ∈ s.loop.writeFds ∨ (s.loop.conns r).fd ∈ s.loop.cmdFlushSet) ∧
      ((s.loop.conns r).fd ∈ s.loop.writeFds → (s.loop.conns r).fd ∉ s.loop.cmdFlushSet →
        (s.loop.conns r).pendingWrite > 0) := by
  rcases (run_wf done).sound.interest r attached not_false userspace with due | settled
  · exact ⟨fun _ => .inr due, fun _ absent => absurd due absent⟩
  · exact ⟨fun waits => .inl (settled.mpr waits), fun armed _ => settled.mp armed⟩

def backlog : Option (Sys Unit Unit) :=
  run (step (Env.plain (fun b => (b, false)) 8)) (boot 0 () [0, 0, 0, 0])
    (arrival 5 clogged ++ request 0 .CMD_DATA [1, 2, 3] ++ batch 1 [5])

theorem write_interest_backlog : ∃ s, backlog = some s ∧ s.pc = .poll ∧
    (s.loop.conns 0).pendingWrite = 2 ∧
      ((s.loop.conns 0).fd ∈ s.loop.writeFds ∨ (s.loop.conns 0).fd ∈ s.loop.cmdFlushSet) := by
  obtain ⟨s, ran, between, waits, attached, userspace⟩ : ∃ s, backlog = some s ∧ s.pc = .poll ∧
      (s.loop.conns 0).pendingWrite = 2 ∧ Attached s.loop 0 ∧ ¬ UsesKernelTls (s.loop.conns 0) :=
    computed
  have armed := write_interest _ 0 () _ _ s ran 0 attached userspace
  exact ⟨s, ran, between, waits, armed.1 (by omega)⟩

end Connaxis
