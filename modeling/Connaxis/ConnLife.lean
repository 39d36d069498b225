import Connaxis.LoopEnds
import Connaxis.PromptConn

namespace Connaxis

open LoopConn EngineConn List

variable {σ π : Type} {e : Env σ π}

namespace LoopConn

variable {l l' : LoopConn σ π} {r : Ref}

/-- What holds of every open connection: the application has not been told that it is
closed, and if it is a plain one its queue is in order. -/
structure Alive (l : LoopConn σ π) (r : Ref) : Prop where
  unclosed : ∀ err, .closed r err ∉ l.trace
  sending : (l.conns r).tls = none → (l.conns r).Sending

theorem Ended.alive (held : Alive l r) (ended : Ended e l r l') (live : (l'.conns r).fd ≠ 0) :
    Alive l' r := by
  cases ended with
  | closed err => exact absurd (closeConn_fd err) live
  | kept worked =>
    obtain ⟨ext, extended, about⟩ := worked.traffic
    refine ⟨fun err member => ?_, fun plain => ?_⟩
    · rw [extended] at member
      rcases mem_append.mp member with early | late
      · exact held.unclosed err early
      · exact about _ late
    have engine : (l'.conns r).tls.map ATLSConn.ktls = (l.conns r).tls.map ATLSConn.ktls :=
      congrArg Identity.ktls worked.same
    rw [plain, Option.map_none] at engine
    have sending := held.sending (Option.map_eq_none_iff.mp engine.symm)
    rcases worked.works with works | ⟨owner, size, fits, same⟩
    · exact works.keeps sending_lasting sending
    rw [same]
    exact (enqueueWrite_stream sending owner size fits).1

theorem placed_alive (held : Alive l r) (registered : Bool) :
    Alive (l.placed e r registered) r := by
  refine ⟨fun err member => ?_, fun plain => ?_⟩
  · rcases mem_append.mp member with early | late
    · exact held.unclosed err early
    · cases mem_singleton.mp late
  simp only [placed, Function.update_self] at plain ⊢
  exact ⟨plain, (held.sending plain).queue⟩

/-- The loop's work for a connection that it leaves open. -/
theorem Act.alive {op : Op π} (sound : Sound e l) (act : Act e l op l') (own : op.subject = some r)
    (held : (l.conns r).fd ≠ 0 → Alive l r) (live : (l'.conns r).fd ≠ 0) : Alive l' r := by
  cases act.handled sound own with
  | served attached ended => exact ended.alive (held attached.1) live
  | joined registered fresh _ ended => exact ended.alive (placed_alive (held fresh.live) _) live
  | dropped =>
    refine absurd ?_ live
    rw [setConn_self]
    rfl

end LoopConn

theorem alive_upheld (e : Env σ π) :
    Upheld e (fun _ _ => True) fun l r => (l.conns r).fd ≠ 0 → Alive l r where
  fresh _ _ l r _ fresh _ _ :=
    ⟨fun _ member => fresh.unseen _ member rfl,
      fun plain => ⟨plain, fresh.queue ▸ WriteQueue.empty_ok⟩⟩
  frame l l' r same held live := by
    rw [same.conn] at live
    obtain ⟨ext, extended, about⟩ := same.trace
    refine ⟨fun err member => ?_, same.conn ▸ (held live).sending⟩
    rw [extended] at member
    rcases mem_append.mp member with early | late
    · exact (held live).unclosed err early
    · exact about _ late rfl
  subject _ _ _ _ _ _ _ sound _ _ act own held := act.alive sound own held

end Connaxis
