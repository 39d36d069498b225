import Connaxis.ConnWork
import Connaxis.SendOrder

namespace Connaxis

open WriteQueue Option ATLSConn List

variable {π : Type} {e : ConnEnv π}

/-- The scan finds something to send whenever something waits, unless the limit is used up. -/
theorem WriteQueue.iovecs_flatten_nil {maxBytes : Int} (items : List WriteEntry)
    (valid : ∀ item ∈ items, item.Ok) (room : Nat) {remaining : Int}
    (left : 0 < maxBytes → 0 < remaining)
    (void : (iovecs maxBytes items (room + 1) remaining).flatten = []) : items = [] := by
  cases items with
  | nil => rfl
  | cons item items =>
    have filled := valid item mem_cons_self
    have length := item.live_length filled
    have positive := filled.1
    unfold iovecs at void
    rw [if_neg (by omega)] at void
    by_cases limited : maxBytes > 0
    · rw [if_pos limited, if_neg (by omega), flatten_cons, append_eq_nil_iff] at void
      have taken := congrArg List.length void.1
      rw [length_nil] at taken
      split at taken
      · rw [length_take] at taken
        omega
      · omega
    rw [if_neg limited, flatten_cons, append_eq_nil_iff] at void
    rw [void.1, length_nil] at length
    omega

variable {err : Option Err}

/-- A kernel that takes everything takes at least one byte, until none is left. -/
theorem flushWriteQueue_full {fd : Nat} {s s' : Socket} {wq wq' : WriteQueue} {maxBytes n : Int}
    (live : fd ≠ 0) (valid : wq.Ok) (full : ∀ n, s.answers n = .full)
    (done : flushWriteQueue fd s wq maxBytes = (s', wq', n, err)) :
    err = none ∧ (0 < n ∨ n = 0 ∧ wq' = wq ∧ wq.bytes = 0) := by
  unfold flushWriteQueue at done
  rw [if_neg live] at done
  split at done
  · rename_i empty
    cases done
    exact ⟨rfl, .inr ⟨rfl, rfl, empty⟩⟩
  rename_i waits
  have entries : wq.items.drop wq.head ≠ [] := by
    intro void
    refine waits ?_
    rw [valid.pending_eq, content, void]
    rfl
  have offered (void : (iovecs maxBytes (wq.items.drop wq.head) maxWritevIovecs
      maxBytes).flatten = []) : False :=
    entries (iovecs_flatten_nil _ valid.entries 63 id void)
  dsimp only at done
  split at done
  · rename_i void
    exact (offered (by rw [eq_nil_of_length_eq_zero void]; rfl)).elim
  rename_i filled
  rw [Socket.writev, if_neg filled, Socket.write, full] at done
  simp only [reduceCtorEq, false_and, if_false] at done
  have positive : 0 < (iovecs maxBytes (wq.items.drop wq.head) maxWritevIovecs
      maxBytes).flatten.length :=
    length_pos_iff.mpr offered
  rw [if_neg (by omega)] at done
  cases done
  exact ⟨rfl, .inl (by omega)⟩

namespace EngineConn

/-- A plain connection whose kernel takes every write in full. -/
structure Prompt (c : EngineConn π) : Prop where
  plain : c.tls = none
  full : ∀ n, c.sock.answers n = .full

variable {c c' : EngineConn π}

theorem Prompt.of_name (prompt : c'.Prompt) (name : c'.name = c.name) : c.Prompt := by
  have engine : c'.tls.map ktls = c.tls.map ktls := congrArg Identity.ktls name
  have kernel : c'.sock.answers = c.sock.answers := congrArg Identity.answers name
  refine ⟨?_, kernel ▸ prompt.full⟩
  rw [prompt.plain, map_none] at engine
  exact map_eq_none_iff.mp engine.symm

theorem Prompt.works {d : EngineConn π} (prompt : c.Prompt) (works : Works e c d) : d.Prompt :=
  prompt.of_name (by rw [name, name, works.identity])

/-- Whatever a plain connection does, its queue stays in order. -/
theorem sending_lasting : Lasting e fun c => c.Sending where
  ring _ _ valid := ⟨valid.plain, valid.queue⟩
  stamp _ _ valid := ⟨valid.plain, valid.queue⟩
  read c len answers c' bytes err done valid := by
    obtain ⟨same, queue, _⟩ := read_identity done
    have engine : c'.tls.map ktls = c.tls.map ktls := congrArg Identity.ktls same
    rw [valid.plain, map_none] at engine
    exact ⟨map_eq_none_iff.mp engine, queue ▸ valid.queue⟩
  emit c n out c' n' err done valid := by
    obtain ⟨_, _, _, emitted, sending, _⟩ := emitOutput_stream (e := e) valid n out
    rw [done] at emitted
    cases emitted
    exact sending
  drain c c' sum err done valid := by
    obtain ⟨_, _, _, drained, sending, _⟩ := drainWrite_stream (e := e) valid
    rw [done] at drained
    cases drained
    exact sending

theorem drainLoop_full {plan : Int} (unlimited : plan ≤ 0) (rounds : Nat) {total sum : Int}
    (prompt : c.Prompt) (valid : c.Sending) (live : c.fd ≠ 0)
    (done : drainLoop e plan rounds c total = some (c', sum, err)) :
    err = none ∧ c'.pendingWrite = 0 := by
  induction rounds generalizing c total with
  | zero => cases done
  | succ rounds ih =>
    obtain ⟨next, n, failure, flushed, nextValid, _, _⟩ := flushN_stream (e := e) valid plan
    have identity := (flushN_identity flushed).1
    have nextPrompt : next.Prompt := prompt.of_name (by rw [name, name, identity])
    have nextLive : next.fd ≠ 0 := by
      rw [show next.fd = c.fd from congrArg Identity.fd identity]
      exact live
    have answer : failure = none ∧ (n ≤ 0 → next.wq.bytes = 0) := by
      rw [flushN, prompt.plain] at flushed
      rcases once : flushWriteQueue c.fd c.sock c.wq plan with ⟨s, rest⟩
      rw [once] at flushed
      cases flushed
      obtain ⟨fine, sent⟩ := flushWriteQueue_full live valid.queue prompt.full once
      refine ⟨fine, fun void => ?_⟩
      rcases sent with filled | ⟨_, same, empty⟩
      · omega
      · exact (congrArg bytes same).trans empty
    obtain ⟨rfl, emptied⟩ := answer
    unfold drainLoop at done
    rw [flushed] at done
    dsimp only at done
    generalize (if n > 0 then total + n else total) = sofar at done
    split at done
    · cases done
      refine ⟨rfl, ?_⟩
      rw [pendingWrite, nextValid.plain]
      exact emptied (by omega)
    · exact ih nextPrompt nextValid nextLive done

/-- An unlimited drain to such a kernel leaves nothing. -/
theorem drainWrite_full (unlimited : e.tuning.maxFlushBytesPerEvent = 0) {sum : Int}
    (prompt : c.Prompt) (valid : c.Sending) (live : c.fd ≠ 0)
    (done : c.drainWrite e = some (c', sum, err)) : err = none ∧ c'.pendingWrite = 0 := by
  unfold drainWrite at done
  split at done
  · rename_i empty
    cases done
    exact ⟨rfl, empty⟩
  · exact drainLoop_full (by omega) _ prompt valid live done

end EngineConn

end Connaxis
