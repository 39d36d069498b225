import Connaxis.CloseOnDrain

namespace Connaxis

open LoopConn List Runs Sys

variable {σ π : Type} {e : Env σ π}

/-- After a packet with which the handler asked to close comes no further packet. -/
def Silent (r : Ref) (trace : List Obs) : Prop :=
  trace.Pairwise fun o p => (∃ bytes, o = .data r bytes true) → ∀ bytes close,
    p ≠ .data r bytes close

variable {r : Ref} {trace : List Obs}

theorem Quiet.silent (quiet : Quiet r trace) : Silent r trace := by
  refine List.Pairwise.imp_of_mem (R := fun _ _ => True) ?_
    (pairwise_of_forall fun _ _ => trivial)
  rintro o p member _ _ ⟨bytes, rfl⟩
  exact absurd member (quiet bytes)

/-- Observations of the loop that are no packets. -/
def NoPacket (r : Ref) (ext : List Obs) : Prop := ∀ o ∈ ext, ∀ bytes close, o ≠ .data r bytes close

theorem Silent.append {ext : List Obs} (silent : Silent r trace) (further : Silent r ext)
    (apart : Quiet r trace ∨ NoPacket r ext) : Silent r (trace ++ ext) := by
  refine pairwise_append.mpr ⟨silent, further, ?_⟩
  rintro o early p late ⟨bytes, rfl⟩
  rcases apart with quiet | plain
  · exact absurd early (quiet bytes)
  · exact plain p late

theorem Asked.silent (asked : Asked r trace) : Silent r trace := by
  obtain ⟨before, bytes, rfl, quiet⟩ := asked
  exact quiet.silent.append (pairwise_singleton _ _) (.inl quiet)

theorem NoPacket.quiet {ext : List Obs} (void : NoPacket r ext) : Quiet r ext :=
  fun bytes member => void _ member bytes true rfl

namespace LoopConn

variable {l l' m : LoopConn σ π} {r : Ref}

theorem closeConn_trace (err : Option CloseErr) :
    ∃ ext, (l.closeConn e r err).trace = l.trace ++ ext ∧ NoPacket r ext := by
  by_cases live : (l.conns r).fd = 0
  · rw [closeConn_dead err live]
    exact ⟨[], (append_nil _).symm, forall_mem_nil _⟩
  rw [closeConn_open err live]
  refine ⟨[.closed r err], rfl, fun o member bytes close => ?_⟩
  rw [mem_singleton.mp member]
  nofun

/-- The handler's request to close is its last word: the connection is gone, or waits for
its output. -/
structure Final (l : LoopConn σ π) (r : Ref) : Prop where
  silent : Silent r l.trace
  waits : Quiet r l.trace ∨ (l.conns r).fd = 0 ∨
    Attached l r ∧ (l.conns r).fd ∈ l.closeOnDrain

theorem Final.passes (held : Final l r) (ext : List Obs) (trace : l'.trace = l.trace ++ ext)
    (void : NoPacket r ext)
    (kept : (l'.conns r).fd = 0 ∨ ((l.conns r).fd ≠ 0 ∧
      (Attached l r → (l.conns r).fd ∈ l.closeOnDrain →
        Attached l' r ∧ (l'.conns r).fd ∈ l'.closeOnDrain))) : Final l' r := by
  refine ⟨?_, ?_⟩
  · rw [trace]
    exact held.silent.append void.quiet.silent (.inr void)
  rw [trace]
  rcases held.waits with quiet | closed | ⟨attached, marked⟩
  · exact .inl (quiet.append void.quiet)
  · rcases kept with closed' | ⟨live, _⟩
    · exact .inr (.inl closed')
    · exact absurd closed live
  rcases kept with closed | ⟨_, still⟩
  · exact .inr (.inl closed)
  · exact .inr (.inr (still attached marked))

theorem closeConn_final (err : Option CloseErr) (silent : Silent r l.trace) :
    Final (l.closeConn e r err) r := by
  obtain ⟨ext, extended, void⟩ := closeConn_trace (e := e) (l := l) (r := r) err
  refine ⟨?_, .inr (.inl (closeConn_fd err))⟩
  rw [extended]
  exact silent.append void.quiet.silent (.inr void)

theorem Untouched.final (same : Untouched l l' r) (held : Final l r) : Final l' r := by
  obtain ⟨ext, extended, about⟩ := same.trace
  have void : NoPacket r ext := by
    intro o member bytes close clash
    rw [clash] at member
    exact about _ member rfl
  by_cases closed : (l.conns r).fd = 0
  · refine held.passes ext extended void (.inl ?_)
    rw [same.conn]
    exact closed
  refine held.passes ext extended void (.inr ⟨closed, fun attached marked => ?_⟩)
  rw [same.conn]
  exact ⟨same.attached.mpr attached, (same.marked attached).mpr marked⟩

/-- Reading a connection that has not been asked to close. -/
theorem processRead_final {but : Ref → Prop} {answers : List (List SysRead)}
    (sound : SoundBut e l but) (attached : Attached l r) (quiet : Quiet r l.trace)
    (done : l.processRead e r answers = some l') : Final l' r := by
  have effect := processRead_effect sound attached done
  obtain ⟨m, ext, inside, outcome⟩ := processRead_cases done
  have trace := inside.trace_eq
  cases outcome with
  | closed err heard =>
    apply closeConn_final
    rw [trace]
    rcases heard with silent | asked
    · exact (quiet.append silent).silent
    · exact (quiet.asked asked).silent
  | marked heard waits =>
    have live : (((m.mark r).updateWriteFd r).conns r).fd ≠ 0 := by
      rw [updateWriteFd_books]
      exact inside.fd_eq ▸ attached.1
    have still := effect.attached_of_open attached live
    rw [updateWriteFd_books] at still ⊢
    refine ⟨?_, .inr (.inr ⟨still, Finset.mem_insert_self _ _⟩)⟩
    change Silent r m.trace
    rw [trace]
    exact (quiet.asked heard).silent
  | waiting heard =>
    rw [updateWriteFd_books]
    have all : Quiet r m.trace := by
      rw [trace]
      exact quiet.append heard
    exact ⟨all.silent, .inl all⟩

theorem Wrote.final {c : EngineConn π} (wrote : Wrote e l r c l') (attached : Attached l r)
    (fd : c.fd = (l.conns r).fd) (held : Final l r) : Final l' r := by
  cases wrote with
  | closed => exact closeConn_final _ held.silent
  | kept writeFds marks set poll more =>
    refine held.passes [] (append_nil _).symm (forall_mem_nil _)
      (.inr ⟨attached.1, fun present marked => ?_⟩)
    rw [Attached, setConn_self, fd]
    exact ⟨present, more marked⟩

theorem Greeted.final (sound : SoundBut e l (· = r)) (attached : Attached l r)
    (quiet : Quiet r l.trace) (greeted : Greeted e l r l') : Final l' r := by
  cases greeted with
  | refused => exact closeConn_final _ quiet.silent
  | waits => exact ⟨quiet.silent, .inl quiet⟩
  | read answers done => exact processRead_final sound attached quiet done

theorem Fresh.quiet (fresh : Fresh l r) : Quiet r l.trace :=
  fun _ member => fresh.unseen _ member rfl

end LoopConn

theorem final_upheld : Upheld e (fun s a => s.readsUnmarked a = true) Final where
  fresh _ _ l r _ fresh _ := ⟨fresh.quiet.silent, Or.inl fresh.quiet⟩
  frame _ _ _ same held := same.final held
  subject s a l op l' r guard sound made serves act own held := by
    cases act <;> cases own
    case close err _ => exact closeConn_final err held.silent
    case send attached done =>
      obtain ⟨c, sum, err, drained, wrote⟩ := processSend_wrote done
      exact wrote.final attached (Works.refl.drain drained).fd held
    case read answers attached done =>
      obtain ⟨rfl, ⟨given, rfl⟩, at_⟩ := serves
      simp only [readsUnmarked, at_, decide_eq_true_eq] at guard
      rcases held.waits with quiet | closed | ⟨_, marked⟩
      · exact processRead_final sound attached quiet done
      · exact absurd closed attached.1
      · exact absurd marked guard
    case flush counted attached done =>
      obtain ⟨c, sum, err, drained, wrote⟩ :=
        flushFd_wrote (sound.found attached) attached.1 done
      exact wrote.final attached (Works.refl.drain drained).fd held
    case enqueue owner size _ attached =>
      exact (enqueueCmd_wrote owner size).final attached rfl held
    case attach registered fresh small free greeted =>
      refine greeted.final (placed_sound sound fresh small free registered)
        (placed_attached fresh registered) (fresh.quiet.append fun bytes member => ?_)
      cases mem_singleton.mp member
    case drop fresh =>
      refine ⟨fresh.quiet.silent, .inl fresh.quiet⟩

/-- Once the handler has asked to close a connection it gets no further packet of it, in
every run in which the read stage leaves connections alone that wait to be closed. -/
theorem close_request_final (e : Env σ π) (idx : Nat) (hs : σ) (shared : Bytes)
    (labels : List (Label π)) (s : Sys σ π)
    (done : Reached e idx hs shared labels s)
    (undisturbed : Each (step e) (fun s a _ => s.readsUnmarked a = true)
      (boot idx hs shared) labels)
    (r : Ref) (before after : List Obs) (bytes : Bytes)
    (asked : s.loop.trace = before ++ .data r bytes true :: after) :
    ∀ more close, .data r more close ∉ after := by
  obtain ⟨wf, held⟩ := final_upheld.run done undisturbed
  have member : Obs.data r bytes true ∈ s.loop.trace := by
    rw [asked]
    exact List.mem_append_right _ List.mem_cons_self
  have silent := (held r (wf.sound.seen _ member)).silent
  rw [asked, Silent, List.pairwise_append, List.pairwise_cons] at silent
  intro more close late
  exact silent.2.1.1 _ late ⟨bytes, rfl⟩ more close rfl

theorem close_request_final_farewell : ∃ s, parting (farewell clogged) = some s ∧
    (∃ before after, s.loop.trace = before ++ .data 0 [7] true :: after ∧
      ∀ more close, .data 0 more close ∉ after) := by
  obtain ⟨s, ran, trace⟩ : ∃ s, parting (farewell clogged) = some s ∧
      s.loop.trace = [.connected 0, .read 0 [7]] ++ .data 0 [7] true :: [] := computed
  exact ⟨s, ran, _, _, trace, close_request_final _ 0 () _ _ s ran (by decide) 0 _ _ [7] trace⟩

/-- More input arrives while the close waits for the socket, and the handler gets it. -/
theorem packet_after_close_request :
    ∃ s ∈ parting (farewell clogged ++ [.event 5 ⟨false, false, true⟩, .tau, .recv [[.data [8]]]]),
      s.loop.trace = [.connected 0, .read 0 [7], .data 0 [7] true, .read 0 [8],
        .data 0 [8] true] := by
  decide

end Connaxis
