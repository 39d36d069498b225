import Connaxis.MachineSound

namespace Connaxis

open LoopConn Runs List

variable {σ π : Type} {e : Env σ π}

/-- The four places where work for `processCmd` waits. -/
inductive Source
  | cmd
  | dial
  | accept
  | flush
deriving DecidableEq, Repr

/-- The loop is running and not in `processCmd`. -/
def Pc.outside : Pc → Bool
  | .poll | .send _ _ | .read _ | .softSend _ | .listen _ _ _ => true
  | _ => false

/-- The loop will look at this source before it leaves `processCmd`, or wake itself up. -/
def Pc.covers : Pc → Source → Bool
  | .accept _, _ | .cmd _, _ | .dial _, _ | .flush _, _ | .store, _ | .checkCmd, _ => true
  | .checkDial, src => src ≠ .cmd
  | .checkAccept, src => src = .accept ∨ src = .flush
  | .checkFlush, src => src = .flush
  | .cas, _ | .stopped, _ => true
  | _, _ => false

/-- The flag is about to be cleared, or the loop is about to leave its token. -/
def Pc.clears : Pc → Bool
  | .accept _ | .cmd _ | .dial _ | .flush _ | .store | .trigger | .stopped => true
  | _ => false

theorem Pc.outside_clears {pc : Pc} (out : pc.outside = true) : pc.clears = false := by
  cases pc <;> first | rfl | cases out

theorem Pc.outside_covers {pc : Pc} (out : pc.outside = true) (src : Source) :
    pc.covers src = false := by
  cases pc <;> first | rfl | cases out

namespace Sys

variable {s s' : Sys σ π} {a : Label π}

def has (s : Sys σ π) : Source → Prop
  | .cmd => s.cmdChan ≠ []
  | .dial => s.cmdDialChan ≠ []
  | .accept => s.acceptChan ≠ []
  | .flush => s.loop.cmdFlushSet ≠ ∅

/-- A producer has pushed and is about to try the flag. -/
def Trying (s : Sys σ π) : Prop := ∃ p, s.producers p = .cas

/-- A producer has raised the flag and is about to leave its token. -/
def Waking (s : Sys σ π) : Prop := ∃ p, s.producers p = .trigger

/-- Who raised the flag leaves a token, and who brings work raises the flag. -/
structure Signalled (s : Sys σ π) : Prop where
  raised : s.triggered = true → s.tokens > 0 ∨ s.Waking ∨ s.pc.clears = true
  own : s.pc = .trigger → s.triggered = true
  noticed : ∀ src, s.has src → s.triggered = true ∨ s.Trying ∨ s.pc.covers src = true

theorem boot_signalled (idx : Nat) (hs : σ) (shared : Bytes) :
    Signalled (boot idx hs shared : Sys σ π) where
  raised flag := nomatch flag
  own at_ := nomatch at_
  noticed src has := by
    cases src <;> exact absurd rfl has

/-- A step that leaves flag and tokens alone. -/
theorem Signalled.keeps (held : Signalled s) (flag : s'.triggered = s.triggered)
    (tokens : s'.tokens = s.tokens) (trying : s.Trying → s'.Trying) (waking : s.Waking → s'.Waking)
    (clears : s.pc.clears = true → s'.pc.clears = true) (own : s'.pc = .trigger → s.pc = .trigger)
    (brought : ∀ src, s'.has src → s.has src ∨ s'.Trying)
    (covers : ∀ src, s'.has src → s.pc.covers src = true → s'.pc.covers src = true) :
    Signalled s' := by
  refine ⟨fun up => ?_, fun at_ => ?_, fun src waits => ?_⟩
  · rw [flag] at up
    rw [tokens]
    rcases held.raised up with token | somebody | clearing
    · exact .inl token
    · exact .inr (.inl (waking somebody))
    · exact .inr (.inr (clears clearing))
  · rw [flag]
    exact held.own (own at_)
  rw [flag]
  rcases brought src waits with before | now
  · rcases held.noticed src before with up | somebody | covered
    · exact .inl up
    · exact .inr (.inl (trying somebody))
    · exact .inr (.inr (covers src waits covered))
  · exact .inr (.inl now)

theorem flushSet_after (wf : Wf e s) (turn : Turn e s a s') (idle : s.taken e a = none) :
    s'.loop.cmdFlushSet ⊆ s.loop.cmdFlushSet := by
  refine (turn.acts.keeps (I := fun m => m.cmdFlushSet ⊆ s.loop.cmdFlushSet) wf.sound
    (Finset.Subset.refl _) fun m op m' _ allowed act before => ?_).2
  refine (act.flushSet fun r owner size same => ?_).trans before
  subst same
  obtain ⟨_, cmd, taken, _⟩ := allowed
  rw [idle] at taken
  cases taken

/-- A step that sends nothing and consumes nothing brings no work. -/
theorem has_after (wf : Wf e s) (turn : Turn e s a s') (idle : s.taken e a = none)
    (cmds : s'.cmdChan = s.cmdChan) (dials : s'.cmdDialChan = s.cmdDialChan)
    (accepts : s'.acceptChan = s.acceptChan) (src : Source) (waits : s'.has src) : s.has src := by
  cases src with
  | cmd => exact fun empty => waits (cmds.trans empty)
  | dial => exact fun empty => waits (dials.trans empty)
  | accept => exact fun empty => waits (accepts.trans empty)
  | flush =>
    intro empty
    have shrunk := flushSet_after wf turn idle
    rw [empty] at shrunk
    exact waits (Finset.subset_empty.mp shrunk)

/-- A step of the loop between two calls of `processCmd`. -/
theorem Signalled.outside (held : Signalled s) (wf : Wf e s) (turn : Turn e s a s')
    (idle : s.taken e a = none) (before : s.pc.outside = true) (after : s'.pc.outside = true)
    (flag : s'.triggered = s.triggered) (tokens : s'.tokens = s.tokens)
    (producers : s'.producers = s.producers) (cmds : s'.cmdChan = s.cmdChan)
    (dials : s'.cmdDialChan = s.cmdDialChan) (accepts : s'.acceptChan = s.acceptChan) :
    Signalled s' := by
  refine held.keeps flag tokens (fun ⟨p, at_⟩ => ⟨p, producers ▸ at_⟩)
    (fun ⟨p, at_⟩ => ⟨p, producers ▸ at_⟩) ?_ ?_
    (fun src waits => .inl (has_after wf turn idle cmds dials accepts src waits)) ?_
  · intro clearing
    rw [Pc.outside_clears before] at clearing
    cases clearing
  · intro at_
    rw [at_] at after
    cases after
  intro src _ covered
  rw [Pc.outside_covers before src] at covered
  cases covered

/-- A step of `processCmd` before it clears the flag. -/
theorem Signalled.draining (clears : s'.pc.clears = true) (own : s'.pc ≠ .trigger)
    (covers : ∀ src, s'.pc.covers src = true) : Signalled s' :=
  ⟨fun _ => .inr (.inr clears), fun at_ => absurd at_ own,
    fun src _ => .inr (.inr (covers src))⟩

/-- One of the last checks of `processCmd`: the loop goes on to wake itself up, or there is
nothing in the source it has looked at. -/
theorem Signalled.checked {now next : Pc} {found : Prop} [Decidable found] (held : Signalled s)
    (src : Source) (at_ : s.pc = now) (cleared : now.clears = false)
    (own : next ≠ .trigger) (seen : s.has src → found)
    (rest : ∀ other, other ≠ src → now.covers other = true → next.covers other = true) :
    Signalled { s with pc := if found then .cas else next } := by
  refine held.keeps rfl rfl (fun trying => trying) (fun waking => waking) (fun clearing => ?_)
    (fun goes => ?_) (fun _ waits => .inl waits) fun other waits covered => ?_
  · rw [at_, cleared] at clearing
    cases clearing
  · dsimp only at goes
    split at goes
    · cases goes
    · exact absurd goes own
  rw [at_] at covered
  dsimp only
  split
  · rfl
  rename_i missing
  exact rest other (fun same => missing (seen (same ▸ waits))) covered

theorem setProducer_still {p q : Nat} {now before : Producer} (was : s.producers p ≠ before)
    (at_ : s.producers q = before) : (s.setProducer p now).producers q = before := by
  have other : q ≠ p := fun same => was (same ▸ at_)
  rw [setProducer_producers, if_neg other]
  exact at_

theorem setProducer_self (p : Nat) (now : Producer) : (s.setProducer p now).producers p = now := by
  rw [setProducer_producers, if_pos rfl]

/-- A producer before its channel send, or after its last step. -/
theorem Signalled.setProducer {p : Nat} {now : Producer} {l : LoopConn σ π} (held : Signalled s)
    (fresh : s.producers p ≠ .cas) (quiet : s.producers p ≠ .trigger)
    (books : l.cmdFlushSet = s.loop.cmdFlushSet) :
    Signalled ({ s with loop := l }.setProducer p now) := by
  refine held.keeps rfl rfl (Exists.imp fun q at_ => setProducer_still fresh at_)
    (Exists.imp fun q at_ => setProducer_still quiet at_) (fun clears => clears) (fun at_ => at_)
    (fun src waits => .inl ?_) fun _ _ covered => covered
  cases src with
  | flush => exact fun empty => waits (books.trans empty)
  | cmd | dial | accept => exact waits

theorem step_signalled (wf : Wf e s) (held : Signalled s) (done : s.step e a = some s') :
    Signalled s' := by
  have turn := step_turn wf done
  have sent {p : Nat} {cmds dials : List CmdData} {accepts : List Ref}
      (quiet : s.producers p ≠ .trigger) : Signalled ({ s with
        cmdChan := cmds, cmdDialChan := dials, acceptChan := accepts }.setProducer p .cas) :=
    held.keeps rfl rfl (fun _ => ⟨p, setProducer_self p _⟩)
      (Exists.imp fun q at_ => setProducer_still quiet at_) (fun clears => clears) (fun at_ => at_)
      (fun _ _ => .inr ⟨p, setProducer_self p _⟩) fun _ _ covered => covered
  cases step_moves done with
  | issue idle _ built =>
    refine held.setProducer (by simp [idle]) (by simp [idle]) ?_
    rw [newCmd_tidy built]
  | join idle => exact held.setProducer (by simp [idle]) (by simp [idle]) rfl
  | pushDial at_ | pushCmd at_ | pushClient at_ => exact sent (by simp [at_])
  | @refuse _ _ cmd at_ =>
    refine held.setProducer (by simp [at_]) (by simp [at_]) ?_
    rw [reset_tidy s.loop cmd]
  | refuseClient at_ => exact held.setProducer (by simp [at_]) (by simp [at_]) rfl
  | pass at_ up =>
    refine ⟨fun _ => ?_, held.own, fun _ _ => .inl up⟩
    rcases held.raised up with token | ⟨q, somebody⟩ | clearing
    · exact .inl token
    · exact .inr (.inl ⟨q, setProducer_still (by simp [at_]) somebody⟩)
    · exact .inr (.inr clearing)
  | @raise p =>
    exact ⟨fun _ => .inr (.inl ⟨p, setProducer_self p _⟩), fun _ => rfl, fun _ _ => .inl rfl⟩
  | signal at_ =>
    refine ⟨fun _ => .inl (Nat.succ_pos _), held.own, fun src waits => ?_⟩
    rcases held.noticed src waits with up | ⟨q, somebody⟩ | covered
    · exact .inl up
    · exact .inr (.inl ⟨q, setProducer_still (by simp [at_]) somebody⟩)
    · exact .inr (.inr covered)
  | syncTime | halt | ignored => exact ⟨held.raised, held.own, held.noticed⟩
  | haltTrigger => exact ⟨fun _ => .inl (Nat.succ_pos _), held.own, held.noticed⟩
  | failed at_ =>
    have between : s.pc.outside = true := by rw [at_]; rfl
    exact held.outside wf turn rfl between between rfl rfl rfl rfl rfl rfl
  | writable at_ | readable at_ | listener at_ =>
    exact held.outside wf turn rfl (by rw [at_]; rfl) rfl rfl rfl rfl rfl rfl rfl
  | recv at_ =>
    refine held.outside wf turn rfl (by rw [at_]; rfl) ?_ rfl rfl rfl rfl rfl rfl
    split <;> rfl
  | accepted at_ pc round =>
    have after : s'.pc.outside = true := by
      rcases pc with pc | ⟨i, pc⟩ <;> rw [pc] <;> rfl
    cases round <;>
      exact held.outside wf turn rfl (by rw [at_]; rfl) after rfl rfl rfl rfl rfl rfl
  | send at_ =>
    refine held.outside wf turn (by simp only [taken, at_]) (by rw [at_]; rfl) ?_ rfl rfl rfl rfl
      rfl rfl
    split <;> rfl
  | softSend at_ | endListen at_ =>
    exact held.outside wf turn (by simp only [taken, at_]) (by rw [at_]; rfl) rfl rfl rfl rfl rfl
      rfl rfl
  | store => exact ⟨by simp, by simp, fun _ _ => .inr (.inr rfl)⟩
  | checkCmd at_ =>
    exact held.checked .cmd at_ rfl (by simp) length_pos_iff.mpr (by simp [Pc.covers])
  | checkDial at_ =>
    exact held.checked .dial at_ rfl (by simp) length_pos_iff.mpr
      (by rintro (_ | _ | _ | _) <;> simp [Pc.covers])
  | checkAccept at_ =>
    exact held.checked .accept at_ rfl (by simp) length_pos_iff.mpr
      (by rintro (_ | _ | _ | _) <;> simp [Pc.covers])
  | checkFlush at_ =>
    exact held.checked .flush at_ rfl (by simp) id (by rintro (_ | _ | _ | _) <;> simp [Pc.covers])
  | selfPass at_ up =>
    refine ⟨fun _ => ?_, by simp, fun _ _ => .inl up⟩
    rcases held.raised up with token | somebody | clearing
    · exact .inl token
    · exact .inr (.inl somebody)
    rw [at_] at clearing
    cases clearing
  | selfRaise => exact ⟨fun _ => .inr (.inr rfl), fun _ => rfl, fun _ _ => .inl rfl⟩
  | selfSignal at_ =>
    exact ⟨fun _ => .inl (Nat.succ_pos _), by simp, fun _ _ => .inl (held.own at_)⟩
  | _ => exact .draining rfl (by simp) fun _ => rfl

end Sys

/-- No wake-up is lost: when work waits and the loop is not in `processCmd`, there is a
token in the poller, or a producer is about to add one, or the flag is down and a
producer is about to raise it. -/
theorem no_lost_wakeup (e : Env σ π) (idx : Nat) (hs : σ) (shared : Bytes)
    (labels : List (Label π)) (s : Sys σ π)
    (done : Sys.Reached e idx hs shared labels s)
    (outside : s.pc.outside = true)
    (work : s.acceptChan ≠ [] ∨ s.cmdChan ≠ [] ∨ s.cmdDialChan ≠ [] ∨ s.loop.cmdFlushSet ≠ ∅) :
    s.tokens > 0 ∨ (∃ p, s.producers p = .trigger) ∨
      (s.triggered = false ∧ ∃ p, s.producers p = .cas) := by
  have held : Sys.Wf e s ∧ s.Signalled :=
    run_invariant_all (I := fun s => Sys.Wf e s ∧ s.Signalled)
      (fun _ _ _ step now => ⟨(Sys.step_turn now.1 step).wf, Sys.step_signalled now.1 now.2 step⟩)
      done ⟨Sys.boot_wf idx hs shared, Sys.boot_signalled idx hs shared⟩
  obtain ⟨_, raised, _, noticed⟩ := held
  obtain ⟨src, waits⟩ : ∃ src, s.has src := by
    rcases work with waits | waits | waits | waits
    · exact ⟨.accept, waits⟩
    · exact ⟨.cmd, waits⟩
    · exact ⟨.dial, waits⟩
    · exact ⟨.flush, waits⟩
  have flag : s.triggered = true → s.tokens > 0 ∨ s.Waking := by
    intro up
    rcases raised up with token | somebody | clearing
    · exact .inl token
    · exact .inr somebody
    rw [Pc.outside_clears outside] at clearing
    cases clearing
  cases up : s.triggered with
  | true =>
    rcases flag up with token | somebody
    · exact .inl token
    · exact .inr (.inl somebody)
  | false =>
    rcases noticed src waits with clash | trying | covered
    · rw [up] at clash
      cases clash
    · exact .inr (.inr ⟨rfl, trying⟩)
    rw [Pc.outside_covers outside src] at covered
    cases covered

/-- One producer has raised the flag and not left its token yet; another one has pushed. -/
def racing : Option (Sys Unit Unit) :=
  run (Sys.step (Env.plain (fun b => (b, false)) 8)) (Sys.boot 0 () [0, 0, 0, 0])
    [.join 0 5 1 false ⟨[], fun _ => .full, 0⟩ none, .join 1 6 2 false ⟨[], fun _ => .full, 0⟩ none,
      .push 0, .cas 0, .push 1]

theorem no_lost_wakeup_racing : ∃ s, racing = some s ∧ s.acceptChan = [0, 1] ∧ s.pc = .poll ∧
    (s.tokens > 0 ∨ (∃ p, s.producers p = .trigger) ∨
      (s.triggered = false ∧ ∃ p, s.producers p = .cas)) := by
  obtain ⟨s, ran, queue, between⟩ : ∃ s, racing = some s ∧ s.acceptChan = [0, 1] ∧ s.pc = .poll :=
    computed
  refine ⟨s, ran, queue, between, no_lost_wakeup _ 0 () _ _ s ran (by rw [between]; rfl) ?_⟩
  rw [queue]
  exact .inl nofun

end Connaxis
