import Connaxis.Lib.Custody
import Connaxis.SendBuffers

namespace Connaxis

open LoopConn List Runs EngineConn WriteQueue Option

variable {σ π : Type} {e : Env σ π}

/-- The buffer of a command, if it carries one. -/
def CmdData.names (cmd : CmdData) : List Nat := cmd.data.toList.map Buf.id

/-- Who can hold a send buffer: a command in the hands of `AddCmd` or in a channel, the live
entries of a queue, or the pool. What is in the pool was put there by the loop or by the
queue of one connection. -/
inductive Holder
  | producer (p : Nat)
  | cmdChan
  | cmdDialChan
  | queue (r : Ref)
  | pool (giver : Option Ref)
deriving DecidableEq, Repr

/-- The command `AddCmd` is about to send. -/
def Producer.cmd : Producer → Option CmdData
  | .pushCmd _ cmd => some cmd
  | _ => none

/-- The buffers in the queues, and those that were given back. -/
def LoopConn.stock (l : LoopConn σ π) : Holder → List Nat
  | .queue r => (l.conns r).wq.names
  | .pool none => l.returned
  | .pool (some r) => (l.conns r).wq.put
  | _ => []

/-- Operations that move no buffer between the loop and the commands. -/
def Op.Plain : Op π → Prop
  | .tidy | .enqueue _ _ _ => False
  | _ => True

variable {id : UInt64} {n : Nat}

namespace Sys

variable {s s' : Sys σ π}

/-- The commands that wait to be consumed. -/
def commands (s : Sys σ π) : Holder → List CmdData
  | .producer p => (s.producers p).cmd.toList
  | .cmdChan => s.cmdChan
  | .cmdDialChan => s.cmdDialChan
  | _ => []

/-- The names of the send buffers a holder has. -/
def held (s : Sys σ π) (h : Holder) : List Nat :=
  (s.commands h).flatMap CmdData.names ++ s.loop.stock h

/-- A buffer is, or was until it was put back, with the connection of this id: in a command
for it or in its queue. -/
inductive Traced (s : Sys σ π) (id : UInt64) (n : Nat) : Prop
  | command (h : Holder) (cmd : CmdData) (waits : cmd ∈ s.commands h) (own : cmd.id = id)
      (carried : n ∈ cmd.names)
  | queue (r : Ref) (made : r < s.loop.nconns) (own : (s.loop.conns r).id = id)
      (kept : n ∈ (s.loop.conns r).wq.names ++ (s.loop.conns r).wq.put)
  | reset (returned : n ∈ s.loop.returned)

/-- Every buffer that was ever asked for has one holder, and closed connections hold none. -/
structure Owned (s : Sys σ π) : Prop where
  exact : Custody.Exact s.held s.loop.owners
  tight : ∀ r, (s.loop.conns r).wq.Tight
  cleared : ∀ r, Cleared s.loop r
  unmade : ∀ r, s.loop.nconns ≤ r → (s.loop.conns r).wq = empty

/-- A step that keeps custody, and loses no trace of a buffer. -/
structure Carries (s s' : Sys σ π) : Prop where
  owned : Owned s'
  traced : ∀ id n, Traced s id n → Traced s' id n

theorem Carries.trans {m : Sys σ π} (first : Carries s m) (second : Carries m s') :
    Carries s s' :=
  ⟨second.owned, fun id n traced => second.traced id n (first.traced id n traced)⟩

/-- The rule for a step that leaves the connections alone. -/
theorem Owned.unmoved (owned : Owned s) (conns : s'.loop.conns = s.loop.conns)
    (nconns : s'.loop.nconns = s.loop.nconns)
    (exact : Custody.Exact s'.held s'.loop.owners) : Owned s' := by
  refine ⟨exact, ?_, ?_, ?_⟩
  · rw [conns]
    exact owned.tight
  · unfold Cleared
    rw [conns]
    exact owned.cleared
  rw [conns, nconns]
  exact owned.unmade

variable {l l' : LoopConn σ π} {h : Holder}

theorem stock_unmoved (conns : l'.conns = l.conns) (loop : h ≠ .pool none) :
    l'.stock h = l.stock h := by
  cases h with
  | producer | cmdChan | cmdDialChan => rfl
  | queue r => rw [stock, stock, conns]
  | pool giver =>
    cases giver with
    | none => exact absurd rfl loop
    | some r => rw [stock, stock, conns]

/-- Only the commands and four parts of the loop matter. -/
theorem Owned.still (owned : Owned s) (commands : s'.commands = s.commands)
    (conns : s'.loop.conns = s.loop.conns) (nconns : s'.loop.nconns = s.loop.nconns)
    (owners : s'.loop.owners = s.loop.owners) (returned : s'.loop.returned = s.loop.returned) :
    Carries s s' := by
  have held : s'.held = s.held := by
    funext h
    rw [Sys.held, Sys.held, commands]
    by_cases loop : h = .pool none
    · rw [loop, stock, stock, returned]
    · rw [stock_unmoved conns loop]
  refine ⟨owned.unmoved conns nconns ?_, ?_⟩
  · rw [held, owners]
    exact owned.exact
  intro id n traced
  cases traced with
  | command h cmd waits own carried => exact .command h cmd (commands ▸ waits) own carried
  | queue r made own kept =>
    exact .queue r (nconns ▸ made) (conns ▸ own) (conns ▸ kept)
  | reset given => exact .reset (returned ▸ given)

variable {r : Ref}

theorem stock_other (alone : Alone l l' r) (returned : l'.returned = l.returned)
    (queue : h ≠ .queue r) (pool : h ≠ .pool (some r)) : l'.stock h = l.stock h := by
  cases h with
  | producer | cmdChan | cmdDialChan => rfl
  | queue q =>
    have other : q ≠ r := fun same => queue (same ▸ rfl)
    rw [stock, stock, alone.others q other]
  | pool giver =>
    cases giver with
    | none => exact returned
    | some q =>
      have other : q ≠ r := fun same => pool (same ▸ rfl)
      rw [stock, stock, alone.others q other]

/-- What has to be seen of a step that works for one connection, besides the count. -/
theorem Owned.alone (owned : Owned s) (made : r < s.loop.nconns) (alone : Alone s.loop s'.loop r)
    (tight : (s'.loop.conns r).wq.Tight) (cleared : Cleared s'.loop r)
    (exact : Custody.Exact s'.held s'.loop.owners) : Owned s' := by
  refine ⟨exact, fun q => ?_, fun q => ?_, fun q beyond => ?_⟩
  · by_cases same : q = r
    · rw [same]
      exact tight
    rw [alone.others q same]
    exact owned.tight q
  · by_cases same : q = r
    · rw [same]
      exact cleared
    unfold Cleared
    rw [alone.others q same]
    exact owned.cleared q
  rw [alone.nconns] at beyond
  rw [alone.others q (Nat.ne_of_gt (Nat.lt_of_lt_of_le made beyond))]
  exact owned.unmade q beyond

theorem traced_queue {got : List Nat} (alone : Alone s.loop s'.loop r)
    (shared : ((s'.loop.conns r).wq.names ++ (s'.loop.conns r).wq.put).Perm
      ((s.loop.conns r).wq.names ++ (s.loop.conns r).wq.put ++ got)) {q : Ref}
    (made : q < s.loop.nconns) (own : (s.loop.conns q).id = id)
    (kept : n ∈ (s.loop.conns q).wq.names ++ (s.loop.conns q).wq.put) : Traced s' id n := by
  refine .queue q (alone.nconns ▸ made) ?_ ?_
  · by_cases same : q = r
    · rw [same] at own ⊢
      rw [alone.id, own]
    · rw [alone.others q same, own]
  by_cases same : q = r
  · rw [same] at kept ⊢
    exact shared.mem_iff.mpr (mem_append_left _ kept)
  rw [alone.others q same]
  exact kept

/-- The loop works for one connection. -/
theorem Owned.works (owned : Owned s) (commands : s'.commands = s.commands)
    (made : r < s.loop.nconns) (alone : Alone s.loop s'.loop r) (feeds : Feeds s.loop s'.loop r)
    (cleared : Cleared s'.loop r) : Carries s s' := by
  obtain ⟨k, owners, passes⟩ := feeds.queue
  obtain ⟨tight, shared⟩ := passes (owned.tight r)
  refine ⟨owned.alone made alone tight cleared ?_, ?_⟩
  · rw [owners]
    refine owned.exact.moved (I := [.queue r, .pool (some r)]) (by simp) (fun h out => ?_) ?_
    · rw [mem_cons, mem_singleton, not_or] at out
      rw [held, held, commands, stock_other alone feeds.returned out.1 out.2]
    simp only [flatMap_cons, flatMap_nil, append_nil]
    exact shared
  intro id n traced
  cases traced with
  | command h cmd waits own carried => exact .command h cmd (commands ▸ waits) own carried
  | queue q made own kept => exact traced_queue alone shared made own kept
  | reset given => exact .reset (feeds.returned ▸ given)

variable {cmd : CmdData}

/-- A holder of commands has nothing else. -/
theorem held_front (front : s.commands h = cmd :: s'.commands h) :
    s.held h = cmd.names ++ s'.held h ∧ (∀ r, h ≠ .queue r) ∧ ∀ giver, h ≠ .pool giver := by
  have split : (s.commands h).flatMap CmdData.names =
      cmd.names ++ (s'.commands h).flatMap CmdData.names := by
    rw [front, flatMap_cons]
  cases h with
  | producer | cmdChan | cmdDialChan =>
    refine ⟨?_, nofun, nofun⟩
    rw [held, held, split]
    exact append_assoc _ _ _
  | queue | pool => cases front

/-- A command is taken and its buffer goes to the queue of a connection. -/
theorem Owned.takes (owned : Owned s) (front : s.commands h = cmd :: s'.commands h)
    (others : ∀ k, k ≠ h → s'.commands k = s.commands k) (made : r < s.loop.nconns)
    (addressed : (s.loop.conns r).id = cmd.id) (alone : Alone s.loop s'.loop r)
    (hands : Hands s.loop s'.loop r cmd.names) (cleared : Cleared s'.loop r) : Carries s s' := by
  obtain ⟨tight, shared⟩ := hands.queue (owned.tight r)
  obtain ⟨here, apart, away⟩ := held_front front
  refine ⟨owned.alone made alone tight cleared ?_, ?_⟩
  · rw [hands.owners]
    refine owned.exact.shared (I := [h, .queue r, .pool (some r)]) ?_ (fun k out => ?_) ?_
    · simp [apart r, away (some r)]
    · simp only [mem_cons, not_mem_nil, or_false, not_or] at out
      rw [held, held, others k out.1, stock_other alone hands.returned out.2.1 out.2.2]
    simp only [flatMap_cons, flatMap_nil, append_nil, here, perm_iff_count]
    intro n
    have total := shared.count_eq n
    change (s'.held h ++ ((s'.loop.conns r).wq.names ++ (s'.loop.conns r).wq.put)).count n =
      (cmd.names ++ s'.held h ++ ((s.loop.conns r).wq.names ++ (s.loop.conns r).wq.put)).count n
    simp only [count_append] at total ⊢
    omega
  intro id n traced
  cases traced with
  | command k other waits own carried =>
    by_cases same : k = h
    · rw [same, front] at waits
      rcases mem_cons.mp waits with rfl | later
      · refine .queue r (alone.nconns ▸ made) (alone.id.trans (addressed.trans own)) ?_
        exact shared.mem_iff.mpr (mem_append_right _ carried)
      · exact .command h other later own carried
    · exact .command k other (others k same ▸ waits) own carried
  | queue q made own kept => exact traced_queue alone shared made own kept
  | reset given => exact .reset (hands.returned ▸ given)

/-- A command is dropped and its buffer goes back to the pool. -/
theorem Owned.drops (owned : Owned s) (front : s.commands h = cmd :: s'.commands h)
    (others : ∀ k, k ≠ h → s'.commands k = s.commands k) (loop : s'.loop = s.loop.reset cmd) :
    Carries s s' := by
  have returned : s'.loop.returned = s.loop.returned ++ cmd.names := by
    rw [loop, reset, CmdData.names]
    cases cmd.data with
    | none => exact (append_nil _).symm
    | some owner => rfl
  obtain ⟨conns, nconns, owners⟩ : s'.loop.conns = s.loop.conns ∧
      s'.loop.nconns = s.loop.nconns ∧ s'.loop.owners = s.loop.owners := by
    rw [loop, reset]
    cases cmd.data <;> exact ⟨rfl, rfl, rfl⟩
  obtain ⟨here, _, away⟩ := held_front front
  refine ⟨owned.unmoved conns nconns ?_, ?_⟩
  · rw [owners]
    refine owned.exact.shared (I := [h, .pool none]) ?_ (fun k out => ?_) ?_
    · simp [away none]
    · simp only [mem_cons, not_mem_nil, or_false, not_or] at out
      rw [held, held, others k out.1, stock_unmoved conns out.2]
    simp only [flatMap_cons, flatMap_nil, append_nil, here, perm_iff_count]
    intro n
    change (s'.held h ++ s'.loop.returned).count n =
      (cmd.names ++ s'.held h ++ s.loop.returned).count n
    rw [returned]
    simp only [count_append]
    omega
  intro id n traced
  cases traced with
  | command k other waits own carried =>
    by_cases same : k = h
    · rw [same, front] at waits
      rcases mem_cons.mp waits with rfl | later
      · exact .reset (returned ▸ mem_append_right _ carried)
      · exact .command h other later own carried
    · exact .command k other (others k same ▸ waits) own carried
  | queue r made own kept => exact .queue r (nconns ▸ made) (conns ▸ own) (conns ▸ kept)
  | reset given => exact .reset (returned ▸ mem_append_left _ given)

variable {p : Nat}

section

variable (owned : Owned s)
include owned

/-- `AddCmd` sends its command down a channel. -/
theorem Owned.sends (pushing : s.commands (.producer p) = [cmd])
    (done : s'.commands (.producer p) = []) (chan : h = .cmdChan ∨ h = .cmdDialChan)
    (sent : s'.commands h = s.commands h ++ [cmd])
    (others : ∀ k, k ≠ .producer p → k ≠ h → s'.commands k = s.commands k)
    (loop : s'.loop = s.loop) : Carries s s' := by
  have apart : Holder.producer p ≠ h := by rcases chan with rfl | rfl <;> nofun
  have bare (l : LoopConn σ π) : l.stock h = [] := by rcases chan with rfl | rfl <;> rfl
  refine ⟨owned.unmoved (congrArg _ loop) (congrArg _ loop) ?_, ?_⟩
  · rw [loop]
    refine owned.exact.shared (I := [.producer p, h]) ?_ (fun k out => ?_) ?_
    · simp [apart]
    · simp only [mem_cons, not_mem_nil, or_false, not_or] at out
      rw [held, held, others k out.1 out.2, loop]
    simp only [flatMap_cons, flatMap_nil, append_nil, held, pushing, done, sent,
      bare, flatMap_append, perm_iff_count, count_append]
    intro n
    change 0 + 0 + _ = _ + 0 + _
    omega
  intro id n traced
  cases traced with
  | command k other waits own carried =>
    by_cases hand : k = .producer p
    · rw [hand, pushing] at waits
      rw [mem_singleton.mp waits] at own carried
      refine .command h cmd ?_ own carried
      rw [sent]
      exact mem_append_right _ mem_cons_self
    by_cases same : k = h
    · rw [same] at waits
      refine .command h other ?_ own carried
      rw [sent]
      exact mem_append_left _ waits
    · exact .command k other (others k hand same ▸ waits) own carried
  | queue r made own kept => exact .queue r (loop ▸ made) (loop ▸ own) (loop ▸ kept)
  | reset given => exact .reset (loop ▸ given)

/-- `AddCmd` builds its command, with a buffer of its own if there are data. -/
theorem Owned.builds {k : Nat} (idle : s.commands (.producer p) = [])
    (built : s'.commands (.producer p) = [cmd])
    (others : ∀ h, h ≠ .producer p → s'.commands h = s.commands h)
    (conns : s'.loop.conns = s.loop.conns) (nconns : s'.loop.nconns = s.loop.nconns)
    (returned : s'.loop.returned = s.loop.returned) (owners : s'.loop.owners = s.loop.owners + k)
    (names : cmd.names = range' s.loop.owners k) : Carries s s' := by
  refine ⟨owned.unmoved conns nconns ?_, ?_⟩
  · rw [owners]
    refine owned.exact.moved (I := [.producer p]) (nodup_singleton _) (fun h out => ?_) ?_
    · rw [mem_singleton] at out
      rw [held, held, others h out]
      by_cases loop : h = .pool none
      · rw [loop, stock, stock, returned]
      · rw [stock_unmoved conns loop]
    simp only [flatMap_cons, flatMap_nil, append_nil, held, idle, built, names]
    change (_ ++ []).Perm ([] ++ [] ++ _)
    rw [append_nil]
    exact .refl _
  intro id n traced
  cases traced with
  | command h other waits own carried =>
    by_cases hand : h = .producer p
    · rw [hand, idle] at waits
      cases waits
    · exact .command h other (others h hand ▸ waits) own carried
  | queue r made own kept => exact .queue r (nconns ▸ made) (conns ▸ own) (conns ▸ kept)
  | reset given => exact .reset (returned ▸ given)

/-- A connection is made: it has nothing to send. -/
theorem Owned.makes {c : EngineConn π} (commands : s'.commands = s.commands)
    (loop : s'.loop = (s.loop.addConn c).1) (empty : c.wq = empty) (live : c.fd ≠ 0) :
    Carries s s' := by
  have new : s'.loop.conns s.loop.nconns = c := by
    rw [loop]
    exact Function.update_self _ _ _
  have old {r : Ref} (other : r ≠ s.loop.nconns) : s'.loop.conns r = s.loop.conns r := by
    rw [loop]
    exact Function.update_of_ne other _ _
  have grown : s'.loop.nconns = s.loop.nconns + 1 := by
    rw [loop]
    rfl
  have queue (r : Ref) : (s'.loop.conns r).wq = (s.loop.conns r).wq := by
    by_cases same : r = s.loop.nconns
    · rw [same, new, empty, owned.unmade _ (Nat.le_refl _)]
    · rw [old same]
  have held : s'.held = s.held := by
    funext h
    rw [Sys.held, Sys.held, commands]
    cases h with
    | producer | cmdChan | cmdDialChan => rfl
    | queue r => rw [stock, stock, queue]
    | pool giver =>
      cases giver with
      | none => rw [stock, stock, loop]; rfl
      | some r => rw [stock, stock, queue]
  refine ⟨⟨?_, ?_, ?_, ?_⟩, ?_⟩
  · rw [held, loop]
    exact owned.exact
  · intro r
    rw [queue]
    exact owned.tight r
  · intro r
    by_cases same : r = s.loop.nconns
    · apply Or.inl
      rw [same, new]
      exact live
    unfold Cleared
    rw [old same]
    exact owned.cleared r
  · intro r beyond
    rw [grown] at beyond
    rw [queue]
    exact owned.unmade r (Nat.le_of_succ_le beyond)
  intro id n traced
  cases traced with
  | command h cmd waits own carried => exact .command h cmd (commands ▸ waits) own carried
  | queue r made own kept =>
    have same := old (Nat.ne_of_lt made)
    exact .queue r (grown ▸ Nat.lt_succ_of_lt made) (same ▸ own) (same ▸ kept)
  | reset given =>
    refine .reset ?_
    rw [loop]
    exact given

/-- One operation of the loop that takes no command. -/
theorem Owned.act {op : Op π} (sound : Sound e s.loop) (act : Act e s.loop op l')
    (plain : op.Plain) : Carries s { s with loop := l' } := by
  cases subject : op.subject with
  | some r =>
    have made : r < s.loop.nconns := act.subject_made sound subject
    have given (owner : Buf) (size : Nat) : op ≠ .enqueue r owner size := by
      rintro rfl
      exact plain
    exact owned.works rfl made (act.alone sound subject) (act.feeds sound subject given)
      (act.cleared sound subject)
  | none =>
    cases act with
    | tidy => exact plain.elim
    | make fd id client sock tls live => exact owned.makes rfl rfl rfl live
    | age => exact owned.still rfl rfl rfl rfl rfl
    | track r attached =>
      unfold track
      split <;> exact owned.still rfl rfl rfl rfl rfl
    | close | send | read | flush | enqueue | attach | drop => cases subject

/-- Whole callbacks. -/
theorem Owned.acts (sound : Sound e s.loop) (acts : Acts e (fun _ op => op.Plain) s.loop l') :
    Carries s { s with loop := l' } := by
  refine (acts.keeps (I := fun m => Carries s { s with loop := m }) sound ?_ ?_).2
  · exact owned.still rfl rfl rfl rfl rfl
  intro m op m' now plain act before
  exact before.trans (before.owned.act now act plain)

end

theorem setProducer_commands {now : Producer} (same : now.cmd = (s.producers p).cmd) :
    (s.setProducer p now).commands = s.commands := by
  funext h
  cases h with
  | producer q =>
    rw [commands, commands, setProducer_producers]
    split
    · rename_i here
      rw [here, same]
    · rfl
  | cmdChan | cmdDialChan | queue | pool => rfl

theorem setProducer_others {now : Producer} (apart : h ≠ .producer p) :
    (s.setProducer p now).commands h = s.commands h := by
  cases h with
  | producer q =>
    have away : q ≠ p := fun same => apart (congrArg _ same)
    rw [commands, commands, setProducer_producers, if_neg away]
  | cmdChan | cmdDialChan | queue | pool => rfl

/-- A consumed command is enqueued for its connection or dropped. -/
theorem Owned.consumes (owned : Owned s) (sound : Sound e s.loop)
    (front : s.commands h = cmd :: s'.commands h)
    (others : ∀ k, k ≠ h → s'.commands k = s.commands k)
    (loop : s'.loop = s.loop.consumeCmd e cmd) : Carries s s' := by
  unfold consumeCmd at loop
  split at loop
  · exact owned.drops front others loop
  rename_i r found
  have attached := (sound.attached found).1
  split at loop
  · split at loop
    · rename_i void
      refine owned.drops front others ?_
      rw [loop, reset, void]
    rename_i owner data
    split at loop
    · exact owned.drops front others loop
    rename_i right
    rw [not_or, Decidable.not_not] at right
    have act : Act e s.loop _ s'.loop :=
      loop ▸ Act.enqueue r owner cmd.size attached (cmd.fits owner data)
    have names : cmd.names = [owner.id] := by rw [CmdData.names, data]; rfl
    refine owned.takes front others (act.subject_made sound rfl) right.1
      (act.alone sound rfl) ?_ (act.cleared sound rfl)
    rw [names, loop]
    exact enqueueCmd_hands owner cmd.size
  · have act := Act.close (e := e) r (some .CLOSE_BY_CLOSE_CMD) attached
    have closed := owned.act sound act trivial
    exact closed.trans (closed.owned.drops front others loop)
  · exact owned.drops front others loop

theorem push_carries (owned : Owned s) (moves : Moves e s (.push p) s') : Carries s s' := by
  have own (m : Sys σ π) (now : Producer) (free : now.cmd = none) :
      (m.setProducer p now).commands (.producer p) = [] := by
    rw [commands, setProducer_producers, if_pos rfl, free]
    rfl
  have front {dial : Bool} {cmd : CmdData} (pushing : s.producers p = .pushCmd dial cmd) :
      s.commands (.producer p) = [cmd] := by
    rw [commands, pushing]
    rfl
  cases moves with
  | pushDial at_ =>
    refine owned.sends (h := .cmdDialChan) (front at_) (own _ _ rfl) (.inr rfl) rfl
      (fun k apart away => (setProducer_others apart).trans ?_) rfl
    cases k with
    | cmdDialChan => exact absurd rfl away
    | producer | cmdChan | queue | pool => rfl
  | pushCmd at_ =>
    refine owned.sends (h := .cmdChan) (front at_) (own _ _ rfl) (.inl rfl) rfl
      (fun k apart away => (setProducer_others apart).trans ?_) rfl
    cases k with
    | cmdChan => exact absurd rfl away
    | producer | cmdDialChan | queue | pool => rfl
  | refuse at_ =>
    refine owned.drops (h := .producer p) ?_ (fun k apart => setProducer_others apart) rfl
    rw [front at_, own _ _ rfl]
  | @pushClient _ c at_ =>
    refine owned.still (setProducer_commands (s := { s with
      acceptChan := s.acceptChan ++ [c] }) ?_) rfl rfl rfl rfl
    rw [at_]
    rfl
  | refuseClient at_ =>
    refine owned.still (setProducer_commands ?_) rfl rfl rfl rfl
    rw [at_]
    rfl

/-- `AddCmd` up to the moment the command is complete. -/
theorem issue_carries {c : Ref} {cmd : Cmd} {data : Bytes} {built : CmdData} {dial : Bool}
    (owned : Owned s) (idle : s.producers p = .idle)
    (done : newCmd e s.loop c cmd data = some (l, built)) :
    Carries s ({ s with loop := l }.setProducer p (.pushCmd dial built)) := by
  have free : s.commands (.producer p) = [] := by
    rw [commands, idle]
    rfl
  have now (m : Sys σ π) : (m.setProducer p (.pushCmd dial built)).commands (.producer p) =
      [built] := by
    rw [commands, setProducer_producers, if_pos rfl]
    rfl
  unfold newCmd at done
  split at done
  · cases done
    exact owned.builds (k := 0) free (now _) (fun _ => setProducer_others) rfl rfl rfl rfl rfl
  split at done
  · cases done
  cases done
  exact owned.builds (k := 1) free (now _) (fun _ => setProducer_others) rfl rfl rfl rfl rfl

theorem AcceptRound.carries {outcome : Accepted} (wf : Wf e s) (owned : Owned s)
    (round : AcceptRound e s outcome s') : Carries s s' := by
  cases round with
  | passed pc seq free _ => exact owned.still rfl rfl rfl rfl rfl
  | attached nfd gen sock registered seq id pc free _ live attach =>
    obtain ⟨books, fresh⟩ := wf.newcomer_fresh seq id sock live
    have numbered : Carries s { s with loop := { s.loop with seq := seq } } :=
      owned.still rfl rfl rfl rfl rfl
    have made : Carries s { s with loop := s.newcomer seq nfd id sock } :=
      numbered.trans (numbered.owned.makes rfl rfl rfl live)
    have attached := made.trans (made.owned.acts books (attachClient_acts books fresh attach
      (fun _ _ => trivial) (fun _ => trivial) (fun _ => trivial) fun _ => trivial))
    exact attached.trans (attached.owned.still rfl rfl rfl rfl rfl)

/-- Every step of the machine keeps custody of the send buffers. -/
theorem step_carries {a : Label π} (wf : Wf e s) (owned : Owned s) (done : s.step e a = some s') :
    Carries s s' := by
  have works {l : LoopConn σ π} (acts : Acts e (fun _ op => op.Plain) s.loop l)
      (commands : s'.commands = s.commands) (loop : s'.loop = l) : Carries s s' := by
    have carried := owned.acts wf.sound acts
    exact carried.trans (carried.owned.still commands (congrArg _ loop) (congrArg _ loop)
      (congrArg _ loop) (congrArg _ loop))
  cases step_moves done with
  | issue idle _ built => exact issue_carries owned idle built
  | @join p fd id client sock tls idle live =>
    refine owned.makes (c := new fd id client sock tls) ?_ rfl rfl live
    refine setProducer_commands (s := { s with loop :=
      (s.loop.addConn (new fd id client sock tls)).1 }) ?_
    rw [idle]
    rfl
  | pushDial | pushCmd | refuse | pushClient | refuseClient =>
    exact push_carries owned (step_moves done)
  | pass at_ =>
    refine owned.still (setProducer_commands ?_) rfl rfl rfl rfl
    rw [at_]
    rfl
  | raise at_ =>
    refine owned.still (setProducer_commands (s := { s with triggered := true }) ?_) rfl rfl rfl rfl
    rw [at_]
    rfl
  | signal at_ =>
    refine owned.still (setProducer_commands (s := { s with tokens := s.tokens + 1 }) ?_)
      rfl rfl rfl rfl
    rw [at_]
    rfl
  | shutdown => exact works (shutdown_acts wf.sound fun _ _ => trivial) rfl rfl
  | idle => exact works (onIdle_acts wf.sound (fun _ => trivial) fun _ _ => trivial) rfl rfl
  | @failed _ _ c _ _ found =>
    have act := Act.close (e := e) c (some .CLOSE_EPOLL_ERR) (wf.sound.attached found).1
    exact owned.act wf.sound act trivial
  | @recv answers c _ at_ read =>
    have attached := wf.busy c (by rw [at_]; rfl)
    exact works ((Act.read (e := e) c answers attached read).acts trivial) rfl rfl
  | accepted _ _ round => exact round.carries wf owned
  | attach _ queue attach =>
    have fresh := wf.queued _ (queue ▸ mem_cons_self)
    exact works (attachClient_acts wf.sound fresh attach (fun _ _ => trivial)
      (fun _ => trivial) (fun _ => trivial) fun _ => trivial) rfl rfl
  | @flush fd _ _ counted _ marked flushed =>
    obtain ⟨r, slot⟩ := ne_none_iff_exists'.mp (wf.sound.flushed fd marked)
    obtain ⟨rfl, live, _⟩ := wf.sound.slot fd r slot
    exact works ((Act.flush (e := e) r counted ⟨live, slot⟩ flushed).acts trivial) rfl rfl
  | send at_ sent | softSend at_ sent =>
    have attached := wf.busy _ (by rw [at_]; rfl)
    exact works ((Act.send (e := e) _ attached sent).acts trivial) rfl rfl
  | cmd _ _ queue =>
    refine owned.consumes (h := .cmdChan) wf.sound queue (fun k other => ?_) rfl
    cases k with
    | cmdChan => exact absurd rfl other
    | producer | cmdDialChan | queue | pool => rfl
  | dial _ _ queue =>
    refine owned.consumes (h := .cmdDialChan) wf.sound queue (fun k other => ?_) rfl
    cases k with
    | cmdDialChan => exact absurd rfl other
    | producer | cmdChan | queue | pool => rfl
  | _ => exact owned.still rfl rfl rfl rfl rfl

theorem boot_custody (idx : Nat) (hs : σ) (shared : Bytes) :
    Owned (boot idx hs shared : Sys σ π) where
  exact :=
    { made := fun _ below => absurd below (Nat.not_lt_zero _)
      unmade := fun n _ h member => by
        cases h with
        | producer | cmdChan | cmdDialChan | queue => cases member
        | pool giver => cases giver <;> cases member }
  tight _ := .inl rfl
  cleared _ := .inr rfl
  unmade _ _ := rfl

/-- Whoever holds a buffer, it is for some connection. -/
theorem Owned.traced (owned : Owned s) (made : n < s.loop.owners) : ∃ id, Traced s id n := by
  obtain ⟨h, once, _⟩ := owned.exact.made n made
  have member : n ∈ s.held h := count_pos_iff.mp (by omega)
  have waits (bare : s.loop.stock h = []) : ∃ id, Traced s id n := by
    rw [held, bare, append_nil] at member
    obtain ⟨cmd, waits, carried⟩ := mem_flatMap.mp member
    exact ⟨cmd.id, .command h cmd waits rfl carried⟩
  have queued (r : Ref) (kept : n ∈ (s.loop.conns r).wq.names ++ (s.loop.conns r).wq.put) :
      ∃ id, Traced s id n := by
    by_cases known : r < s.loop.nconns
    · exact ⟨(s.loop.conns r).id, .queue r known rfl kept⟩
    rw [owned.unmade r (Nat.le_of_not_lt known)] at kept
    cases kept
  cases h with
  | producer | cmdChan | cmdDialChan => exact waits rfl
  | queue r => exact queued r (mem_append_left _ member)
  | pool giver =>
    cases giver with
    | none => exact ⟨0, .reset member⟩
    | some r => exact queued r (mem_append_right _ member)

theorem Owned.traced_back (owned : Owned s) (traced : Traced s id n)
    (closed : ∀ r, r < s.loop.nconns → (s.loop.conns r).id = id → (s.loop.conns r).fd = 0)
    (consumed : ∀ h, ∀ cmd ∈ s.commands h, cmd.id ≠ id) : ∃ giver, n ∈ s.held (.pool giver) := by
  cases traced with
  | command h cmd waits own carried => exact absurd own (consumed h cmd waits)
  | queue r made own kept =>
    have empty := (owned.cleared r).resolve_left (not_not_intro (closed r made own))
    rw [empty] at kept
    exact ⟨some r, kept⟩
  | reset given => exact ⟨none, given⟩

end Sys

theorem run_custody {idx : Nat} {hs : σ} {shared : Bytes} {labels : List (Label π)}
    {s : Sys σ π} (done : Sys.Reached e idx hs shared labels s) :
    Sys.Wf e s ∧ Sys.Owned s :=
  run_invariant_all
    (I := fun s => Sys.Wf e s ∧ Sys.Owned s)
    (fun _ _ _ step now =>
      ⟨(Sys.step_turn now.1 step).wf, (Sys.step_carries now.1 now.2 step).owned⟩)
    done ⟨Sys.boot_wf idx hs shared, Sys.boot_custody idx hs shared⟩

theorem run_traced {s s' : Sys σ π} {labels : List (Label π)} (wf : Sys.Wf e s)
    (owned : Sys.Owned s) (traced : Sys.Traced s id n)
    (done : run (Sys.step e) s labels = some s') : Sys.Owned s' ∧ Sys.Traced s' id n := by
  have kept := run_invariant_all
    (I := fun s => Sys.Wf e s ∧ Sys.Owned s ∧ Sys.Traced s id n)
    (fun _ _ _ step now => by
      have carries := Sys.step_carries now.1 now.2.1 step
      exact ⟨(Sys.step_turn now.1 step).wf, carries.owned, carries.traced id n now.2.2⟩)
    done ⟨wf, owned, traced⟩
  exact kept.2

/-- Send buffers change hands and are never shared or lost. In every reachable state each
buffer that was ever asked for has one holder, which has it once, and can be traced to the id
of a connection. The queue of a closed connection holds none. When the connection of an id is
closed and the commands for it are consumed, all its buffers are in the pool. -/
theorem send_buffers_exactly_once (e : Env σ π) (idx : Nat) (hs : σ) (shared : Bytes)
    (labels : List (Label π)) (s : Sys σ π)
    (done : Sys.Reached e idx hs shared labels s) :
    (∀ n, n < s.loop.owners → ∃ h, (s.held h).count n = 1 ∧ ∀ k, k ≠ h → n ∉ s.held k) ∧
      (∀ n, s.loop.owners ≤ n → ∀ h, n ∉ s.held h) ∧
      (∀ n, n < s.loop.owners → ∃ id, s.Traced id n) ∧
      (∀ r, (s.loop.conns r).fd = 0 → s.held (.queue r) = []) ∧
      ∀ more s' id n, run (Sys.step e) s more = some s' → s.Traced id n →
        (∀ r, r < s'.loop.nconns → (s'.loop.conns r).id = id → (s'.loop.conns r).fd = 0) →
        (∀ h, ∀ cmd ∈ s'.commands h, cmd.id ≠ id) → ∃ giver, n ∈ s'.held (.pool giver) := by
  obtain ⟨wf, owned⟩ := run_custody done
  refine ⟨owned.exact.made, owned.exact.unmade, fun n made => owned.traced made,
    fun r closed => ?_, ?_⟩
  · exact (owned.cleared r).resolve_left (not_not_intro closed)
  intro more s' id n further traced closed consumed
  obtain ⟨after, still⟩ := run_traced wf owned traced further
  exact after.traced_back still closed consumed

/-- A loop whose handler answers every packet with three bytes. -/
def answering : Env Unit Unit := Env.plain (fun _ => ([1, 2, 3], false)) 1024

/-- The answer to a packet is written in part. -/
def partlySent : Option (Sys Unit Unit) :=
  run (Sys.step answering) (Sys.boot 0 () (List.replicate 16 0))
    (arrival 5 clogged ++ [.event 5 ⟨false, false, true⟩, .recv [[.data [7]]], .tau])

theorem send_buffers_exactly_once_partlySent : ∃ s s', partlySent = some s ∧
    run (Sys.step answering) s [.event 5 ⟨true, false, false⟩] = some s' ∧
    s.loop.owners = 1 ∧ s.held (.queue 0) = [0] ∧ ∃ giver, 0 ∈ s'.held (.pool giver) := by
  obtain ⟨s, ran, owners, queue, made, goes, later⟩ : ∃ s, partlySent = some s ∧ s.loop.owners = 1 ∧
      s.held (.queue 0) = [0] ∧ 0 < s.loop.nconns ∧
      (run (Sys.step answering) s [.event 5 ⟨true, false, false⟩]).isSome ∧
      ∀ s' ∈ run (Sys.step answering) s [.event 5 ⟨true, false, false⟩], s'.loop.nconns = 1 ∧
      (s'.loop.conns 0).fd = 0 ∧ s'.cmdChan.length = 0 ∧ s'.cmdDialChan.length = 0 := computed
  have idle : (partlySent.bind fun s =>
      (run (Sys.step answering) s [.event 5 ⟨true, false, false⟩]).map Sys.producers) =
      some fun _ => .idle := rfl
  obtain ⟨s', further⟩ := isSome_iff_exists.mp goes
  obtain ⟨single, shut, void, noneDial⟩ := later s' further
  rw [ran, bind_some, further, map_some] at idle
  have kept : 0 ∈ (s.loop.conns 0).wq.names ++ (s.loop.conns 0).wq.put :=
    List.mem_append_left _ (show 0 ∈ s.held (.queue 0) by rw [queue]; exact List.mem_cons_self)
  refine ⟨s, s', ran, further, owners, queue, (send_buffers_exactly_once _ 0 () _ _ s ran).2.2.2.2
    _ s' (s.loop.conns 0).id 0 further (.queue 0 made rfl kept) ?_ ?_⟩
  · intro r known _
    rw [single] at known
    rw [Nat.lt_one_iff.mp known]
    exact shut
  intro h cmd waits
  cases h with
  | producer p =>
    rw [Sys.commands, some.inj idle] at waits
    cases waits
  | cmdChan =>
    rw [Sys.commands, List.eq_nil_of_length_eq_zero void] at waits
    cases waits
  | cmdDialChan =>
    rw [Sys.commands, List.eq_nil_of_length_eq_zero noneDial] at waits
    cases waits
  | queue | pool => cases waits

end Connaxis
