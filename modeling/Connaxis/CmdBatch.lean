import Connaxis.CmdChannel
import Connaxis.ConnLife
import Mathlib.Data.List.TakeWhile

namespace Connaxis

open LoopConn List Runs

variable {σ π : Type} {e : Env σ π} {cmd : CmdData} {id : UInt64}

namespace CmdData

/-- The bytes that commands ask to be written. -/
def written (cmds : List CmdData) : Bytes :=
  (cmds.map fun cmd => if cmd.cmd = .CMD_DATA then cmd.payload else []).flatten

/-- The commands before the first one that closes. -/
def beforeClose (cmds : List CmdData) : List CmdData :=
  cmds.takeWhile fun cmd => cmd.cmd ≠ .CMD_CLOSE

/-- The commands for the connection with this id. -/
def own (id : UInt64) (cmds : List CmdData) : List CmdData := cmds.filter fun cmd => cmd.id = id

/-- A command, if it is for the connection with this id. -/
def pick (id : UInt64) (cmd : Option CmdData) : Option CmdData := cmd.filter fun cmd => cmd.id = id

theorem written_append (first second : List CmdData) :
    written (first ++ second) = written first ++ written second := by
  rw [written, map_append, flatten_append]
  rfl

variable {cmds : List CmdData}

theorem beforeClose_self (void : ∀ cmd ∈ cmds, cmd.cmd ≠ .CMD_CLOSE) : beforeClose cmds = cmds :=
  takeWhile_eq_self_iff.mpr fun cmd member => decide_eq_true (void cmd member)

theorem beforeClose_append (filled : ∃ cmd ∈ cmds, cmd.cmd = .CMD_CLOSE) (more : List CmdData) :
    beforeClose (cmds ++ more) = beforeClose cmds := by
  induction cmds with
  | nil =>
    obtain ⟨cmd, member, _⟩ := filled
    cases member
  | cons first rest ih =>
    by_cases closes : first.cmd = .CMD_CLOSE
    · simp only [beforeClose, cons_append, ne_eq, closes, not_true_eq_false, decide_false,
        Bool.false_eq_true, not_false_eq_true, takeWhile_cons_of_neg]
    have later : ∃ cmd ∈ rest, cmd.cmd = .CMD_CLOSE := by
      obtain ⟨cmd, member, close⟩ := filled
      rcases mem_cons.mp member with rfl | inside
      · exact absurd close closes
      · exact ⟨cmd, inside, close⟩
    have further := ih later
    unfold beforeClose at further ⊢
    have keeps : decide (first.cmd ≠ .CMD_CLOSE) = true := decide_eq_true closes
    rw [cons_append, takeWhile_cons, if_pos keeps, further, takeWhile_cons, if_pos keeps]

theorem beforeClose_snoc (void : ∀ cmd ∈ cmds, cmd.cmd ≠ .CMD_CLOSE)
    (closes : cmd.cmd = .CMD_CLOSE) : beforeClose (cmds ++ [cmd]) = cmds := by
  have all := beforeClose_self void
  unfold beforeClose at all ⊢
  rw [takeWhile_append, all, if_pos rfl, takeWhile_cons_of_neg (by simpa using closes), append_nil]

/-- Kinds and payloads decide what is written. -/
theorem written_beforeClose_congr {cmds' : List CmdData}
    (same : cmds.map (fun cmd => (cmd.cmd, cmd.payload)) =
      cmds'.map fun cmd => (cmd.cmd, cmd.payload)) :
    written (beforeClose cmds) = written (beforeClose cmds') := by
  have keyed (cmds : List CmdData) : written (beforeClose cmds) =
      (((cmds.map fun cmd => (cmd.cmd, cmd.payload)).takeWhile fun key => key.1 ≠ .CMD_CLOSE).map
        fun key => if key.1 = .CMD_DATA then key.2 else []).flatten := by
    rw [takeWhile_map, map_map]
    rfl
  rw [keyed, keyed, same]

theorem own_cons (mine : cmd.id = id) (rest : List CmdData) :
    own id (cmd :: rest) = cmd :: own id rest :=
  filter_cons_of_pos (decide_eq_true mine)

theorem own_foreign (foreign : cmd.id ≠ id) (rest : List CmdData) :
    own id (cmd :: rest) = own id rest :=
  filter_cons_of_neg (by simpa using foreign)

theorem own_append (id : UInt64) (first second : List CmdData) :
    own id (first ++ second) = own id first ++ own id second :=
  filter_append ..

theorem pick_own (mine : cmd.id = id) : pick id (some cmd) = some cmd :=
  if_pos (decide_eq_true mine)

theorem pick_foreign (foreign : cmd.id ≠ id) : pick id (some cmd) = none :=
  if_neg (by simpa using foreign)

end CmdData

open CmdData

variable {bytes : Bytes}

namespace LoopConn

variable {l l' : LoopConn σ π} {r : Ref}

/-- What a command of its own that does not close it does to a connection. -/
theorem consumeCmd_stream (sending : (l.conns r).Sending) (live : (l.conns r).fd ≠ 0)
    (found : l.connByFD e cmd.fd = some r) (own : cmd.id = (l.conns r).id)
    (kind : cmd.cmd ≠ .CMD_CLOSE) (stays : ((l.consumeCmd e cmd).conns r).fd ≠ 0) :
    ((l.consumeCmd e cmd).conns r).Sending ∧
      ((l.consumeCmd e cmd).conns r).stream = (l.conns r).stream ++ written [cmd] := by
  have reset : (l.reset cmd).conns = l.conns := by rw [reset_tidy]
  have ignored (nothing : written [cmd] = []) : ((l.reset cmd).conns r).Sending ∧
      ((l.reset cmd).conns r).stream = (l.conns r).stream ++ written [cmd] := by
    rw [reset, nothing, append_nil]
    exact ⟨sending, rfl⟩
  have payload : written [cmd] = if cmd.cmd = .CMD_DATA then cmd.payload else [] := by
    rw [written, map_singleton, flatten_singleton]
  simp only [consumeCmd, found] at stays ⊢
  split at stays
  · rename_i data
    rw [if_pos data] at payload
    split at stays
    · rename_i void
      rw [payload, CmdData.payload, void, append_nil]
      exact ⟨sending, rfl⟩
    rename_i owner filled
    split at stays
    · rename_i refused
      rw [if_pos refused]
      apply ignored
      rcases refused with foreign | empty | closed
      · exact absurd own.symm foreign
      · rw [payload, CmdData.payload, filled]
        dsimp only
        rw [empty, take_zero]
      · exact absurd closed live
    rename_i right
    rw [if_neg right]
    have grown := EngineConn.enqueueWrite_stream (e := e.toConnEnv) sending owner cmd.size
      (cmd.fits owner filled)
    unfold enqueueCmd at stays ⊢
    dsimp only at stays ⊢
    split
    · rename_i exceeds
      rw [exceeds] at stays
      exact absurd (closeConn_fd _) stays
    rw [setConn_self, payload, CmdData.payload, filled]
    exact grown
  · rename_i close
    exact absurd close kind
  rename_i other _
  rw [if_neg other] at payload
  exact ignored payload

theorem Wrote.stream {c : EngineConn π} {sum : Int} {err : Option Err}
    (drained : (l.conns r).drainWrite e.toConnEnv = some (c, sum, err)) (wrote : Wrote e l r c l')
    (sending : (l.conns r).Sending) (stays : (l'.conns r).fd ≠ 0) :
    (l'.conns r).Sending ∧ (l'.conns r).stream = (l.conns r).stream := by
  cases wrote with
  | closed => exact absurd (closeConn_fd _) stays
  | kept =>
    obtain ⟨_, _, _, same, kept⟩ := EngineConn.drainWrite_stream (e := e.toConnEnv) sending
    cases drained.symm.trans same
    rw [setConn_self]
    exact kept

/-- An attached plain connection and all that has been handed to it. -/
structure Sent (l : LoopConn σ π) (r : Ref) (bytes : Bytes) : Prop where
  attached : Attached l r
  sending : (l.conns r).Sending
  stream : (l.conns r).stream = bytes

variable {op : Op π}

/-- Operations other than reading it and taking commands for it move a connection's bytes
at most. -/
theorem Act.sent (sound : Sound e l) (act : Act e l op l') (held : Sent l r bytes)
    (unread : op ≠ .read r) (idle : ∀ owner size, op ≠ .enqueue r owner size)
    (stays : (l'.conns r).fd ≠ 0) : Sent l' r bytes := by
  have attached := held.attached
  by_cases own : op.subject = some r
  · have sent {c : EngineConn π} {sum : Int} {err : Option Err}
        (drained : (l.conns r).drainWrite e.toConnEnv = some (c, sum, err))
        (wrote : Wrote e l r c l') : Sent l' r bytes := by
      obtain ⟨sending, stream⟩ := wrote.stream drained held.sending stays
      exact ⟨(act.effect sound attached own).attached_of_open attached stays, sending,
        stream.trans held.stream⟩
    cases act with
    | tidy | make | age | track => cases own
    | close q err =>
      cases own
      exact absurd (closeConn_fd err) stays
    | send q _ done =>
      cases own
      obtain ⟨c, sum, err, drained, wrote⟩ := processSend_wrote done
      exact sent drained wrote
    | read q =>
      cases own
      exact absurd rfl unread
    | flush q counted _ done =>
      cases own
      obtain ⟨c, sum, err, drained, wrote⟩ := flushFd_wrote (sound.found attached) attached.1 done
      exact sent drained wrote
    | enqueue q owner size =>
      cases own
      exact absurd rfl (idle owner size)
    | attach _ _ fresh | drop _ fresh =>
      cases own
      exact absurd rfl (fresh.ne attached)
  have made := (sound.slot _ r attached.2).2.2.2.2
  have same := act.untouched sound made own
  refine ⟨same.attached.mpr attached, ?_, ?_⟩
  · rw [same.conn]
    exact held.sending
  rw [same.conn]
  exact held.stream

/-- Whoever is served is open. -/
theorem Act.subject_open (sound : Sound e l) (act : Act e l op l') (own : op.subject = some r) :
    (l.conns r).fd ≠ 0 := by
  rcases act.held sound own with ⟨attached, _⟩ | fresh
  · exact attached.1
  · exact fresh.live

end LoopConn

namespace Sys

variable {s s' : Sys σ π} {a : Label π} {r : Ref}

def reads (s : Sys σ π) (a : Label π) (r : Ref) : Bool :=
  match a with
  | .recv _ => s.pc = .read r
  | _ => false

/-- The step takes a close command for the connection with this id. -/
def closing (e : Env σ π) (s : Sys σ π) (a : Label π) (id : UInt64) : Bool :=
  match s.taken e a with
  | some cmd => cmd.cmd = .CMD_CLOSE ∧ cmd.id = id
  | none => false

/-- Nothing but its own commands happens to the connection: no other one has its id, it is
not read, and if it is closed then by a close command for it. -/
def OnlyCommands (e : Env σ π) (r : Ref) (s : Sys σ π) (a : Label π) (s' : Sys σ π) : Prop :=
  (∀ q < s.loop.nconns, (s.loop.conns q).id = (s.loop.conns r).id → q = r) ∧
    s.reads a r = false ∧
    ((s.loop.conns r).fd ≠ 0 → (s'.loop.conns r).fd = 0 → s.closing e a (s.loop.conns r).id = true)

instance (e : Env σ π) (r : Ref) (s : Sys σ π) (a : Label π) (s' : Sys σ π) :
    Decidable (OnlyCommands e r s a s') :=
  inferInstanceAs (Decidable (_ ∧ _ ∧ _))

/-- A close command for the connection is consumed when nothing waits to be sent. -/
def closesDrained (e : Env σ π) (r : Ref) (s : Sys σ π) (a : Label π) : Bool :=
  s.closing e a (s.loop.conns r).id → (s.loop.conns r).pendingWrite = 0

/-- No command for the connection is under way and it has nothing to send. -/
def Settled (s : Sys σ π) (r : Ref) : Prop :=
  (∀ dial, ∀ cmd ∈ s.chan dial, cmd.id ≠ (s.loop.conns r).id) ∧ (s.loop.conns r).pendingWrite = 0

instance (s : Sys σ π) (r : Ref) : Decidable (Settled s r) :=
  inferInstanceAs (Decidable (_ ∧ _))

/-- A command for the connection that has been put on its channel. -/
def sentTo (e : Env σ π) (id : UInt64) (s : Sys σ π) (a : Label π) : Option CmdData :=
  pick id (s.sent e a)

theorem step_closed (wf : Wf e s) (done : s.step e a = some s') (made : r < s.loop.nconns)
    (closed : (s.loop.conns r).fd = 0) : s'.loop.conns r = s.loop.conns r := by
  refine (step_keeps (P := fun m => m.conns r = s.loop.conns r) wf done made rfl ?_).2
  intro m op m' sound known _ act same
  by_cases own : op.subject = some r
  · refine absurd ?_ (act.subject_open sound own)
    rw [same]
    exact closed
  · exact (act.untouched sound known own).conn.trans same

/-- A step that neither reads a connection nor takes a command for it. -/
theorem step_sent (wf : Wf e s) (done : s.step e a = some s') (held : Sent s.loop r bytes)
    (unread : s.reads a r = false)
    (foreign : ∀ cmd, s.taken e a = some cmd → cmd.id ≠ (s.loop.conns r).id)
    (stays : (s'.loop.conns r).fd ≠ 0) : Sent s'.loop r bytes := by
  have made := (wf.sound.slot _ r held.attached.2).2.2.2.2
  refine (step_keeps (P := fun m => (m.conns r).fd ≠ 0 → Sent m r bytes) wf done made
    (fun _ => held) ?_).2 stays
  intro m op m' sound known serves act before live
  have open_ : (m.conns r).fd ≠ 0 := (act.kept sound known).fd live ▸ live
  refine act.sent sound (before open_) ?_ ?_ live
  · rintro rfl
    obtain ⟨_, ⟨answers, rfl⟩, at_⟩ := serves
    rw [reads, at_] at unread
    exact of_decide_eq_false unread rfl
  rintro owner size rfl
  obtain ⟨_, cmd, front, _, _, _, _, _, mine⟩ := serves
  exact foreign cmd front mine.symm

/-- A command for the connection goes by the connection's channel and, as long as the
connection is open, bears its descriptor. -/
def Bound (s : Sys σ π) (r : Ref) (dial : Bool) (cmd : CmdData) : Prop :=
  cmd.id = (s.loop.conns r).id → dial = (s.loop.conns r).client ∧
    ((s.loop.conns r).fd ≠ 0 → cmd.fd = (s.loop.conns r).fd)

/-- All commands under way for the connection. -/
structure Posted (s : Sys σ π) (r : Ref) : Prop where
  hands : ∀ p dial cmd, s.producers p = .pushCmd dial cmd → Bound s r dial cmd
  queues : ∀ dial, ∀ cmd ∈ s.chan dial, Bound s r dial cmd

theorem Bound.step {dial : Bool} (wf : Wf e s) (done : s.step e a = some s')
    (made : r < s.loop.nconns) (bound : Bound s r dial cmd) : Bound s' r dial cmd := by
  obtain ⟨_, name, keeps⟩ := step_names wf done made
  have id : (s'.loop.conns r).id = (s.loop.conns r).id := congrArg Identity.id name
  have client : (s'.loop.conns r).client = (s.loop.conns r).client := congrArg Identity.client name
  intro mine
  obtain ⟨way, fd⟩ := bound (mine.trans id)
  refine ⟨way.trans client.symm, fun live => ?_⟩
  have same := keeps live
  rw [same] at live ⊢
  exact fd live

theorem Posted.step (wf : Wf e s) (done : s.step e a = some s') (made : r < s.loop.nconns)
    (unique : ∀ q < s.loop.nconns, (s.loop.conns q).id = (s.loop.conns r).id → q = r)
    (posted : Posted s r) : Posted s' r := by
  refine ⟨fun p dial cmd hand => ?_, fun dial cmd member => ?_⟩
  · apply Bound.step wf done made
    rcases step_issued done hand with before | ⟨c, kind, data, l, known, new, rfl⟩
    · exact posted.hands p dial cmd before
    obtain ⟨fd, id⟩ := newCmd_names new
    intro mine
    have same := unique c known (id.symm.trans mine)
    subst same
    exact ⟨rfl, fun _ => fd⟩
  apply Bound.step wf done made
  have kept (same : s'.chan dial = s.chan dial) : Bound s r dial cmd :=
    posted.queues dial cmd (same ▸ member)
  cases step_mail done with
  | still same => exact kept (congrFun same dial)
  | took way front _ _ head other =>
    by_cases own : dial = way
    · subst own
      refine posted.queues dial cmd ?_
      rw [head]
      exact mem_cons_of_mem _ member
    rw [Bool.eq_not_of_ne own] at kept ⊢
    exact kept other
  | posted p way last hand _ _ grown other =>
    by_cases own : dial = way
    · subst own
      rw [grown] at member
      rcases mem_append.mp member with old | new
      · exact posted.queues dial cmd old
      rw [mem_singleton.mp new]
      exact posted.hands p dial last hand
    rw [Bool.eq_not_of_ne own] at kept ⊢
    exact kept other

/-- What the channel of the connection loses at its front and gains at its end. -/
theorem own_mail (posted : Posted s r) (named : (s.loop.conns r).id = id)
    (done : s.step e a = some s') :
    own id (s.chan (s.loop.conns r).client) ++ (s.sentTo e id a).toList =
      (pick id (s.taken e a)).toList ++
        own id (s'.chan (s.loop.conns r).client) := by
  cases step_mail done with
  | still same idle unsent =>
    rw [sentTo, unsent, idle, same]
    exact append_nil _
  | took way cmd front unsent head other =>
    rw [sentTo, unsent, front]
    by_cases mine : cmd.id = id
    · have bound := posted.queues way cmd (head ▸ mem_cons_self) (mine.trans named.symm)
      rw [← bound.1, head, own_cons mine, pick_own mine]
      exact append_nil _
    rw [pick_foreign mine]
    refine (append_nil _).trans ?_
    by_cases same : (s.loop.conns r).client = way
    · rw [same, head, own_foreign mine]
      rfl
    rw [Bool.eq_not_of_ne same, other]
    rfl
  | posted p way cmd hand idle out last other =>
    rw [sentTo, out, idle]
    by_cases mine : cmd.id = id
    · have bound := posted.hands p way cmd hand (mine.trans named.symm)
      rw [← bound.1, last, own_append, own_cons mine, pick_own mine]
      rfl
    rw [pick_foreign mine]
    refine (append_nil _).trans ?_
    by_cases same : (s.loop.conns r).client = way
    · rw [same, last, own_append, own_foreign mine]
      exact (append_nil _).symm
    rw [Bool.eq_not_of_ne same, other]
    rfl

/-- Where the loop stands with a connection after it has consumed these commands for it. -/
inductive Standing (l : LoopConn σ π) (r : Ref) (base : Bytes) (consumed : List CmdData) : Prop
  | serving (void : ∀ cmd ∈ consumed, cmd.cmd ≠ .CMD_CLOSE)
      (held : Sent l r (base ++ written consumed))
  | finished (filled : ∃ cmd ∈ consumed, cmd.cmd = .CMD_CLOSE) (closed : (l.conns r).fd = 0)
      (accepted : (l.conns r).sock.accepted = base ++ written (beforeClose consumed))

variable {base : Bytes}

variable {consumed : List CmdData}

/-- The loop consumes a command for an open connection. -/
theorem Standing.consume (wf : Wf e s) (void : ∀ cmd ∈ consumed, cmd.cmd ≠ .CMD_CLOSE)
    (held : Sent s.loop r (base ++ written consumed)) (done : s.step e a = some s')
    (front : s.taken e a = some cmd) (mine : cmd.id = (s.loop.conns r).id)
    (fd : cmd.fd = (s.loop.conns r).fd) (only : OnlyCommands e r s a s')
    (drained : s.closesDrained e r a = true) : Standing s'.loop r base (consumed ++ [cmd]) := by
  have attached := held.attached
  have found : s.loop.connByFD e cmd.fd = some r := fd ▸ wf.sound.found attached
  have loop := taken_consumed done front
  by_cases kind : cmd.cmd = .CMD_CLOSE
  · have closes : s.closing e a (s.loop.conns r).id = true := by
      simp only [closing, front, kind, mine, and_self, decide_true]
    have idle : (s.loop.conns r).pendingWrite = 0 := by
      rw [closesDrained, closes] at drained
      exact of_decide_eq_true drained rfl
    have waiting : (s.loop.conns r).wq.content = [] :=
      eq_nil_of_length_eq_zero (held.sending.pendingWrite_eq ▸ idle)
    have conn : s'.loop.conns r = (s.loop.conns r).close e.toConnEnv := by
      rw [loop]
      simp only [consumeCmd, found, kind]
      rw [reset_tidy, closeConn_open _ attached.1]
      exact Function.update_self r _ _
    refine .finished ⟨cmd, by simp, kind⟩ ?_ ?_
    · rw [conn]
      rfl
    have stream := held.stream
    rw [EngineConn.stream, waiting, append_nil] at stream
    rw [conn, beforeClose_snoc void kind, ← stream]
    rfl
  have stays : (s'.loop.conns r).fd ≠ 0 := by
    intro closed
    have closes := only.2.2 attached.1 closed
    simp only [closing, front, decide_eq_true_eq] at closes
    exact kind closes.1
  have effect : Attached s'.loop r := by
    rw [loop] at stays ⊢
    have cases := consumeCmd_cases (e := e) s.loop cmd
    generalize s.loop.consumeCmd e cmd = l' at cases stays
    cases cases with
    | ignored tidy => exact (tidy.untouched r).attached.mpr attached
    | enqueued q owner owned =>
      rw [found] at owned
      cases owned
      exact (enqueueCmd_effect wf.sound attached owner cmd.size).attached_of_open attached stays
    | closed q _ close => exact absurd close kind
  rw [loop] at stays
  obtain ⟨sending, stream⟩ :=
    consumeCmd_stream held.sending attached.1 found mine kind stays
  rw [← loop] at sending stream
  refine .serving (forall_mem_append.mpr ⟨void, forall_mem_singleton.mpr kind⟩)
    ⟨effect, sending, ?_⟩
  · rw [stream, held.stream, written_append, append_assoc]

theorem Standing.step (wf : Wf e s) (made : r < s.loop.nconns) (named : (s.loop.conns r).id = id)
    (posted : Posted s r) (standing : Standing s.loop r base consumed)
    (done : s.step e a = some s') (only : OnlyCommands e r s a s')
    (drained : s.closesDrained e r a = true) :
    Standing s'.loop r base
      (consumed ++ (pick id (s.taken e a)).toList) := by
  cases standing with
  | finished filled closed accepted =>
    have same := step_closed wf done made closed
    refine .finished ?_ (same ▸ closed) ?_
    · obtain ⟨cmd, member, closes⟩ := filled
      exact ⟨cmd, mem_append_left _ member, closes⟩
    rw [same, beforeClose_append filled]
    exact accepted
  | serving void held =>
    cases front : s.taken e a with
    | some cmd =>
      by_cases mine : cmd.id = id
      · rw [pick_own mine]
        have queued : ∃ dial, cmd ∈ s.chan dial := by
          cases step_mail done with
          | still _ idle =>
            rw [front] at idle
            cases idle
          | took dial _ front' _ head =>
            rw [front] at front'
            cases front'
            exact ⟨dial, head ▸ mem_cons_self⟩
          | posted _ _ _ _ idle =>
            rw [front] at idle
            cases idle
        obtain ⟨dial, member⟩ := queued
        have bound := posted.queues dial cmd member (mine.trans named.symm)
        exact Standing.consume wf void held done front (mine.trans named.symm)
          (bound.2 held.attached.1) only drained
      rw [pick_foreign mine, Option.toList_none, append_nil]
      refine .serving void (step_sent wf done held only.2.1 ?_ fun closed => ?_)
      · intro other front'
        rw [front] at front'
        cases front'
        rw [named]
        exact mine
      have closes := only.2.2 held.attached.1 closed
      simp only [closing, front, decide_eq_true_eq] at closes
      exact mine (closes.2.trans named)
    | none =>
      refine (append_nil consumed).symm ▸ ?_
      refine .serving void (step_sent wf done held only.2.1 ?_ fun closed => ?_)
      · intro other front'
        rw [front] at front'
        cases front'
      have closes := only.2.2 held.attached.1 closed
      simp only [closing, front, Bool.false_eq_true] at closes

/-- The commands sent so far are those consumed and those under way. -/
structure Progress (e : Env σ π) (r : Ref) (id : UInt64) (base : Bytes) (log : List CmdData)
    (s : Sys σ π) : Prop where
  wf : Wf e s
  made : r < s.loop.nconns
  named : (s.loop.conns r).id = id
  posted : Posted s r
  served : ∃ consumed, log = consumed ++ own id (s.chan (s.loop.conns r).client) ∧
    Standing s.loop r base consumed

variable {log : List CmdData}

theorem Progress.step (held : Progress e r id base log s) (done : s.step e a = some s')
    (only : OnlyCommands e r s a s') (drained : s.closesDrained e r a = true) :
    Progress e r id base (log ++ (s.sentTo e id a).toList) s' := by
  obtain ⟨made, name, _⟩ := step_names held.wf done held.made
  refine ⟨(step_turn held.wf done).wf, made, (congrArg Identity.id name).trans held.named,
    held.posted.step held.wf done held.made only.1, ?_⟩
  have client : (s'.loop.conns r).client = (s.loop.conns r).client := congrArg Identity.client name
  obtain ⟨consumed, rfl, standing⟩ := held.served
  refine ⟨_, ?_, standing.step held.wf held.made held.named held.posted done only drained⟩
  rw [append_assoc, own_mail held.posted held.named done, client, append_assoc]

/-- With all commands consumed and nothing left to send, the socket has what came before
the first close command. -/
theorem Progress.accepted (held : Progress e r id base log s) (settled : Settled s r) :
    (s.loop.conns r).sock.accepted = base ++ written (beforeClose log) := by
  obtain ⟨consumed, rfl, standing⟩ := held.served
  have void : own id (s.chan (s.loop.conns r).client) = [] := by
    refine filter_eq_nil_iff.mpr fun cmd member mine => ?_
    exact settled.1 _ cmd member ((of_decide_eq_true mine).trans held.named.symm)
  rw [void, append_nil]
  cases standing with
  | serving void held =>
    have waiting : (s.loop.conns r).wq.content = [] :=
      eq_nil_of_length_eq_zero (held.sending.pendingWrite_eq ▸ settled.2)
    have stream := held.stream
    rw [EngineConn.stream, waiting, append_nil] at stream
    rw [beforeClose_self void]
    exact stream
  | finished _ _ accepted => exact accepted

end Sys

/-- However the commands for a connection are grouped, the socket gets the payloads before
the first close command, in every two runs that consume each close command with nothing
left to send. -/
theorem batching_irrelevant (e : Env σ π) (idx : Nat) (hs : σ) (shared : Bytes)
    (before labels₁ labels₂ : List (Label π)) (s₀ s₁ s₂ : Sys σ π)
    (start : run (Sys.step e) (Sys.boot idx hs shared) before = some s₀)
    (r : Ref) (attached : Attached s₀.loop r) (plain : (s₀.loop.conns r).tls = none)
    (settled₀ : s₀.Settled r)
    (unissued : ∀ p dial cmd, s₀.producers p = .pushCmd dial cmd →
      cmd.id ≠ (s₀.loop.conns r).id)
    (run₁ : run (Sys.step e) s₀ labels₁ = some s₁)
    (run₂ : run (Sys.step e) s₀ labels₂ = some s₂)
    (only₁ : Each (Sys.step e) (Sys.OnlyCommands e r) s₀ labels₁)
    (only₂ : Each (Sys.step e) (Sys.OnlyCommands e r) s₀ labels₂)
    (drained₁ : Each (Sys.step e) (fun s a _ => s.closesDrained e r a = true) s₀ labels₁)
    (drained₂ : Each (Sys.step e) (fun s a _ => s.closesDrained e r a = true) s₀ labels₂)
    (settled₁ : s₁.Settled r) (settled₂ : s₂.Settled r)
    (same : (log (Sys.step e) (Sys.sentTo e (s₀.loop.conns r).id) s₀ labels₁).map
        (fun cmd => (cmd.cmd, cmd.payload)) =
      (log (Sys.step e) (Sys.sentTo e (s₀.loop.conns r).id) s₀ labels₂).map
        fun cmd => (cmd.cmd, cmd.payload)) :
    (s₁.loop.conns r).sock.accepted = (s₂.loop.conns r).sock.accepted ∧
    (s₁.loop.conns r).sock.accepted = (s₀.loop.conns r).sock.accepted ++
      written (beforeClose
        (log (Sys.step e) (Sys.sentTo e (s₀.loop.conns r).id) s₀ labels₁)) := by
  obtain ⟨wf, alive⟩ := (alive_upheld e).always start
  have made := (wf.sound.slot _ r attached.2).2.2.2.2
  have sending := (alive r made attached.1).sending plain
  have waiting : (s₀.loop.conns r).wq.content = [] :=
    List.eq_nil_of_length_eq_zero (sending.pendingWrite_eq ▸ settled₀.2)
  have first : Sys.Progress e r (s₀.loop.conns r).id (s₀.loop.conns r).sock.accepted [] s₀ := by
    refine ⟨wf, made, rfl, ⟨fun p dial cmd hand mine => ?_, fun dial cmd member mine => ?_⟩,
      [], ?_, .serving nofun ⟨attached, sending, ?_⟩⟩
    · exact absurd mine (unissued p dial cmd hand)
    · exact absurd mine (settled₀.1 dial cmd member)
    · refine (List.filter_eq_nil_iff.mpr fun cmd member mine => ?_).symm
      exact settled₀.1 _ cmd member (of_decide_eq_true mine)
    rw [EngineConn.stream, waiting]
    rfl
  have after {labels : List (Label π)} {s : Sys σ π}
      (ran : run (Sys.step e) s₀ labels = some s)
      (only : Each (Sys.step e) (Sys.OnlyCommands e r) s₀ labels)
      (drained : Each (Sys.step e) (fun s a _ => s.closesDrained e r a = true) s₀ labels)
      (settled : s.Settled r) :
      (s.loop.conns r).sock.accepted = (s₀.loop.conns r).sock.accepted ++ written (beforeClose
        (log (Sys.step e) (Sys.sentTo e (s₀.loop.conns r).id) s₀ labels)) :=
    (run_log_invariant (fun _ _ _ _ done both held => held.step done both.1 both.2) ran
      (only.and drained) first).accepted settled
  have one := after run₁ only₁ drained₁ settled₁
  have two := after run₂ only₂ drained₂ settled₂
  refine ⟨?_, one⟩
  rw [one, two, written_beforeClose_congr same]

/-- A handler that sends back what it gets, and a limit of eight bytes. -/
def echo : Env Unit Unit := Env.plain (fun b => (b, false)) 8

/-- A client whose kernel takes everything. -/
def idleClient : Option (Sys Unit Unit) :=
  run (Sys.step echo) (Sys.boot 0 () [0, 0, 0, 0])
    (arrival 5 fun _ => .full)

/-- Two payloads and a close command for it, each in a batch of its own. -/
def separately : List (Label Unit) :=
  request 0 .CMD_DATA [1, 2, 3] ++ batch 1 [5] ++ request 0 .CMD_DATA [4] ++ batch 1 [5] ++
    request 0 .CMD_CLOSE [] ++ batch 1 []

/-- The same with both payloads in one batch. -/
def closeApart : List (Label Unit) :=
  request 0 .CMD_DATA [1, 2, 3] ++ laterRequest 0 .CMD_DATA [4] ++ batch 2 [5] ++
    request 0 .CMD_CLOSE [] ++ batch 1 []

/-- The same with all three in one batch. -/
def allAtOnce : List (Label Unit) :=
  request 0 .CMD_DATA [1, 2, 3] ++ laterRequest 0 .CMD_DATA [4] ++
    laterRequest 0 .CMD_CLOSE [] ++ batch 3 []

/-- A run from there on, and the commands for the client that it sends. -/
def served (labels : List (Label Unit)) : Option (Sys Unit Unit × List (Cmd × Bytes)) :=
  idleClient.bind fun s₀ =>
    (run (Sys.step echo) s₀ labels).map fun s =>
      (s, (log (Sys.step echo) (Sys.sentTo echo (s₀.loop.conns 0).id) s₀ labels).map
        fun cmd => (cmd.cmd, cmd.payload))

theorem batching_irrelevant_separately : ∃ s₀ s₁ s₂, idleClient = some s₀ ∧
    run (Sys.step echo) s₀ separately = some s₁ ∧
    run (Sys.step echo) s₀ closeApart = some s₂ ∧
    (s₁.loop.conns 0).sock.accepted = [1, 2, 3, 4] ∧
    (s₁.loop.conns 0).sock.accepted = (s₂.loop.conns 0).sock.accepted := by
  have hands : idleClient.map (fun s => s.producers) = some fun _ => .idle := rfl
  obtain ⟨s₀, start, attached, plain, settled, runs⟩ : ∃ s, idleClient = some s ∧
      Attached s.loop 0 ∧ (s.loop.conns 0).tls.isNone ∧ s.Settled 0 ∧
      (∀ labels ∈ [separately, closeApart],
        (run (Sys.step echo) s labels).isSome ∧
        Each (Sys.step echo) (Sys.OnlyCommands echo 0) s labels ∧
        Each (Sys.step echo) (fun s a _ => s.closesDrained echo 0 a = true) s labels ∧
        (∀ final ∈ run (Sys.step echo) s labels,
          final.Settled 0 ∧ (final.loop.conns 0).sock.accepted = [1, 2, 3, 4]) ∧
        (log (Sys.step echo) (Sys.sentTo echo (s.loop.conns 0).id) s labels).map
          (fun cmd => (cmd.cmd, cmd.payload)) =
          [(.CMD_DATA, [1, 2, 3]), (.CMD_DATA, [4]), (.CMD_CLOSE, [])]) := computed
  obtain ⟨some₁, only₁, drained₁, final₁, log₁⟩ := runs separately List.mem_cons_self
  obtain ⟨some₂, only₂, drained₂, final₂, log₂⟩ := runs closeApart
    (List.mem_cons_of_mem _ List.mem_cons_self)
  obtain ⟨s₁, run₁⟩ := Option.isSome_iff_exists.mp some₁
  obtain ⟨s₂, run₂⟩ := Option.isSome_iff_exists.mp some₂
  rw [start] at hands
  have idle : s₀.producers = fun _ => .idle := Option.some.inj hands
  refine ⟨s₀, s₁, s₂, start, run₁, run₂, (final₁ s₁ run₁).2, ?_⟩
  refine (batching_irrelevant _ 0 () _ _ separately closeApart s₀ s₁ s₂ start 0 attached
    (Option.isNone_iff_eq_none.mp plain) settled ?_ run₁ run₂ only₁ only₂ drained₁ drained₂
    (final₁ s₁ run₁).1 (final₂ s₂ run₂).1 (log₁.trans log₂.symm)).1
  intro p dial cmd hand
  rw [idle] at hand
  cases hand

/-- With the close command in the batch of the payloads the client gets none of them. -/
theorem batching_loses_data : ∃ s₁ s₂ log, served separately = some (s₁, log) ∧
    served allAtOnce = some (s₂, log) ∧
    log = [(.CMD_DATA, [1, 2, 3]), (.CMD_DATA, [4]), (.CMD_CLOSE, [])] ∧
    s₁.Settled 0 ∧ s₂.Settled 0 ∧ (∀ n, (s₂.loop.conns 0).sock.answers n = .full) ∧
    Obs.closed 0 (some .CLOSE_BY_CLOSE_CMD) ∈ s₁.loop.trace ∧
    Obs.closed 0 (some .CLOSE_BY_CLOSE_CMD) ∈ s₂.loop.trace ∧
    (s₁.loop.conns 0).sock.accepted = [1, 2, 3, 4] ∧ (s₂.loop.conns 0).sock.accepted = [] := by
  obtain ⟨⟨s₁, log₁⟩, run₁, rfl, settled₁, closed₁, accepted₁⟩ : ∃ x, served separately = some x ∧
      x.2 = [(.CMD_DATA, [1, 2, 3]), (.CMD_DATA, [4]), (.CMD_CLOSE, [])] ∧ x.1.Settled 0 ∧
      Obs.closed 0 (some .CLOSE_BY_CLOSE_CMD) ∈ x.1.loop.trace ∧
      (x.1.loop.conns 0).sock.accepted = [1, 2, 3, 4] := computed
  obtain ⟨⟨s₂, log₂⟩, run₂, rfl, settled₂, closed₂, accepted₂⟩ : ∃ x, served allAtOnce = some x ∧
      x.2 = [(.CMD_DATA, [1, 2, 3]), (.CMD_DATA, [4]), (.CMD_CLOSE, [])] ∧ x.1.Settled 0 ∧
      Obs.closed 0 (some .CLOSE_BY_CLOSE_CMD) ∈ x.1.loop.trace ∧
      (x.1.loop.conns 0).sock.accepted = [] := computed
  have kernel : (served allAtOnce).map (fun x => (x.1.loop.conns 0).sock.answers) =
      some fun _ => .full := rfl
  rw [run₂] at kernel
  exact ⟨s₁, s₂, _, run₁, run₂, rfl, settled₁, settled₂, congrFun (Option.some.inj kernel),
    closed₁, closed₂, accepted₁, accepted₂⟩

end Connaxis
