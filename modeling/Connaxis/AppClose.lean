import Connaxis.Books

namespace Connaxis

open LoopConn Memory List Runs Function

variable {σ π : Type}

/-- When a handler calls `Close` on the connection it was called for. -/
structure Closer (σ : Type) where
  onConnected : σ → AppConn → Bool
  onData : σ → AppConn → Bytes → Bool

namespace Closer

variable (closer : Closer σ) (e : Env σ π)

/-- `OnData` and `emitOutput`. A `Close` within `OnData` comes before its answer is sent. -/
def deliver (rx : Rx σ π) (app : AppConn) (data : Slice) : Option (Rx σ π × ParseExit) :=
  if closer.onData rx.hs app (rx.heap.read data) then
    { rx with conn := rx.conn.close e.toConnEnv }.deliver e app data
  else rx.deliver e app data

abbrev parseLoop : AppConn → Nat → Rx σ π → Slice → Option (Rx σ π × ParseExit) :=
  Rx.packetLoop e (closer.deliver e)

abbrev readRound : LoopConn σ π → Ref → Int → List SysRead → Option (LoopConn σ π × Int × Bool) :=
  roundWith e (closer.parseLoop e)

def processRead (l : LoopConn σ π) (r : Ref) (answers : List (List SysRead)) :
    Option (LoopConn σ π) :=
  readLoop (closer.readRound e) r l 0 answers

/-- `OnConnected` and `AddRead`, which is given the descriptor that a `Close` within
`OnConnected` has left. -/
def announce (l : LoopConn σ π) (r : Ref) (registered : Bool) : LoopConn σ π :=
  if closer.onConnected l.hs (l.app r) then
    (l.setConn r ((l.conns r).close e.toConnEnv)).announce e r registered
  else l.announce e r registered

abbrev attachClient : LoopConn σ π → Ref → Bool → List (List SysRead) → Option (LoopConn σ π) :=
  attachWith e (acceptWith (closer.announce e) (closer.processRead e))

/-- The loop with its producers, under an application that may call `Close`. Only the
steps that call `OnConnected` or `OnData` differ. -/
abbrev step : Sys σ π → Label π → Option (Sys σ π) :=
  Sys.stepWith e (closer.processRead e) (closer.attachClient e)

/-- The same decisions by an application that also writes its `Close` calls down. -/
def logged : Closer (σ × List Ref) :=
  ⟨fun hs => closer.onConnected hs.1, fun hs => closer.onData hs.1⟩

end Closer

/-- The application, with a list of the `Close` calls it has made. -/
def Env.logging (e : Env σ π) (closer : Closer σ) : Env (σ × List Ref) π :=
  { e with
    handler :=
      { parsePacket := fun hs app b =>
          let (next, length, expect) := e.handler.parsePacket hs.1 app b
          ((next, hs.2), length, expect)
        onData := fun hs app b =>
          let reaction := e.handler.onData hs.1 app b
          ⟨(reaction.state, if closer.onData hs.1 app b then hs.2 ++ [app.ref] else hs.2),
            reaction.out, reaction.close, reaction.data⟩
        onConnected := fun hs app =>
          (e.handler.onConnected hs.1 app,
            if closer.onConnected hs.1 app then hs.2 ++ [app.ref] else hs.2)
        onClosed := fun hs app err => (e.handler.onClosed hs.1 app err, hs.2) } }

/-- The application's state holds a log of its `Close` calls. -/
structure Logs (closer : Closer σ) (e : Env σ π) (log : σ → List Ref) : Prop where
  parse : ∀ hs app b, log (e.handler.parsePacket hs app b).1 = log hs
  data : ∀ hs app b, log (e.handler.onData hs app b).state =
    if closer.onData hs app b then log hs ++ [app.ref] else log hs
  connected : ∀ hs app, log (e.handler.onConnected hs app) =
    if closer.onConnected hs app then log hs ++ [app.ref] else log hs
  closed : ∀ hs app err, log (e.handler.onClosed hs app err) = log hs

theorem Env.logging_logs (e : Env σ π) (closer : Closer σ) :
    Logs closer.logged (e.logging closer) Prod.snd :=
  ⟨fun _ _ _ => rfl, fun _ _ _ => rfl, fun _ _ => rfl, fun _ _ _ => rfl⟩

variable {closer : Closer σ} {e : Env σ π} {log : σ → List Ref}
  {ext : List Obs} {exit : ParseExit}

namespace Rx

variable {rx rx' : Rx σ π} {app : AppConn}

/-- The packet loop goes on for an application that has called `Close` before. -/
structure Onward (log : σ → List Ref) (r : Ref) (rx rx' : Rx σ π) : Prop where
  shut : rx.conn.fd = 0 → rx'.conn.fd = 0
  asked : log rx'.hs ≠ []
  trace : ∃ ext, rx'.trace = rx.trace ++ ext ∧ ∀ o ∈ ext, o.Traffic r

/-- The connection that is being read has been closed under the loop's feet. -/
def Fallen (log : σ → List Ref) (r : Ref) (rx rx' : Rx σ π) : Prop :=
  rx'.conn.fd = 0 ∧ Onward log r rx rx'

theorem Onward.after {r : Ref} {mid : Rx σ π} (shut : rx.conn.fd = 0 → mid.conn.fd = 0)
    (trace : mid.trace = rx.trace ++ ext) (about : ∀ o ∈ ext, o.Traffic r)
    (onward : Onward log r mid rx') : Onward log r rx rx' := by
  obtain ⟨down, asked, later, further, rest⟩ := onward
  refine ⟨fun zero => down (shut zero), asked, ext ++ later, ?_,
    forall_mem_append.mpr ⟨about, rest⟩⟩
  rw [further, trace, append_assoc]

theorem Onward.trans {r : Ref} {mid : Rx σ π} (before : Onward log r rx mid)
    (onward : Onward log r mid rx') : Onward log r rx rx' := by
  obtain ⟨ext, trace, about⟩ := before.trace
  exact onward.after before.shut trace about

theorem deliver_hs {data : Slice} (done : rx.deliver e app data = some (rx', exit)) :
    rx'.hs = (e.handler.onData rx.hs app (rx.heap.read data)).state := by
  unfold deliver at done
  dsimp only at done
  split at done
  · cases done
  · cases done
    rfl
  cases done
  rfl

theorem deliver_closes (logs : Logs closer e log) {data : Slice}
    (done : closer.deliver e rx app data = some (rx', exit))
    (closes : closer.onData rx.hs app (rx.heap.read data) = true) : Fallen log app.ref rx rx' := by
  rw [Closer.deliver, if_pos closes] at done
  obtain ⟨close, parsed, -⟩ := deliver_parsed done
  have shut : rx'.conn.fd = 0 := parsed.works.fd
  refine ⟨shut, fun _ => shut, ?_, _, parsed.trace, parsed.about⟩
  rw [deliver_hs done, logs.data, if_pos closes]
  exact append_ne_nil_of_right_ne_nil _ (cons_ne_nil _ _)

theorem keepPartial_hs {inp : Slice} {expect : Int}
    (done : rx.keepPartial e inp expect = (rx', exit)) : rx'.hs = rx.hs := by
  unfold keepPartial at done
  split at done
  · split at done
    · split at done <;> cases done <;> rfl
    cases done
    rfl
  cases done
  rfl

/-- The packet loop does what it does without `Close` calls, or the connection has fallen. -/
theorem parseLoop_fork (logs : Logs closer e log) (rounds : Nat) (inp : Slice)
    (done : closer.parseLoop e app rounds rx inp = some (rx', exit)) :
    Rx.parseLoop e app rounds rx inp = some (rx', exit) ∧ log rx'.hs = log rx.hs ∨
      Fallen log app.ref rx rx' := by
  induction rounds generalizing rx inp with
  | zero => cases done
  | succ rounds ih =>
    have parsed := logs.parse rx.hs app (rx.heap.read inp)
    unfold Closer.parseLoop packetLoop at done
    unfold Rx.parseLoop packetLoop
    generalize e.handler.parsePacket rx.hs app (rx.heap.read inp) = answer at done parsed ⊢
    obtain ⟨hs, length, expect⟩ := answer
    dsimp only at done parsed ⊢
    by_cases negative : length < 0
    · rw [if_pos negative] at done ⊢
      cases done
      exact .inl ⟨rfl, parsed⟩
    rw [if_neg negative] at done ⊢
    by_cases large : expect > e.pktSizeLimit
    · rw [if_pos large] at done ⊢
      cases done
      exact .inl ⟨rfl, parsed⟩
    rw [if_neg large] at done ⊢
    by_cases positive : length > 0
    · rw [if_pos positive] at done ⊢
      by_cases beyond : length > inp.len
      · rw [if_pos beyond] at done ⊢
        cases done
        exact .inl ⟨rfl, parsed⟩
      rw [if_neg beyond] at done ⊢
      by_cases closes : closer.onData hs app (rx.heap.read (inp.front length.toNat)) = true
      · apply Or.inr
        split at done
        · cases done
        · rename_i given
          cases done
          have fallen := deliver_closes logs given closes
          exact ⟨fallen.1, fallen.2.shut, fallen.2.asked, fallen.2.trace⟩
        rename_i next close given
        obtain ⟨down, shut, asked, trace⟩ := deliver_closes logs given closes
        have fallen : Fallen log app.ref rx next := ⟨down, shut, asked, trace⟩
        split at done
        · cases done
          split
          · exact ⟨down, shut, asked, trace⟩
          · exact fallen
        -- The rest of the input is parsed for a connection that is closed.
        have onward : Onward log app.ref next rx' := by
          rcases ih _ done with ⟨same, kept⟩ | later
          · obtain ⟨ext, rest, -⟩ := parseLoop_parsed _ _ _ _ same
            exact ⟨rest.works.fd.trans, kept ▸ asked, ext, rest.trace, rest.about⟩
          · exact later.2
        exact ⟨onward.shut down, fallen.2.trans onward⟩
      rw [Closer.deliver, if_neg closes] at done
      rcases given : Rx.deliver e { rx with hs := hs } app (inp.front length.toNat) with
        _ | ⟨next, exit⟩
      · rw [given] at done
        cases done
      have kept : log next.hs = log rx.hs := by
        rw [deliver_hs given, logs.data, if_neg closes]
        exact parsed
      rw [given] at done
      cases exit with
      | failed err =>
        cases done
        exact .inl ⟨rfl, kept⟩
      | done close =>
        dsimp only at done ⊢
        split at done
        · rename_i ends
          rw [if_pos ends]
          cases done
          refine .inl ⟨rfl, ?_⟩
          split <;> exact kept
        rename_i goes
        rw [if_neg goes]
        rcases ih _ done with ⟨same, rest⟩ | fallen
        · exact .inl ⟨same, rest.trans kept⟩
        obtain ⟨shown, first, -⟩ := deliver_parsed given
        exact .inr ⟨fallen.1, fallen.2.after first.works.fd.trans first.trace first.about⟩
    rw [if_neg positive] at done ⊢
    refine .inl ⟨done, ?_⟩
    rw [keepPartial_hs (Option.some.inj done)]
    exact parsed

end Rx

variable {fd : Nat}

namespace LoopConn

variable {l l' m : LoopConn σ π} {r : Ref}

/-- The application was told of the connection, the connection is closed, and the
application will not be told again: the loop takes a closed connection for one that it has
closed itself. -/
structure Lost (log : σ → List Ref) (l : LoopConn σ π) (r : Ref) : Prop where
  made : r < l.nconns
  shut : (l.conns r).fd = 0
  told : .connected r ∈ l.trace
  silent : closings r l.trace = 0
  asked : log l.hs ≠ []

/-- An operation in which no handler calls `Close`: a closed connection stays closed and
nothing is reported of it. -/
structure Plain (log : σ → List Ref) (l l' : LoopConn σ π) : Prop where
  made : l.nconns ≤ l'.nconns
  asked : log l'.hs = log l.hs
  shut : ∀ r < l.nconns, (l.conns r).fd = 0 → (l'.conns r).fd = 0
  trace : ∃ ext, l'.trace = l.trace ++ ext ∧
    ∀ r < l.nconns, (l.conns r).fd = 0 → ∀ o ∈ ext, o.closes r = false

theorem Plain.refl (log : σ → List Ref) (l : LoopConn σ π) : Plain log l l :=
  ⟨Nat.le_refl _, rfl, fun _ _ => id, [], (append_nil _).symm,
    fun _ _ _ _ member => (nomatch member)⟩

theorem Plain.trans (before : Plain log l m) (after : Plain log m l') : Plain log l l' := by
  obtain ⟨made, asked, shut, first, trace, about⟩ := before
  obtain ⟨made', asked', shut', second, trace', about'⟩ := after
  refine ⟨Nat.le_trans made made', asked'.trans asked, fun r known dead => ?_,
    first ++ second, ?_, fun r known dead => ?_⟩
  · exact shut' r (Nat.lt_of_lt_of_le known made) (shut r known dead)
  · rw [trace', trace, append_assoc]
  exact forall_mem_append.mpr ⟨about r known dead,
    about' r (Nat.lt_of_lt_of_le known made) (shut r known dead)⟩

theorem Plain.lost (plain : Plain log l l') (lost : Lost log l r) : Lost log l' r := by
  obtain ⟨made, asked, shut, ext, trace, about⟩ := plain
  refine ⟨Nat.lt_of_lt_of_le lost.made made, shut r lost.made lost.shut, ?_, ?_, ?_⟩
  · rw [trace]
    exact mem_append_left _ lost.told
  · rw [trace, closings_append, lost.silent, closings_zero (about r lost.made lost.shut)]
  rw [asked]
  exact lost.asked

/-- No connection and nothing that is observed changes. -/
theorem Plain.books (nconns : l'.nconns = l.nconns) (conns : l'.conns = l.conns)
    (trace : l'.trace = l.trace) (hs : l'.hs = l.hs) : Plain log l l' := by
  refine ⟨Nat.le_of_eq nconns.symm, by rw [hs], fun r _ dead => ?_, [], ?_,
    fun _ _ _ _ member => (nomatch member)⟩
  · rw [conns]
    exact dead
  · rw [trace, append_nil]

theorem setConn_plain {c : EngineConn π} (fd : (l.conns r).fd = 0 → c.fd = 0) :
    Plain log l (l.setConn r c) := by
  refine ⟨Nat.le_refl _, rfl, fun q _ dead => ?_, [], (append_nil _).symm,
    fun _ _ _ _ member => (nomatch member)⟩
  by_cases same : q = r
  · subst same
    rw [setConn_self]
    exact fd dead
  rw [setConn_other c q same]
  exact dead

theorem reset_plain (cmd : CmdData) : Plain log l (l.reset cmd) := by
  unfold reset
  split
  · exact .refl log l
  · exact .books rfl rfl rfl rfl

section

variable (logs : Logs closer e log)
include logs

theorem closeConn_plain (err : Option CloseErr) : Plain log l (l.closeConn e r err) := by
  by_cases dead : (l.conns r).fd = 0
  · rw [closeConn_dead err dead]
    exact .refl log l
  refine ⟨?_, ?_, fun q known shut => ?_, [.closed r err], ?_, fun q known shut o member => ?_⟩
  · rw [closeConn_open err dead]
  · rw [closeConn_open err dead]
    exact logs.closed _ _ _
  · have other : q ≠ r := fun same => dead (same ▸ shut)
    rw [closeConn_others err other]
    exact shut
  · rw [closeConn_open err dead]
  rw [mem_singleton.mp member]
  exact decide_eq_false fun same => dead (same ▸ shut)

theorem Wrote.plain {c : EngineConn π} (wrote : Wrote e l r c l')
    (fd : (l.conns r).fd = 0 → c.fd = 0) : Plain log l l' := by
  have books (writeFds marks set : Finset Nat) (poll : Nat → Option Interest) :
      Plain log l ({ l with
        writeFds := writeFds, closeOnDrain := marks, cmdFlushSet := set,
        poll := poll }.setConn r c) :=
    (setConn_plain fd).trans (.books rfl rfl rfl rfl)
  cases wrote with
  | closed set => exact (books _ _ set _).trans (closeConn_plain logs _)
  | kept => exact books _ _ _ _

theorem processSend_plain (done : l.processSend e r = some l') : Plain log l l' := by
  obtain ⟨c, sum, err, drained, wrote⟩ := processSend_wrote done
  exact wrote.plain logs (Works.refl.drain drained).fd.trans

theorem respond_plain {wantClose last again : Bool}
    (done : l.respond e r wantClose last = some (l', again)) : Plain log l l' := by
  obtain ⟨c, sum, err, drained, wrote⟩ := respond_wrote done
  exact wrote.plain logs (Works.refl.drain drained).fd.trans

theorem consumeCmd_plain (cmd : CmdData) : Plain log l (l.consumeCmd e cmd) := by
  unfold consumeCmd
  split
  · exact reset_plain cmd
  split
  · split
    · exact .refl log l
    split
    · exact reset_plain cmd
    · exact (enqueueCmd_wrote _ _).plain logs id
  · exact (closeConn_plain logs _).trans (reset_plain cmd)
  · exact reset_plain cmd

theorem flushFd_plain {counted : Bool} (done : l.flushFd e fd = some (l', counted)) :
    Plain log l l' := by
  rcases flushFd_cases done with ⟨rfl, -⟩ | ⟨r, c, sum, err, found, live, -⟩
  · exact .books rfl rfl rfl rfl
  obtain ⟨c, sum, err, drained, wrote⟩ := flushFd_wrote found live done
  exact wrote.plain logs (Works.refl.drain drained).fd.trans

theorem idleLoop_plain (rounds : Nat) : Plain log l (idleLoop e rounds l) := by
  induction rounds generalizing l with
  | zero => exact .refl log l
  | succ rounds ih =>
    unfold idleLoop
    split
    · exact .refl log l
    dsimp only
    split
    · exact .refl log l
    split
    · refine Plain.trans (Plain.trans ?_ (closeConn_plain logs _)) ih
      exact .books rfl rfl rfl rfl
    · exact .refl log l

theorem onIdle_plain : Plain log l (l.onIdle e) := by
  unfold onIdle
  split
  · exact .books rfl rfl rfl rfl
  split
  · split
    · refine Plain.trans ?_ (idleLoop_plain logs _)
      exact .books rfl rfl rfl rfl
    · exact .books rfl rfl rfl rfl
  · exact .refl log l

theorem shutdown_plain : Plain log l (l.shutdown e) := by
  unfold shutdown
  generalize range e.tableSize = fds
  induction fds generalizing l with
  | nil => exact .refl log l
  | cons fd rest ih =>
    rw [foldl_cons]
    refine Plain.trans ?_ ih
    split
    · exact closeConn_plain logs _
    · exact .refl log l

theorem closePrev_plain : Plain log l (l.closePrev e r) := by
  unfold closePrev
  split
  · exact closeConn_plain logs _
  · exact .refl log l

end

theorem storeConn_plain : Plain log l (l.storeConn e r).1 :=
  (setConn_plain (c := { l.conns r with loopID := l.idx }) id).trans (.books rfl rfl rfl rfl)

theorem track_plain : Plain log l (l.track e r) := by
  unfold track
  split
  · exact .books rfl rfl rfl rfl
  · exact .refl log l

theorem addConn_plain (c : EngineConn π) : Plain log l (l.addConn c).1 := by
  refine ⟨Nat.le_succ _, rfl, fun q known dead => ?_, [], (append_nil _).symm,
    fun _ _ _ _ member => (nomatch member)⟩
  simp only [addConn, update_of_ne (Nat.ne_of_lt known)]
  exact dead

variable {readBytes n : Int} {answers : List SysRead}

theorem receive_hs {got : Received} (done : l.receive e r readBytes answers = some (l', n, got)) :
    l'.hs = l.hs := by
  unfold receive at done
  dsimp only at done
  split at done
  · cases done
    rfl
  split at done
  · cases done
  split at done
  · cases done
    rfl
  split at done
  · cases done
    rfl
  cases done
  rw [touch_books]
  rfl

theorem Inside.plain (inside : Inside e l l' r ext) (asked : log l'.hs = log l.hs) :
    Plain log l l' := by
  refine ⟨Nat.le_of_eq inside.nconns_eq.symm, asked, fun q _ dead => ?_, ext, inside.trace_eq,
    fun q _ _ o member => (inside.about o member).unclosed q⟩
  by_cases same : q = r
  · subst same
    rw [inside.fd_eq]
    exact dead
  rw [inside.others q same]
  exact dead

theorem receive_plain {got : Received}
    (done : l.receive e r readBytes answers = some (l', n, got)) : Plain log l l' := by
  obtain ⟨ext, inside, -⟩ := receive_inside done
  exact inside.plain (by rw [receive_hs done])

/-- Closing a former owner of the descriptor says nothing of the newcomer. -/
theorem Fresh.unreported (e : Env σ π) (fresh : Fresh l r) :
    ∀ o ∈ ((l.closePrev e r).storeConn e r).1.trace, o.closes r = false := by
  have unseen (o : Obs) (member : o ∈ l.trace) : o.closes r = false := by
    cases o with
    | closed c err => exact decide_eq_false (fresh.unseen _ member)
    | _ => rfl
  intro o member
  unfold closePrev at member
  split at member
  · rename_i prev found
    rcases closeConn_mem member with old | rfl
    · exact unseen o old
    refine decide_eq_false ?_
    rintro rfl
    exact fresh.loose _ (connByFD_some found).2.1
  · exact unseen o member

/-- The application was told of the connection and not yet of its end. -/
structure Announced (l : LoopConn σ π) (r : Ref) : Prop where
  made : r < l.nconns
  told : .connected r ∈ l.trace
  silent : closings r l.trace = 0

theorem Inside.announced (inside : Inside e l l' r ext) (known : Announced l r) :
    Announced l' r := by
  refine ⟨?_, ?_, ?_⟩
  · rw [inside.nconns_eq]
    exact known.made
  · rw [inside.trace_eq]
    exact mem_append_left _ known.told
  rw [inside.trace_eq, closings_append, known.silent,
    closings_zero fun o member => (inside.about o member).unclosed r]

theorem Lost.announced (lost : Lost log l r) : Announced l r :=
  ⟨lost.made, lost.told, lost.silent⟩

/-- A connection that is closed when the packet loop of `r` is over, after a `Close` call. -/
theorem Announced.lost {q : Ref} {rx : Rx σ π} (known : Announced l q)
    (onward : Rx.Onward log r (l.rx r) rx) (shut : ((l.commit r rx).conns q).fd = 0) :
    Lost log (l.commit r rx) q := by
  obtain ⟨-, asked, ext, trace, about⟩ := onward
  have extended : (l.commit r rx).trace = l.trace ++ ext := trace
  refine ⟨known.made, shut, ?_, ?_, asked⟩
  · rw [extended]
    exact mem_append_left _ known.told
  rw [extended, closings_append, known.silent,
    closings_zero fun o member => (about o member).unclosed q]

/-- An operation under an application that may call `Close`. What is lost stays lost; under an
empty log, if `known` holds, the operation is one without `Close` calls, or something is lost. -/
structure Forked (log : σ → List Ref) (l l' : LoopConn σ π) (known same : Prop) : Prop where
  lost : ∀ q, Lost log l q → Lost log l' q
  fork : log l.hs = [] → known → same ∧ log l'.hs = [] ∨ ∃ q, Lost log l' q

section

variable {known known' same same' : Prop}

theorem Plain.forked (plain : Plain log l l') (holds : same) : Forked log l l' known same :=
  ⟨fun _ => plain.lost, fun clean _ => .inl ⟨holds, plain.asked.trans clean⟩⟩

theorem Forked.imp (forked : Forked log l l' known same) (more : same → same') :
    Forked log l l' known same' :=
  ⟨forked.lost, fun clean start => (forked.fork clean start).imp_left (.imp_left more)⟩

theorem Forked.trans (first : Forked log l m known same) (rest : Forked log m l' known' same')
    (next : same → known → known') : Forked log l l' known (same ∧ same') := by
  refine ⟨fun q lost => rest.lost q (first.lost q lost), fun clean start => ?_⟩
  rcases first.fork clean start with ⟨holds, tidy⟩ | ⟨q, lost⟩
  · exact (rest.fork tidy (next holds start)).imp_left (.imp_left (.intro holds))
  · exact .inr ⟨q, rest.lost q lost⟩

theorem Plain.fork (plain : Plain log l m) (rest : Forked log m l' known' same)
    (next : known → known') : Forked log l l' known same :=
  ((plain.forked trivial).trans rest fun _ => next).imp And.right

theorem Forked.plain (first : Forked log l m known same) (rest : Plain log m l') :
    Forked log l l' known same := by
  have free : Forked log m l' True True := rest.forked trivial
  exact (first.trans free fun _ _ => trivial).imp And.left

end

section

variable (logs : Logs closer e log)
include logs

theorem parse_forked {rounds : Nat} {inp : Slice} {rx : Rx σ π}
    (done : closer.parseLoop e (l.app r) rounds (l.rx r) inp = some (rx, exit)) :
    Forked log l (l.commit r rx) (Announced l r)
      (Rx.parseLoop e (l.app r) rounds (l.rx r) inp = some (rx, exit)) := by
  have kept (q : Ref) (lost : Lost log l q) (onward : Rx.Onward log r (l.rx r) rx) :
      Lost log (l.commit r rx) q := by
    refine lost.announced.lost onward ?_
    by_cases same : q = r
    · subst same
      simp only [commit, update_self]
      exact onward.shut lost.shut
    simp only [commit, update_of_ne same]
    exact lost.shut
  rcases Rx.parseLoop_fork logs rounds inp done with ⟨same, tidy⟩ | fallen
  · refine ⟨fun q lost => kept q lost ?_, fun clean _ => .inl ⟨same, tidy.trans clean⟩⟩
    obtain ⟨ext, parsed, -⟩ := Rx.parseLoop_parsed _ _ _ _ same
    exact ⟨parsed.works.fd.trans, tidy ▸ lost.asked, ext, parsed.trace, parsed.about⟩
  refine ⟨fun q lost => kept q lost fallen.2, fun _ known => .inr ⟨r, known.lost fallen.2 ?_⟩⟩
  simp only [commit, update_self]
  exact fallen.1

theorem readRound_forked {again : Bool}
    (done : closer.readRound e l r readBytes answers = some (l', n, again)) :
    Forked log l l' (Announced l r) (l.readRound e r readBytes answers = some (l', n, again)) := by
  unfold Closer.readRound roundWith at done
  split at done
  · cases done
  · rename_i received
    unfold LoopConn.readRound roundWith
    rw [received]
    cases done
    exact ((receive_plain received).trans (closeConn_plain logs _)).forked rfl
  rename_i received
  unfold LoopConn.readRound roundWith
  rw [received]
  obtain ⟨ext, inside, -⟩ := receive_inside received
  dsimp only
  split at done
  · cases done
  · rename_i parsed
    cases done
    refine (receive_plain received).fork (.plain ?_ (closeConn_plain logs _)) inside.announced
    exact (parse_forked logs parsed).imp fun same => by rw [same]
  rename_i parsed
  split at done
  · cases done
  rename_i responded
  cases done
  refine (receive_plain received).fork (.plain ?_ (respond_plain logs responded)) inside.announced
  refine (parse_forked logs parsed).imp fun same => ?_
  rw [same]
  dsimp only
  rw [responded]

variable {answers : List (List SysRead)}

theorem readLoop_forked (done : readLoop (closer.readRound e) r l readBytes answers = some l') :
    Forked log l l' (Announced l r) (readLoop (readRound e) r l readBytes answers = some l') := by
  induction answers generalizing l readBytes with
  | nil => cases done
  | cons round rest ih =>
    unfold readLoop at done ⊢
    split at done
    · cases done
    · rename_i once
      cases done
      exact (readRound_forked logs once).imp fun same => by rw [same]
    rename_i once
    refine ((readRound_forked logs once).trans (ih done) fun same known => ?_).imp fun both => ?_
    · obtain ⟨m, ext, inside, ⟨stop, -⟩ | ⟨-, rfl, -⟩⟩ := readRound_cases same
      · cases stop
      · exact inside.announced known
    rw [both.1]
    exact both.2

/-- `OnConnected` calls `Close`. -/
theorem announce_closes (registered : Bool) (made : r < l.nconns)
    (silent : closings r l.trace = 0) (closes : closer.onConnected l.hs (l.app r) = true) :
    Lost log (closer.announce e l r registered) r := by
  rw [Closer.announce, if_pos closes]
  refine ⟨made, ?_, mem_append_right _ mem_cons_self, ?_, ?_⟩
  · simp only [LoopConn.announce, setConn_self]
    rfl
  · simp only [LoopConn.announce, setConn, closings_append, silent]
    rfl
  have app : (l.setConn r ((l.conns r).close e.toConnEnv)).app r = l.app r := by
    simp only [LoopConn.app, setConn_self]
    rfl
  simp only [LoopConn.announce, app]
  rw [show (l.setConn r ((l.conns r).close e.toConnEnv)).hs = l.hs from rfl, logs.connected,
    if_pos closes]
  exact append_ne_nil_of_right_ne_nil _ (cons_ne_nil _ _)

theorem announce_forked (registered : Bool) :
    Forked log l (closer.announce e l r registered) (r < l.nconns ∧ closings r l.trace = 0)
      (closer.announce e l r registered = l.announce e r registered) := by
  have told {m : LoopConn σ π} (q : Ref) (lost : Lost log m q) :
      Lost log (m.announce e r registered) q := by
    refine ⟨lost.made, lost.shut, mem_append_left _ lost.told, ?_, ?_⟩
    · simp only [LoopConn.announce, closings_append, lost.silent]
      rfl
    simp only [LoopConn.announce]
    rw [logs.connected]
    split
    · exact append_ne_nil_of_left_ne_nil lost.asked _
    · exact lost.asked
  by_cases closes : closer.onConnected l.hs (l.app r) = true
  · refine ⟨fun q lost => ?_, fun _ known =>
      .inr ⟨r, announce_closes logs registered known.1 known.2 closes⟩⟩
    rw [Closer.announce, if_pos closes]
    exact told q ((setConn_plain fun _ => rfl).lost lost)
  rw [Closer.announce, if_neg closes]
  refine ⟨told, fun clean _ => .inl ⟨rfl, ?_⟩⟩
  simp only [LoopConn.announce]
  rw [logs.connected, if_neg closes, clean]

theorem postAccept_forked {registered ok : Bool}
    (done : acceptWith (closer.announce e) (closer.processRead e) l r registered answers =
      some (l', ok)) :
    Forked log l l' (r < l.nconns ∧ closings r l.trace = 0)
      (l.postAccept e r registered answers = some (l', ok)) := by
  have told := announce_forked (l := l) (r := r) logs registered
  unfold acceptWith at done
  unfold LoopConn.postAccept acceptWith
  dsimp only at done ⊢
  split at done
  · rename_i opened
    split at done
    · rename_i reads
      split at done
      · cases done
      rename_i read
      cases done
      refine (told.trans (readLoop_forked logs read) fun same known => ?_).imp fun both => ?_
      · rw [same]
        refine ⟨known.1, mem_append_right _ mem_cons_self, ?_⟩
        simp only [LoopConn.announce, closings_append, known.2]
        rfl
      · rw [← both.1, if_pos opened, if_pos reads, LoopConn.processRead, both.2]
    rename_i waits
    cases done
    exact told.imp fun same => by rw [← same, if_pos opened, if_neg waits]
  rename_i refused
  cases done
  exact told.imp fun same => by rw [← same, if_neg refused]

theorem attachClient_forked {registered : Bool}
    (done : closer.attachClient e l r registered answers = some l') :
    Forked log l l' (Fresh l r) (l.attachClient e r registered answers = some l') := by
  have stored : Plain log l ((l.closePrev e r).storeConn e r).1 :=
    (closePrev_plain logs).trans storeConn_plain
  have silent (fresh : Fresh l r) := closings_zero (fresh.unreported e)
  unfold Closer.attachClient attachWith at done
  split at done
  · rename_i m same
    unfold LoopConn.attachClient attachWith
    rw [same] at stored ⊢
    cases done
    exact (stored.trans (setConn_plain fun _ => rfl)).forked rfl
  rename_i m same
  unfold LoopConn.attachClient attachWith
  rw [same] at stored silent ⊢
  have known (fresh : Fresh l r) : r < m.nconns ∧ closings r m.trace = 0 :=
    ⟨Nat.lt_of_lt_of_le fresh.made stored.made, silent fresh⟩
  have counted : Plain log l { m with
      count := m.count + 1
      dcount := if (m.conns r).client then m.dcount + 1 else m.dcount } :=
    stored.trans (.books rfl rfl rfl rfl)
  dsimp only at done ⊢
  split at done
  · cases done
  · rename_i accepted
    cases done
    refine counted.fork (.plain ?_ (closeConn_plain logs _)) known
    exact (postAccept_forked logs accepted).imp fun same => by rw [same]
  rename_i accepted
  cases done
  refine counted.fork (.plain ?_ track_plain) known
  exact (postAccept_forked logs accepted).imp fun same => by rw [same]

end

end LoopConn

/-- Does the step call `OnConnected` or `OnData`? -/
def Label.calls : Label π → Bool
  | .recv _ | .accepted _ | .attach _ _ => true
  | _ => false

namespace Sys

variable {s s' : Sys σ π} {a : Label π}

theorem newCmd_plain {c : Ref} {cmd : Cmd} {data : Bytes} {l : LoopConn σ π} {built : CmdData}
    (done : newCmd e s.loop c cmd data = some (l, built)) : Plain log s.loop l := by
  unfold newCmd at done
  split at done
  · cases done
    exact .refl log _
  split at done
  · cases done
  cases done
  exact .books rfl rfl rfl rfl

section

variable (logs : Logs closer e log)
include logs

/-- A step that calls neither `OnConnected` nor `OnData`. -/
theorem step_plain (quiet : a.calls = false) (done : s.step e a = some s') :
    Plain log s.loop s'.loop := by
  cases step_moves done with
  | issue _ _ built => exact newCmd_plain built
  | join => exact addConn_plain _
  | refuse => exact reset_plain _
  | syncTime => exact .books rfl rfl rfl rfl
  | shutdown => exact shutdown_plain logs
  | idle => exact onIdle_plain logs
  | failed => exact closeConn_plain logs _
  | recv | accepted | attach => cases quiet
  | flush _ _ flushed => exact flushFd_plain logs flushed
  | send _ sent | softSend _ sent => exact processSend_plain logs sent
  | cmd | dial => exact consumeCmd_plain logs _
  | _ => exact .refl log _

theorem acceptStep_forked {i : Nat} {mode : ConnType} {outcome : Accepted}
    (done : s.acceptStep e (closer.attachClient e) fd mode i outcome = some s') :
    Forked log s.loop s'.loop (Wf e s)
      (s.acceptStep e (attachClient e) fd mode i outcome = some s') := by
  unfold acceptStep at done ⊢
  split at done
  · rename_i few
    rw [if_pos few]
    cases outcome with
    | refused | unusable =>
      cases done
      exact (Plain.refl log _).forked rfl
    | conn nfd gen sock registered =>
      dsimp only at done ⊢
      split at done
      · cases done
      rename_i live
      have joined : Plain log s.loop ({ s.loop with
          seq := (allocID (if e.idg then some gen else none) s.loop.idx s.loop.seq nfd).1 }) :=
        .books rfl rfl rfl rfl
      rw [if_neg live]
      cases mode with
      | TYPE_CONN =>
        dsimp only at done ⊢
        split at done
        · cases done
        rename_i l attached
        cases done
        exact (joined.trans (addConn_plain _)).fork ((attachClient_forked logs attached).imp
          fun same => by rw [same]) fun wf => (wf.newcomer_fresh _ _ sock live).2
      | TYPE_CONN_TLS =>
        cases done
        exact joined.forked rfl
  · cases done

/-- From a state of the loop without `Close` calls: the step is one of that loop, or a
connection is lost. -/
theorem step_forked (done : closer.step e s a = some s') :
    Forked log s.loop s'.loop (Wf e s ∧ ∀ r < s.loop.nconns, Told s.loop r)
      (s.step e a = some s') := by
  have start {known known' : Prop} (next : known → known')
      (rest : Forked log s.loop s'.loop known' (s.step e a = some s')) :
      Forked log s.loop s'.loop known (s.step e a = some s') :=
    (Plain.refl log s.loop).fork rest next
  have other (quiet : a.calls = false) (done : s.step e a = some s') :
      Forked log s.loop s'.loop (Wf e s ∧ ∀ r < s.loop.nconns, Told s.loop r)
        (s.step e a = some s') := (step_plain logs quiet done).forked done
  cases a with
  | recv answers =>
    dsimp only [Closer.step, stepWith] at done
    split at done
    · rename_i c pc
      split at done
      · cases done
      rename_i l read
      cases done
      refine start (fun both => ?_) ((readLoop_forked logs read).imp fun same => ?_)
      · obtain ⟨wf, lives⟩ := both
        have attached := wf.busy c (by rw [pc]; rfl)
        have made := (wf.sound.slot _ c attached.2).2.2.2.2
        have silent := (lives c made).reported
        rw [if_neg fun both => attached.1 both.2] at silent
        exact ⟨made, (lives c made).announced attached, silent⟩
      rw [step, stepWith, pc]
      dsimp only
      rw [LoopConn.processRead, same]
    · cases done
  | accepted outcome =>
    dsimp only [Closer.step, stepWith] at done
    split at done
    · rename_i pc
      refine start And.left ((acceptStep_forked logs done).imp fun same => ?_)
      rw [step, stepWith, pc]
      exact same
    · cases done
  | attach registered answers =>
    dsimp only [Closer.step, stepWith] at done
    split at done
    · rename_i n pc
      split at done
      · cases done
      rename_i budget
      split at done
      · cases done
      rename_i c rest queue
      split at done
      · cases done
      rename_i l attached
      cases done
      refine start (fun ⟨wf, _⟩ => wf.queued c (queue ▸ mem_cons_self))
        ((attachClient_forked logs attached).imp fun same => ?_)
      rw [step, stepWith, pc]
      dsimp only
      rw [if_neg budget, queue]
      dsimp only
      rw [same]
    · cases done
  | _ => exact other rfl done

end

end Sys

/-- A run under an application that may call `Close` leads to a state that the loop can
reach without such calls, or some connection is lost in it. -/
theorem run_fork (logs : Logs closer e log) {idx : Nat} {hs : σ} {shared : Bytes}
    {labels : List (Label π)} {s : Sys σ π} (clean : log hs = [])
    (done : run (closer.step e) (Sys.boot idx hs shared) labels = some s) :
    (∃ labels', Sys.Reached e idx hs shared labels' s) ∧
        log s.loop.hs = [] ∨
      ∃ r, Lost log s.loop r := by
  refine run_invariant_all (I := fun s =>
    (∃ labels', Sys.Reached e idx hs shared labels' s) ∧
      log s.loop.hs = [] ∨ ∃ r, Lost log s.loop r) (fun s a s' step now => ?_) done
    (.inl ⟨⟨[], rfl⟩, clean⟩)
  rcases now with ⟨⟨before, reached⟩, clean⟩ | ⟨r, lost⟩
  · obtain ⟨wf, lives⟩ :=
      (life_upheld e).always reached
    rcases (Sys.step_forked logs step).fork clean ⟨wf, lives⟩ with ⟨same, tidy⟩ | lost
    · exact .inl ⟨⟨before ++ [a], run_snoc reached same⟩, tidy⟩
    · exact .inr lost
  · exact .inr ⟨r, (Sys.step_forked logs step).lost r lost⟩

namespace LoopConn

/-- The connections that the application was told of and that are open. -/
def present (l : LoopConn σ π) : Finset Ref :=
  (Finset.range l.nconns).filter fun r => .connected r ∈ l.trace ∧ (l.conns r).fd ≠ 0

/-- The accounts of a loop: `count` is the number of open connections, and a connection that
is gone was reported once and is in no table. -/
structure Accounts (l : LoopConn σ π) : Prop where
  count : l.count = (present l).card
  reported : ∀ r, .connected r ∈ l.trace → (l.conns r).fd = 0 → closings r l.trace = 1
  tables : ∀ r, .connected r ∈ l.trace → (l.conns r).fd = 0 →
    (∀ fd, l.fdTable fd ≠ some r) ∧ (∀ item ∈ l.checkList, item.2 ≠ r) ∧
      l.touchMap (l.conns r).id = none

theorem present_card {l : LoopConn σ π} (sound : Sound e l) (lives : ∀ r < l.nconns, Told l r) :
    (slots e l fun _ => true).card = (present l).card := by
  have attached (r : Ref) : r ∈ present l ↔ Attached l r := by
    rw [present, Finset.mem_filter, Finset.mem_range]
    constructor
    · rintro ⟨made, told, live⟩
      exact (lives r made).held live told
    intro here
    have made := (sound.slot _ r here.2).2.2.2.2
    exact ⟨made, (lives r made).announced here, here.1⟩
  have image : slots e l (fun _ => true) = (present l).image fun r => (l.conns r).fd := by
    ext fd
    rw [SoundBut.mem_slots sound, Finset.mem_image]
    refine exists_congr fun r => ?_
    rw [attached r, and_iff_left rfl]
  rw [image, Finset.card_image_of_injOn]
  intro r here q there same
  dsimp only at same
  have first := ((attached r).mp here).2
  rw [same, ((attached q).mp there).2] at first
  exact (Option.some.inj first).symm

end LoopConn

theorem run_accounts {idx : Nat} {hs : σ} {shared : Bytes} {labels : List (Label π)}
    {s : Sys σ π} (distinct : Distinct s.loop)
    (done : Sys.Reached e idx hs shared labels s) :
    Accounts s.loop := by
  obtain ⟨wf, lives⟩ := (life_upheld e).always done
  refine ⟨?_, fun r told dead => ?_, fun r told dead => ?_⟩
  · rw [(run_counted done).count, present_card wf.sound lives]
  · rw [(lives r (wf.sound.seen _ told)).reported, if_pos ⟨told, dead⟩]
  obtain ⟨slots, book⟩ := run_absent done dead
  exact ⟨slots, (book distinct).1, (book distinct).2 (wf.sound.seen _ told)⟩

/-- With distinct ids, by which the idle book is kept, the accounts hold in a state that is
reached exactly if no handler has called `Close` on the way: one such call puts them out of
balance for good. -/
theorem app_close_accounts (e : Env σ π) (closer : Closer σ) (idx : Nat) (hs : σ)
    (shared : Bytes) (labels : List (Label π)) (s : Sys (σ × List Ref) π)
    (done : run (closer.logged.step (e.logging closer)) (Sys.boot idx (hs, []) shared)
      labels = some s) (distinct : Distinct s.loop) :
    Accounts s.loop ↔ s.loop.hs.2 = [] := by
  rcases run_fork (e.logging_logs closer) rfl done with ⟨⟨labels', reached⟩, clean⟩ | ⟨r, lost⟩
  · exact iff_of_true (run_accounts distinct reached) clean
  refine iff_of_false (fun accounts => ?_) lost.asked
  have once := accounts.reported r lost.told lost.shut
  rw [lost.silent] at once
  cases once

/-- An application that hangs up on the first packet. -/
def Closer.hangsUp : Closer Unit := ⟨fun _ _ => false, fun _ _ _ => true⟩

theorem app_close_accounts_silent_clients : ∃ s,
    run (Closer.hangsUp.logged.step (Env.watchful.logging Closer.hangsUp))
      (Sys.boot 0 ((), []) [0, 0, 0, 0]) oneLeaves = some s ∧ Accounts s.loop := by
  obtain ⟨s, ran, distinct, void⟩ : ∃ s,
      run (Closer.hangsUp.logged.step (Env.watchful.logging Closer.hangsUp))
        (Sys.boot 0 ((), []) [0, 0, 0, 0]) oneLeaves = some s ∧ Distinct s.loop ∧
      s.loop.hs.2 = [] := computed
  exact ⟨s, ran, (app_close_accounts Env.watchful Closer.hangsUp 0 () _ _ s ran distinct).mpr void⟩

/-- The handler hangs up on descriptor 5. The callback is over and the connection closed,
but it is still counted, in the table and watched for idleness, and `OnClosed` was not
called. -/
theorem hang_up_unaccounted : ∃ s,
    run (Closer.hangsUp.logged.step (Env.watchful.logging Closer.hangsUp))
      (Sys.boot 0 ((), []) [0, 0, 0, 0])
      (arrival 5 (fun _ => .full) ++ [.event 5 ⟨false, false, true⟩, .recv [[.data [1]]]]) =
        some s ∧
    s.pc = .poll ∧ (s.loop.conns 0).fd = 0 ∧ s.loop.count = 1 ∧ (present s.loop).card = 0 ∧
    closings 0 s.loop.trace = 0 ∧ s.loop.fdTable 5 = some 0 ∧
    s.loop.checkList = [(0, 0)] ∧ s.loop.touchMap (s.loop.conns 0).id ≠ none := by
  exact computed

end Connaxis
