import Connaxis.MachineActs
import Connaxis.MachineMoves

namespace Connaxis

open LoopConn List Runs EngineConn Option

variable {σ π : Type} {e : Env σ π}

variable {op : Op π}

namespace Sys

variable {s s' : Sys σ π} {a : Label π}

/-- The connection that a step lets in. -/
def Admits (s : Sys σ π) (a : Label π) (r : Ref) : Prop :=
  match a with
  | .attach _ _ => s.acceptChan.head? = some r
  | .accepted _ => r = s.loop.nconns
  | _ => False

/-- A step makes this connection. -/
def Brings (a : Label π) (c : EngineConn π) : Prop :=
  (∃ fd id gen sock registered, a = .accepted (.conn fd gen sock registered) ∧
    c = new fd id false sock none) ∨
  ∃ p fd id client sock tls, a = .join p fd id client sock tls ∧
    c = new fd id client sock tls

/-- The operations that a step is made of. All but those of an idle check, of a shutdown
and of an attachment start from the state before the step. -/
def Serves (e : Env σ π) (s : Sys σ π) (a : Label π) (m : LoopConn σ π) : Op π → Prop
  | .tidy => True
  | .age => a = .idle ∨ ∃ sec, a = .syncTime sec
  | .make c => Brings a c
  | .close r err =>
    err ≠ some .CLOSE_BY_SLOW_READER ∧
      (err = some .CLOSE_BY_CLOSE_CMD → m = s.loop ∧ ∃ cmd, s.taken e a = some cmd ∧
        cmd.cmd = .CMD_CLOSE ∧ s.loop.connByFD e cmd.fd = some r)
  | .send r => m = s.loop ∧ a = .tau ∧ s.pc.serving = some r
  | .read r => m = s.loop ∧ (∃ answers, a = .recv answers) ∧ s.pc = .read r
  | .flush r => m = s.loop ∧ a = .flush (s.loop.conns r).fd
  | .enqueue r owner size =>
    m = s.loop ∧ ∃ cmd, s.taken e a = some cmd ∧ cmd.cmd = .CMD_DATA ∧
      cmd.data = some owner ∧ cmd.size = size ∧ size ≠ 0 ∧
      s.loop.connByFD e cmd.fd = some r ∧ (s.loop.conns r).id = cmd.id
  | .attach r | .drop r | .track r => Admits s a r

/-- The loop's books are in order, it serves a connection it knows, and the connections
on their way to it are new and each of them comes once. -/
structure Wf (e : Env σ π) (s : Sys σ π) : Prop where
  sound : Sound e s.loop
  busy : ∀ c, s.pc.serving = some c → Attached s.loop c
  queued : ∀ c ∈ s.acceptChan, Fresh s.loop c
  once : s.acceptChan.Nodup
  joining : ∀ p c, s.producers p = .pushClient c → Fresh s.loop c ∧ c ∉ s.acceptChan
  apart : ∀ p q c, s.producers p = .pushClient c → s.producers q = .pushClient c → p = q

theorem boot_wf (idx : Nat) (hs : σ) (shared : Bytes) : Wf e (boot idx hs shared : Sys σ π) where
  sound :=
    { slot := fun _ _ slot => (nomatch slot)
      armed := fun _ member => absurd member (Finset.notMem_empty _)
      marked := fun _ member => absurd member (Finset.notMem_empty _)
      flushed := fun _ member => absurd member (Finset.notMem_empty _)
      listed := forall_mem_nil _
      seen := forall_mem_nil _
      interest := fun _ attached => (nomatch attached.2) }
  busy _ serving := nomatch serving
  queued _ member := nomatch member
  once := nodup_nil
  joining _ _ pushing := nomatch pushing
  apart _ _ _ pushing := nomatch pushing

variable {c : Ref}

variable {l' : LoopConn σ π}

/-- A connection on its way in stays new as long as it is not let in. -/
theorem fresh_after (wf : Wf e s) (acts : Acts e (Serves e s a) s.loop l')
    (fresh : Fresh s.loop c) (out : ¬ Admits s a c) : Fresh l' c := by
  refine (acts.keeps (I := fun m => Fresh m c) wf.sound fresh ?_).2
  intro m op m' sound allowed act now
  refine act.fresh sound now fun clash => ?_
  cases act with
  | tidy | make | age | track => cases clash
  | close _ _ attached | send _ attached | read _ _ attached | flush _ _ attached
  | enqueue _ _ _ attached => exact now.ne attached (some.inj clash).symm
  | attach | drop => exact out (some.inj clash ▸ allowed)

/-- The rule for a step that brings no connection on its way. -/
theorem Wf.after (wf : Wf e s) (acts : Acts e (Serves e s a) s.loop s'.loop)
    (busy : ∀ c, s'.pc.serving = some c → Attached s'.loop c)
    (queued : ∀ c ∈ s'.acceptChan, c ∈ s.acceptChan ∧ ¬ Admits s a c)
    (once : s'.acceptChan.Nodup)
    (joining : ∀ p c, s'.producers p = .pushClient c → s.producers p = .pushClient c) :
    Wf e s' where
  sound := (acts.keeps (I := fun _ => True) wf.sound trivial fun _ _ _ _ _ _ _ => trivial).1
  busy := busy
  queued c member := by
    obtain ⟨before, out⟩ := queued c member
    exact fresh_after wf acts (wf.queued c before) out
  once := once
  joining p c pushing := by
    obtain ⟨fresh, away⟩ := wf.joining p c (joining p c pushing)
    refine ⟨fresh_after wf acts fresh fun admitted => ?_, fun member => away (queued c member).1⟩
    cases a with
    | attach => exact away (mem_of_head? admitted)
    | accepted => exact Nat.lt_irrefl _ (admitted ▸ fresh.made)
    | _ => exact admitted
  apart p q c first second := wf.apart p q c (joining p c first) (joining q c second)

/-- Only a step that takes a connection off the channel lets in one of those. -/
theorem Wf.out (wf : Wf e s) (other : ∀ registered answers, a ≠ .attach registered answers)
    (member : c ∈ s.acceptChan) : ¬ Admits s a c := by
  intro admitted
  cases a with
  | attach registered answers => exact other registered answers rfl
  | accepted => exact Nat.lt_irrefl _ (admitted ▸ (wf.queued c member).made)
  | _ => exact admitted

/-- The loop's operations in a step, and that it leaves the machine in order. -/
structure Turn (e : Env σ π) (s : Sys σ π) (a : Label π) (s' : Sys σ π) : Prop where
  acts : Acts e (Serves e s a) s.loop s'.loop
  wf : Wf e s'

/-- A step of a producer or of the outside world. -/
theorem Wf.beside (wf : Wf e s) (act : Act e s.loop op s'.loop) (lone : op.subject = none)
    (allowed : Serves e s a s.loop op) (pc : s'.pc = s.pc) (queued : s'.acceptChan = s.acceptChan)
    (other : ∀ registered answers, a ≠ .attach registered answers)
    (joining : ∀ p c, s'.producers p = .pushClient c → s.producers p = .pushClient c) :
    Turn e s a s' := by
  have acts : Acts e (Serves e s a) s.loop s'.loop := act.acts allowed
  refine ⟨acts, wf.after acts ?_ ?_ (queued ▸ wf.once) joining⟩
  · intro c serving
    rw [pc] at serving
    have attached := wf.busy c serving
    have made := (wf.sound.slot _ c attached.2).2.2.2.2
    exact (act.untouched wf.sound made (lone ▸ nofun)).attached.mpr attached
  intro c member
  rw [queued] at member
  exact ⟨member, wf.out other member⟩

/-- A step of the loop that takes no connection off the channel. -/
theorem Wf.moves (wf : Wf e s) (acts : Acts e (Serves e s a) s.loop s'.loop)
    (busy : ∀ c, s'.pc.serving = some c → Attached s'.loop c)
    (queued : s'.acceptChan = s.acceptChan) (producers : s'.producers = s.producers)
    (other : ∀ registered answers, a ≠ .attach registered answers) : Turn e s a s' := by
  refine ⟨acts, wf.after acts busy ?_ (queued ▸ wf.once) (producers ▸ fun _ _ pushing => pushing)⟩
  intro c member
  rw [queued] at member
  exact ⟨member, wf.out other member⟩

theorem setProducer_producers (p q : Nat) (now : Producer) :
    (s.setProducer p now).producers q = if q = p then now else s.producers q :=
  Function.update_apply _ _ _ _

variable {p : Nat}

theorem setProducer_joining {now : Producer} (away : ∀ c, now ≠ .pushClient c) (q : Nat) (c : Ref)
    (pushing : (s.setProducer p now).producers q = .pushClient c) :
    s.producers q = .pushClient c := by
  rw [setProducer_producers] at pushing
  split at pushing
  · exact absurd pushing (away c)
  · exact pushing

theorem newCmd_tidy {l : LoopConn σ π} {cmd : Cmd} {data : Bytes} {built : CmdData}
    (done : newCmd e l c cmd data = some (l', built)) : Tidy l l' := by
  unfold newCmd at done
  split at done
  · cases done
    rfl
  split at done
  · cases done
  cases done
  rfl

theorem consumeCmd_acts {cmd : CmdData} (wf : Wf e s) (front : s.taken e a = some cmd) :
    Acts e (Serves e s a) s.loop (s.loop.consumeCmd e cmd) := by
  have cases := consumeCmd_cases (e := e) s.loop cmd
  generalize s.loop.consumeCmd e cmd = l' at cases
  cases cases with
  | ignored tidy => exact (Act.tidy tidy).acts trivial
  | enqueued r owner found kind data own nonempty =>
    exact (Act.enqueue r owner cmd.size (wf.sound.attached found).1 (cmd.fits owner data)).acts
      ⟨rfl, cmd, front, kind, data, rfl, nonempty, found, own⟩
  | closed r found kind tidy =>
    have closed := Act.close (e := e) r (some .CLOSE_BY_CLOSE_CMD) (wf.sound.attached found).1
    refine (closed.acts ⟨nofun, fun _ => ⟨rfl, cmd, front, kind, found⟩⟩).tail ?_ (.tidy tidy)
    trivial

theorem pushClient_turn (wf : Wf e s) (pushing : s.producers p = .pushClient c) :
    Turn e s (.push p) ({ s with acceptChan := s.acceptChan ++ [c] }.setProducer p .cas) := by
  obtain ⟨fresh, away⟩ := wf.joining p c pushing
  have earlier (q : Nat) (d : Ref) (still : (setProducer { s with
      acceptChan := s.acceptChan ++ [c] } p .cas).producers q = .pushClient d) :
      s.producers q = .pushClient d := by
    refine setProducer_joining ?_ q d still
    nofun
  refine ⟨.refl, wf.sound, wf.busy,
    forall_mem_append.mpr ⟨wf.queued, forall_mem_singleton.mpr fresh⟩, ?_, ?_, ?_⟩
  · exact nodup_append.mpr ⟨wf.once, nodup_singleton c, fun q old r new => by
      rw [mem_singleton.mp new]
      exact fun same => away (same ▸ old)⟩
  · intro q d still
    have before := earlier q d still
    obtain ⟨known, elsewhere⟩ := wf.joining q d before
    refine ⟨known, fun member => ?_⟩
    rcases mem_append.mp member with old | new
    · exact elsewhere old
    rw [mem_singleton.mp new] at before
    have same := wf.apart q p c before pushing
    rw [setProducer_producers, if_pos same] at still
    cases still
  intro q q' d first second
  exact wf.apart q q' d (earlier q d first) (earlier q' d second)

variable {fd : Nat}

/-- The newcomer is known to nobody. -/
theorem Wf.newcomer_fresh (wf : Wf e s) (seq : UInt32) (id : UInt64) (sock : Socket)
    (live : fd ≠ 0) :
    Sound e (s.newcomer seq fd id sock) ∧ Fresh (s.newcomer seq fd id sock) s.loop.nconns := by
  have counted : Act e s.loop .tidy { s.loop with seq := seq } := .tidy rfl
  have books := counted.sound wf.sound
  exact ⟨(Act.make (e := e) fd id false sock none live).sound books,
    addConn_fresh books fd id false sock none live⟩

theorem AcceptRound.turn {outcome : Accepted} (wf : Wf e s) (round : AcceptRound e s outcome s') :
    Turn e s (.accepted outcome) s' := by
  have counted (seq : UInt32) : Act e s.loop .tidy { s.loop with seq := seq } := .tidy rfl
  cases round with
  | passed pc seq free _ =>
    exact wf.moves ((counted seq).acts trivial) (by rw [free]; exact nofun) rfl rfl nofun
  | attached nfd gen sock registered seq id pc free _ live attach =>
    obtain ⟨books, fresh⟩ := wf.newcomer_fresh seq id sock live
    have made : Act e { s.loop with seq := seq } _ (s.newcomer seq nfd id sock) :=
      .make nfd id false sock none live
    refine wf.moves ((((counted seq).acts ?_).tail ?_ made).trans ?_) (by rw [free]; exact nofun)
      rfl rfl nofun
    · trivial
    · exact .inl ⟨nfd, id, gen, sock, registered, rfl, rfl⟩
    exact attachClient_acts books fresh attach (fun _ _ => ⟨nofun, nofun⟩) (fun _ => rfl)
      (fun _ => rfl) fun _ => rfl

theorem join_turn {id : UInt64} {client : Bool} {sock : Socket} {tls : Option (ATLSConn π)}
    (wf : Wf e s) (live : fd ≠ 0) :
    Turn e s (.join p fd id client sock tls)
      (setProducer { s with loop := (s.loop.addConn (new fd id client sock tls)).1 } p
        (.pushClient s.loop.nconns)) := by
  have act := Act.make (e := e) (l := s.loop) fd id client sock tls live
  have others {q : Nat} {c : Ref} (away : q ≠ p) (pushing : (setProducer { s with
      loop := (s.loop.addConn (new fd id client sock tls)).1 } p
      (.pushClient s.loop.nconns)).producers q = .pushClient c) :
      s.producers q = .pushClient c := by
    rw [setProducer_producers, if_neg away] at pushing
    exact pushing
  have own {c : Ref} (pushing : (setProducer { s with
      loop := (s.loop.addConn (new fd id client sock tls)).1 } p
      (.pushClient s.loop.nconns)).producers p = .pushClient c) : s.loop.nconns = c := by
    rw [setProducer_producers, if_pos rfl] at pushing
    exact Producer.pushClient.inj pushing
  refine ⟨act.acts (.inr ⟨p, fd, id, client, sock, tls, rfl, rfl⟩), act.sound wf.sound,
    ?_, ?_, wf.once,
    ?_, ?_⟩
  · intro c serving
    have attached := wf.busy c serving
    have made := (wf.sound.slot _ c attached.2).2.2.2.2
    exact (act.untouched wf.sound made nofun).attached.mpr attached
  · intro c member
    exact act.fresh wf.sound (wf.queued c member) nofun
  · intro q c pushing
    by_cases same : q = p
    · rw [same] at pushing
      rw [← own pushing]
      exact ⟨addConn_fresh wf.sound fd id client sock tls live,
        fun member => Nat.lt_irrefl _ (wf.queued _ member).made⟩
    obtain ⟨fresh, away⟩ := wf.joining q c (others same pushing)
    exact ⟨act.fresh wf.sound fresh nofun, away⟩
  intro q q' c first second
  have older {q : Nat} (pushing : s.producers q = .pushClient s.loop.nconns) : False :=
    Nat.lt_irrefl _ (wf.joining q _ pushing).1.made
  by_cases same : q = p
  · by_cases same' : q' = p
    · rw [same, same']
    rw [same] at first
    rw [← own first] at second
    exact (older (others same' second)).elim
  by_cases same' : q' = p
  · rw [same'] at second
    rw [← own second] at first
    exact (older (others same first)).elim
  · exact wf.apart q q' c (others same first) (others same' second)

/-- A step that attaches the first connection of the channel. -/
theorem step_attach {registered : Bool} {answers : List (List SysRead)}
    (done : s.step e (.attach registered answers) = some s') :
    ∃ c rest n l, s.acceptChan = c :: rest ∧ s.pc = .accept n ∧
      s.loop.attachClient e c registered answers = some l ∧
      s' = { s with acceptChan := rest, loop := l, pc := .accept (n + 1) } := by
  cases step_moves done with
  | attach at_ queue attached => exact ⟨_, _, _, _, queue, at_, attached, rfl⟩

theorem step_turn (wf : Wf e s) (done : s.step e a = some s') : Turn e s a s' := by
  cases step_moves done with
  | issue _ _ built =>
    exact wf.beside (.tidy (newCmd_tidy built)) rfl trivial rfl rfl nofun
      (setProducer_joining nofun)
  | join _ live => exact join_turn wf live
  | pushClient at_ => exact pushClient_turn wf at_
  | refuse =>
    exact wf.beside (.tidy (reset_tidy _ _)) rfl trivial rfl rfl nofun (setProducer_joining nofun)
  | pushDial | pushCmd | refuseClient | pass | raise | signal =>
    exact wf.beside (.tidy (Tidy.refl _)) rfl trivial rfl rfl nofun (setProducer_joining nofun)
  | @syncTime sec =>
    exact wf.beside (.age s.loop.lastCheck sec s.loop.checkList s.loop.touchMap
      (fun _ member => member) fun _ _ found => found) rfl (.inr ⟨sec, rfl⟩) rfl rfl nofun
      fun _ _ pushing => pushing
  | halt | haltTrigger | ignored => exact wf.moves .refl wf.busy rfl rfl nofun
  | shutdown =>
    exact wf.moves (shutdown_acts wf.sound fun _ _ => ⟨nofun, nofun⟩) nofun rfl rfl nofun
  | idle =>
    exact wf.moves (onIdle_acts wf.sound (fun _ => .inl rfl) fun _ _ => ⟨nofun, nofun⟩) nofun
      rfl rfl nofun
  | @failed _ _ c at_ _ found =>
    have closed := Act.close (e := e) c (some .CLOSE_EPOLL_ERR) (wf.sound.attached found).1
    refine wf.moves (closed.acts ⟨nofun, nofun⟩) ?_ rfl rfl nofun
    rw [at_]
    nofun
  | writable _ found | readable _ found =>
    refine wf.moves .refl (fun d serving => ?_) rfl rfl nofun
    cases serving
    exact (wf.sound.attached found).1
  | @recv answers c l at_ read =>
    have attached := wf.busy c (by rw [at_]; rfl)
    have act := Act.read (e := e) c answers attached read
    refine wf.moves (act.acts ⟨rfl, ⟨answers, rfl⟩, at_⟩) (fun d serving => ?_) rfl rfl nofun
    split at serving <;> cases serving
    rename_i on
    exact (processRead_effect wf.sound attached read).attached_of_open attached on.1
  | accepted _ _ round => exact round.turn wf
  | @attach registered answers _ _ _ _ _ queue attach =>
    have front := congrArg head? queue
    have fresh := wf.queued _ (mem_of_head? front)
    have acts := attachClient_acts (P := Serves e s (.attach registered answers)) wf.sound fresh
      attach (fun _ _ => ⟨nofun, nofun⟩) (fun _ => front) (fun _ => front) fun _ => front
    have once := wf.once
    rw [queue, nodup_cons] at once
    refine ⟨acts, wf.after acts nofun (fun d member => ⟨?_, fun admitted => ?_⟩) once.2
      fun _ _ pushing => pushing⟩
    · rw [queue]
      exact mem_cons_of_mem _ member
    have same := some.inj (front.symm.trans admitted)
    exact once.1 (same ▸ member)
  | @flush fd _ _ counted _ marked flushed =>
    obtain ⟨r, slot⟩ := ne_none_iff_exists'.mp (wf.sound.flushed fd marked)
    obtain ⟨rfl, live, _⟩ := wf.sound.slot fd r slot
    have act := Act.flush (e := e) r counted ⟨live, slot⟩ flushed
    exact wf.moves (act.acts ⟨rfl, rfl⟩) nofun rfl rfl nofun
  | @send c _ _ at_ sent =>
    have attached := wf.busy c (by rw [at_]; rfl)
    have act := Act.send (e := e) c attached sent
    refine wf.moves (act.acts ⟨rfl, rfl, by rw [at_]; rfl⟩) (fun d serving => ?_) rfl rfl nofun
    split at serving <;> cases serving
    rename_i on
    exact (processSend_effect wf.sound attached sent).attached_of_open attached on.1
  | @softSend c _ at_ sent =>
    have act := Act.send (e := e) c (wf.busy c (by rw [at_]; rfl)) sent
    exact wf.moves (act.acts ⟨rfl, rfl, by rw [at_]; rfl⟩) nofun rfl rfl nofun
  | cmd at_ left queue | dial at_ left queue =>
    refine wf.moves (consumeCmd_acts wf ?_) nofun rfl rfl nofun
    simp only [taken, at_, if_neg left, queue, head?_cons]
  | checkCmd | checkDial | checkAccept | checkFlush =>
    refine wf.moves .refl (fun d serving => ?_) rfl rfl nofun
    split at serving <;> cases serving
  | _ => exact wf.moves .refl nofun rfl rfl nofun

variable {r : Ref}

/-- What every operation keeps of a connection that has been made, a step keeps. -/
theorem step_keeps {P : LoopConn σ π → Prop} (wf : Wf e s) (done : s.step e a = some s')
    (made : r < s.loop.nconns) (start : P s.loop)
    (kept : ∀ m op m', Sound e m → r < m.nconns → Serves e s a m op → Act e m op m' →
      P m → P m') : r < s'.loop.nconns ∧ P s'.loop :=
  ((step_turn wf done).acts.keeps (I := fun m => r < m.nconns ∧ P m) wf.sound ⟨made, start⟩
    fun m op m' sound serves act both =>
      ⟨act.made sound both.1, kept m op m' sound both.1 serves act both.2⟩).2

/-- A step leaves a connection its name, and its descriptor unless it closes it. -/
theorem step_names (wf : Wf e s) (done : s.step e a = some s') (made : r < s.loop.nconns) :
    r < s'.loop.nconns ∧ (s'.loop.conns r).name = (s.loop.conns r).name ∧
      ((s'.loop.conns r).fd ≠ 0 → (s'.loop.conns r).fd = (s.loop.conns r).fd) := by
  refine step_keeps (P := fun m => (m.conns r).name = (s.loop.conns r).name ∧
    ((m.conns r).fd ≠ 0 → (m.conns r).fd = (s.loop.conns r).fd)) wf done made
    ⟨rfl, fun _ => rfl⟩ ?_
  intro m op m' sound known _ act ⟨name, keeps⟩
  refine ⟨(act.kept sound known).name.trans name, fun live => ?_⟩
  have same := (act.kept sound known).fd live
  rw [same] at live ⊢
  exact keeps live

end Sys

variable {idx : Nat} {hs : σ} {shared : Bytes} {labels : List (Label π)}

variable {s : Sys σ π}

theorem run_wf {e : Env σ π}
    (done : Sys.Reached e idx hs shared labels s) : Sys.Wf e s :=
  run_invariant_all (fun _ _ _ step wf => (Sys.step_turn wf step).wf) done
    (Sys.boot_wf idx hs shared)

/-- A property of single connections that holds of new ones, that the loop's work for others
does not touch, and that its work for the connection keeps, in every step `G` allows. -/
structure Upheld (e : Env σ π) (G : Sys σ π → Label π → Prop)
    (J : LoopConn σ π → Ref → Prop) : Prop where
  fresh : ∀ s a l r, G s a → Fresh l r → Sys.Brings a (l.conns r) → J l r
  frame : ∀ l l' r, Untouched l l' r → J l r → J l' r
  subject : ∀ s a l op l' r, G s a → Sound e l → r < l.nconns →
    Sys.Serves e s a l op → Act e l op l' →
    op.subject = some r → J l r → J l' r

variable {G : Sys σ π → Label π → Prop} {J : LoopConn σ π → Ref → Prop}

/-- One operation of a step. -/
theorem Upheld.act (upheld : Upheld e G J) {a : Label π} (allowed : G s a) {m m' : LoopConn σ π}
    (sound : Sound e m) (serves : Sys.Serves e s a m op) (act : Act e m op m')
    (before : ∀ r, r < m.nconns → J m r) : ∀ r, r < m'.nconns → J m' r := by
  intro r made
  have old (made : r < m.nconns) : J m' r := by
    by_cases own : op.subject = some r
    · exact upheld.subject s a m op m' r allowed sound made serves act own (before r made)
    · exact upheld.frame m m' r (act.untouched sound made own) (before r made)
  rcases act.nconns sound with same | ⟨rfl, grown, fresh⟩
  · exact old (same ▸ made)
  by_cases new : r = m.nconns
  · rw [new]
    exact upheld.fresh s a m' _ allowed fresh serves
  · exact old (by omega)

theorem Upheld.step (upheld : Upheld e G J) {s' : Sys σ π} {a : Label π} (wf : Sys.Wf e s)
    (allowed : G s a) (done : s.step e a = some s') (start : ∀ r, r < s.loop.nconns → J s.loop r) :
    ∀ r, r < s'.loop.nconns → J s'.loop r :=
  ((Sys.step_turn wf done).acts.keeps (I := fun m => ∀ r, r < m.nconns → J m r) wf.sound
    start fun _ _ _ sound serves act before => upheld.act allowed sound serves act before).2

theorem Upheld.run (upheld : Upheld e G J)
    (done : Sys.Reached e idx hs shared labels s)
    (allowed : Each (Sys.step e) (fun s a _ => G s a) (Sys.boot idx hs shared) labels) :
    Sys.Wf e s ∧ ∀ r, r < s.loop.nconns → J s.loop r := by
  refine run_invariant (I := fun s => Sys.Wf e s ∧ ∀ r, r < s.loop.nconns → J s.loop r)
    (fun s a s' step may now => ?_) done allowed ⟨Sys.boot_wf idx hs shared, fun _ made => ?_⟩
  · exact ⟨(Sys.step_turn now.1 step).wf, upheld.step now.1 may step now.2⟩
  · exact absurd made (Nat.not_lt_zero _)

theorem Upheld.always (upheld : Upheld e (fun _ _ => True) J)
    (done : Sys.Reached e idx hs shared labels s) :
    Sys.Wf e s ∧ ∀ r, r < s.loop.nconns → J s.loop r :=
  upheld.run done (each_of_forall (fun _ _ _ _ => trivial) _)

end Connaxis
