import Connaxis.LoopSound

namespace Connaxis

open List EngineConn Function Option

open Function (update_apply update_of_ne update_self update)

variable {σ π : Type} {e : Env σ π}

/-- The operations a callback of the loop is made of. `age` is the passing of time: the
clock, the last check, and what the idle list drops. `attach` and `drop` are the two
ends of `attachClient`, after the descriptor's former owner has been closed. -/
inductive Op (π : Type)
  | tidy
  | make (c : EngineConn π)
  | age
  | track (r : Ref)
  | close (r : Ref) (err : Option CloseErr)
  | send (r : Ref)
  | read (r : Ref)
  | flush (r : Ref)
  | enqueue (r : Ref) (owner : Buf) (size : Nat)
  | attach (r : Ref)
  | drop (r : Ref)

/-- The connection an operation works for. -/
def Op.subject : Op π → Option Ref
  | .close r _ | .send r | .read r | .flush r | .enqueue r _ _ | .attach r | .drop r => some r
  | .tidy | .make _ | .age | .track _ => none

namespace LoopConn

variable {l l' m : LoopConn σ π} {r : Ref}

/-- Nothing changed but the id sequence and the send buffers' names. -/
def Tidy (l l' : LoopConn σ π) : Prop :=
  l' = { l with owners := l'.owners, returned := l'.returned, seq := l'.seq }

theorem Tidy.refl (l : LoopConn σ π) : Tidy l l := rfl

theorem reset_tidy (l : LoopConn σ π) (cmd : CmdData) : Tidy l (l.reset cmd) := by
  unfold reset
  split <;> rfl

/-- A new connection in its slot, announced to the handler and known to the poller. -/
def placed (e : Env σ π) (l : LoopConn σ π) (r : Ref) (registered : Bool) : LoopConn σ π :=
  { l with
    conns := update l.conns r { l.conns r with loopID := l.idx }
    fdTable := update l.fdTable (l.conns r).fd (some r)
    count := l.count + 1
    dcount := if (l.conns r).client then l.dcount + 1 else l.dcount
    hs := e.handler.onConnected l.hs ⟨r, (l.conns r).id, (l.conns r).client⟩
    trace := l.trace ++ [.connected r]
    poll := if registered then update l.poll (l.conns r).fd (some .read) else l.poll }

/-- What follows once the connection has its slot. -/
inductive Greeted (e : Env σ π) (l : LoopConn σ π) (r : Ref) : LoopConn σ π → Prop
  | refused : Greeted e l r (l.closeConn e r (some .CLOSE_BY_ACCEPT))
  | waits (later : readsAtOnce (l.conns r) = false) : Greeted e l r l
  | read {l' : LoopConn σ π} (answers : List (List SysRead))
      (done : l.processRead e r answers = some l') : Greeted e l r l'

inductive Act (e : Env σ π) (l : LoopConn σ π) : Op π → LoopConn σ π → Prop
  | tidy {l' : LoopConn σ π} (same : Tidy l l') : Act e l .tidy l'
  | make (fd : Nat) (id : UInt64) (client : Bool) (sock : Socket) (tls : Option (ATLSConn π))
      (live : fd ≠ 0) :
      Act e l (.make (new fd id client sock tls))
        (l.addConn (new fd id client sock tls)).1
  | age (lastCheck nowSec : Int) (checkList : List (Nat × Ref))
      (touchMap : UInt64 → Option ConnChecker)
      (listed : ∀ item ∈ checkList, item ∈ l.checkList)
      (known : ∀ id checker, touchMap id = some checker → l.touchMap id = some checker) :
      Act e l .age
        { l with lastCheck := lastCheck, nowSec := nowSec, checkList := checkList,
                 touchMap := touchMap }
  | track (r : Ref) (attached : Attached l r) : Act e l (.track r) (l.track e r)
  | close (r : Ref) (err : Option CloseErr) (attached : Attached l r) :
      Act e l (.close r err) (l.closeConn e r err)
  | send {l' : LoopConn σ π} (r : Ref) (attached : Attached l r)
      (done : l.processSend e r = some l') : Act e l (.send r) l'
  | read {l' : LoopConn σ π} (r : Ref) (answers : List (List SysRead)) (attached : Attached l r)
      (done : l.processRead e r answers = some l') : Act e l (.read r) l'
  | flush {l' : LoopConn σ π} (r : Ref) (counted : Bool) (attached : Attached l r)
      (done : l.flushFd e (l.conns r).fd = some (l', counted)) : Act e l (.flush r) l'
  | enqueue (r : Ref) (owner : Buf) (size : Nat) (attached : Attached l r)
      (fits : size ≤ owner.bytes.length) :
      Act e l (.enqueue r owner size) (l.enqueueCmd e r owner size)
  | attach {l' : LoopConn σ π} (r : Ref) (registered : Bool) (fresh : Fresh l r)
      (small : (l.conns r).fd < e.tableSize) (free : l.fdTable (l.conns r).fd = none)
      (greeted : Greeted e (l.placed e r registered) r l') : Act e l (.attach r) l'
  | drop (r : Ref) (fresh : Fresh l r) :
      Act e l (.drop r)
        (l.setConn r ({ l.conns r with loopID := l.idx }.close e.toConnEnv))

/-- Operations one after another, each allowed by `P` in the state it starts from. -/
inductive Acts (e : Env σ π) (P : LoopConn σ π → Op π → Prop) (l : LoopConn σ π) :
    LoopConn σ π → Prop
  | refl : Acts e P l l
  | tail {m l' : LoopConn σ π} {op : Op π} (before : Acts e P l m) (allowed : P m op)
      (act : Act e m op l') : Acts e P l l'

variable {P : LoopConn σ π → Op π → Prop} {op : Op π}

theorem Act.acts (act : Act e l op l') (allowed : P l op) : Acts e P l l' :=
  Acts.refl.tail allowed act

theorem Acts.trans (first : Acts e P l m) (second : Acts e P m l') : Acts e P l l' := by
  induction second with
  | refl => exact first
  | tail _ allowed act ih => exact ih.tail allowed act

/-- Taking a slot that is free leaves only the newcomer's write interest open. -/
theorem placed_sound (sound : Sound e l) (fresh : Fresh l r)
    (small : (l.conns r).fd < e.tableSize) (free : l.fdTable (l.conns r).fd = none)
    (registered : Bool) : SoundBut e (l.placed e r registered) (· = r) := by
  have table (fd : Nat) : (l.placed e r registered).fdTable fd =
      if fd = (l.conns r).fd then some r else l.fdTable fd := update_apply _ _ _ _
  have others {q : Ref} (other : q ≠ r) : (l.placed e r registered).conns q = l.conns q :=
    update_of_ne other _ _
  have fd_eq : ((l.placed e r registered).conns r).fd = (l.conns r).fd := by
    simp only [placed, update_self]
  have kept {fd : Nat} (taken : l.fdTable fd ≠ none) :
      (l.placed e r registered).fdTable fd ≠ none := by
    rw [table fd]
    split
    · simp
    · exact taken
  have own : Attached (l.placed e r registered) r := by
    refine ⟨fd_eq ▸ fresh.live, ?_⟩
    rw [fd_eq, table, if_pos rfl]
  have still {q : Ref} (other : q ≠ r) (attached : Attached l q) :
      Attached (l.placed e r registered) q := by
    have elsewhere : (l.conns q).fd ≠ (l.conns r).fd := by
      intro clash
      rw [Attached, clash, free] at attached
      cases attached.2
    rw [Attached, others other, table, if_neg elsewhere]
    exact attached
  refine ⟨?_, fun fd member => kept (sound.armed fd member),
    fun fd member => kept (sound.marked fd member),
    fun fd member => kept (sound.flushed fd member), ?_, ?_, ?_⟩
  · intro fd q slot
    rw [table fd] at slot
    by_cases same : fd = (l.conns r).fd
    · rw [if_pos same] at slot
      cases slot
      refine ⟨fd_eq.trans same.symm, same ▸ fresh.live, same ▸ small, ?_, fresh.made⟩
      simp only [placed, update_self]
    rw [if_neg same] at slot
    have other : q ≠ r := fun clash => fresh.loose fd (clash ▸ slot)
    rw [others other]
    exact sound.slot fd q slot
  · intro item member
    obtain ⟨made, held⟩ := sound.listed item member
    refine ⟨made, fun live => ?_⟩
    by_cases same : item.2 = r
    · rw [same]
      exact own
    rw [others same] at live
    exact still same (held live)
  · exact forall_mem_append.mpr ⟨sound.seen, forall_mem_singleton.mpr fresh.made⟩
  intro q attached other userspace
  have before : Attached l q := by
    rw [Attached, others other, table] at attached
    obtain ⟨live, slot⟩ := attached
    split at slot
    · exact absurd (some.inj slot).symm other
    · exact ⟨live, slot⟩
  rw [others other] at userspace
  unfold Interested
  rw [others other]
  exact sound.interest q before not_false userspace

theorem placed_attached (fresh : Fresh l r) (registered : Bool) :
    Attached (l.placed e r registered) r := by
  simp only [Attached, placed, update_self, and_true]
  exact fresh.live

/-- A new connection has no output waiting unless its TLS engine has. -/
theorem placed_interested (sound : Sound e l) (fresh : Fresh l r)
    (free : l.fdTable (l.conns r).fd = none) (registered : Bool)
    (later : readsAtOnce ((l.placed e r registered).conns r) = false)
    (userspace : ¬ UsesKernelTls ((l.placed e r registered).conns r)) :
    Interested (l.placed e r registered) r := by
  have unarmed : (l.conns r).fd ∉ l.writeFds := fun member => sound.armed _ member free
  have conn : (l.placed e r registered).conns r = { l.conns r with loopID := l.idx } :=
    update_self r _ _
  rw [conn] at later userspace
  unfold Interested
  rw [conn]
  refine .inr (iff_of_false unarmed ?_)
  cases engine : (l.conns r).tls with
  | none =>
    simp only [pendingWrite, engine, fresh.queue]
    decide
  | some a =>
    simp only [readsAtOnce, engine, Bool.or_eq_false_iff, Bool.not_eq_false'] at later
    refine absurd ?_ userspace
    simp only [UsesKernelTls, identity, engine, map_some, later.1]

theorem Greeted.effect (sound : SoundBut e l (· = r)) (attached : Attached l r)
    (waiting : readsAtOnce (l.conns r) = false → ¬ UsesKernelTls (l.conns r) → Interested l r)
    (greeted : Greeted e l r l') : Sound e l' := by
  cases greeted with
  | refused => exact (closeConn_effect sound attached _).sound sound attached
  | waits later =>
    refine { sound with interest := fun q present _ userspace => ?_ }
    by_cases same : q = r
    · rw [same] at userspace ⊢
      exact waiting later userspace
    · exact sound.interest q present same userspace
  | read answers done => exact (processRead_effect sound attached done).sound sound attached

variable {q : Ref}

theorem addConn_other (c : EngineConn π) (made : q < l.nconns) :
    (l.addConn c).1.conns q = l.conns q :=
  update_of_ne (Nat.ne_of_lt made) _ _

theorem flush_effect {counted : Bool} (sound : Sound e l) (attached : Attached l r)
    (done : l.flushFd e (l.conns r).fd = some (l', counted)) : Effect l l' r := by
  have found := sound.found attached
  obtain ⟨_, absent⟩ | ⟨q, owner, effect⟩ := flushFd_effect sound done
  · rw [found] at absent
    cases absent
  rw [found] at owner
  cases owner
  exact effect

/-- Every operation keeps the books in order. -/
theorem Act.sound (sound : Sound e l) (act : Act e l op l') : Sound e l' := by
  cases act with
  | tidy same =>
    rw [same]
    exact ⟨sound.slot, sound.armed, sound.marked, sound.flushed, sound.listed, sound.seen,
      sound.interest⟩
  | make fd id client sock tls live =>
    generalize new fd id client sock tls = c
    have old {q : Ref} (made : q < l.nconns) := addConn_other (l := l) c made
    refine ⟨?_, sound.armed, sound.marked, sound.flushed, ?_, ?_, ?_⟩
    · intro fd q slot
      obtain ⟨same, nonzero, small, owned, made⟩ := sound.slot fd q slot
      rw [old made]
      exact ⟨same, nonzero, small, owned, Nat.lt_succ_of_lt made⟩
    · intro item member
      obtain ⟨made, held⟩ := sound.listed item member
      rw [Attached, old made]
      exact ⟨Nat.lt_succ_of_lt made, held⟩
    · intro o member
      exact Nat.lt_succ_of_lt (sound.seen o member)
    intro q attached _ userspace
    have made := (sound.slot _ q attached.2).2.2.2.2
    rw [Attached, old made] at attached
    rw [old made] at userspace
    unfold Interested
    rw [old made]
    exact sound.interest q attached not_false userspace
  | age lastCheck nowSec checkList touchMap listed =>
    exact { sound with listed := fun item member => sound.listed item (listed item member) }
  | track r attached =>
    unfold LoopConn.track
    split
    · exact { sound with
        listed := forall_mem_append.mpr ⟨sound.listed, forall_mem_singleton.mpr
          ⟨(sound.slot _ r attached.2).2.2.2.2, fun _ => attached⟩⟩ }
    · exact sound
  | close r err attached => exact (closeConn_effect sound attached err).sound sound.but attached
  | send r attached done => exact (processSend_effect sound attached done).sound sound.but attached
  | read r answers attached done =>
    exact (processRead_effect sound attached done).sound sound.but attached
  | flush r counted attached done =>
    exact (flush_effect sound attached done).sound sound.but attached
  | enqueue r owner size attached =>
    exact (enqueueCmd_effect sound attached owner size).sound sound.but attached
  | attach r registered fresh small free greeted =>
    exact greeted.effect (placed_sound sound fresh small free registered)
      (placed_attached fresh registered) (placed_interested sound fresh free registered)
  | drop r fresh =>
    have others {q : Ref} (other : q ≠ r) := setConn_other (l := l)
      ({ l.conns r with loopID := l.idx }.close e.toConnEnv) q other
    have held {fd : Nat} {q : Ref} (slot : l.fdTable fd = some q) : q ≠ r :=
      fun clash => fresh.loose fd (clash ▸ slot)
    refine ⟨?_, sound.armed, sound.marked, sound.flushed, ?_, sound.seen, ?_⟩
    · intro fd q slot
      rw [others (held slot)]
      exact sound.slot fd q slot
    · intro item member
      obtain ⟨made, attached⟩ := sound.listed item member
      refine ⟨made, fun live => ?_⟩
      by_cases same : item.2 = r
      · rw [same, setConn_self] at live
        exact absurd rfl live
      rw [others same] at live
      rw [Attached, others same]
      exact attached live
    intro q attached _ userspace
    have other := held attached.2
    rw [others other] at userspace
    unfold Interested
    rw [Attached, others other] at attached
    rw [others other]
    exact sound.interest q attached not_false userspace

/-- All that the loop knows of a connection is as it was. -/
structure Untouched (l l' : LoopConn σ π) (q : Ref) : Prop where
  nconns : l.nconns ≤ l'.nconns
  conn : l'.conns q = l.conns q
  attached : Attached l' q ↔ Attached l q
  marked : Attached l q → ((l.conns q).fd ∈ l'.closeOnDrain ↔ (l.conns q).fd ∈ l.closeOnDrain)
  trace : ∃ ext, l'.trace = l.trace ++ ext ∧ ∀ o ∈ ext, o.ref ≠ q

theorem Untouched.trans (first : Untouched l m q) (second : Untouched m l' q) :
    Untouched l l' q := by
  obtain ⟨ext, extended, about⟩ := first.trace
  obtain ⟨ext', extended', about'⟩ := second.trace
  refine ⟨first.nconns.trans second.nconns, second.conn.trans first.conn,
    second.attached.trans first.attached, fun present => ?_, ext ++ ext', ?_, ?_⟩
  · have later := second.marked (first.attached.mpr present)
    rw [first.conn] at later
    exact later.trans (first.marked present)
  · rw [extended', extended, append_assoc]
  exact forall_mem_append.mpr ⟨about, about'⟩

/-- Nothing that the loop knows of any connection has changed. -/
theorem Untouched.of_eq (nconns : l'.nconns = l.nconns) (conns : l'.conns = l.conns)
    (table : l'.fdTable = l.fdTable) (marked : l'.closeOnDrain = l.closeOnDrain)
    (trace : l'.trace = l.trace) : Untouched l l' q := by
  refine ⟨Nat.le_of_eq nconns.symm, congrFun conns q, ?_, fun _ => by rw [marked], [], ?_,
    forall_mem_nil _⟩
  · rw [Attached, Attached, conns, table]
  · rw [trace, append_nil]

theorem Tidy.untouched (tidy : Tidy l l') (q : Ref) : Untouched l l' q := by
  rw [tidy]
  exact .of_eq rfl rfl rfl rfl rfl

theorem Effect.untouched (attached : Attached l r) (effect : Effect l l' r) (other : q ≠ r) :
    Untouched l l' q := by
  obtain ⟨ext, extended, about⟩ := effect.trace
  refine ⟨Nat.le_of_eq effect.nconns.symm, effect.others q other,
    effect.attached_iff attached other, fun present => effect.closeOnDrain _ ?_, ext, extended, ?_⟩
  · intro clash
    rw [Attached, clash, attached.2] at present
    exact other (some.inj present.2).symm
  intro o member
  rw [about o member]
  exact Ne.symm other

theorem placed_untouched (free : l.fdTable (l.conns r).fd = none) (registered : Bool)
    (other : q ≠ r) : Untouched l (l.placed e r registered) q := by
  have conn : (l.placed e r registered).conns q = l.conns q := update_of_ne other _ _
  refine ⟨Nat.le_refl _, conn, ?_, fun _ => Iff.rfl, [.connected r], rfl, ?_⟩
  · unfold Attached
    rw [conn]
    refine and_congr_right fun _ => ?_
    change update l.fdTable (l.conns r).fd (some r) (l.conns q).fd = some q ↔ _
    by_cases same : (l.conns q).fd = (l.conns r).fd
    · rw [same, update_self, free]
      exact iff_of_false (fun clash => other (some.inj clash).symm) nofun
    · rw [update_of_ne same]
  intro o member
  rw [mem_singleton.mp member]
  exact Ne.symm other

/-- What an operation amounts to: it concerns no connection, makes one, serves one that is
attached, attaches one, or drops it. -/
inductive Shape (e : Env σ π) (l : LoopConn σ π) : Op π → LoopConn σ π → Prop
  | apart {op : Op π} {l' : LoopConn σ π} (void : op.subject = none)
      (same : l' = { l with
        owners := l'.owners, returned := l'.returned, seq := l'.seq, lastCheck := l'.lastCheck,
        nowSec := l'.nowSec, checkList := l'.checkList, elems := l'.elems,
        touchMap := l'.touchMap }) : Shape e l op l'
  | makes (fd : Nat) (id : UInt64) (client : Bool) (sock : Socket) (tls : Option (ATLSConn π))
      (live : fd ≠ 0) :
      Shape e l (.make (new fd id client sock tls))
        (l.addConn (new fd id client sock tls)).1
  | serves {op : Op π} {l' : LoopConn σ π} (r : Ref) (subject : op.subject = some r)
      (attached : Attached l r) (effect : Effect l l' r) : Shape e l op l'
  | attaches {l' : LoopConn σ π} (r : Ref) (registered : Bool) (fresh : Fresh l r)
      (free : l.fdTable (l.conns r).fd = none) (attached : Attached (l.placed e r registered) r)
      (ends : l' = l.placed e r registered ∨ Effect (l.placed e r registered) l' r) :
      Shape e l (.attach r) l'
  | drops (r : Ref) (fresh : Fresh l r) :
      Shape e l (.drop r) (l.setConn r ({ l.conns r with loopID := l.idx }.close e.toConnEnv))

section

variable (sound : Sound e l)
include sound

section

variable (act : Act e l op l')
include act

theorem Act.shape : Shape e l op l' := by
  cases act with
  | tidy same =>
    refine .apart rfl ?_
    rw [same]
  | make fd id client sock tls live => exact .makes fd id client sock tls live
  | age => exact .apart rfl rfl
  | track r attached =>
    refine .apart rfl ?_
    unfold LoopConn.track
    split <;> rfl
  | close r err attached => exact .serves r rfl attached (closeConn_effect sound attached err)
  | send r attached done => exact .serves r rfl attached (processSend_effect sound attached done)
  | read r answers attached done =>
    exact .serves r rfl attached (processRead_effect sound attached done)
  | flush r counted attached done =>
    exact .serves r rfl attached (flush_effect sound attached done)
  | enqueue r owner size attached =>
    exact .serves r rfl attached (enqueueCmd_effect sound attached owner size)
  | attach r registered fresh small free greeted =>
    have books := placed_sound sound fresh small free registered
    have attached := placed_attached (e := e) fresh registered
    refine .attaches r registered fresh free attached ?_
    cases greeted with
    | refused => exact .inr (closeConn_effect books attached _)
    | waits => exact .inl rfl
    | read answers done => exact .inr (processRead_effect books attached done)
  | drop r fresh => exact .drops r fresh

theorem Act.held (own : op.subject = some r) : Attached l r ∧ Effect l l' r ∨ Fresh l r := by
  cases act.shape sound with
  | apart void => cases void.symm.trans own
  | makes => cases own
  | serves r subject attached effect =>
    cases subject.symm.trans own
    exact .inl ⟨attached, effect⟩
  | attaches r registered fresh | drops r fresh =>
    cases own
    exact .inr fresh

/-- Work for an attached connection. -/
theorem Act.effect (attached : Attached l r) (own : op.subject = some r) : Effect l l' r := by
  rcases act.held sound own with ⟨_, effect⟩ | fresh
  · exact effect
  · exact absurd attached.2 (fresh.loose _)

/-- An operation for one connection does not show at another. -/
theorem Act.untouched (made : q < l.nconns) (other : op.subject ≠ some q) : Untouched l l' q := by
  cases act.shape sound with
  | apart _ same =>
    rw [same]
    exact .of_eq rfl rfl rfl rfl rfl
  | makes fd id client sock tls live =>
    have old := addConn_other (l := l) (new fd id client sock tls) made
    refine ⟨Nat.le_succ _, old, ?_, fun _ => Iff.rfl, [], (append_nil _).symm,
      forall_mem_nil _⟩
    rw [Attached, old]
    exact Iff.rfl
  | serves r subject attached effect =>
    exact effect.untouched attached fun same => other (same ▸ subject)
  | attaches r registered fresh free attached ends =>
    have apart : q ≠ r := fun same => other (same ▸ rfl)
    refine (placed_untouched (e := e) free registered apart).trans ?_
    rcases ends with rfl | effect
    · exact .of_eq rfl rfl rfl rfl rfl
    · exact effect.untouched attached apart
  | drops r =>
    have conn := setConn_other (l := l) ({ l.conns r with loopID := l.idx }.close e.toConnEnv) q
      fun same => other (same ▸ rfl)
    refine ⟨Nat.le_refl _, conn, ?_, fun _ => Iff.rfl, [], (append_nil _).symm,
      forall_mem_nil _⟩
    rw [Attached, conn]
    exact Iff.rfl

theorem Act.fresh (fresh : Fresh l q) (other : op.subject ≠ some q) : Fresh l' q := by
  have same := act.untouched sound fresh.made other
  obtain ⟨ext, extended, about⟩ := same.trace
  refine ⟨Nat.lt_of_lt_of_le fresh.made same.nconns, ?_, ?_, ?_, ?_, ?_⟩
  · rw [same.conn]
    exact fresh.live
  · intro fd slot
    obtain ⟨own, nonzero, _⟩ := (act.sound sound).slot fd q slot
    exact fresh.loose _ (same.attached.mp ⟨own ▸ nonzero, own ▸ slot⟩).2
  · rw [same.conn]
    exact fresh.queue
  · rw [same.conn]
    exact fresh.ring
  rw [extended]
  exact forall_mem_append.mpr ⟨fresh.unseen, about⟩

end

/-- A connection that was just made is new to the loop. -/
theorem addConn_fresh (fd : Nat) (id : UInt64) (client : Bool) (sock : Socket)
    (tls : Option (ATLSConn π)) (live : fd ≠ 0) :
    Fresh (l.addConn (new fd id client sock tls)).1 l.nconns := by
  have conn : (l.addConn (new fd id client sock tls)).1.conns l.nconns =
      new fd id client sock tls := update_self _ _ _
  refine ⟨Nat.lt_succ_self _, ?_, ?_, ?_, ?_, ?_⟩
  · rw [conn]
    exact live
  · intro fd slot
    exact Nat.lt_irrefl _ (sound.slot fd _ slot).2.2.2.2
  · rw [conn]
    rfl
  · rw [conn]
    rfl
  intro o member same
  exact Nat.lt_irrefl _ (same ▸ sound.seen o member)

/-- Connections are made one at a time, and only by `make`. -/
theorem Act.nconns (act : Act e l op l') :
    l'.nconns = l.nconns ∨ op = .make (l'.conns l.nconns) ∧ l'.nconns = l.nconns + 1 ∧
      Fresh l' l.nconns := by
  cases act.shape sound with
  | apart _ same =>
    left
    rw [same]
  | makes fd id client sock tls live =>
    refine .inr ⟨?_, rfl, addConn_fresh sound fd id client sock tls live⟩
    simp only [LoopConn.addConn, update_self]
  | serves r subject attached effect => exact .inl effect.nconns
  | attaches r registered fresh free attached ends =>
    rcases ends with rfl | effect
    · exact .inl rfl
    · exact .inl effect.nconns
  | drops r => exact .inl rfl

theorem Act.made (act : Act e l op l') (made : q < l.nconns) : q < l'.nconns := by
  have more : l.nconns ≤ l'.nconns := by
    rcases act.nconns sound with same | ⟨_, grown, _⟩ <;> omega
  exact Nat.lt_of_lt_of_le made more

end

/-- The connection keeps its name, and its descriptor unless that is taken away. -/
structure Kept (c c' : EngineConn π) : Prop where
  name : c'.name = c.name
  fd : c'.fd ≠ 0 → c'.fd = c.fd

theorem Effect.kept {c : EngineConn π} (effect : Effect l l' r) (name : (l.conns r).name = c.name)
    (fd : (l.conns r).fd = c.fd) : Kept c (l'.conns r) := by
  refine ⟨effect.name.trans name, fun live => ?_⟩
  rcases effect.outcome with gone | stays
  · exact absurd gone.closed live
  · exact (congrArg Identity.fd stays.same).trans fd

theorem Act.kept (sound : Sound e l) (act : Act e l op l') (made : q < l.nconns) :
    Kept (l.conns q) (l'.conns q) := by
  by_cases own : op.subject = some q
  · cases act.shape sound with
    | apart void => cases void.symm.trans own
    | makes => cases own
    | serves r subject attached effect =>
      cases subject.symm.trans own
      exact effect.kept rfl rfl
    | attaches r registered fresh free attached ends =>
      cases own
      have stored : (l.placed e q registered).conns q = { l.conns q with loopID := l.idx } :=
        update_self _ _ _
      rcases ends with rfl | effect
      · rw [stored]
        exact ⟨rfl, fun _ => rfl⟩
      · exact effect.kept (by rw [stored]; rfl) (by rw [stored])
    | drops r =>
      cases own
      rw [setConn_self]
      refine ⟨?_, fun live => absurd rfl live⟩
      rw [name, close_identity]
      rfl
  rw [(act.untouched sound made own).conn]
  exact ⟨rfl, fun _ => rfl⟩

/-- Work for one connection gives up its slot at most. -/
theorem Effect.slot_of (attached : Attached l r) (effect : Effect l l' r)
    {fd : Nat} (slot : l'.fdTable fd = some q) : l.fdTable fd = some q := by
  by_cases own : fd = (l.conns r).fd
  · subst own
    rcases effect.outcome with gone | stays
    · rw [gone.slot] at slot
      cases slot
    rw [stays.slot] at slot
    rw [attached.2, slot]
  rw [← effect.table fd own]
  exact slot

/-- Slots are given up by every operation and taken only by `attach`. -/
theorem Act.slot (sound : Sound e l) (act : Act e l op l') {fd : Nat}
    (slot : l'.fdTable fd = some q) : l.fdTable fd = some q ∨ op = .attach q := by
  cases act.shape sound with
  | apart _ same =>
    rw [same] at slot
    exact .inl slot
  | makes | drops => exact .inl slot
  | serves r subject attached effect => exact .inl (effect.slot_of attached slot)
  | attaches r registered fresh free attached ends =>
    have there : (l.placed e r registered).fdTable fd = some q := by
      rcases ends with rfl | effect
      · exact slot
      · exact effect.slot_of attached slot
    change update l.fdTable (l.conns r).fd (some r) fd = some q at there
    rw [update_apply] at there
    split at there
    · exact .inr (congrArg Op.attach (some.inj there))
    · exact .inl there

theorem closeConn_flushSet (err : Option CloseErr) :
    (l.closeConn e r err).cmdFlushSet ⊆ l.cmdFlushSet := by
  by_cases live : (l.conns r).fd = 0
  · rw [closeConn_dead err live]
  rw [closeConn_open err live]
  exact Finset.erase_subset _ _

theorem updateWriteFd_flushSet : (l.updateWriteFd r).cmdFlushSet = l.cmdFlushSet := by
  rw [updateWriteFd_books]

theorem processRead_flushSet {answers : List (List SysRead)}
    (done : l.processRead e r answers = some l') : l'.cmdFlushSet ⊆ l.cmdFlushSet := by
  obtain ⟨m, ext, inside, outcome⟩ := processRead_cases done
  rw [← inside.cmdFlushSet_eq]
  cases outcome with
  | closed => exact closeConn_flushSet _
  | marked =>
    rw [updateWriteFd_flushSet]
    exact Finset.Subset.refl _
  | waiting =>
    rw [updateWriteFd_flushSet]

theorem processSend_flushSet (done : l.processSend e r = some l') :
    l'.cmdFlushSet ⊆ l.cmdFlushSet := by
  obtain ⟨c, sum, err, _, _, ⟨rfl, _⟩ | ⟨_, _, _, rfl⟩ | ⟨_, _, rfl⟩⟩ := processSend_cases done
  · exact closeConn_flushSet _
  · exact closeConn_flushSet _
  rw [updateWriteFd_flushSet]
  exact Finset.Subset.refl _

theorem flushFd_flushSet {fd : Nat} {counted : Bool}
    (done : l.flushFd e fd = some (l', counted)) :
    l'.cmdFlushSet ⊆ l.cmdFlushSet := by
  have erased := Finset.erase_subset fd l.cmdFlushSet
  rcases flushFd_cases done with ⟨rfl, _⟩ | ⟨q, c, sum, err, _, _, _, ends⟩
  · exact erased
  rcases ends with ⟨rfl, _⟩ | ⟨why, _, _, rfl⟩ | ⟨_, _, rfl⟩
  · exact (closeConn_flushSet _).trans erased
  · exact (closeConn_flushSet _).trans erased
  rw [updateWriteFd_flushSet]
  exact erased

/-- Only a command puts a descriptor down for flushing. -/
theorem Act.flushSet (act : Act e l op l') (other : ∀ q owner size, op ≠ .enqueue q owner size) :
    l'.cmdFlushSet ⊆ l.cmdFlushSet := by
  cases act with
  | tidy same =>
    rw [same]
  | make | age => exact Finset.Subset.refl _
  | track r attached =>
    unfold LoopConn.track
    split <;> exact Finset.Subset.refl _
  | close => exact closeConn_flushSet _
  | send r attached done => exact processSend_flushSet done
  | read r answers attached done => exact processRead_flushSet done
  | flush r counted attached done => exact flushFd_flushSet done
  | enqueue r owner size => exact absurd rfl (other r owner size)
  | attach r registered fresh small free greeted =>
    cases greeted with
    | refused => exact closeConn_flushSet (l := l.placed e r registered) _
    | waits => exact Finset.Subset.refl _
    | read answers done => exact processRead_flushSet (l := l.placed e r registered) done
  | drop => exact Finset.Subset.refl _

/-- The rule for whole callbacks: what every single allowed operation keeps, they keep. -/
theorem Acts.keeps {I : LoopConn σ π → Prop} (acts : Acts e P l l') (sound : Sound e l)
    (start : I l) (kept : ∀ m op m', Sound e m → P m op → Act e m op m' → I m → I m') :
    Sound e l' ∧ I l' := by
  induction acts with
  | refl => exact ⟨sound, start⟩
  | tail _ allowed act ih =>
    obtain ⟨now, held⟩ := ih
    exact ⟨act.sound now, kept _ _ _ now allowed act held⟩

end LoopConn

end Connaxis
