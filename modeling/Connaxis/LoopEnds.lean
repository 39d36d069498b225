import Connaxis.MachineSound

namespace Connaxis

variable {σ π : Type} {e : Env σ π}

namespace LoopConn

variable {l l' m : LoopConn σ π} {r : Ref}

/-- The loop worked for a connection and has not closed it: no count and no clock moves,
and in the idle book the connection was heard of at most. -/
structure Worked (e : Env σ π) (l m : LoopConn σ π) (r : Ref) : Prop extends Apart l m r where
  count : m.count = l.count
  dcount : m.dcount = l.dcount
  elems : m.elems = l.elems
  nowSec : m.nowSec = l.nowSec
  lastCheck : m.lastCheck = l.lastCheck
  traffic : ∃ ext, m.trace = l.trace ++ ext ∧ ∀ o ∈ ext, o.Traffic r
  heard : m.idleBook = l.idleBook ∨ m.idleBook = (l.touch e r).idleBook
  works : Works e.toConnEnv (l.conns r) (m.conns r) ∨ ∃ owner size,
    size ≤ owner.bytes.length ∧ m.conns r = (l.conns r).enqueueWrite e.toConnEnv owner size

theorem Inside.worked {ext : List Obs} (inside : Inside e l m r ext) : Worked e l m r where
  toApart := inside.apart
  count := by rw [inside.books]
  dcount := by rw [inside.books]
  elems := by rw [inside.books]
  nowSec := by rw [inside.books]
  lastCheck := by rw [inside.books]
  traffic := ⟨ext, inside.trace_eq, inside.about⟩
  heard := inside.heard
  works := Or.inl inside.works

theorem Worked.refl (e : Env σ π) (l : LoopConn σ π) (r : Ref) : Worked e l l r :=
  (Inside.refl e l r).worked

theorem Worked.mark (worked : Worked e l m r) : Worked e l (m.mark r) r :=
  { worked with toApart := worked.toApart.mark }

theorem Worked.settled (attached : Attached l r) (worked : Worked e l m r) :
    Worked e l (m.updateWriteFd r) r := by
  have effect := worked.toApart.settled attached
  have apart : Apart l (m.updateWriteFd r) r := by
    rw [updateWriteFd_books] at effect ⊢
    exact { worked.toApart with writeFds := effect.writeFds }
  rw [updateWriteFd_books] at apart ⊢
  exact { worked with toApart := apart }

/-- How the loop's work for an attached connection ends: it is kept, or closed last. -/
inductive Ended (e : Env σ π) (l : LoopConn σ π) (r : Ref) : LoopConn σ π → Prop
  | kept {m : LoopConn σ π} (worked : Worked e l m r) : Ended e l r m
  | closed {m : LoopConn σ π} (err : Option CloseErr) (worked : Worked e l m r) :
      Ended e l r (m.closeConn e r err)

theorem processRead_ended {answers : List (List SysRead)} (attached : Attached l r)
    (done : l.processRead e r answers = some l') : Ended e l r l' := by
  obtain ⟨m, ext, inside, outcome⟩ := processRead_cases done
  cases outcome with
  | closed err => exact .closed (some err) inside.worked
  | marked => exact .kept (inside.worked.mark.settled attached)
  | waiting => exact .kept (inside.worked.settled attached)

theorem processSend_ended (attached : Attached l r) (done : l.processSend e r = some l') :
    Ended e l r l' := by
  obtain ⟨c, sum, err, _, inside, ⟨rfl, _⟩ | ⟨_, _, _, rfl⟩ | ⟨_, _, rfl⟩⟩ :=
    processSend_cases done
  · exact .closed _ inside.worked
  · exact .closed _ inside.worked
  · exact .kept (inside.worked.settled attached)

theorem flushFd_ended {counted : Bool} (sound : Sound e l) (attached : Attached l r)
    (done : l.flushFd e (l.conns r).fd = some (l', counted)) : Ended e l r l' := by
  have found := sound.found attached
  rcases flushFd_cases done with ⟨_, dead⟩ | ⟨q, c, sum, err, owner, _, drained, ends⟩
  · exact absurd (dead r found) attached.1
  rw [found] at owner
  cases owner
  have inside := setConn_inside (l := l) (Works.refl.drain drained)
  have worked : Worked e l ({ l with
      cmdFlushSet := l.cmdFlushSet.erase (l.conns r).fd }.setConn r c) r :=
    { inside.worked with
      cmdFlushSet := fun fd other => Finset.mem_erase.trans (and_iff_right other) }
  rcases ends with ⟨rfl, _⟩ | ⟨why, _, _, rfl⟩ | ⟨_, _, rfl⟩
  · exact .closed _ worked
  · exact .closed _ worked
  · exact .kept (worked.settled attached)

theorem enqueueCmd_ended {owner : Buf} {size : Nat} (fits : size ≤ owner.bytes.length) :
    Ended e l r (l.enqueueCmd e r owner size) := by
  have worked : Worked e l { l.setConn r ((l.conns r).enqueueWrite e.toConnEnv owner size) with
      cmdFlushSet := insert (l.conns r).fd l.cmdFlushSet } r := by
    refine { Worked.refl e l r with
      others := fun q other => setConn_other _ q other
      same := ?_
      cmdFlushSet := fun fd other => Finset.mem_insert.trans (or_iff_right other)
      works := .inr ⟨owner, size, fits, setConn_self _⟩ }
    rw [setConn_self]
    rfl
  unfold enqueueCmd
  dsimp only
  split
  · exact .closed _ worked
  · exact .kept worked

/-- Every operation for an attached connection ends in one of the two ways. -/
theorem Act.ended {op : Op π} (sound : Sound e l) (act : Act e l op l') (attached : Attached l r)
    (own : op.subject = some r) : Ended e l r l' := by
  cases act <;> cases own
  case close err _ => exact .closed err (Worked.refl e l r)
  case send done => exact processSend_ended attached done
  case read answers _ done => exact processRead_ended attached done
  case flush counted _ done => exact flushFd_ended sound attached done
  case enqueue fits _ => exact enqueueCmd_ended fits
  case attach fresh _ _ _ | drop fresh => exact absurd attached.2 (fresh.loose _)

/-- The same for a connection that has just got its slot. -/
theorem Greeted.ended (attached : Attached l r) (greeted : Greeted e l r l') :
    Ended e l r l' := by
  cases greeted with
  | refused => exact .closed _ (Worked.refl e l r)
  | waits => exact .kept (Worked.refl e l r)
  | read answers done => exact processRead_ended attached done

/-- What an operation for a connection comes to: it is attached and served, it gets its slot
and is served, or it gets none. -/
inductive Handled (e : Env σ π) (l : LoopConn σ π) (r : Ref) : LoopConn σ π → Prop
  | served {l' : LoopConn σ π} (attached : Attached l r) (ended : Ended e l r l') :
      Handled e l r l'
  | joined {l' : LoopConn σ π} (registered : Bool) (fresh : Fresh l r)
      (attached : Attached (l.placed e r registered) r)
      (ended : Ended e (l.placed e r registered) r l') : Handled e l r l'
  | dropped (fresh : Fresh l r) :
      Handled e l r (l.setConn r ({ l.conns r with loopID := l.idx }.close e.toConnEnv))

theorem Act.handled {op : Op π} (sound : Sound e l) (act : Act e l op l')
    (own : op.subject = some r) : Handled e l r l' := by
  have served (attached : Attached l r) : Handled e l r l' :=
    .served attached (act.ended sound attached own)
  cases act <;> cases own
  case close attached | send attached _ | read attached _ | flush attached _ | enqueue attached =>
    exact served attached
  case attach registered fresh _ _ greeted =>
    have attached := placed_attached (e := e) fresh registered
    exact .joined registered fresh attached (greeted.ended attached)
  case drop fresh => exact .dropped fresh

end LoopConn

end Connaxis
