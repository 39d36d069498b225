import Connaxis.LoopFrame

namespace Connaxis

open EngineConn Function Option List Finset

variable {σ π : Type} {e : Env σ π}

namespace LoopConn

variable {l l' m : LoopConn σ π} {r : Ref} {ext : List Obs}

/-- The connection is open and the loop finds it under its descriptor. -/
def Attached (l : LoopConn σ π) (r : Ref) : Prop :=
  (l.conns r).fd ≠ 0 ∧ l.fdTable (l.conns r).fd = some r

instance (l : LoopConn σ π) (r : Ref) : Decidable (Attached l r) :=
  inferInstanceAs (Decidable (_ ∧ _))

/-- The records of a TLS connection are left to the kernel. -/
def UsesKernelTls (c : EngineConn π) : Prop := c.identity.ktls = some true

instance (c : EngineConn π) : Decidable (UsesKernelTls c) := inferInstanceAs (Decidable (_ = _))

/-- Output is either about to be flushed, or armed exactly when there is any. -/
def Interested (l : LoopConn σ π) (r : Ref) : Prop :=
  (l.conns r).fd ∈ l.cmdFlushSet ∨
    ((l.conns r).fd ∈ l.writeFds ↔ (l.conns r).pendingWrite > 0)

/-- The descriptor is out of all books. -/
structure Gone (l' : LoopConn σ π) (r : Ref) (fd : Nat) : Prop where
  closed : (l'.conns r).fd = 0
  slot : l'.fdTable fd = none
  unarmed : fd ∉ l'.writeFds
  unmarked : fd ∉ l'.closeOnDrain
  unflushed : fd ∉ l'.cmdFlushSet

structure Stays (l l' : LoopConn σ π) (r : Ref) : Prop where
  same : (l'.conns r).identity = (l.conns r).identity
  slot : l'.fdTable (l.conns r).fd = some r
  interested : Interested l' r

/-- What an operation for one attached connection leaves alone, and what becomes of
the connection. -/
structure Effect (l l' : LoopConn σ π) (r : Ref) : Prop where
  idx : l'.idx = l.idx
  nconns : l'.nconns = l.nconns
  recvbuf : l'.recvbuf = l.recvbuf
  others : ∀ q, q ≠ r → l'.conns q = l.conns q
  name : (l'.conns r).name = (l.conns r).name
  table : ∀ fd, fd ≠ (l.conns r).fd → l'.fdTable fd = l.fdTable fd
  writeFds : ∀ fd, fd ≠ (l.conns r).fd → (fd ∈ l'.writeFds ↔ fd ∈ l.writeFds)
  closeOnDrain : ∀ fd, fd ≠ (l.conns r).fd → (fd ∈ l'.closeOnDrain ↔ fd ∈ l.closeOnDrain)
  cmdFlushSet : ∀ fd, fd ≠ (l.conns r).fd → (fd ∈ l'.cmdFlushSet ↔ fd ∈ l.cmdFlushSet)
  listed : ∀ item ∈ l'.checkList, item ∈ l.checkList
  trace : ∃ ext, l'.trace = l.trace ++ ext ∧ ∀ o ∈ ext, o.ref = r
  outcome : Gone l' r (l.conns r).fd ∨ Stays l l' r

/-- The books agree with the descriptor table; the write interest of `but` is left open. -/
structure SoundBut (e : Env σ π) (l : LoopConn σ π) (but : Ref → Prop) : Prop where
  slot : ∀ fd r, l.fdTable fd = some r → (l.conns r).fd = fd ∧ fd ≠ 0 ∧ fd < e.tableSize ∧
    (l.conns r).loopID = l.idx ∧ r < l.nconns
  armed : ∀ fd ∈ l.writeFds, l.fdTable fd ≠ none
  marked : ∀ fd ∈ l.closeOnDrain, l.fdTable fd ≠ none
  flushed : ∀ fd ∈ l.cmdFlushSet, l.fdTable fd ≠ none
  listed : ∀ item ∈ l.checkList,
    item.2 < l.nconns ∧ ((l.conns item.2).fd ≠ 0 → Attached l item.2)
  seen : ∀ o ∈ l.trace, o.ref < l.nconns
  interest : ∀ r, Attached l r → ¬ but r → ¬ UsesKernelTls (l.conns r) → Interested l r

def Sound (e : Env σ π) (l : LoopConn σ π) : Prop := SoundBut e l fun _ => False

theorem Sound.but {but : Ref → Prop} (sound : Sound e l) : SoundBut e l but :=
  { sound with interest := fun r attached _ => sound.interest r attached not_false }

variable {but : Ref → Prop}

theorem SoundBut.attached {fd : Nat} (sound : SoundBut e l but) (found : l.connByFD e fd = some r) :
    Attached l r ∧ (l.conns r).fd = fd := by
  obtain ⟨_, slot, _⟩ := connByFD_some found
  obtain ⟨same, live, _⟩ := sound.slot fd r slot
  refine ⟨⟨?_, ?_⟩, same⟩
  · rw [same]
    exact live
  rw [same]
  exact slot

theorem SoundBut.found (sound : SoundBut e l but) (attached : Attached l r) :
    l.connByFD e (l.conns r).fd = some r := by
  obtain ⟨_, _, small, owned, _⟩ := sound.slot _ r attached.2
  simp only [connByFD, fdTableGet, small, attached.2, owned, if_true]

/-- The loop changed nothing but this connection and what its books say of it. -/
structure Apart (l m : LoopConn σ π) (r : Ref) : Prop where
  idx : m.idx = l.idx
  nconns : m.nconns = l.nconns
  recvbuf : m.recvbuf = l.recvbuf
  others : ∀ q, q ≠ r → m.conns q = l.conns q
  same : (m.conns r).identity = (l.conns r).identity
  table : m.fdTable = l.fdTable
  writeFds : ∀ fd, fd ≠ (l.conns r).fd → (fd ∈ m.writeFds ↔ fd ∈ l.writeFds)
  closeOnDrain : ∀ fd, fd ≠ (l.conns r).fd → (fd ∈ m.closeOnDrain ↔ fd ∈ l.closeOnDrain)
  cmdFlushSet : ∀ fd, fd ≠ (l.conns r).fd → (fd ∈ m.cmdFlushSet ↔ fd ∈ l.cmdFlushSet)
  listed : ∀ item ∈ m.checkList, item ∈ l.checkList
  trace : ∃ ext, m.trace = l.trace ++ ext ∧ ∀ o ∈ ext, o.ref = r

theorem Inside.apart (inside : Inside e l m r ext) : Apart l m r where
  idx := inside.idx_eq
  nconns := inside.nconns_eq
  recvbuf := inside.recvbuf_eq
  others := inside.others
  same := inside.works.identity
  table := inside.fdTable_eq
  writeFds _ _ := by rw [inside.writeFds_eq]
  closeOnDrain _ _ := by rw [inside.closeOnDrain_eq]
  cmdFlushSet _ _ := by rw [inside.cmdFlushSet_eq]
  listed := inside.listed
  trace := ⟨ext, inside.trace_eq, fun o member => (inside.about o member).ref_eq⟩

theorem Apart.fd_eq (apart : Apart l m r) : (m.conns r).fd = (l.conns r).fd :=
  congrArg Identity.fd apart.same

theorem Apart.mark (apart : Apart l m r) : Apart l (m.mark r) r := by
  refine { apart with closeOnDrain := fun fd other => ?_ }
  rw [← apart.closeOnDrain fd other, LoopConn.mark, apart.fd_eq, mem_insert]
  exact or_iff_right other

/-- Closing an attached connection takes its descriptor out of every book. -/
theorem Apart.closed (sound : SoundBut e l but) (attached : Attached l r) (apart : Apart l m r)
    (err : Option CloseErr) : Effect l (m.closeConn e r err) r := by
  have fd_eq := apart.fd_eq
  have live : (m.conns r).fd ≠ 0 := by
    rw [fd_eq]
    exact attached.1
  have small := (sound.slot _ r attached.2).2.2.1
  have cleared (fd : Nat) : fdTableClear e.tableSize m.fdTable (m.conns r).fd r fd =
      if fd = (l.conns r).fd then none else l.fdTable fd := by
    rw [fdTableClear_apply, fd_eq, apart.table]
    simp only [small, attached.2, and_self, and_true]
  rw [closeConn_open err live]
  obtain ⟨ext, extended, about⟩ := apart.trace
  refine ⟨apart.idx, apart.nconns, apart.recvbuf, ?_, ?_, ?_, ?_, ?_, ?_,
    fun item member => apart.listed item (untrack_listed _ item member),
    ⟨ext ++ [.closed r err], ?_, ?_⟩, .inl ⟨?_, ?_, ?_, ?_, ?_⟩⟩
  · intro q other
    exact (update_of_ne other _ _).trans (apart.others q other)
  · simp only [update_self, name, close_identity, apart.same]
  · intro fd other
    exact (cleared fd).trans (if_neg other)
  · intro fd other
    rw [← apart.writeFds fd other, fd_eq, mem_erase]
    exact and_iff_right other
  · intro fd other
    rw [← apart.closeOnDrain fd other, fd_eq, mem_erase]
    exact and_iff_right other
  · intro fd other
    rw [← apart.cmdFlushSet fd other, fd_eq, mem_erase]
    exact and_iff_right other
  · rw [extended, append_assoc]
  · exact forall_mem_append.mpr ⟨about, forall_mem_singleton.mpr rfl⟩
  · simp only [update_self]
    rfl
  · exact (cleared _).trans (if_pos rfl)
  · rw [fd_eq]
    exact notMem_erase _ _
  · rw [fd_eq]
    exact notMem_erase _ _
  rw [fd_eq]
  exact notMem_erase _ _

theorem Apart.stays (attached : Attached l r) (apart : Apart l m r)
    (interested : Interested m r) : Effect l m r where
  idx := apart.idx
  nconns := apart.nconns
  recvbuf := apart.recvbuf
  others := apart.others
  name := by rw [name, name, apart.same]
  table fd _ := congrFun apart.table fd
  writeFds := apart.writeFds
  closeOnDrain := apart.closeOnDrain
  cmdFlushSet := apart.cmdFlushSet
  listed := apart.listed
  trace := apart.trace
  outcome := Or.inr ⟨apart.same, (congrFun apart.table _).trans attached.2, interested⟩

/-- Settling the write interest of an attached connection. -/
theorem Apart.settled (attached : Attached l r) (apart : Apart l m r) :
    Effect l (m.updateWriteFd r) r := by
  have live : (m.conns r).fd ≠ 0 := by
    rw [apart.fd_eq]
    exact attached.1
  have armed (fd : Nat) := updateWriteFd_armed (l := m) fd live
  rw [updateWriteFd_books] at armed ⊢
  refine Apart.stays attached { apart with writeFds := ?_ } ?_
  · intro fd other
    rw [← apart.writeFds fd other]
    rw [← apart.fd_eq] at other
    rw [armed fd, if_neg other]
  apply Or.inr
  rw [armed _, if_pos rfl]

section

variable (sound : SoundBut e l but)
include sound

section

variable (attached : Attached l r)
include attached

theorem ReadOutcome.effect (inside : Inside e l m r ext) (outcome : ReadOutcome e l m r ext l') :
    Effect l l' r := by
  cases outcome with
  | closed err _ _ => exact inside.apart.closed sound attached (some err)
  | marked _ _ => exact inside.apart.mark.settled attached
  | waiting _ _ => exact inside.apart.settled attached

theorem processRead_effect {answers : List (List SysRead)}
    (done : l.processRead e r answers = some l') : Effect l l' r := by
  obtain ⟨m, ext, inside, outcome⟩ := processRead_cases done
  exact outcome.effect sound attached inside

theorem processSend_effect (done : l.processSend e r = some l') : Effect l l' r := by
  obtain ⟨c, sum, err, _, inside, ⟨rfl, _⟩ | ⟨_, _, _, rfl⟩ | ⟨_, _, rfl⟩⟩ :=
    processSend_cases done
  · exact inside.apart.closed sound attached _
  · exact inside.apart.closed sound attached _
  · exact inside.apart.settled attached

theorem closeConn_effect (err : Option CloseErr) : Effect l (l.closeConn e r err) r :=
  (Inside.refl e l r).apart.closed sound attached err

end

theorem flushFd_effect {fd : Nat} {counted : Bool} (done : l.flushFd e fd = some (l', counted)) :
    l' = { l with cmdFlushSet := l.cmdFlushSet.erase fd } ∧ l.connByFD e fd = none ∨
      ∃ r, l.connByFD e fd = some r ∧ Effect l l' r := by
  rcases flushFd_cases done with ⟨shape, absent⟩ | ⟨r, c, sum, err, found, live, drained, ends⟩
  · refine .inl ⟨shape, ?_⟩
    cases found : l.connByFD e fd with
    | none => rfl
    | some r => exact absurd (absent r found) (sound.attached found).1.1
  refine .inr ⟨r, found, ?_⟩
  obtain ⟨attached, same⟩ := sound.attached found
  have inside := setConn_inside (l := l) (Works.refl.drain drained)
  have apart : Apart l ({ l with cmdFlushSet := l.cmdFlushSet.erase fd }.setConn r c) r := by
    refine { inside.apart with cmdFlushSet := fun f other => ?_ }
    rw [same] at other
    exact mem_erase.trans (and_iff_right other)
  rcases ends with ⟨rfl, _⟩ | ⟨why, _, _, rfl⟩ | ⟨_, _, rfl⟩
  · exact apart.closed sound attached _
  · exact apart.closed sound attached _
  · exact apart.settled attached

theorem enqueueCmd_effect (attached : Attached l r) (owner : Buf) (size : Nat) :
    Effect l (l.enqueueCmd e r owner size) r := by
  have apart : Apart l { l.setConn r ((l.conns r).enqueueWrite e.toConnEnv owner size) with
      cmdFlushSet := insert (l.conns r).fd l.cmdFlushSet } r := by
    refine ⟨rfl, rfl, rfl, fun q other => setConn_other _ q other, ?_, rfl, fun _ _ => Iff.rfl,
      fun _ _ => Iff.rfl, fun fd other => ?_, fun _ member => member,
      ⟨[], (append_nil _).symm, forall_mem_nil _⟩⟩
    · rw [setConn_self]
      rfl
    · exact mem_insert.trans (or_iff_right other)
  unfold enqueueCmd
  dsimp only
  split
  · exact apart.closed sound attached _
  apply apart.stays attached
  apply Or.inl
  rw [apart.fd_eq]
  exact mem_insert_self _ _

end

/-- The others are attached as before. -/
theorem Effect.attached_iff (attached : Attached l r) (effect : Effect l l' r) {q : Ref}
    (other : q ≠ r) : Attached l' q ↔ Attached l q := by
  unfold Attached
  rw [effect.others q other]
  refine and_congr_right fun _ => ?_
  by_cases same : (l.conns q).fd = (l.conns r).fd
  · have foreign : l.fdTable (l.conns q).fd ≠ some q := by
      rw [same, attached.2]
      exact fun clash => other (some.inj clash).symm
    refine iff_of_false ?_ foreign
    rw [same]
    rcases effect.outcome with gone | stays
    · rw [gone.slot]
      exact nofun
    rw [stays.slot]
    exact fun clash => other (some.inj clash).symm
  · rw [effect.table _ same]

theorem Stays.attached (attached : Attached l r) (stays : Stays l l' r) : Attached l' r := by
  have fd_eq : (l'.conns r).fd = (l.conns r).fd := congrArg Identity.fd stays.same
  refine ⟨?_, ?_⟩
  · rw [fd_eq]
    exact attached.1
  rw [fd_eq]
  exact stays.slot

theorem Effect.attached_of_open (attached : Attached l r) (effect : Effect l l' r)
    (live : (l'.conns r).fd ≠ 0) : Attached l' r := by
  rcases effect.outcome with gone | stays
  · exact absurd gone.closed live
  · exact stays.attached attached

/-- An operation for one connection restores what was left open about it. -/
theorem Effect.sound (sound : SoundBut e l (· = r)) (attached : Attached l r)
    (effect : Effect l l' r) : Sound e l' := by
  have own := sound.slot _ r attached.2
  have apart {fd : Nat} {q : Ref} (slot : l.fdTable fd = some q) (elsewhere : fd ≠ (l.conns r).fd) :
      q ≠ r := by
    intro same
    rw [same] at slot
    exact elsewhere (sound.slot fd r slot).1.symm
  have filled {fd : Nat} (old : fd ≠ (l.conns r).fd → l.fdTable fd ≠ none)
      (present : ¬ Gone l' r fd) : l'.fdTable fd ≠ none := by
    by_cases same : fd = (l.conns r).fd
    · subst same
      rcases effect.outcome with gone | stays
      · exact absurd gone present
      rw [stays.slot]
      exact nofun
    rw [effect.table fd same]
    exact old same
  refine ⟨?_, ?_, ?_, ?_, ?_, ?_, ?_⟩
  · intro fd q slot
    by_cases same : fd = (l.conns r).fd
    · rcases effect.outcome with gone | stays
      · rw [same, gone.slot] at slot
        cases slot
      rw [same, stays.slot] at slot
      cases slot
      have who := stays.same
      refine ⟨(congrArg Identity.fd who).trans same.symm, same ▸ own.2.1, same ▸ own.2.2.1, ?_,
        effect.nconns ▸ own.2.2.2.2⟩
      rw [effect.idx]
      exact (congrArg Identity.loopID who).trans own.2.2.2.1
    rw [effect.table fd same] at slot
    rw [effect.others q (apart slot same), effect.idx, effect.nconns]
    exact sound.slot fd q slot
  · intro fd member
    exact filled (fun other => sound.armed fd ((effect.writeFds fd other).mp member))
      fun gone => gone.unarmed member
  · intro fd member
    exact filled (fun other => sound.marked fd ((effect.closeOnDrain fd other).mp member))
      fun gone => gone.unmarked member
  · intro fd member
    exact filled (fun other => sound.flushed fd ((effect.cmdFlushSet fd other).mp member))
      fun gone => gone.unflushed member
  · intro item member
    obtain ⟨made, held⟩ := sound.listed item (effect.listed item member)
    refine ⟨effect.nconns ▸ made, fun live => ?_⟩
    by_cases same : item.2 = r
    · rw [same] at live ⊢
      rcases effect.outcome with gone | stays
      · exact absurd gone.closed live
      · exact stays.attached attached
    rw [effect.attached_iff attached same]
    rw [effect.others _ same] at live
    exact held live
  · intro o member
    obtain ⟨ext, extended, about⟩ := effect.trace
    rw [effect.nconns]
    rw [extended] at member
    rcases mem_append.mp member with early | late
    · exact sound.seen o early
    rw [about o late]
    exact own.2.2.2.2
  intro q present _ userspace
  by_cases same : q = r
  · rw [same] at present ⊢
    rcases effect.outcome with gone | stays
    · exact absurd gone.closed present.1
    · exact stays.interested
  rw [effect.attached_iff attached same] at present
  have elsewhere : (l.conns q).fd ≠ (l.conns r).fd := by
    intro clash
    rw [Attached, clash, attached.2] at present
    exact same (some.inj present.2).symm
  rw [effect.others q same] at userspace
  unfold Interested
  rw [effect.others q same, effect.cmdFlushSet _ elsewhere, effect.writeFds _ elsewhere]
  exact sound.interest q present same userspace

/-- A connection object that was made and has not been attached yet. -/
structure Fresh (l : LoopConn σ π) (r : Ref) : Prop where
  made : r < l.nconns
  live : (l.conns r).fd ≠ 0
  loose : ∀ fd, l.fdTable fd ≠ some r
  queue : (l.conns r).wq = WriteQueue.empty
  ring : (l.conns r).recvbuf = RingBuffer.newRingBuffer
  unseen : ∀ o ∈ l.trace, o.ref ≠ r

theorem Fresh.ne {q : Ref} (fresh : Fresh l q) (attached : Attached l r) : q ≠ r := by
  intro same
  rw [same] at fresh
  exact fresh.loose _ attached.2

end LoopConn

end Connaxis
