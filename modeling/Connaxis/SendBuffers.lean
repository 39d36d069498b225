import Connaxis.LoopEnds

namespace Connaxis

open List Function Option

variable {n : Nat}

namespace WriteQueue

variable {q q' q'' : WriteQueue} {got later : List Nat}

/-- The buffers that wait in the queue. Entries before `head` are used up. -/
def names (q : WriteQueue) : List Nat := (q.items.drop q.head).map fun item => item.owner.id

/-- `head` stands at an entry, or the queue has never moved. -/
def Tight (q : WriteQueue) : Prop := q.head = 0 ∨ q.head < q.items.length

/-- Between the queue and the pool nothing was lost or doubled; `got` came in. -/
def Passes (q q' : WriteQueue) (got : List Nat) : Prop :=
  q.Tight → q'.Tight ∧ (q'.names ++ q'.put).Perm (q.names ++ q.put ++ got)

theorem Passes.refl (q : WriteQueue) : Passes q q [] := by
  intro tight
  rw [append_nil]
  exact ⟨tight, .refl _⟩

theorem Passes.trans (first : Passes q q' got) (second : Passes q' q'' later) :
    Passes q q'' (got ++ later) := by
  intro tight
  obtain ⟨middle, before⟩ := first tight
  obtain ⟨last, after⟩ := second middle
  refine ⟨last, after.trans ?_⟩
  rw [← append_assoc]
  exact before.append_right later

theorem Tight.le (tight : q.Tight) : q.head ≤ q.items.length := by
  rcases tight with zero | inside
  · omega
  · exact Nat.le_of_lt inside

/-- Entries may change as long as each keeps its owner. -/
theorem names_congr (head : q'.head = q.head)
    (owners : q'.items.map (fun item => item.owner.id) = q.items.map fun item => item.owner.id) :
    q'.names = q.names := by
  rw [names, names, map_drop, map_drop, owners, head]

theorem push_passes (q : WriteQueue) (owner : Buf) (size : Nat) :
    Passes q (q.push owner size) [owner.id] := by
  intro tight
  have names : (q.push owner size).names = q.names ++ [owner.id] := by
    rw [WriteQueue.names, push, drop_append_of_le_length tight.le, map_append]
    rfl
  refine ⟨?_, ?_⟩
  · apply Or.imp_right ?_ tight
    intro inside
    rw [push, length_append]
    exact Nat.lt_add_right _ inside
  rw [names, perm_iff_count]
  simp only [push, count_append]
  omega

theorem compact_owner (t : Tuning) (item : WriteEntry) (size : Nat) :
    (item.compact t size).owner.id = item.owner.id := by
  unfold WriteEntry.compact
  dsimp only
  split
  · split <;> rfl
  · rfl

/-- The last entry makes room for another, or takes it in; its owner stays. -/
theorem replaceLast_passes {last tail : WriteEntry} (found : q.items.getLast? = some last)
    (items : q'.items = q.items.dropLast ++ [tail]) (head : q'.head = q.head)
    (put : q'.put = q.put ++ got) (same : tail.owner.id = last.owner.id) : Passes q q' got := by
  have split : q.items = q.items.dropLast ++ [last] :=
    (dropLast_append_getLast? last found).symm
  have owners : q'.items.map (fun item => item.owner.id) =
      q.items.map fun item => item.owner.id := by
    rw [items]
    conv_rhs => rw [split]
    simp only [map_append, map_cons, map_nil, same]
  have length : q'.items.length = q.items.length := by
    simpa only [length_map] using congrArg length owners
  intro tight
  refine ⟨?_, ?_⟩
  · unfold Tight
    rw [head, length]
    exact tight
  · rw [names_congr head owners, put, append_assoc]

theorem enqueue_passes (t : Tuning) (q : WriteQueue) (owner : Buf) (size : Nat) :
    Passes q (q.enqueue t owner size) [owner.id] := by
  unfold enqueue
  split
  · intro tight
    refine ⟨tight, ?_⟩
    rw [append_assoc]
    exact .refl _
  split
  · split
    · exact push_passes q owner size
    rename_i last found
    dsimp only
    have kept := compact_owner t last size
    split
    · exact replaceLast_passes found rfl rfl rfl kept
    have moved : Passes q { q with items := q.items.dropLast ++ [last.compact t size] } [] :=
      replaceLast_passes found rfl rfl (append_nil _).symm kept
    exact moved.trans (push_passes _ owner size)
  · exact push_passes q owner size

/-- The front entry has been written and its owner goes back to the pool. -/
theorem retire_passes {item spent : WriteEntry} {bytes : Nat}
    (found : q.items[q.head]? = some item) :
    let next : WriteQueue :=
      ⟨q.items.set q.head spent, q.head + 1, bytes, q.put ++ [item.owner.id]⟩
    (next.names ++ next.put).Perm (q.names ++ q.put) := by
  obtain ⟨inside, here⟩ := List.getElem?_eq_some_iff.mp found
  dsimp only
  rw [names, names, drop_set_of_lt (by omega : q.head < q.head + 1),
    drop_eq_getElem_cons inside, here, map_cons, perm_iff_count]
  simp only [count_append, count_cons, count_nil]
  omega

theorem names_of_le (past : q.items.length ≤ q.head) : q.names = [] := by
  rw [names, drop_eq_nil_of_le past, map_nil]

theorem consumeLoop_passes (rounds : Nat) (q : WriteQueue) (n : Nat) :
    Passes q (consumeLoop rounds q n).1 [] := by
  induction rounds generalizing q n with
  | zero => exact .refl q
  | succ rounds ih =>
    unfold consumeLoop
    split
    · split
      · exact .refl q
      rename_i item found
      obtain ⟨inside, here⟩ := List.getElem?_eq_some_iff.mp found
      dsimp only
      split
      · intro _
        have names : WriteQueue.names { q with
            items := q.items.set q.head { item with off := item.off + n }
            bytes := q.bytes - n } = q.names := by
          refine names_congr rfl ?_
          rw [map_set]
          conv_rhs => rw [← set_getElem_self inside]
          rw [map_set, here]
        refine ⟨.inr (by rw [length_set]; exact inside), ?_⟩
        rw [names, append_nil]
      obtain ⟨next, shape⟩ : ∃ next : WriteQueue, next =
          ⟨q.items.set q.head ⟨⟨item.owner.id, []⟩, 0, 0⟩, q.head + 1,
            q.bytes - (item.size - item.off), q.put ++ [item.owner.id]⟩ := ⟨_, rfl⟩
      have retired : (next.names ++ next.put).Perm (q.names ++ q.put) := by
        rw [shape]
        exact retire_passes found
      have head : next.head = q.head + 1 := by rw [shape]
      have length : next.items.length = q.items.length := by rw [shape, length_set]
      rw [length_set]
      intro _
      split
      · rw [← shape]
        rw [names_of_le (by omega)] at retired
        refine ⟨.inl rfl, ?_⟩
        rw [append_nil]
        exact retired
      rw [← shape]
      obtain ⟨tight, after⟩ := ih next (n - (item.size - item.off)) (.inr (by omega))
      refine ⟨tight, after.trans ?_⟩
      rw [append_nil, append_nil]
      exact retired
    · exact .refl q

theorem consume_passes (q : WriteQueue) (n : Int) : Passes q (q.consume n) [] := by
  unfold consume
  split
  · exact .refl q
  have looped := consumeLoop_passes (q.items.length - q.head) q (min n.toNat q.bytes)
  split
  · rename_i stopped
    rw [stopped] at looped
    exact looped
  rename_i next ended
  rw [ended] at looped
  split
  · intro tight
    obtain ⟨_, moved⟩ := looped tight
    refine ⟨.inl rfl, ?_⟩
    exact moved
  · exact looped

/-- A cleared queue has given back what it had. -/
theorem clear_passes (q : WriteQueue) : Passes q q.clear [] ∧ q.clear.names = [] := by
  refine ⟨fun _ => ⟨.inl rfl, ?_⟩, rfl⟩
  change ([] ++ (q.put ++ q.names)).Perm _
  rw [nil_append, append_nil]
  exact perm_append_comm

/-- New buffers, numbered from `n` on, went into the queue or through it. -/
def Feeds (n : Nat) (q : WriteQueue) (n' : Nat) (q' : WriteQueue) : Prop :=
  ∃ k, n' = n + k ∧ Passes q q' (List.range' n k)

theorem Passes.feeds (passes : Passes q q' []) (n : Nat) : Feeds n q n q' := ⟨0, rfl, passes⟩

theorem Feeds.trans {n' n'' : Nat} (first : Feeds n q n' q') (second : Feeds n' q' n'' q'') :
    Feeds n q n'' q'' := by
  obtain ⟨k, rfl, before⟩ := first
  obtain ⟨k', rfl, after⟩ := second
  refine ⟨k + k', (Nat.add_assoc _ _ _), ?_⟩
  rw [← range'_append_1]
  exact before.trans after

end WriteQueue

theorem passes_flushes (wq : WriteQueue) : Flushes fun _ wq' => WriteQueue.Passes wq wq' [] where
  sent _ _ _ passes := passes
  taken _ wq' _ passes := passes.trans (wq'.consume_passes _)

variable {err : Option Err}

namespace EngineConn

variable {π : Type} {e : ConnEnv π} {c c' : EngineConn π}

theorem drainWrite_passes {sum : Int} (done : c.drainWrite e = some (c', sum, err)) :
    WriteQueue.Passes c.wq c'.wq [] :=
  drainWrite_rule (P := (WriteQueue.Passes c.wq ·.wq []))
    (fun _ _ _ _ _ flushed before => (passes_flushes c.wq).conn before flushed) done (.refl _)

/-- What `emitOutput` queues is a buffer of its own, with the next name. -/
theorem enqueueCopy_feeds {n' : Nat} {out : Bytes} (done : c.enqueueCopy e n out = (c', n', err)) :
    WriteQueue.Feeds n c.wq n' c'.wq := by
  unfold enqueueCopy at done
  split at done
  · cases done
    exact (WriteQueue.Passes.refl _).feeds n
  cases done
  exact ⟨1, rfl, WriteQueue.enqueue_passes _ _ _ _⟩

theorem emitOutput_feeds {n' : Nat} {out : Bytes}
    (done : c.emitOutput e n out = some (c', n', err)) : WriteQueue.Feeds n c.wq n' c'.wq := by
  unfold emitOutput at done
  split at done
  · cases done
    exact (WriteQueue.Passes.refl _).feeds n
  split at done
  · split at done
    · cases done
    rename_i next sent failure wrote
    have same := (write_identity wrote).2.2
    rw [← same]
    split at done
    · cases done
      exact (WriteQueue.Passes.refl _).feeds n
    split at done
    · exact enqueueCopy_feeds (some.inj done)
    · exact enqueueCopy_feeds (some.inj done)
    cases done
    exact (WriteQueue.Passes.refl _).feeds n
  · exact enqueueCopy_feeds (some.inj done)

end EngineConn

theorem Replies.feeds {π : Type} {e : ConnEnv π} {n' : Nat} {c c' : EngineConn π}
    (replies : Replies e n c n' c') : WriteQueue.Feeds n c.wq n' c'.wq := by
  induction replies with
  | refl => exact (WriteQueue.Passes.refl _).feeds n
  | ring _ _ ih => exact ih
  | emit _ done ih => exact ih.trans (EngineConn.emitOutput_feeds done)

variable {σ π : Type} {e : Env σ π}

namespace LoopConn

variable {l l' m : LoopConn σ π} {r : Ref}

/-- The loop's work for one connection as its send buffers see it. -/
structure Feeds (l l' : LoopConn σ π) (r : Ref) : Prop where
  returned : l'.returned = l.returned
  queue : WriteQueue.Feeds l.owners (l.conns r).wq l'.owners (l'.conns r).wq

theorem Feeds.trans (first : Feeds l m r) (second : Feeds m l' r) : Feeds l l' r :=
  ⟨second.returned.trans first.returned, first.queue.trans second.queue⟩

theorem Feeds.of_eq (returned : l'.returned = l.returned) (owners : l'.owners = l.owners)
    (queue : (l'.conns r).wq = (l.conns r).wq) : Feeds l l' r := by
  refine ⟨returned, ?_⟩
  rw [owners, queue]
  exact (WriteQueue.Passes.refl _).feeds _

variable {c : EngineConn π}

theorem setConn_feeds (passes : WriteQueue.Passes (l.conns r).wq c.wq []) :
    Feeds l (l.setConn r c) r := by
  refine ⟨rfl, ?_⟩
  rw [setConn_self]
  exact passes.feeds _

/-- Work for one connection that asks for no buffer; `got` was handed in. -/
structure Hands (l l' : LoopConn σ π) (r : Ref) (got : List Nat) : Prop where
  returned : l'.returned = l.returned
  owners : l'.owners = l.owners
  queue : WriteQueue.Passes (l.conns r).wq (l'.conns r).wq got

theorem Hands.feeds (hands : Hands l l' r []) : Feeds l l' r := by
  refine ⟨hands.returned, ?_⟩
  rw [hands.owners]
  exact hands.queue.feeds _

theorem closeConn_hands (err : Option CloseErr) : Hands l (l.closeConn e r err) r [] := by
  by_cases dead : (l.conns r).fd = 0
  · rw [closeConn_dead err dead]
    exact ⟨rfl, rfl, .refl _⟩
  rw [closeConn_open err dead]
  refine ⟨rfl, rfl, ?_⟩
  dsimp only
  rw [update_self]
  exact (WriteQueue.clear_passes _).1

theorem closeConn_feeds (err : Option CloseErr) : Feeds l (l.closeConn e r err) r :=
  (closeConn_hands err).feeds

theorem touch_feeds : Feeds l (l.touch e r) r := by
  rw [touch_books]
  exact .of_eq rfl rfl rfl

theorem receive_feeds {readBytes n : Int} {answers : List SysRead} {got : Received}
    (done : l.receive e r readBytes answers = some (l', n, got)) : Feeds l l' r := by
  unfold receive at done
  dsimp only at done
  split at done
  · cases done
    exact .of_eq rfl rfl rfl
  rename_i h ring recvbuf chosen
  split at done
  · cases done
  rename_i c bytes err served
  have same : c.wq = (l.conns r).wq := (EngineConn.read_identity served).2.1
  have stored (h : Memory.Heap UInt8) : Feeds l ({ l with heap := h }.setConn r c) r := by
    refine .of_eq rfl rfl ?_
    rw [setConn_self]
    exact same
  split at done
  · cases done
    exact stored _
  split at done
  · cases done
    exact stored _
  cases done
  generalize h.store _ _ = after
  have first := stored after
  generalize LoopConn.setConn { l with heap := after } r c = next at first
  have observed : Feeds next (next.observe (.read r bytes)) r := .of_eq rfl rfl rfl
  refine ((first.trans observed).trans touch_feeds).trans (.of_eq rfl rfl ?_)
  rw [setConn_self]

theorem commit_feeds {rx : Rx σ π} {ext : List Obs} (parsed : Rx.Parsed e r (l.rx r) rx ext) :
    Feeds l (l.commit r rx) r := by
  refine ⟨rfl, ?_⟩
  simp only [commit, update_self]
  exact parsed.replies.feeds

theorem Wrote.feeds {sum : Int}
    (drained : (l.conns r).drainWrite e.toConnEnv = some (c, sum, err)) (wrote : Wrote e l r c l') :
    Feeds l l' r := by
  have set := setConn_feeds (EngineConn.drainWrite_passes drained)
  cases wrote with
  | closed flushes why =>
    refine Feeds.trans ?_ (closeConn_feeds _)
    exact ⟨set.returned, set.queue⟩
  | kept => exact ⟨set.returned, set.queue⟩

theorem respond_feeds {wantClose last again : Bool}
    (done : l.respond e r wantClose last = some (l', again)) : Feeds l l' r := by
  obtain ⟨c, sum, err, drained, wrote⟩ := respond_wrote done
  exact wrote.feeds drained

theorem readRound_feeds {readBytes n : Int} {answers : List SysRead} {again : Bool}
    (done : l.readRound e r readBytes answers = some (l', n, again)) : Feeds l l' r := by
  cases readRound_ends done with
  | failed received => exact (receive_feeds received).trans (closeConn_feeds _)
  | broken received parsed =>
    obtain ⟨ext, work, -⟩ := Rx.parseLoop_parsed _ _ _ _ parsed
    exact ((receive_feeds received).trans (commit_feeds work)).trans (closeConn_feeds _)
  | answered received parsed responded =>
    obtain ⟨ext, work, -⟩ := Rx.parseLoop_parsed _ _ _ _ parsed
    exact ((receive_feeds received).trans (commit_feeds work)).trans (respond_feeds responded)

theorem processRead_feeds {answers : List (List SysRead)}
    (done : l.processRead e r answers = some l') : Feeds l l' r :=
  processRead_rule (P := (Feeds l · r)) (fun _ once before => before.trans (readRound_feeds once))
    (fun _ once before => before.trans (readRound_feeds once)) done (.of_eq rfl rfl rfl)

theorem placed_feeds (registered : Bool) : Feeds l (l.placed e r registered) r := by
  refine .of_eq rfl rfl ?_
  simp only [placed, update_self]

theorem Greeted.feeds (greeted : Greeted e l r l') : Feeds l l' r := by
  cases greeted with
  | refused => exact closeConn_feeds _
  | waits => exact .of_eq rfl rfl rfl
  | read answers done => exact processRead_feeds done

variable {op : Op π}

/-- Every operation for a connection but the arrival of a command's data. -/
theorem Act.feeds (sound : Sound e l) (act : Act e l op l') (own : op.subject = some r)
    (given : ∀ owner size, op ≠ .enqueue r owner size) : Feeds l l' r := by
  cases act <;> cases own
  case close err attached => exact closeConn_feeds err
  case send attached done =>
    obtain ⟨c, sum, err, drained, wrote⟩ := processSend_wrote done
    exact wrote.feeds drained
  case read answers attached done => exact processRead_feeds done
  case flush counted attached done =>
    obtain ⟨c, sum, err, drained, wrote⟩ := flushFd_wrote (sound.found attached) attached.1 done
    exact wrote.feeds drained
  case enqueue owner size _ attached => exact absurd rfl (given owner size)
  case attach registered fresh small free greeted =>
    exact (placed_feeds registered).trans greeted.feeds
  case drop fresh => exact setConn_feeds (WriteQueue.clear_passes _).1

theorem enqueueCmd_hands (owner : Buf) (size : Nat) :
    Hands l (l.enqueueCmd e r owner size) r [owner.id] := by
  have queued : Hands l { l.setConn r ((l.conns r).enqueueWrite e.toConnEnv owner size) with
      cmdFlushSet := insert (l.conns r).fd l.cmdFlushSet } r [owner.id] := by
    refine ⟨rfl, rfl, ?_⟩
    simp only [setConn, update_self]
    exact WriteQueue.enqueue_passes e.tuning (l.conns r).wq owner size
  unfold enqueueCmd
  dsimp only
  split
  · have closed := closeConn_hands (e := e) (l := { l.setConn r
      ((l.conns r).enqueueWrite e.toConnEnv owner size) with
      cmdFlushSet := insert (l.conns r).fd l.cmdFlushSet }) (r := r)
    exact ⟨(closed _).returned.trans queued.returned, (closed _).owners.trans queued.owners,
      queued.queue.trans (closed _).queue⟩
  · exact queued

/-- No other connection was touched, and this one kept its id. -/
structure Alone (l l' : LoopConn σ π) (r : Ref) : Prop where
  nconns : l'.nconns = l.nconns
  others : ∀ q, q ≠ r → l'.conns q = l.conns q
  id : (l'.conns r).id = (l.conns r).id

theorem Effect.alone (effect : Effect l l' r) : Alone l l' r :=
  ⟨effect.nconns, effect.others, congrArg Identity.id effect.name⟩

theorem setConn_alone (id : c.id = (l.conns r).id) : Alone l (l.setConn r c) r := by
  refine ⟨rfl, fun q other => setConn_other c q other, ?_⟩
  rw [setConn_self, id]

theorem Act.subject_made (sound : Sound e l) (act : Act e l op l') (own : op.subject = some r) :
    r < l.nconns := by
  rcases act.held sound own with ⟨attached, _⟩ | fresh
  · exact (sound.slot _ r attached.2).2.2.2.2
  · exact fresh.made

theorem Act.alone (sound : Sound e l) (act : Act e l op l') (own : op.subject = some r) :
    Alone l l' r := by
  cases act.shape sound with
  | apart void => cases void.symm.trans own
  | makes => cases own
  | serves q subject attached effect =>
    cases subject.symm.trans own
    exact effect.alone
  | attaches q registered fresh free attached ends =>
    cases own
    have set : Alone l (l.setConn r { l.conns r with loopID := l.idx }) r := setConn_alone rfl
    have stored : Alone l (l.placed e r registered) r := ⟨set.nconns, set.others, set.id⟩
    rcases ends with rfl | effect
    · exact stored
    have after := effect.alone
    exact ⟨after.nconns.trans stored.nconns,
      fun q other => (after.others q other).trans (stored.others q other),
      after.id.trans stored.id⟩
  | drops q fresh =>
    cases own
    exact setConn_alone rfl

/-- A connection is open, or it has given back what it had to send. -/
def Cleared (l : LoopConn σ π) (r : Ref) : Prop :=
  (l.conns r).fd ≠ 0 ∨ (l.conns r).wq.names = []

theorem closeConn_cleared (err : Option CloseErr) (live : (l.conns r).fd ≠ 0) :
    Cleared (l.closeConn e r err) r := by
  apply Or.inr
  rw [closeConn_open err live]
  dsimp only
  rw [update_self]
  exact (WriteQueue.clear_passes _).2

theorem Ended.cleared (attached : Attached l r) (ended : Ended e l r l') : Cleared l' r := by
  cases ended with
  | kept worked => exact .inl (worked.fd_eq ▸ attached.1)
  | closed err worked => exact closeConn_cleared err (worked.fd_eq ▸ attached.1)

/-- Whoever was closed in an operation has nothing left in the queue. -/
theorem Act.cleared (sound : Sound e l) (act : Act e l op l') (own : op.subject = some r) :
    Cleared l' r := by
  cases act.handled sound own with
  | served attached ended | joined _ _ attached ended => exact ended.cleared attached
  | dropped =>
    apply Or.inr
    rw [setConn_self]
    exact (WriteQueue.clear_passes _).2

end LoopConn

end Connaxis
