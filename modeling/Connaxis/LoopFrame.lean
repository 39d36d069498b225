import Connaxis.ConnWork
import Connaxis.LoopCmd

namespace Connaxis

open Memory List Function

variable {σ π : Type} {e : Env σ π}

theorem fdTableClear_apply (size : Nat) (table : Nat → Option Ref) (fd f : Nat) (r : Ref) :
    fdTableClear size table fd r f =
      if f = fd ∧ fd < size ∧ table fd = some r then none else table f := by
  unfold fdTableClear
  by_cases owner : fd < size ∧ table fd = some r
  · rw [if_pos owner, update_apply]
    simp only [owner, and_true]
  · rw [if_neg owner, if_neg fun both => owner both.2]

variable {o : Obs}

theorem Obs.Traffic.ref_eq {r : Ref} (traffic : o.Traffic r) : o.ref = r := by
  cases o with
  | read | data => exact traffic
  | connected | closed => exact traffic.elim

/-- The handler has not asked to close the connection. -/
def Quiet (r : Ref) (trace : List Obs) : Prop := ∀ bytes, Obs.data r bytes true ∉ trace

/-- The handler asked to close the connection with the last packet, not before. -/
def Asked (r : Ref) (trace : List Obs) : Prop :=
  ∃ before bytes, trace = before ++ [.data r bytes true] ∧ Quiet r before

theorem Quiet.nil (r : Ref) : Quiet r [] := fun _ member => (nomatch member)

variable {first second : List Obs}

theorem Quiet.append {r : Ref} (quiet : Quiet r first) (further : Quiet r second) :
    Quiet r (first ++ second) := by
  intro bytes member
  rcases mem_append.mp member with early | late
  · exact quiet bytes early
  · exact further bytes late

theorem Quiet.asked {r : Ref} (quiet : Quiet r first) (asked : Asked r second) :
    Asked r (first ++ second) := by
  obtain ⟨before, bytes, rfl, silent⟩ := asked
  exact ⟨first ++ before, bytes, by rw [append_assoc], quiet.append silent⟩

/-- The book of idle connections: their list, and the map into it. -/
abbrev IdleBook := List (Nat × Ref) × (UInt64 → Option ConnChecker)

variable {fd : Nat} {readBytes n : Int} {answers : List SysRead}

namespace LoopConn

variable {l l' m : LoopConn σ π} {r : Ref} {ext : List Obs}

@[simp] theorem setConn_self (c : EngineConn π) : (l.setConn r c).conns r = c := by
  simp only [setConn, update_self]

theorem setConn_other (c : EngineConn π) (q : Ref) (other : q ≠ r) :
    (l.setConn r c).conns q = l.conns q := by
  simp only [setConn, update_of_ne other]

theorem connByFD_some (found : l.connByFD e fd = some r) :
    fd < e.tableSize ∧ l.fdTable fd = some r ∧ (l.conns r).loopID = l.idx := by
  unfold connByFD fdTableGet at found
  split at found
  · rename_i owner inside
    split at found
    · rename_i own
      cases found
      by_cases slot : fd < e.tableSize
      · rw [if_pos slot] at inside
        exact ⟨slot, inside, own⟩
      rw [if_neg slot] at inside
      cases inside
    · cases found
  · cases found

variable (err : Option CloseErr)

/-- All that closing an open connection does. -/
theorem closeConn_open (live : (l.conns r).fd ≠ 0) :
    l.closeConn e r err =
      { l with
        closeOnDrain := l.closeOnDrain.erase (l.conns r).fd
        checkList := (l.untrack e (l.conns r).id).checkList
        touchMap := (l.untrack e (l.conns r).id).touchMap
        count := l.count - 1
        dcount := if (l.conns r).client then l.dcount - 1 else l.dcount
        poll := update l.poll (l.conns r).fd none
        writeFds := l.writeFds.erase (l.conns r).fd
        cmdFlushSet := l.cmdFlushSet.erase (l.conns r).fd
        fdTable := fdTableClear e.tableSize l.fdTable (l.conns r).fd r
        conns := update l.conns r ((l.conns r).close e.toConnEnv)
        hs := e.handler.onClosed l.hs ⟨r, (l.conns r).id, (l.conns r).client⟩ err
        trace := l.trace ++ [.closed r err] } := by
  unfold closeConn untrack
  dsimp only
  rw [if_neg live]
  by_cases watched : e.checkInterval > 0 ∧ e.idleLimit > 0
  · simp only [if_pos watched]
    cases l.touchMap (l.conns r).id with
    | none | some => rfl
  simp only [if_neg watched]
  rfl

/-- The idle list only ever loses elements here. -/
theorem untrack_listed (id : UInt64) (item : Nat × Ref)
    (member : item ∈ (l.untrack e id).checkList) : item ∈ l.checkList := by
  unfold untrack at member
  split at member
  · split at member
    · exact member
    · exact mem_of_mem_filter member
  · exact member

theorem closeConn_dead (dead : (l.conns r).fd = 0) : l.closeConn e r err = l := by
  exact if_pos dead

theorem closeConn_fd : ((l.closeConn e r err).conns r).fd = 0 := by
  by_cases live : (l.conns r).fd = 0
  · rw [closeConn_dead err live]
    exact live
  rw [closeConn_open err live]
  simp only [update_self]
  rfl

theorem closeConn_others {q : Ref} (other : q ≠ r) : (l.closeConn e r err).conns q = l.conns q := by
  by_cases live : (l.conns r).fd = 0
  · rw [closeConn_dead err live]
  rw [closeConn_open err live]
  exact update_of_ne other _ _

theorem closeConn_mem {err : Option CloseErr} (member : o ∈ (l.closeConn e r err).trace) :
    o ∈ l.trace ∨ o = .closed r err := by
  by_cases dead : (l.conns r).fd = 0
  · rw [closeConn_dead err dead] at member
    exact .inl member
  rw [closeConn_open err dead] at member
  rcases mem_append.mp member with early | last
  · exact .inl early
  · exact .inr (mem_singleton.mp last)

/-- Only the poller's interest and the set of armed descriptors change. -/
theorem updateWriteFd_books : l.updateWriteFd r =
    { l with poll := (l.updateWriteFd r).poll, writeFds := (l.updateWriteFd r).writeFds } := by
  unfold updateWriteFd
  dsimp only
  split
  · rfl
  split
  · rfl
  · split <;> rfl

/-- Afterwards the descriptor is armed exactly when there is something to write. -/
theorem updateWriteFd_armed (fd : Nat) (live : (l.conns r).fd ≠ 0) :
    fd ∈ (l.updateWriteFd r).writeFds ↔
      if fd = (l.conns r).fd then (l.conns r).pendingWrite > 0 else fd ∈ l.writeFds := by
  unfold updateWriteFd
  dsimp only
  rw [if_neg live]
  by_cases same : fd = (l.conns r).fd
  · subst same
    by_cases want : (l.conns r).pendingWrite > 0 <;>
      by_cases has : (l.conns r).fd ∈ l.writeFds <;> simp [want, has]
  by_cases want : (l.conns r).pendingWrite > 0 <;>
    by_cases has : (l.conns r).fd ∈ l.writeFds <;> simp [want, has, same]

def idleBook (l : LoopConn σ π) : IdleBook := (l.checkList, l.touchMap)

theorem touch_books (e : Env σ π) (l : LoopConn σ π) (r : Ref) : l.touch e r =
    { l with touchMap := (l.touch e r).touchMap, checkList := (l.touch e r).checkList } := by
  unfold touch
  split
  · split <;> rfl
  · rfl

theorem touch_congr (books : m.idleBook = l.idleBook) (clock : m.nowSec = l.nowSec)
    (id : (m.conns r).id = (l.conns r).id) (client : (m.conns r).client = (l.conns r).client) :
    (m.touch e r).idleBook = (l.touch e r).idleBook := by
  obtain ⟨list, map⟩ := Prod.mk.inj books
  unfold touch
  rw [id, client, clock, list, map]
  split
  · split
    · exact books
    · rfl
  · exact books

/-- To be heard of again within the same second changes nothing. -/
theorem touch_touch : ((l.touch e r).touch e r).idleBook = (l.touch e r).idleBook := by
  by_cases watched : e.checkInterval > 0 ∧ e.idleLimit > 0 ∧ !(l.conns r).client
  · cases found : l.touchMap (l.conns r).id with
    | none => simp only [touch, watched, found, and_self, if_true]
    | some checker =>
      simp only [touch, watched, found, and_self, if_true, update_self, idleBook,
        filter_append, filter_filter, update_idem]
      simp
  · simp only [touch, watched, if_false]

/-- The loop worked for one connection and kept it: its books about descriptors are
untouched, and so are the other connections. `ext` is what could be observed. -/
structure Inside (e : Env σ π) (l l' : LoopConn σ π) (r : Ref) (ext : List Obs) : Prop where
  books : l' =
    { l with heap := l'.heap, conns := l'.conns, hs := l'.hs, owners := l'.owners,
             trace := l.trace ++ ext, checkList := l'.checkList, touchMap := l'.touchMap }
  others : ∀ q, q ≠ r → l'.conns q = l.conns q
  works : Works e.toConnEnv (l.conns r) (l'.conns r)
  about : ∀ o ∈ ext, o.Traffic r
  listed : ∀ item ∈ l'.checkList, item ∈ l.checkList
  heard : l'.idleBook = l.idleBook ∨ l'.idleBook = (l.touch e r).idleBook

namespace Inside

theorem refl (e : Env σ π) (l : LoopConn σ π) (r : Ref) : Inside e l l r [] :=
  ⟨by rw [append_nil], fun _ _ => rfl, .refl, forall_mem_nil _,
    fun _ member => member, .inl rfl⟩

theorem trans (before : Inside e l m r first) (after : Inside e m l' r second) :
    Inside e l l' r (first ++ second) := by
  have clock : m.nowSec = l.nowSec := by rw [before.books]
  have id : (m.conns r).id = (l.conns r).id := congrArg Identity.id before.works.identity
  have client : (m.conns r).client = (l.conns r).client :=
    congrArg Identity.client before.works.identity
  refine ⟨?_, ?_, before.works.trans after.works, ?_,
    fun item member => before.listed item (after.listed item member), ?_⟩
  · rw [after.books, before.books]
    simp only [append_assoc]
  · intro q other
    rw [after.others q other, before.others q other]
  · exact forall_mem_append.mpr ⟨before.about, after.about⟩
  rcases after.heard with silent | heard
  · rw [silent]
    exact before.heard
  rw [heard]
  apply Or.inr
  rcases before.heard with silent | already
  · exact touch_congr silent clock id client
  refine (touch_congr already ?_ ?_ ?_).trans touch_touch
  · rw [touch_books]
    exact clock
  · rw [touch_books]
    exact id
  rw [touch_books]
  exact client

variable (inside : Inside e l l' r ext)
include inside

theorem writeFds_eq : l'.writeFds = l.writeFds := by rw [inside.books]
theorem closeOnDrain_eq : l'.closeOnDrain = l.closeOnDrain := by rw [inside.books]
theorem cmdFlushSet_eq : l'.cmdFlushSet = l.cmdFlushSet := by rw [inside.books]
theorem fdTable_eq : l'.fdTable = l.fdTable := by rw [inside.books]
theorem idx_eq : l'.idx = l.idx := by rw [inside.books]
theorem nconns_eq : l'.nconns = l.nconns := by rw [inside.books]
theorem recvbuf_eq : l'.recvbuf = l.recvbuf := by rw [inside.books]
theorem trace_eq : l'.trace = l.trace ++ ext := by rw [inside.books]
theorem fd_eq : (l'.conns r).fd = (l.conns r).fd := inside.works.fd

end Inside

theorem setConn_inside {c : EngineConn π} (works : Works e.toConnEnv (l.conns r) c) :
    Inside e l (l.setConn r c) r [] := by
  refine ⟨?_, ?_, ?_, forall_mem_nil _, fun _ member => member, .inl rfl⟩
  · rw [append_nil]
    rfl
  · intro q other
    exact setConn_other c q other
  rw [setConn_self]
  exact works

theorem touch_inside (e : Env σ π) (l : LoopConn σ π) (r : Ref) :
    Inside e l (l.touch e r) r [] := by
  refine ⟨?_, fun q _ => ?_, ?_, forall_mem_nil _, fun item member => ?_, .inr rfl⟩
  · rw [append_nil, touch_books]
  · rw [touch_books]
  · rw [touch_books]
    exact .refl
  unfold touch at member
  split at member
  · split at member
    · exact member
    rcases mem_append.mp member with kept | moved
    · exact mem_of_mem_filter kept
    · exact mem_of_mem_filter moved
  · exact member

/-- Reading stores bytes and keeps the books; what was read is all there is to observe. -/
theorem receive_inside {got : Received}
    (done : l.receive e r readBytes answers = some (l', n, got)) :
    ∃ ext, Inside e l l' r ext ∧ Quiet r ext ∧ got ≠ .failed .CLOSE_BY_SLOW_READER := by
  unfold receive at done
  dsimp only at done
  split at done
  · cases done
    exact ⟨[], Inside.refl e l r, Quiet.nil r, nofun⟩
  rename_i h ring recvbuf chosen
  split at done
  · cases done
  rename_i c bytes err served
  have works : Works e.toConnEnv (l.conns r) c := (Works.refl.ring ring).read served
  have stored (h : Heap UInt8) : Inside e l ({ l with heap := h }.setConn r c) r [] := by
    have set := setConn_inside (l := { l with heap := h }) works
    exact ⟨set.books, set.others, set.works, set.about, set.listed, .inl rfl⟩
  split at done
  · cases done
    exact ⟨[], stored _, Quiet.nil r, nofun⟩
  split at done
  · cases done
    exact ⟨[], stored _, Quiet.nil r, nofun⟩
  cases done
  generalize h.store _ _ = after
  have observed : Inside e ({ l with heap := after }.setConn r c)
      (({ l with heap := after }.setConn r c).observe (.read r bytes)) r
      [.read r bytes] := by
    refine ⟨rfl, fun _ _ => rfl, .refl, fun o member => ?_, fun _ member => member, .inl rfl⟩
    rw [mem_singleton.mp member]
    rfl
  refine ⟨[] ++ [.read r bytes] ++ [] ++ [],
    (((stored after).trans observed).trans (touch_inside e _ r)).trans
      (setConn_inside (Works.refl.stamp _)), fun bytes member => ?_, nofun⟩
  simp only [append_nil, nil_append, mem_singleton, reduceCtorEq] at member

end LoopConn

namespace Rx

variable {rx rx' : Rx σ π}

/-- What the parse loop does to the connection, and what can be observed of it. -/
structure Parsed (e : Env σ π) (r : Ref) (rx rx' : Rx σ π) (ext : List Obs) : Prop where
  replies : Replies e.toConnEnv rx.owners rx.conn rx'.owners rx'.conn
  trace : rx'.trace = rx.trace ++ ext
  about : ∀ o ∈ ext, o.Traffic r

theorem Parsed.works {r : Ref} (parsed : Parsed e r rx rx' first) :
    Works e.toConnEnv rx.conn rx'.conn := parsed.replies.works

theorem Parsed.trans {r : Ref} {mid : Rx σ π} (before : Parsed e r rx mid first)
    (after : Parsed e r mid rx' second) : Parsed e r rx rx' (first ++ second) := by
  refine ⟨before.replies.trans after.replies, ?_,
    forall_mem_append.mpr ⟨before.about, after.about⟩⟩
  rw [after.trace, before.trace, append_assoc]

/-- How the last request of the handler shows in the exit of the loop. A failure to
parse is never blamed on a slow reader. -/
def Answers (r : Ref) (ext : List Obs) : ParseExit → Prop
  | .failed err => (Quiet r ext ∨ Asked r ext) ∧ err ≠ .CLOSE_BY_SLOW_READER
  | .done true => Asked r ext
  | .done false => Quiet r ext

variable {exit : ParseExit}

theorem Answers.cons {r : Ref} (quiet : Quiet r first) (answers : Answers r second exit) :
    Answers r (first ++ second) exit := by
  cases exit with
  | failed err =>
    obtain ⟨silent | asked, other⟩ := answers
    · exact ⟨.inl (quiet.append silent), other⟩
    · exact ⟨.inr (quiet.asked asked), other⟩
  | done wantClose =>
    cases wantClose with
    | true => exact quiet.asked answers
    | false => exact quiet.append answers

variable {inp : Slice} {expect : Int}

theorem keepPartial_parsed {r : Ref} (done : rx.keepPartial e inp expect = (rx', exit)) :
    Parsed e r rx rx' [] ∧ Answers r [] exit := by
  have void : ∀ o ∈ ([] : List Obs), o.Traffic r := forall_mem_nil _
  unfold keepPartial at done
  split at done
  · split at done
    · split at done
      · cases done
        exact ⟨⟨.refl, (append_nil _).symm, void⟩, .inl (Quiet.nil r), nofun⟩
      cases done
      exact ⟨⟨.ring .refl _, (append_nil _).symm, void⟩, Quiet.nil r⟩
    cases done
    exact ⟨⟨.ring .refl _, (append_nil _).symm, void⟩, Quiet.nil r⟩
  cases done
  exact ⟨⟨.refl, (append_nil _).symm, void⟩, Quiet.nil r⟩

variable {app : AppConn}

/-- Delivering a packet shows the packet and the handler's wish. -/
theorem deliver_parsed {data : Slice} (done : rx.deliver e app data = some (rx', exit)) :
    ∃ close, Parsed e app.ref rx rx' [.data app.ref (rx.heap.read data) close] ∧
      Answers app.ref [.data app.ref (rx.heap.read data) close] exit := by
  have shown (close : Bool) :
      ∀ o ∈ [Obs.data app.ref (rx.heap.read data) close], o.Traffic app.ref := by
    intro o member
    rw [mem_singleton.mp member]
    rfl
  have wish (close : Bool) :
      Answers app.ref [.data app.ref (rx.heap.read data) close] (.done close) := by
    cases close with
    | true => exact ⟨[], _, rfl, Quiet.nil _⟩
    | false =>
      intro bytes member
      cases mem_singleton.mp member
  unfold deliver at done
  dsimp only at done
  split at done
  · cases done
  · rename_i emitted
    cases done
    refine ⟨_, ⟨.emit .refl emitted, rfl, shown _⟩, ?_⟩
    have last := wish (e.handler.onData rx.hs app (rx.heap.read data)).close
    generalize (e.handler.onData rx.hs app (rx.heap.read data)).close = close at last ⊢
    refine ⟨?_, by split <;> nofun⟩
    cases close with
    | true => exact .inr last
    | false => exact .inl last
  rename_i emitted
  cases done
  exact ⟨_, ⟨.emit .refl emitted, rfl, shown _⟩, wish _⟩

/-- Everything a round of the packet loop can do, by the parser's answer. -/
inductive Round (e : Env σ π) (app : AppConn) (rounds : Nat) (rx : Rx σ π) (inp : Slice)
    (length expect : Int) : Rx σ π → ParseExit → Prop
  | malformed (negative : length < 0) :
      Round e app rounds rx inp length expect rx (.failed .CLOSE_PKT_PARSE_ERR)
  | large (above : expect > e.pktSizeLimit) :
      Round e app rounds rx inp length expect rx (.failed .CLOSE_PKT_SIZE_LIMIT)
  | beyond (positive : 0 < length) (past : length > inp.len) :
      Round e app rounds rx inp length expect rx (.failed .CLOSE_PKT_PARSE_ERR)
  | refused (next : Rx σ π) (err : CloseErr) (positive : 0 < length) (inside : length ≤ inp.len)
      (given : rx.deliver e app (inp.front length.toNat) = some (next, .failed err)) :
      Round e app rounds rx inp length expect next (.failed err)
  | last (next : Rx σ π) (close : Bool) (positive : 0 < length) (inside : length ≤ inp.len)
      (given : rx.deliver e app (inp.front length.toNat) = some (next, .done close))
      (ends : close ∨ (inp.tail length.toNat).len = 0) :
      Round e app rounds rx inp length expect
        (if (inp.tail length.toNat).len = 0 then next.release e else next) (.done close)
  | more (next rx' : Rx σ π) (exit : ParseExit) (positive : 0 < length)
      (inside : length ≤ inp.len)
      (given : rx.deliver e app (inp.front length.toNat) = some (next, .done false))
      (goes : (inp.tail length.toNat).len ≠ 0)
      (rest : parseLoop e app rounds next (inp.tail length.toNat) = some (rx', exit)) :
      Round e app rounds rx inp length expect rx' exit
  | partly (rx' : Rx σ π) (exit : ParseExit) (void : length = 0)
      (kept : rx.keepPartial e inp expect = (rx', exit)) :
      Round e app rounds rx inp length expect rx' exit

theorem parseLoop_round {rounds : Nat} {hs : σ} {length : Int}
    (parsed : e.handler.parsePacket rx.hs app (rx.heap.read inp) = (hs, length, expect))
    (done : parseLoop e app (rounds + 1) rx inp = some (rx', exit)) :
    Round e app rounds { rx with hs := hs } inp length expect rx' exit := by
  unfold parseLoop packetLoop at done
  rw [parsed] at done
  dsimp only at done
  split at done
  · rename_i negative
    cases done
    exact .malformed negative
  split at done
  · rename_i above
    cases done
    exact .large above
  split at done
  · rename_i positive
    split at done
    · rename_i past
      cases done
      exact .beyond positive past
    rename_i inside
    split at done
    · cases done
    · rename_i err given
      cases done
      exact .refused _ err positive (Int.not_lt.mp inside) given
    rename_i next close given
    split at done
    · rename_i ends
      cases done
      exact .last next close positive (Int.not_lt.mp inside) given ends
    rename_i goes
    obtain ⟨stays, tail⟩ := not_or.mp goes
    rw [Bool.eq_false_of_not_eq_true stays] at given
    exact .more next rx' exit positive (Int.not_lt.mp inside) given tail done
  · exact .partly rx' exit (by omega) (Option.some.inj done)

theorem parseLoop_parsed (app : AppConn) (rounds : Nat) (rx : Rx σ π) (inp : Slice)
    (done : parseLoop e app rounds rx inp = some (rx', exit)) :
    ∃ ext, Parsed e app.ref rx rx' ext ∧ Answers app.ref ext exit := by
  induction rounds generalizing rx inp with
  | zero => cases done
  | succ rounds ih =>
    have void : ∀ o ∈ ([] : List Obs), o.Traffic app.ref := forall_mem_nil _
    rcases parsed : e.handler.parsePacket rx.hs app (rx.heap.read inp) with ⟨hs, length, expect⟩
    cases parseLoop_round parsed done with
    | malformed | large | beyond =>
      exact ⟨[], ⟨.refl, (append_nil _).symm, void⟩, .inl (Quiet.nil _), nofun⟩
    | refused _ err positive inside given =>
      obtain ⟨close, ⟨replies, trace, about⟩, answers⟩ := deliver_parsed given
      exact ⟨_, ⟨replies, trace, about⟩, answers⟩
    | last next close positive inside given ends =>
      obtain ⟨shown, ⟨replies, trace, about⟩, answers⟩ := deliver_parsed given
      refine ⟨_, ⟨?_, ?_, about⟩, answers⟩
      · split
        · exact replies.ring _
        · exact replies
      · split <;> exact trace
    | more next _ _ positive inside given goes rest =>
      obtain ⟨shown, ⟨replies, trace, about⟩, answers⟩ := deliver_parsed given
      obtain ⟨ext, parsed, further⟩ := ih _ _ rest
      have first : Parsed e app.ref rx next _ := ⟨replies, trace, about⟩
      exact ⟨_, first.trans parsed, further.cons answers⟩
    | partly _ _ zero kept =>
      obtain ⟨⟨replies, trace, about⟩, answers⟩ := keepPartial_parsed (r := app.ref) kept
      exact ⟨[], ⟨replies, trace, about⟩, answers⟩

end Rx

namespace LoopConn

variable {l l' m : LoopConn σ π} {r : Ref} {ext : List Obs}

theorem commit_inside {rx : Rx σ π} (parsed : Rx.Parsed e r (l.rx r) rx ext) :
    Inside e l (l.commit r rx) r ext := by
  refine ⟨?_, ?_, ?_, parsed.about, fun _ member => member, .inl rfl⟩
  · rw [← show rx.trace = l.trace ++ ext from parsed.trace]
    rfl
  · intro q other
    exact update_of_ne other _ _
  simp only [commit, update_self]
  exact parsed.works

/-- The connection has just been flushed without a hard error. -/
def Drained (e : Env σ π) (l m : LoopConn σ π) (r : Ref) : Prop :=
  ∃ d sum err, Works e.toConnEnv (l.conns r) d ∧
    d.drainWrite e.toConnEnv = some (m.conns r, sum, err) ∧ Soft err

variable {l₁ : LoopConn σ π}

theorem Drained.after (inside : Inside e l l₁ r ext) (drained : Drained e l₁ m r) :
    Drained e l m r := by
  obtain ⟨d, sum, err, works, done, soft⟩ := drained
  exact ⟨d, sum, err, inside.works.trans works, done, soft⟩

/-- Mark a connection to be closed once it is drained. -/
def mark (l : LoopConn σ π) (r : Ref) : LoopConn σ π :=
  { l with closeOnDrain := insert (l.conns r).fd l.closeOnDrain }

/-- The ways a call of `processRead` ends, after work that led from `l` to `m`. -/
inductive ReadOutcome (e : Env σ π) (l m : LoopConn σ π) (r : Ref) (ext : List Obs) :
    LoopConn σ π → Prop
  | closed (err : CloseErr) (heard : Quiet r ext ∨ Asked r ext)
      (slow : err = .CLOSE_BY_SLOW_READER →
        Drained e l m r ∧ overLimit e (m.conns r) = some err) :
      ReadOutcome e l m r ext (m.closeConn e r (some err))
  | marked (heard : Asked r ext) (waits : (m.conns r).pendingWrite > 0) :
      ReadOutcome e l m r ext ((m.mark r).updateWriteFd r)
  | waiting (heard : Quiet r ext) (drained : Drained e l m r) :
      ReadOutcome e l m r ext (m.updateWriteFd r)

theorem ReadOutcome.since (inside : Inside e l l₁ r first) (outcome : ReadOutcome e l₁ m r ext l') :
    ReadOutcome e l m r ext l' := by
  cases outcome with
  | closed err heard slow =>
    exact .closed err heard fun is => ⟨(slow is).1.after inside, (slow is).2⟩
  | marked heard waits => exact .marked heard waits
  | waiting heard drained => exact .waiting heard (drained.after inside)

theorem ReadOutcome.later (quiet : Quiet r first) (outcome : ReadOutcome e l m r ext l') :
    ReadOutcome e l m r (first ++ ext) l' := by
  cases outcome with
  | closed err heard slow =>
    refine .closed err ?_ slow
    rcases heard with silent | asked
    · exact .inl (quiet.append silent)
    · exact .inr (quiet.asked asked)
  | marked heard waits => exact .marked (quiet.asked heard) waits
  | waiting heard drained => exact .waiting (quiet.append heard) drained

/-- The ends of a round, once its packets have been handled and the connection has been flushed
with the outcome `err`. -/
inductive Responded (e : Env σ π) (m : LoopConn σ π) (r : Ref) (err : Option Err)
    (wantClose last : Bool) : LoopConn σ π → Bool → Prop
  | closed (why : CloseErr)
      (cause : ¬ Soft err ∧ why = .CLOSE_SEND_ERR ∨ wantClose = true ∧ why = .CLOSE_BY_USER_LAND ∨
        Soft err ∧ wantClose = false ∧ overLimit e (m.conns r) = some why) :
      Responded e m r err wantClose last (m.closeConn e r (some why)) false
  | marked (close : wantClose = true) (waits : (m.conns r).pendingWrite > 0) :
      Responded e m r err wantClose last ((m.mark r).updateWriteFd r) false
  | waiting (soft : Soft err) (stays : wantClose = false) (ends : last = true) :
      Responded e m r err wantClose last (m.updateWriteFd r) false
  | again (stays : wantClose = false) : Responded e m r err wantClose last m true

variable {wantClose last again : Bool}

theorem respond_ends (done : l.respond e r wantClose last = some (l', again)) :
    ∃ c sum err, (l.conns r).drainWrite e.toConnEnv = some (c, sum, err) ∧
      Responded e (l.setConn r c) r err wantClose last l' again := by
  unfold respond at done
  split at done
  · cases done
  rename_i c sum err drained
  have now : (l.setConn r c).conns r = c := setConn_self c
  refine ⟨c, sum, err, drained, ?_⟩
  dsimp only at done
  split at done
  · rename_i hard
    cases done
    exact .closed _ (.inl ⟨hard, rfl⟩)
  rename_i soft
  have fine : Soft err := Decidable.not_not.mp soft
  split at done
  · rename_i close
    split at done
    · rename_i waits
      have shape : ((l.setConn r c).mark r).updateWriteFd r = l' := by
        rw [mark, now]
        exact (Prod.mk.inj (Option.some.inj done)).1
      rw [← shape, ← (Prod.mk.inj (Option.some.inj done)).2]
      exact .marked close (now.symm ▸ waits)
    cases done
    exact .closed _ (.inr (.inl ⟨close, rfl⟩))
  rename_i stay
  have stays := Bool.eq_false_of_not_eq_true stay
  split at done
  · rename_i exceeds
    cases done
    exact .closed _ (.inr (.inr ⟨fine, stays, now.symm ▸ exceeds⟩))
  split at done
  · rename_i ends
    cases done
    exact .waiting fine stays ends
  cases done
  exact .again stays

/-- Everything a round of `processRead` can do. -/
inductive Rounded (e : Env σ π) (l : LoopConn σ π) (r : Ref) (readBytes : Int)
    (answers : List SysRead) : LoopConn σ π → Int → Bool → Prop
  | failed {m n err} (received : l.receive e r readBytes answers = some (m, n, .failed err)) :
      Rounded e l r readBytes answers (m.closeConn e r (some err)) n false
  | broken {m n inp last rx err}
      (received : l.receive e r readBytes answers = some (m, n, .got inp last))
      (parsed : Rx.parseLoop e (m.app r) (inp.len + 1) (m.rx r) inp = some (rx, .failed err)) :
      Rounded e l r readBytes answers ((m.commit r rx).closeConn e r (some err)) n false
  | answered {m l' n inp last again rx wantClose}
      (received : l.receive e r readBytes answers = some (m, n, .got inp last))
      (parsed : Rx.parseLoop e (m.app r) (inp.len + 1) (m.rx r) inp = some (rx, .done wantClose))
      (responded : (m.commit r rx).respond e r wantClose last = some (l', again)) :
      Rounded e l r readBytes answers l' n again

theorem readRound_ends (done : l.readRound e r readBytes answers = some (l', n, again)) :
    Rounded e l r readBytes answers l' n again := by
  unfold readRound roundWith at done
  split at done
  · cases done
  · rename_i received
    cases done
    exact .failed received
  rename_i received
  split at done
  · cases done
  · rename_i parsed
    cases done
    exact .broken received parsed
  rename_i parsed
  split at done
  · cases done
  rename_i responded
  cases done
  exact .answered received parsed responded

/-- The rule for a whole call: what its rounds keep as long as they ask for another one, and what
the last one makes of it. -/
theorem processRead_rule {P Q : LoopConn σ π → Prop} {answers : List (List SysRead)}
    (again : ∀ {l l' : LoopConn σ π} {readBytes n : Int} {round : List SysRead}, round ∈ answers →
      l.readRound e r readBytes round = some (l', n, true) → P l → P l')
    (ends : ∀ {l l' : LoopConn σ π} {readBytes n : Int} {round : List SysRead}, round ∈ answers →
      l.readRound e r readBytes round = some (l', n, false) → P l → Q l')
    (done : l.processRead e r answers = some l') (start : P l) : Q l' := by
  unfold processRead at done
  generalize (0 : Int) = readBytes at done
  induction answers generalizing l readBytes with
  | nil => cases done
  | cons round rest ih =>
    unfold readLoop at done
    split at done
    · cases done
    · rename_i once
      cases done
      exact ends mem_cons_self once start
    rename_i once
    exact ih (fun member => again (mem_cons_of_mem _ member))
      (fun member => ends (mem_cons_of_mem _ member)) (again mem_cons_self once start)
      _ done

/-- The end of a round, by what the handler was heard to ask. -/
theorem respond_cases (heard : if wantClose then Asked r ext else Quiet r ext)
    (done : l.respond e r wantClose last = some (l', again)) :
    ∃ m, Inside e l m r [] ∧
      (again = false ∧ ReadOutcome e l m r ext l' ∨ again = true ∧ l' = m ∧ Quiet r ext) := by
  have either : Quiet r ext ∨ Asked r ext := by
    cases wantClose with
    | true => exact .inr heard
    | false => exact .inl heard
  obtain ⟨c, sum, err, drained, ends⟩ := respond_ends done
  have flushed (soft : Soft err) : Drained e l (l.setConn r c) r :=
    ⟨l.conns r, sum, err, .refl, by rw [setConn_self]; exact drained, soft⟩
  refine ⟨_, setConn_inside (Works.refl.drain drained), ?_⟩
  cases ends with
  | closed why cause =>
    refine .inl ⟨rfl, .closed why either fun is => ?_⟩
    rcases cause with ⟨_, rfl⟩ | ⟨_, rfl⟩ | ⟨soft, _, exceeds⟩
    · cases is
    · cases is
    · exact ⟨flushed soft, exceeds⟩
  | marked close waits =>
    rw [if_pos close] at heard
    exact .inl ⟨rfl, .marked heard waits⟩
  | waiting soft stays =>
    rw [stays] at heard
    exact .inl ⟨rfl, .waiting heard (flushed soft)⟩
  | again stays =>
    rw [stays] at heard
    exact .inr ⟨rfl, rfl, heard⟩

theorem readRound_cases (done : l.readRound e r readBytes answers = some (l', n, again)) :
    ∃ m ext, Inside e l m r ext ∧
      (again = false ∧ ReadOutcome e l m r ext l' ∨ again = true ∧ l' = m ∧ Quiet r ext) := by
  cases readRound_ends done with
  | failed received =>
    obtain ⟨ext, inside, quiet, other⟩ := receive_inside received
    refine ⟨_, ext, inside, .inl ⟨rfl, .closed _ (.inl quiet) fun is => ?_⟩⟩
    exact absurd (congrArg Received.failed is) other
  | broken received parsed =>
    obtain ⟨first, inside, quiet, _⟩ := receive_inside received
    obtain ⟨second, work, heard, other⟩ := Rx.parseLoop_parsed _ _ _ _ parsed
    refine ⟨_, _, inside.trans (commit_inside work),
      .inl ⟨rfl, .closed _ ?_ fun is => absurd is other⟩⟩
    rcases heard with silent | asked
    · exact .inl (quiet.append silent)
    · exact .inr (quiet.asked asked)
  | @answered _ _ _ _ _ _ _ wantClose received parsed responded =>
    obtain ⟨first, inside, quiet, _⟩ := receive_inside received
    obtain ⟨second, work, heard⟩ := Rx.parseLoop_parsed _ _ _ _ parsed
    have whole := inside.trans (commit_inside work)
    have answer : if wantClose then Asked r (first ++ second) else Quiet r (first ++ second) := by
      cases wantClose with
      | true => exact quiet.asked heard
      | false => exact quiet.append heard
    obtain ⟨m, flush, ends⟩ := respond_cases answer responded
    have all := whole.trans flush
    rw [append_nil] at all
    exact ⟨m, _, all, ends.imp_left (And.imp_right (·.since whole))⟩

/-- Everything a completed call of `processRead` can do. -/
theorem processRead_cases {answers : List (List SysRead)}
    (done : l.processRead e r answers = some l') :
    ∃ m ext, Inside e l m r ext ∧ ReadOutcome e l m r ext l' := by
  refine processRead_rule (P := fun now => ∃ ext, Inside e l now r ext ∧ Quiet r ext)
    (Q := fun now => ∃ m ext, Inside e l m r ext ∧ ReadOutcome e l m r ext now) ?_ ?_ done
    ⟨[], .refl e l r, Quiet.nil r⟩
  · rintro l₁ l₂ _ _ _ - once ⟨first, inside, quiet⟩
    obtain ⟨m, ext, further, ⟨stop, _⟩ | ⟨_, rfl, silent⟩⟩ := readRound_cases once
    · cases stop
    · exact ⟨_, inside.trans further, quiet.append silent⟩
  rintro l₁ l₂ _ _ _ - once ⟨first, inside, quiet⟩
  obtain ⟨m, ext, further, ⟨_, outcome⟩ | ⟨go, _⟩⟩ := readRound_cases once
  · exact ⟨m, _, inside.trans further, (outcome.since inside).later quiet⟩
  · cases go

/-- Everything `processSend` can do. -/
theorem processSend_cases (done : l.processSend e r = some l') :
    ∃ c sum err, (l.conns r).drainWrite e.toConnEnv = some (c, sum, err) ∧
      Inside e l (l.setConn r c) r [] ∧
      (l' = (l.setConn r c).closeConn e r (some .CLOSE_SEND_ERR) ∧ ¬ Soft err ∨
        Soft err ∧ c.pendingWrite = 0 ∧ c.fd ∈ l.closeOnDrain ∧
          l' = (l.setConn r c).closeConn e r (some .CLOSE_BY_USER_LAND) ∨
        Soft err ∧ ¬ (c.pendingWrite = 0 ∧ c.fd ∈ l.closeOnDrain) ∧
          l' = (l.setConn r c).updateWriteFd r) := by
  unfold processSend at done
  split at done
  · cases done
  rename_i c sum err drained
  refine ⟨c, sum, err, drained, setConn_inside (Works.refl.drain drained), ?_⟩
  dsimp only at done
  split at done
  · rename_i hard
    cases done
    exact .inl ⟨rfl, hard⟩
  rename_i soft
  have fine : Soft err := Decidable.not_not.mp soft
  split at done
  · rename_i due
    cases done
    exact .inr (.inl ⟨fine, due.1, due.2, rfl⟩)
  rename_i due
  cases done
  exact .inr (.inr ⟨fine, due, rfl⟩)

variable {counted : Bool}

/-- Everything one descriptor of the flush stage can do. -/
theorem flushFd_cases (done : l.flushFd e fd = some (l', counted)) :
    l' = { l with cmdFlushSet := l.cmdFlushSet.erase fd } ∧
        (∀ r, l.connByFD e fd = some r → (l.conns r).fd = 0) ∨
      ∃ r c sum err, l.connByFD e fd = some r ∧ (l.conns r).fd ≠ 0 ∧
        (l.conns r).drainWrite e.toConnEnv = some (c, sum, err) ∧
        let m := { l with cmdFlushSet := l.cmdFlushSet.erase fd }.setConn r c
        (l' = m.closeConn e r (some .CLOSE_SEND_ERR) ∧ ¬ Soft err ∨
          (∃ why, Soft err ∧ overLimit e c = some why ∧ l' = m.closeConn e r (some why)) ∨
          Soft err ∧ overLimit e c = none ∧ l' = m.updateWriteFd r) := by
  have same : ∀ q, LoopConn.connByFD e { l with cmdFlushSet := l.cmdFlushSet.erase fd } fd = q ↔
      l.connByFD e fd = q := fun _ => Iff.rfl
  unfold flushFd at done
  dsimp only at done
  split at done
  · rename_i absent
    cases done
    refine .inl ⟨rfl, fun r found => ?_⟩
    rw [(same _).mp absent] at found
    cases found
  rename_i r found
  split at done
  · rename_i dead
    cases done
    refine .inl ⟨rfl, fun q other => ?_⟩
    rw [(same _).mp found] at other
    cases other
    exact dead
  rename_i live
  split at done
  · cases done
  rename_i c sum err drained
  refine .inr ⟨r, c, sum, err, (same _).mp found, live, drained, ?_⟩
  dsimp only
  split at done
  · rename_i hard
    cases done
    exact .inl ⟨rfl, hard⟩
  rename_i soft
  have fine : Soft err := Decidable.not_not.mp soft
  split at done
  · rename_i why exceeds
    cases done
    exact .inr (.inl ⟨why, fine, exceeds, rfl⟩)
  rename_i within
  cases done
  exact .inr (.inr ⟨fine, within, rfl⟩)

/-- Work that sends: the connection becomes `c`, and then it is closed, or its write interest
and its marks may have changed. -/
inductive Wrote (e : Env σ π) (l : LoopConn σ π) (r : Ref) (c : EngineConn π) :
    LoopConn σ π → Prop
  | closed (set : Finset Nat) (why : CloseErr) :
      Wrote e l r c (({ l with cmdFlushSet := set }.setConn r c).closeConn e r (some why))
  | kept (writeFds marks set : Finset Nat) (poll : Nat → Option Interest)
      (more : l.closeOnDrain ⊆ marks) :
      Wrote e l r c ({ l with
        writeFds := writeFds, closeOnDrain := marks, cmdFlushSet := set, poll := poll }.setConn r c)

theorem Wrote.settled (set : Finset Nat) (c : EngineConn π) :
    Wrote e l r c (({ l with cmdFlushSet := set }.setConn r c).updateWriteFd r) := by
  rw [updateWriteFd_books]
  exact .kept _ _ _ _ (Finset.Subset.refl _)

theorem respond_wrote (done : l.respond e r wantClose last = some (l', again)) :
    ∃ c sum err, (l.conns r).drainWrite e.toConnEnv = some (c, sum, err) ∧ Wrote e l r c l' := by
  obtain ⟨c, sum, err, drained, ends⟩ := respond_ends done
  refine ⟨c, sum, err, drained, ?_⟩
  cases ends with
  | closed why => exact .closed l.cmdFlushSet why
  | marked =>
    rw [updateWriteFd_books]
    exact .kept _ _ _ _ (Finset.subset_insert _ _)
  | waiting => exact .settled l.cmdFlushSet c
  | again => exact .kept _ _ _ _ (Finset.Subset.refl _)

theorem processSend_wrote (done : l.processSend e r = some l') :
    ∃ c sum err, (l.conns r).drainWrite e.toConnEnv = some (c, sum, err) ∧ Wrote e l r c l' := by
  obtain ⟨c, sum, err, drained, _, ends⟩ := processSend_cases done
  refine ⟨c, sum, err, drained, ?_⟩
  rcases ends with ⟨rfl, _⟩ | ⟨_, _, _, rfl⟩ | ⟨_, _, rfl⟩
  · exact .closed l.cmdFlushSet _
  · exact .closed l.cmdFlushSet _
  · exact .settled l.cmdFlushSet c

theorem flushFd_wrote (found : l.connByFD e fd = some r) (live : (l.conns r).fd ≠ 0)
    (done : l.flushFd e fd = some (l', counted)) :
    ∃ c sum err, (l.conns r).drainWrite e.toConnEnv = some (c, sum, err) ∧ Wrote e l r c l' := by
  rcases flushFd_cases done with ⟨_, absent⟩ | ⟨q, c, sum, err, owner, _, drained, ends⟩
  · exact absurd (absent r found) live
  cases found.symm.trans owner
  refine ⟨c, sum, err, drained, ?_⟩
  rcases ends with ⟨rfl, _⟩ | ⟨_, _, _, rfl⟩ | ⟨_, _, rfl⟩
  · exact .closed _ _
  · exact .closed _ _
  · exact .settled _ c

theorem enqueueCmd_wrote (owner : Buf) (size : Nat) :
    Wrote e l r ((l.conns r).enqueueWrite e.toConnEnv owner size)
      (l.enqueueCmd e r owner size) := by
  unfold enqueueCmd
  dsimp only
  split
  · exact .closed _ _
  · exact .kept _ _ _ _ (Finset.Subset.refl _)

end LoopConn

end Connaxis
