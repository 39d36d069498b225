import Connaxis.IdleList

namespace Connaxis

open LoopConn List Runs Function

variable {σ π : Type} {e : Env σ π}

/-- Operations that neither let time pass nor admit a connection. -/
def Op.Ordinary : Op π → Prop
  | .age | .attach _ | .drop _ | .track _ => False
  | _ => True

namespace LoopConn

variable {l l' m : LoopConn σ π} {r : Ref} {timed : Prop}

section

variable (checks : e.checkInterval > 0) (limits : e.idleLimit > 0)
include checks limits

theorem Act.watched {op : Op π} (sound : Sound e l) (distinct : Distinct l')
    (act : Act e l op l') (ordinary : op.Ordinary) (watched : Watched timed l fun _ => False) :
    Watched timed l' fun _ => False := by
  have unique := act.distinct_of sound distinct
  have served {r : Ref} (attached : Attached l r) (own : op.subject = some r) :=
    (act.ended sound attached own).watched checks limits sound unique attached watched
  cases act with
  | tidy same =>
    rw [same]
    exact watched.of_same rfl rfl (fun _ => le_refl _) (fun _ _ => rfl) watched.listed
      fun _ present server asked => ⟨present, server, asked⟩
  | make fd id client sock tls live =>
    have old {q : Ref} (made : q < l.nconns) :=
      addConn_other (l := l) (EngineConn.new fd id client sock tls) made
    have made {q : Ref} (attached : Attached l q) := (sound.slot _ q attached.2).2.2.2.2
    refine watched.of_same rfl rfl (fun _ => le_refl _) ?_ ?_ ?_
    · intro item member
      exact congrArg EngineConn.id (old (made (watched.listed item member).1))
    · intro item member
      rw [Attached, old (made (watched.listed item member).1)]
      exact watched.listed item member
    intro q present server asked
    have known : q < l.nconns := (sound.slot _ q present.2).2.2.2.2
    rw [Attached, old known] at present
    rw [old known] at server
    exact ⟨present, server, asked⟩
  | age | track | attach | drop => exact ordinary.elim
  | close _ _ attached | send _ attached | read _ _ attached | flush _ _ attached
  | enqueue _ _ _ attached => exact served attached rfl

/-- `onIdle` takes a connection out of the book before it closes it. The close finds
nothing left to take out, and the outcome is that of the close alone. -/
theorem closeConn_expired {elem : Nat} {rest : List (Nat × Ref)} (err : Option CloseErr)
    (linked : IdleBook.Linked l.ids l.elems l.idleBook)
    (front : l.checkList = (elem, r) :: rest) (live : (l.conns r).fd ≠ 0) :
    closeConn e { l with
      checkList := rest
      touchMap := update l.touchMap (l.conns r).id none } r err =
      l.closeConn e r err := by
  obtain ⟨next, shape⟩ : ∃ next : LoopConn σ π, next = { l with
      checkList := rest
      touchMap := update l.touchMap (l.conns r).id none } := ⟨_, rfl⟩
  have books :
      (next.untrack e (l.conns r).id).idleBook = (l.untrack e (l.conns r).id).idleBook := by
    have book : next.idleBook = (rest, update l.touchMap (l.conns r).id none) := by
      rw [shape]
      rfl
    rw [untrack_idleBook checks limits, untrack_idleBook checks limits]
    refine Eq.trans ?_ (linked.forget_head front).symm
    rw [book, IdleBook.forget]
    simp only [update_self]
    rfl
  obtain ⟨list, map⟩ := Prod.mk.inj books
  rw [← shape, closeConn_open err live, closeConn_open err (by rw [shape]; exact live)]
  rw [shape] at list map ⊢
  rw [list, map]

/-- What a scan of the idle list leaves behind. -/
structure Scanned (timed : Prop) (e : Env σ π) (l l' : LoopConn σ π) : Prop where
  watched : Watched timed l' fun _ => False
  line : l'.line = Aging.expire e.idleLimit l.nowSec l.line
  clock : l'.nowSec = l.nowSec
  gone : ∀ q, Attached l q → ¬ Attached l' q →
    ∃ time, (q, time) ∈ l.line ∧ l.nowSec - time > e.idleLimit

omit checks limits in
theorem Scanned.refl (watched : Watched timed l fun _ => False)
    (fresh : l.line = Aging.expire e.idleLimit l.nowSec l.line) : Scanned timed e l l :=
  ⟨watched, fresh, rfl, fun _ present absent => absurd present absent⟩

omit checks limits in
theorem Scanned.of_empty (watched : Watched timed l fun _ => False) (void : l.checkList = []) :
    Scanned timed e l l := by
  refine .refl watched ?_
  rw [LoopConn.line, IdleBook.line, show l.idleBook.1 = [] from void]
  rfl

omit checks limits in
theorem line_front {elem : Nat} {rest : List (Nat × Ref)}
    (front : l.checkList = (elem, r) :: rest) :
    ∃ tail, l.line = (r, IdleBook.stamp l.ids l.idleBook r) :: tail ∧
      tail.length = rest.length := by
  refine ⟨rest.map fun item => (item.2, IdleBook.stamp l.ids l.idleBook item.2), ?_, length_map _⟩
  rw [line, IdleBook.line, show l.idleBook.1 = _ from front, map_cons]

theorem idleLoop_scanned (rounds : Nat) (enough : l.checkList.length ≤ rounds)
    (sound : Sound e l) (distinct : Distinct l) (watched : Watched timed l fun _ => False) :
    Scanned timed e l (l.idleLoop e rounds) := by
  -- Every round closes the front of the line, until it is fresh or the line is empty.
  induction rounds generalizing l with
  | zero => exact .of_empty watched (eq_nil_of_length_eq_zero (Nat.le_zero.mp enough))
  | succ rounds ih =>
    cases front : l.checkList with
    | nil =>
      unfold idleLoop
      simp only [front]
      exact .of_empty watched front
    | cons first rest =>
      obtain ⟨elem, r⟩ := first
      have member : (elem, r) ∈ l.checkList := front ▸ mem_cons_self
      have found : l.touchMap (l.conns r).id = some _ := watched.linked.found member
      obtain ⟨tail, shape, size⟩ := line_front front
      have attached := (watched.listed _ member).1
      unfold idleLoop
      simp only [front, found]
      split
      · rename_i expired
        rw [closeConn_expired checks limits _ watched.linked front attached.1]
        have act := Act.close (e := e) r (some .CLOSE_BY_ANTI_IDLE) attached
        obtain ⟨still, shorter⟩ := (Worked.refl e l r).closed_watched checks limits sound
          distinct attached (some .CLOSE_BY_ANTI_IDLE) watched
        have effect := closeConn_effect sound attached (some .CLOSE_BY_ANTI_IDLE)
        have clock : (l.closeConn e r (some .CLOSE_BY_ANTI_IDLE)).nowSec = l.nowSec := by
          rw [closeConn_open _ attached.1]
        have once := watched.linked.once
        rw [← line, shape, map_cons, nodup_cons] at once
        rw [shape, Aging.remove_head once.1] at shorter
        have next := act.sound sound
        have unique := distinct.of_eq effect.ids effect.nconns
        generalize l.closeConn e r (some .CLOSE_BY_ANTI_IDLE) = closed at *
        have fewer : closed.checkList.length ≤ rounds := by
          have := congrArg length shorter
          rw [line, IdleBook.line, length_map, size] at this
          rw [front, length_cons] at enough
          change closed.checkList.length = _ at this
          omega
        obtain ⟨final, left, late, gone⟩ := ih fewer next unique still
        refine ⟨final, ?_, late.trans clock, fun q present absent => ?_⟩
        · rw [left, shorter, clock, shape, Aging.expire_old expired]
        rw [shape]
        by_cases same : q = r
        · rw [same]
          exact ⟨_, mem_cons_self, expired⟩
        obtain ⟨time, there, old⟩ :=
          gone q ((effect.attached_iff attached same).mpr present) absent
        rw [shorter] at there
        rw [clock] at old
        exact ⟨time, mem_cons_of_mem _ there, old⟩
      rename_i fresh
      refine .refl watched ?_
      rw [shape, Aging.expire_fresh fresh]

theorem onIdle_scanned (sound : Sound e l) (distinct : Distinct l)
    (watched : Watched timed l fun _ => False) (before : l.lastCheck ≠ 0)
    (due : l.nowSec - l.lastCheck ≥ e.checkInterval) : Scanned timed e l (l.onIdle e) := by
  unfold onIdle
  rw [if_neg before, if_pos ⟨checks, due⟩]
  rw [if_pos limits]
  have noted : Act e l .age { l with lastCheck := l.nowSec } :=
    .age l.nowSec l.nowSec l.checkList l.touchMap (fun _ member => member) fun _ _ found => found
  have scanned := idleLoop_scanned checks limits (l := { l with lastCheck := l.nowSec })
    l.checkList.length (le_refl _) (noted.sound sound) distinct
    ⟨watched.linked, watched.ordered, watched.listed, watched.complete⟩
  exact ⟨scanned.watched, scanned.line, scanned.clock, scanned.gone⟩

theorem onIdle_watched (sound : Sound e l) (distinct : Distinct l)
    (watched : Watched timed l fun _ => False) : Watched timed (l.onIdle e) fun _ => False := by
  by_cases first : l.lastCheck = 0
  · unfold onIdle
    rw [if_pos first]
    exact ⟨watched.linked, watched.ordered, watched.listed, watched.complete⟩
  by_cases due : l.nowSec - l.lastCheck ≥ e.checkInterval
  · exact (onIdle_scanned checks limits sound distinct watched first due).watched
  unfold onIdle
  rw [if_neg first, if_neg fun both => due both.2]
  exact watched

end

end LoopConn

namespace Sys

variable {s s' : Sys σ π} {a : Label π} {timed : Prop}

/-- `SyncTime` does not turn the clock back. -/
def forward (s : Sys σ π) : Label π → Bool
  | .syncTime sec => decide (s.loop.nowSec ≤ sec)
  | _ => true

/-- Every step keeps the idle book, as long as ids are unique. -/
theorem step_watched (checks : e.checkInterval > 0) (limits : e.idleLimit > 0) (wf : Wf e s)
    (done : s.step e a = some s') (clock : timed → s.forward a = true) (distinct : Distinct s'.loop)
    (watched : Watched timed s.loop fun _ => False) : Watched timed s'.loop fun _ => False := by
  have acts := (step_turn wf done).acts
  have unique := acts.distinct_of wf.sound distinct
  have ordinary (all : ∀ m op, Serves e s a m op → op.Ordinary) :
      Watched timed s'.loop fun _ => False := by
    refine (acts.keeps (I := fun m => Distinct m → Watched timed m fun _ => False) wf.sound
      (fun _ => watched) fun m op m' sound serves act before later => ?_).2 distinct
    exact act.watched checks limits sound later (all m op serves)
      (before (act.distinct_of sound later))
  cases a with
  | idle =>
    cases step_moves done
    exact onIdle_watched checks limits wf.sound unique watched
  | syncTime sec =>
    cases done
    exact watched.of_same rfl rfl (fun sure => of_decide_eq_true (clock sure)) (fun _ _ => rfl)
      watched.listed
      fun _ present server asked => ⟨present, server, asked⟩
  | accepted outcome =>
    cases step_moves done with
    | accepted _ _ round =>
      cases round with
      | passed => exact ⟨watched.linked, watched.ordered, watched.listed, watched.complete⟩
      | attached fd gen sock registered seq id pc free _ live attach =>
        obtain ⟨books, fresh⟩ := wf.newcomer_fresh seq id sock live
        have counted : Act e s.loop .tidy { s.loop with seq := seq } := .tidy rfl
        have made : Act e { s.loop with seq := seq } _ (s.newcomer seq fd id sock) :=
          .make fd id false sock none live
        have known : Distinct (s.newcomer seq fd id sock) :=
          (attachClient_acts (P := fun _ _ => True) books fresh attach
            (fun _ _ => trivial) (fun _ => trivial) (fun _ => trivial)
            fun _ => trivial).distinct_of books distinct
        refine attachClient_watched checks limits books fresh distinct attach ?_
        exact made.watched checks limits (counted.sound wf.sound) known trivial
          ⟨watched.linked, watched.ordered, watched.listed, watched.complete⟩
  | attach registered answers =>
    obtain ⟨c, rest, n, l, queue, _, attach, rfl⟩ := step_attach done
    have member : c ∈ s.acceptChan := queue ▸ mem_cons_self
    exact attachClient_watched checks limits wf.sound (wf.queued c member) distinct attach watched
  | _ =>
    refine ordinary fun m op serves => ?_
    cases op with
    | age => rcases serves with never | ⟨sec, never⟩ <;> cases never
    | track | attach | drop => exact serves
    | _ => trivial

end Sys

theorem run_watched (timed : Prop) {idx : Nat} {hs : σ} {shared : Bytes}
    {labels : List (Label π)} {s : Sys σ π}
    (checks : e.checkInterval > 0) (limits : e.idleLimit > 0)
    (done : Sys.Reached e idx hs shared labels s)
    (clock : Each (Sys.step e) (fun s a _ => timed → s.forward a = true)
      (Sys.boot idx hs shared) labels) :
    Sys.Wf e s ∧ (Distinct s.loop → Watched timed s.loop fun _ => False) := by
  refine run_invariant (I := fun s => Sys.Wf e s ∧
    (Distinct s.loop → Watched timed s.loop fun _ => False)) (fun s a s' step guard now => ?_)
    done clock ⟨Sys.boot_wf idx hs shared, fun _ => ?_⟩
  · obtain ⟨wf, watched⟩ := now
    have turn := Sys.step_turn wf step
    exact ⟨turn.wf, fun distinct => Sys.step_watched checks limits wf step guard distinct
      (watched (turn.acts.distinct_of wf.sound distinct))⟩
  refine ⟨⟨nodup_nil, ?_, ?_, ?_⟩, fun _ => ⟨nodup_nil, List.Pairwise.nil, ?_⟩, ?_, ?_⟩
  · exact forall_mem_nil _
  · exact forall_mem_nil _
  · exact fun _ _ found => (nomatch found)
  · exact forall_mem_nil _
  · exact forall_mem_nil _
  · exact fun _ attached => (nomatch attached.2)

/-- An entry of the line is an element of the list and its entry in the map. -/
theorem LoopConn.Watched.entry_of_line {timed : Prop} {l : LoopConn σ π} {but : Ref → Prop}
    {q : Ref} {time : Int} (watched : Watched timed l but) (there : (q, time) ∈ l.line) :
    ∃ elem, (elem, q) ∈ l.checkList ∧ l.touchMap (l.conns q).id = some ⟨time, elem⟩ := by
  obtain ⟨item, member, same⟩ := mem_map.mp there
  obtain ⟨rfl, rfl⟩ := Prod.mk.inj same
  exact ⟨item.1, member, watched.linked.found member⟩

/-- The idle list holds the attached connections that are not clients, once each, the
longest silent first, and the map leads to their elements. So a scan that stops at the
first fresh connection leaves nobody behind who has been silent for too long, and closes
nobody else. -/
theorem idle_tracking (e : Env σ π) (checks : e.checkInterval > 0) (limits : e.idleLimit > 0)
    (idx : Nat) (hs : σ) (shared : Bytes) (labels : List (Label π)) (s : Sys σ π)
    (done : Sys.Reached e idx hs shared labels s)
    (clock : Each (Sys.step e) (fun s a _ => s.forward a = true)
      (Sys.boot idx hs shared) labels)
    (unique : Distinct s.loop) :
    (s.loop.checkList.map Prod.snd).Nodup ∧
      (∀ r, r ∈ s.loop.checkList.map Prod.snd ↔
        Attached s.loop r ∧ (s.loop.conns r).client = false) ∧
      (s.loop.checkList.map Prod.fst).Nodup ∧
      (∀ item ∈ s.loop.checkList, ∃ touch,
        s.loop.touchMap (s.loop.conns item.2).id = some ⟨touch, item.1⟩) ∧
      (∀ id checker, s.loop.touchMap id = some checker →
        ∃ r, (checker.elem, r) ∈ s.loop.checkList ∧ (s.loop.conns r).id = id) ∧
      (s.loop.line.map Prod.snd).Pairwise (· ≤ ·) ∧
      ∀ s', s.step e .idle = some s' → s.loop.lastCheck ≠ 0 →
        s.loop.nowSec - s.loop.lastCheck ≥ e.checkInterval →
        (∀ r, Attached s'.loop r → (s'.loop.conns r).client = false →
          ∃ checker, s'.loop.touchMap (s'.loop.conns r).id = some checker ∧
            s'.loop.nowSec - checker.touch ≤ e.idleLimit) ∧
        ∀ r, Attached s.loop r → ¬ Attached s'.loop r →
          ∃ checker, s.loop.touchMap (s.loop.conns r).id = some checker ∧
            s.loop.nowSec - checker.touch > e.idleLimit := by
  obtain ⟨wf, held⟩ := run_watched True checks limits done
    (clock.imp fun _ _ _ forward _ => forward)
  have watched := held unique
  have ordered := watched.ordered trivial
  refine ⟨?_, fun r => ⟨?_, ?_⟩, watched.linked.numbered, watched.linked.entry,
    watched.linked.item, ordered.sorted, fun s' step before due => ?_⟩
  · have once := ordered.once
    rw [line, IdleBook.line_refs] at once
    exact once
  · intro member
    obtain ⟨item, there, rfl⟩ := List.mem_map.mp member
    exact watched.listed item there
  · rintro ⟨attached, server⟩
    obtain ⟨elem, there⟩ := watched.complete r attached server not_false
    exact List.mem_map_of_mem there
  have scanned : Scanned True e s.loop s'.loop := by
    dsimp only [Sys.step, Sys.stepWith] at step
    split at step <;> cases step
    exact onIdle_scanned checks limits wf.sound unique watched before due
  refine ⟨fun r attached server => ?_, fun r attached gone => ?_⟩
  · obtain ⟨elem, there⟩ := scanned.watched.complete r attached server not_false
    have entry := List.mem_map_of_mem
      (f := fun item => (item.2, IdleBook.stamp s'.loop.ids s'.loop.idleBook item.2)) there
    have fresh : (r, IdleBook.stamp s'.loop.ids s'.loop.idleBook r) ∈
        Aging.expire e.idleLimit s.loop.nowSec s.loop.line := by
      rw [← scanned.line]
      exact entry
    rw [ordered.expire_eq] at fresh
    refine ⟨_, scanned.watched.linked.found there, ?_⟩
    rw [scanned.clock]
    exact of_decide_eq_true (List.mem_filter.mp fresh).2
  obtain ⟨time, there, old⟩ := scanned.gone r attached gone
  obtain ⟨elem, _, found⟩ := watched.entry_of_line there
  exact ⟨_, found, old⟩

/-- Idle connections are closed after two seconds. -/
def Env.watchful : Env Unit Unit :=
  { Env.plain (fun b => (b, false)) 64 with checkInterval := 1, idleLimit := 2 }

/-- One connection before the clock is first set, one after it, and two seconds later. -/
def twoClients : List (Label Unit) :=
  arrival 5 (fun _ => .full) ++ [.syncTime 10, .idle] ++ List.replicate 9 .tau ++
    arrival 6 (fun _ => .full) ++ [.syncTime 12]

theorem idle_tracking_two_clients :
    ∃ s s', run (Sys.step Env.watchful) (Sys.boot 0 () [0, 0, 0, 0]) twoClients = some s ∧
      s.step Env.watchful .idle = some s' ∧ Attached s.loop 0 ∧ ¬ Attached s'.loop 0 ∧
      (∃ checker, s.loop.touchMap (s.loop.conns 0).id = some checker ∧
        s.loop.nowSec - checker.touch > 2) ∧
      Attached s'.loop 1 ∧
      ∃ checker, s'.loop.touchMap (s'.loop.conns 1).id = some checker ∧
        s'.loop.nowSec - checker.touch ≤ 2 := by
  obtain ⟨s, ran, steps, unique, attached, before, due, after⟩ : ∃ s,
      run (Sys.step Env.watchful) (Sys.boot 0 () [0, 0, 0, 0]) twoClients = some s ∧
      (s.step Env.watchful .idle).isSome = true ∧ Distinct s.loop ∧ Attached s.loop 0 ∧
      s.loop.lastCheck ≠ 0 ∧ s.loop.nowSec - s.loop.lastCheck ≥ 1 ∧
      ∀ s' ∈ s.step Env.watchful .idle, ¬ Attached s'.loop 0 ∧ Attached s'.loop 1 ∧
      (s'.loop.conns 1).client = false := computed
  obtain ⟨s', step⟩ := Option.isSome_iff_exists.mp steps
  obtain ⟨gone, kept, server⟩ := after s' step
  have tracking := idle_tracking Env.watchful (by decide) (by decide) 0 () _ _ s ran (by decide)
    unique
  obtain ⟨fresh, old⟩ := tracking.2.2.2.2.2.2 s' step before due
  exact ⟨s, s', ran, step, attached, gone, old 0 attached gone, kept, fresh 1 kept server⟩

end Connaxis
