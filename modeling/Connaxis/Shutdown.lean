import Connaxis.Books

namespace Connaxis

open LoopConn List Option Runs

variable {σ π : Type} {e : Env σ π}

namespace LoopConn

variable {l l' m : LoopConn σ π} {r : Ref}

/-- Closing the connections of some slots empties these slots and fills none. -/
theorem closeSlots_table (fds : List Nat) (sound : Sound e m) {fd : Nat}
    (filled : (fds.foldl (fun l fd =>
      match l.connByFD e fd with
      | some r => l.closeConn e r none
      | none => l) m).fdTable fd ≠ none) : m.fdTable fd ≠ none ∧ fd ∉ fds := by
  induction fds generalizing m with
  | nil => exact ⟨filled, fun member => (nomatch member)⟩
  | cons first rest ih =>
    rw [foldl_cons] at filled
    cases found : m.connByFD e first with
    | none =>
      rw [found] at filled
      obtain ⟨before, later⟩ := ih sound filled
      refine ⟨before, fun member => ?_⟩
      rcases mem_cons.mp member with rfl | inside
      · obtain ⟨q, slot⟩ := ne_none_iff_exists'.mp before
        obtain ⟨rfl, live, _⟩ := sound.slot fd q slot
        rw [sound.found ⟨live, slot⟩] at found
        cases found
      · exact later inside
    | some q =>
      rw [found] at filled
      obtain ⟨attached, same⟩ := sound.attached found
      have act := Act.close (e := e) q none attached
      obtain ⟨before, later⟩ := ih (act.sound sound) filled
      have effect := closeConn_effect sound attached none
      have cleared : (m.closeConn e q none).fdTable first = none := by
        rcases effect.outcome with gone | stays
        · rw [← same]
          exact gone.slot
        · exact absurd (closeConn_fd none) (stays.attached attached).1
      have other : fd ≠ first := fun clash => before (clash ▸ cleared)
      rw [← same] at other
      rw [effect.table fd other] at before
      rw [same] at other
      refine ⟨before, fun member => ?_⟩
      rcases mem_cons.mp member with clash | inside
      · exact other clash
      · exact later inside

/-- Nothing of this loop is left in the table after `shutdown`. -/
theorem shutdown_table (sound : Sound e l) (fd : Nat) : (l.shutdown e).fdTable fd = none := by
  cases slot : (l.shutdown e).fdTable fd with
  | none => rfl
  | some q =>
    have acts : Acts e (fun _ _ => True) l (l.shutdown e) :=
      shutdown_acts sound fun _ _ => trivial
    have after := (acts.keeps (I := fun _ => True) sound trivial fun _ _ _ _ _ _ _ => trivial).1
    have small := (after.slot fd q slot).2.2.1
    have filled : (l.shutdown e).fdTable fd ≠ none := by
      rw [slot]
      exact nofun
    exact absurd (mem_range.mpr small) (closeSlots_table _ sound filled).2

/-- A connection that was let in leaves the table only by being closed. -/
theorem Act.attached_or_closed {op : Op π} (sound : Sound e l) (act : Act e l op l')
    (attached : Attached l r) : Attached l' r ∨ (l'.conns r).fd = 0 := by
  by_cases own : op.subject = some r
  · cases act.ended sound attached own with
    | kept worked => exact .inl ((worked.attached r).mpr attached)
    | closed err worked => exact .inr (closeConn_fd err)
  · exact .inl ((act.attached_iff sound own).mpr attached)

theorem Act.stays_closed {op : Op π} (sound : Sound e l) (act : Act e l op l')
    (made : r < l.nconns) (dead : (l.conns r).fd = 0) : (l'.conns r).fd = 0 := by
  by_cases live : (l'.conns r).fd = 0
  · exact live
  rw [(act.kept sound made).fd live]
  exact dead

end LoopConn

/-- What a step means for one connection: `AddClient` returns nil for it, or it is closed. -/
inductive Deed
  | handed
  | closed
deriving DecidableEq, Repr

namespace Sys

variable {s s' : Sys σ π} {a : Label π}

/-- The connection that `AddClient` puts on the channel in this step. -/
def hands (e : Env σ π) (s : Sys σ π) : Label π → Option Ref
  | .push p => match s.producers p with
    | .pushClient c => if s.acceptChan.length < e.chanSize then some c else none
    | _ => none
  | _ => none

def deed (e : Env σ π) (r : Ref) (s : Sys σ π) (a : Label π) : Option Deed :=
  if s.hands e a = some r then some .handed
  else match s.step e a with
    | none => none
    | some s' =>
      if r < s.loop.nconns ∧ (s.loop.conns r).fd ≠ 0 ∧ (s'.loop.conns r).fd = 0 then
        some .closed
      else none

/-- Connections join the channel at its end and leave it in front. -/
theorem step_acceptChan (done : s.step e a = some s') :
    s'.acceptChan = s.acceptChan ++ (s.hands e a).toList ∨
      ∃ registered answers, a = .attach registered answers ∧
        s.acceptChan.head?.toList ++ s'.acceptChan = s.acceptChan := by
  have same (kept : s'.acceptChan = s.acceptChan) (void : s.hands e a = none) :
      s'.acceptChan = s.acceptChan ++ (s.hands e a).toList := by
    rw [kept, void]
    exact (append_nil _).symm
  cases step_moves done with
  | pushDial at_ | pushCmd at_ | refuse at_ => exact .inl (same rfl (by simp only [hands, at_]))
  | pushClient at_ room =>
    apply Or.inl
    simp only [hands, at_, if_pos room, toList_some]
    rfl
  | refuseClient at_ full => exact .inl (same rfl (by simp only [hands, at_, if_neg full]))
  | accepted _ _ round => cases round <;> exact .inl (same rfl rfl)
  | attach _ queue =>
    refine .inr ⟨_, _, rfl, ?_⟩
    rw [queue]
    rfl
  | _ => exact .inl (same rfl rfl)

/-- The loop wakes up to the stop event. -/
def halts (s : Sys σ π) : Label π → Bool
  | .wake => s.stopping
  | _ => false

/-- The loop stops in `shutdown`, and afterwards only others take steps. -/
theorem step_stopped (done : s.step e a = some s') (stopped : s'.pc = .stopped) :
    s.pc = .stopped ∧ (∀ r, ¬ Admits s a r) ∨
      s.halts a = true ∧ s'.acceptChan = s.acceptChan ∧ s'.loop = s.loop.shutdown e := by
  cases step_moves done with
  | shutdown _ asked => exact .inr ⟨asked, rfl, rfl⟩
  | failed at_ | ignored at_ => exact absurd (at_.symm.trans stopped) nofun
  | accepted _ _ round =>
    cases round with
    | passed _ _ _ goes | attached _ _ _ _ _ _ _ _ goes => exact absurd stopped goes
  | recv | send | checkCmd | checkDial | checkAccept | checkFlush =>
    split at stopped <;> cases stopped
  | issue | join | pushDial | pushCmd | refuse | pushClient | refuseClient | pass | raise | signal
  | syncTime | halt | haltTrigger => exact .inl ⟨stopped, fun _ => id⟩
  | _ => cases stopped

/-- Once the loop has stopped, its slots are empty for good. -/
def Cleared (s : Sys σ π) : Prop := s.pc = .stopped → ∀ fd, s.loop.fdTable fd = none

theorem step_cleared (wf : Wf e s) (done : s.step e a = some s') (cleared : s.Cleared) :
    s'.Cleared := by
  intro stopped
  rcases step_stopped done stopped with ⟨before, nobody⟩ | ⟨-, -, halted⟩
  · refine ((step_turn wf done).acts.keeps (I := fun m => ∀ fd, m.fdTable fd = none) wf.sound
      (cleared before) fun m op m' sound serves act empty fd => ?_).2
    cases slot : m'.fdTable fd with
    | none => rfl
    | some q =>
      rcases act.slot sound slot with there | rfl
      · rw [empty] at there
        cases there
      · exact absurd serves (nobody q)
  intro fd
  rw [halted]
  exact shutdown_table wf.sound fd

/-- The stop event is handled with an empty channel, and nothing is handed over after it. -/
def Heeds (e : Env σ π) (s : Sys σ π) (a : Label π) : Prop :=
  (s.halts a = true → s.acceptChan = []) ∧ (s.pc = .stopped → s.hands e a = none)

instance (s : Sys σ π) (a : Label π) : Decidable (Heeds e s a) :=
  inferInstanceAs (Decidable (_ ∧ _))

/-- A loop that stops, or has stopped, takes nothing off the channel. -/
theorem step_left (done : s.step e a = some s') (stops : s.halts a = true ∨ s.pc = .stopped) :
    s'.pc = .stopped ∧ s'.acceptChan = s.acceptChan ++ (s.hands e a).toList := by
  have stopped : s'.pc = .stopped := by
    rcases stops with halts | stopped
    · cases a with
      | wake =>
        dsimp only [step, stepWith] at done
        split at done
        · rw [if_pos (by exact halts)] at done
          cases done
          rfl
        · cases done
      | _ => cases halts
    cases step_moves done with
    | issue | join | pushDial | pushCmd | refuse | pushClient | refuseClient | pass | raise
    | signal | syncTime | halt | haltTrigger => exact stopped
    | shutdown => rfl
    | _ at_ => cases stopped.symm.trans at_
  refine ⟨stopped, (step_acceptChan done).resolve_right ?_⟩
  rintro ⟨registered, answers, rfl, -⟩
  obtain ⟨_, _, _, _, _, _, _, rfl⟩ := step_attach done
  cases stopped

theorem step_heeds (done : s.step e a = some s') (heeds : Heeds e s a)
    (empty : s.pc = .stopped → s.acceptChan = []) (stopped : s'.pc = .stopped) :
    s'.acceptChan = [] := by
  rcases step_stopped done stopped with ⟨before, -⟩ | ⟨halts, same, -⟩
  · rw [(step_left done (.inr before)).2, empty before, heeds.2 before]
    rfl
  · rw [same, heeds.1 halts]

/-- What is in the channel of a loop that has stopped stays there. -/
theorem run_left {labels : List (Label π)} (stopped : s.pc = .stopped)
    (done : run (step e) s labels = some s') : s.acceptChan <+: s'.acceptChan := by
  refine (run_invariant_all (I := fun t => t.pc = .stopped ∧ s.acceptChan <+: t.acceptChan)
    (fun t a t' taken now => ?_) done ⟨stopped, prefix_rfl⟩).2
  obtain ⟨still, joined⟩ := step_left taken (.inr now.1)
  rw [joined]
  exact ⟨still, now.2.trans (prefix_append _ _)⟩

theorem heeds_of_empty {labels : List (Label π)} (done : run (step e) s labels = some s')
    (empty : s'.acceptChan = []) : Each (step e) (fun s a _ => Heeds e s a) s labels := by
  induction labels generalizing s with
  | nil => trivial
  | cons a rest ih =>
    intro next taken
    rw [run_cons _ _ _ _ taken] at done
    have nothing (stops : s.halts a = true ∨ s.pc = .stopped) :
        s.acceptChan = [] ∧ (s.hands e a).toList = [] := by
      obtain ⟨stopped, joined⟩ := step_left taken stops
      have left := run_left stopped done
      rw [empty, prefix_nil, joined] at left
      exact append_eq_nil_iff.mp left
    refine ⟨⟨fun halts => (nothing (.inl halts)).1, fun stopped => ?_⟩, ih done⟩
    exact toList_eq_nil_iff.mp (nothing (.inr stopped)).2

/-- The fate of a connection, given what has happened to it: from the moment it is handed
over it is in the channel, attached or closed, and its closing is in its history once. -/
structure Fate (e : Env σ π) (r : Ref) (seen : List Deed) (s : Sys σ π) : Prop where
  wf : Wf e s
  made : .handed ∈ seen → r < s.loop.nconns
  place : .handed ∈ seen → r ∈ s.acceptChan ∨ Attached s.loop r ∨ (s.loop.conns r).fd = 0
  once : .handed ∈ seen → seen.count .closed = if (s.loop.conns r).fd = 0 then 1 else 0
  live : s.loop.nconns ≤ r ∨ (s.loop.conns r).fd ≠ 0 → .closed ∉ seen
  queued : r ∈ s.acceptChan → .handed ∈ seen

/-- A connection taken off the channel is attached or closed in the same step. -/
theorem attachClient_place {l l' : LoopConn σ π} {r : Ref} {registered : Bool}
    {answers : List (List SysRead)} (sound : Sound e l) (fresh : Fresh l r)
    (done : l.attachClient e r registered answers = some l') :
    Attached l' r ∨ (l'.conns r).fd = 0 := by
  obtain ⟨_, now, unknown, free⟩ :=
    closePrev_acts (P := fun _ _ => True) sound fresh fun _ _ => trivial
  cases attachClient_cases done now unknown free with
  | dropped =>
    apply Or.inr
    rw [setConn_self]
    rfl
  | closed act gone => exact .inr gone
  | kept act attached =>
    have track := Act.track (e := e) r attached
    exact .inl ((track.attached_iff (act.sound now) nofun).mpr attached)

/-- A connection that is in the table or closed stays one of the two. -/
theorem step_settled {r : Ref} (wf : Wf e s) (done : s.step e a = some s')
    (made : r < s.loop.nconns) (there : Attached s.loop r ∨ (s.loop.conns r).fd = 0) :
    Attached s'.loop r ∨ (s'.loop.conns r).fd = 0 := by
  refine (step_keeps (P := fun m => Attached m r ∨ (m.conns r).fd = 0) wf done made there ?_).2
  rintro m op m' sound known _ act (attached | zero)
  · exact act.attached_or_closed sound attached
  · exact .inr (act.stays_closed sound known zero)

/-- A step that hands over a connection puts it on the channel, and does nothing else. -/
theorem hands_push {r : Ref} (done : s.step e a = some s') (hand : s.hands e a = some r) :
    ∃ p, s.producers p = .pushClient r ∧ s'.acceptChan = s.acceptChan ++ [r] ∧
      s'.loop = s.loop := by
  cases a with
  | push p =>
    dsimp only [hands] at hand
    cases step_moves done with
    | pushClient at_ room =>
      simp only [at_, if_pos room] at hand
      cases hand
      exact ⟨p, at_, rfl, rfl⟩
    | refuseClient at_ full =>
      simp only [at_, if_neg full] at hand
      cases hand
    | pushDial at_ | pushCmd at_ | refuse at_ =>
      simp only [at_] at hand
      cases hand
  | _ => cases hand

namespace Fate

variable {r : Ref} {seen : List Deed} (fate : Fate e r seen s) (done : s.step e a = some s')
include fate done

theorem handed (hand : s.hands e a = some r) : Fate e r (seen ++ [.handed]) s' := by
  obtain ⟨p, at_, queue, same⟩ := hands_push done hand
  obtain ⟨fresh, _⟩ := fate.wf.joining p r at_
  have unclosed := fate.live (.inr fresh.live)
  refine ⟨(step_turn fate.wf done).wf, fun _ => same ▸ fresh.made, fun _ => .inl ?_,
    fun _ => ?_, fun _ => ?_, fun _ => mem_append_right _ mem_cons_self⟩
  · rw [queue]
    exact mem_append_right _ mem_cons_self
  · rw [count_append, count_eq_zero_of_not_mem unclosed, same, if_neg fresh.live]
    rfl
  intro member
  rcases mem_append.mp member with early | late
  · exact unclosed early
  · cases mem_singleton.mp late

theorem place_step (held : .handed ∈ seen) :
    r ∈ s'.acceptChan ∨ Attached s'.loop r ∨ (s'.loop.conns r).fd = 0 := by
  rcases fate.place held with waits | there
  · rcases step_acceptChan done with joined | ⟨registered, answers, rfl, left⟩
    · rw [joined]
      exact .inl (mem_append_left _ waits)
    obtain ⟨c, rest, n, l, queue, _, attach, rfl⟩ := step_attach done
    rw [queue] at waits
    rcases mem_cons.mp waits with rfl | later
    · have fresh := fate.wf.queued r (queue ▸ mem_cons_self)
      exact .inr (attachClient_place fate.wf.sound fresh attach)
    · exact .inl later
  · exact .inr (step_settled fate.wf done (fate.made held) there)

theorem queued_step (hand : s.hands e a ≠ some r) (inside : r ∈ s'.acceptChan) :
    .handed ∈ seen := by
  apply fate.queued
  rcases step_acceptChan done with joined | ⟨registered, answers, _, left⟩
  · rw [joined] at inside
    rcases mem_append.mp inside with before | new
    · exact before
    · exact absurd (mem_toList.mp new) hand
  rw [← left]
  exact mem_append_right _ inside

theorem closed (hand : s.hands e a ≠ some r) (made : r < s.loop.nconns)
    (live : (s.loop.conns r).fd ≠ 0) (zero : (s'.loop.conns r).fd = 0) :
    Fate e r (seen ++ [.closed]) s' := by
  have grown := (step_names fate.wf done made).1
  refine ⟨(step_turn fate.wf done).wf, fun _ => grown, fun member => ?_, fun _ => ?_,
    fun open' => ?_, fun inside => mem_append_left _ (fate.queued_step done hand inside)⟩
  · exact fate.place_step done (by simpa using member)
  · rw [count_append, count_eq_zero_of_not_mem (fate.live (.inr live)), if_pos zero]
    rfl
  rcases open' with unmade | alive
  · exact absurd grown (Nat.not_lt.mpr unmade)
  · exact absurd zero alive

theorem unchanged (hand : s.hands e a ≠ some r)
    (same : r < s.loop.nconns → (s.loop.conns r).fd ≠ 0 → (s'.loop.conns r).fd ≠ 0) :
    Fate e r seen s' := by
  have grown (made : r < s.loop.nconns) := (step_names fate.wf done made).1
  have dead (made : r < s.loop.nconns) (zero : (s.loop.conns r).fd = 0) :
      (s'.loop.conns r).fd = 0 := by
    by_contra live
    exact live (((step_names fate.wf done made).2.2 live).trans zero)
  refine ⟨(step_turn fate.wf done).wf, fun held => grown (fate.made held), fate.place_step done,
    fun held => ?_, fun open' => ?_, fate.queued_step done hand⟩
  · rw [fate.once held]
    by_cases zero : (s.loop.conns r).fd = 0
    · rw [if_pos zero, if_pos (dead (fate.made held) zero)]
    · rw [if_neg zero, if_neg (same (fate.made held) zero)]
  apply fate.live
  by_cases made : r < s.loop.nconns
  · refine .inr fun zero => ?_
    rcases open' with unmade | alive
    · exact absurd (grown made) (Nat.not_lt.mpr unmade)
    · exact alive (dead made zero)
  · exact .inl (Nat.not_lt.mp made)

end Fate

theorem step_fate {r : Ref} {seen : List Deed} (done : s.step e a = some s')
    (fate : Fate e r seen s) : Fate e r (seen ++ (s.deed e r a).toList) s' := by
  by_cases hand : s.hands e a = some r
  · rw [deed, if_pos hand]
    exact fate.handed done hand
  rw [deed, if_neg hand, done]
  dsimp only
  by_cases shut : r < s.loop.nconns ∧ (s.loop.conns r).fd ≠ 0 ∧ (s'.loop.conns r).fd = 0
  · rw [if_pos shut]
    exact fate.closed done hand shut.1 shut.2.1 shut.2.2
  rw [if_neg shut, toList_none, append_nil]
  exact fate.unchanged done hand fun made live zero => shut ⟨made, live, zero⟩

end Sys

/-- What happened to a connection in a run, in order. -/
def history (e : Env σ π) (idx : Nat) (hs : σ) (shared : Bytes) (labels : List (Label π))
    (r : Ref) : List Deed :=
  log (Sys.step e) (Sys.deed e r) (Sys.boot idx hs shared) labels

/-- When the loop has stopped, the connections it was given have been closed, each of them
once, and none is left in the channel or in the table, exactly if the stop event came to an
empty channel and nothing was handed over after it. -/
theorem shutdown_closes_all (e : Env σ π) (idx : Nat) (hs : σ) (shared : Bytes)
    (labels : List (Label π)) (s : Sys σ π)
    (done : Sys.Reached e idx hs shared labels s)
    (stopped : s.pc = .stopped) :
    (∀ r, .handed ∈ history e idx hs shared labels r →
      (history e idx hs shared labels r).count .closed = 1 ∧ (s.loop.conns r).fd = 0 ∧
        r ∉ s.acceptChan ∧ ∀ fd, s.loop.fdTable fd ≠ some r) ↔
      Each (Sys.step e) (fun s a _ => Sys.Heeds e s a) (Sys.boot idx hs shared) labels := by
  have fates (r : Ref) : Sys.Fate e r (history e idx hs shared labels r) s := by
    have start : Sys.Fate e r [] (Sys.boot idx hs shared) :=
      ⟨Sys.boot_wf idx hs shared, fun held => (nomatch held), fun held => (nomatch held),
        fun held => (nomatch held), fun _ closed => (nomatch closed),
        fun queued => (nomatch queued)⟩
    exact run_log_invariant (P := fun _ _ _ => True) (I := Sys.Fate e r)
      (fun seen s a next step _ fate => Sys.step_fate step fate) done
      (each_of_forall (fun _ _ _ _ => trivial) _) start
  have cleared := (run_invariant_all (I := fun s => Sys.Wf e s ∧ s.Cleared)
    (fun s a s' step now => ⟨(Sys.step_turn now.1 step).wf, Sys.step_cleared now.1 step now.2⟩)
    done ⟨Sys.boot_wf idx hs shared, fun never => (nomatch never)⟩).2 stopped
  constructor
  · intro all
    refine Sys.heeds_of_empty done (List.eq_nil_iff_forall_not_mem.mpr fun c member => ?_)
    exact (all c ((fates c).queued member)).2.2.1 member
  intro heeds r held
  have empty : s.acceptChan = [] :=
    run_invariant (I := fun s => s.pc = .stopped → s.acceptChan = [])
      (fun _ _ _ => Sys.step_heeds) done heeds nofun stopped
  have dead : (s.loop.conns r).fd = 0 := by
    rcases (fates r).place held with waits | attached | dead
    · rw [empty] at waits
      cases waits
    · have slot := attached.2
      rw [cleared] at slot
      cases slot
    · exact dead
  refine ⟨?_, dead, ?_, fun fd slot => ?_⟩
  · rw [(fates r).once held, if_pos dead]
  · rw [empty]
    exact fun member => (nomatch member)
  rw [cleared] at slot
  cases slot

/-- `AddClient`, from its call to its return, and the loop lets the connection in. -/
def admitted : List (Label Unit) :=
  [.join 0 5 1 false ⟨[], fun _ => .full, 0⟩ none, .push 0, .cas 0, .trigger 0, .wake,
    .attach true []] ++ List.replicate 9 .tau

/-- `Stop`, and the loop handles its event. -/
def halting : List (Label Unit) := [.halt, .haltTrigger, .wake]

theorem shutdown_closes_all_admitted :
    ∃ s, run (Sys.step Env.watchful) (Sys.boot 0 () [0, 0, 0, 0]) (admitted ++ halting) =
        some s ∧ s.pc = .stopped ∧
      .handed ∈ history Env.watchful 0 () [0, 0, 0, 0] (admitted ++ halting) 0 ∧
      (history Env.watchful 0 () [0, 0, 0, 0] (admitted ++ halting) 0).count .closed = 1 ∧
      0 ∉ s.acceptChan := by
  obtain ⟨s, ran, stopped⟩ : ∃ s,
      run (Sys.step Env.watchful) (Sys.boot 0 () [0, 0, 0, 0]) (admitted ++ halting) = some s ∧
      s.pc = .stopped := computed
  have given : .handed ∈ history Env.watchful 0 () [0, 0, 0, 0] (admitted ++ halting) 0 := by
    decide
  obtain ⟨once, _, out, _⟩ := (shutdown_closes_all Env.watchful 0 () _ _ s ran stopped).mpr
    (by decide) 0 given
  exact ⟨s, ran, stopped, given, once, out⟩

/-- The stop event comes before the loop has looked at its channel: the connection stays
there, open, and nobody will ever close it. -/
theorem shutdown_forgets_channel :
    ∃ s, run (Sys.step Env.watchful) (Sys.boot 0 () [0, 0, 0, 0])
        ([.join 0 5 1 false ⟨[], fun _ => .full, 0⟩ none, .push 0, .cas 0, .trigger 0] ++
          halting) = some s ∧
      s.pc = .stopped ∧ s.acceptChan = [0] ∧ (s.loop.conns 0).fd = 5 ∧
      history Env.watchful 0 () [0, 0, 0, 0]
        ([.join 0 5 1 false ⟨[], fun _ => .full, 0⟩ none, .push 0, .cas 0, .trigger 0] ++
          halting) 0 = [.handed] := by
  obtain ⟨s, ran, stopped, queue, live⟩ : ∃ s,
      run (Sys.step Env.watchful) (Sys.boot 0 () [0, 0, 0, 0])
        ([.join 0 5 1 false ⟨[], fun _ => .full, 0⟩ none, .push 0, .cas 0, .trigger 0] ++ halting) =
        some s ∧ s.pc = .stopped ∧ s.acceptChan = [0] ∧ (s.loop.conns 0).fd = 5 := computed
  exact ⟨s, ran, stopped, queue, live, by decide⟩

end Connaxis
