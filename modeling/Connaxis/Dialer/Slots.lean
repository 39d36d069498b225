import Connaxis.Dialer.Accounting

namespace Connaxis.Dialer

open List Option Runs DialerMng Tasks

/-- What a call has added to `co` so far, and to which status. -/
structure Dial.Told (d : Dial) (m : DialerMng) (moves : List (Nat × Int)) : Prop where
  fresh : d.pc.begun = false → moves = []
  holding : ∀ p, d.pc.slot = some p → moves = [(p, 1)]
  back : d.pc.begun = true → d.pc.slot = none →
    ∃ p, m.status d.para.key = some p ∧ moves = [(p, 1), (p, -1)]

theorem Dial.Told.new (para : DialParam) (max : Int) (m : DialerMng) :
    Dial.Told ⟨para, max, none, .start⟩ m [] := ⟨fun _ => rfl, nofun, nofun⟩

variable {p : Nat}

section Told

variable {m m' : DialerMng} {d d' : Dial} {moves : List (Nat × Int)}

theorem Dial.Told.later (told : d.Told m moves)
    (kept : ∀ p, m.status d.para.key = some p → m'.status d.para.key = some p) :
    d.Told m' moves :=
  ⟨told.fresh, told.holding, fun begun free =>
    (told.back begun free).imp fun p both => ⟨kept p both.1, both.2⟩⟩

/-- A call that holds a slot, and holds it after the step. -/
theorem Dial.Told.hold (told : d.Told m moves) (slot : d.pc.slot = some p)
    (begun' : d'.pc.begun = true) (slot' : d'.pc.slot = some p) : d'.Told m' moves := by
  refine ⟨fun not => ?_, fun q is => ?_, fun _ free => ?_⟩
  · rw [begun'] at not
    cases not
  · rw [slot'] at is
    cases is
    exact told.holding p slot
  rw [slot'] at free
  cases free

/-- One step more. The key is active, and the call knows its one status. -/
theorem Stepped.told (step : Stepped m d m' d') (told : d.Told m moves)
    (active : d.para.key ∉ m.inactive)
    (one : ∀ p ∈ d.pc.refs, m.status d.para.key = some p) :
    d'.Told m' (moves ++ d.pc.move.toList) := by
  have kept (p : Nat) : m.status d.para.key = some p → m'.status d.para.key = some p := step.status
  have still (void : d.pc.move = none) : moves ++ d.pc.move.toList = moves := by
    rw [void]
    exact append_nil moves
  cases step with
  | quiet _ _ pc quiet =>
    rw [still quiet.move]
    refine ⟨fun not => told.fresh ?_, fun p is => told.holding p ?_,
      fun begun free => told.back ?_ ?_⟩
    · rw [← quiet.begun active]
      exact not
    · rw [← quiet.slot]
      exact is
    · rw [← quiet.begun active]
      exact begun
    rw [← quiet.slot]
    exact free
  | finds at_ =>
    rw [still (by rw [at_]; rfl)]
    exact ⟨fun _ => told.fresh (by rw [at_]; rfl), nofun, nofun⟩
  | raises p at_ =>
    have empty := told.fresh (by rw [at_]; rfl)
    have move : d.pc.move = some (p, 1) := by rw [at_]; rfl
    rw [empty, move]
    split
    all_goals
      refine ⟨nofun, fun q is => ?_, nofun⟩
      cases is
      rfl
  | lowers p q pc at_ =>
    have mine : m.status d.para.key = some p ∧ m.status d.para.key = some q := by
      refine ⟨one p ?_, one q ?_⟩ <;>
        rcases at_ with ⟨at_, rfl, -⟩ | ⟨at_, -⟩ | ⟨at_, -⟩ <;> simp [at_, Pc.refs]
    have same : q = p := some.inj (mine.2.symm.trans mine.1)
    have slot : d.pc.slot = some p := by
      rcases at_ with ⟨at_, -, -⟩ | ⟨at_, -⟩ | ⟨at_, -⟩ <;> rw [at_] <;> rfl
    have move : d.pc.move = some (q, -1) := by
      rcases at_ with ⟨at_, -, -⟩ | ⟨at_, -⟩ | ⟨at_, -⟩ <;> rw [at_, same] <;> rfl
    have after : pc.begun = true ∧ pc.slot = none := by
      rcases at_ with ⟨-, -, rfl⟩ | ⟨-, rfl⟩ | ⟨-, rfl⟩ <;> exact ⟨rfl, rfl⟩
    rw [told.holding p slot, move, same]
    refine ⟨fun not => ?_, fun r is => ?_, fun _ _ => ⟨p, kept p mine.1, rfl⟩⟩
    · rw [after.1] at not
      cases not
    rw [after.2] at is
    cases is
  | resets _ at_ | admits _ _ at_ | opens _ _ at_ | stores _ _ _ at_ =>
    rw [still (by rw [at_]; rfl)]
    exact told.hold (by rw [at_]; rfl) rfl rfl

/-- A call that takes a slot resets `co` next if `co` has wrapped around. -/
theorem Stepped.takes (step : Stepped m d m' d') (free : d.pc.slot ≠ some p)
    (taken : d'.pc.slot = some p) : d.pc = .add p ∧ (m'.co p ≤ 0 → d'.pc = .reset p) := by
  cases step with
  | quiet _ _ pc quiet => exact absurd (quiet.slot.symm.trans taken) free
  | raises q at_ =>
    have same : q = p := by
      split at taken
      all_goals
        cases taken
        rfl
    subst same
    exact ⟨at_, fun low => if_pos low⟩
  | lowers q r pc at_ => rcases at_ with ⟨-, -, rfl⟩ | ⟨-, rfl⟩ | ⟨-, rfl⟩ <;> cases taken
  | finds => cases taken
  | resets _ at_ | admits _ _ at_ | opens _ _ at_ | stores _ _ _ at_ =>
    rw [at_] at free
    exact absurd taken free

end Told

variable {i : Nat}

namespace DialSys

variable {s s' : DialSys} {label : Label} {key : Bytes}

/-- What a step adds to a `co`: the call that makes it, the status and the difference. -/
def coMove (s : DialSys) : Label → Option (Nat × Nat × Int)
  | .dial i _ => (s.dials[i]?).bind fun d => d.pc.move.map fun move => (i, move)
  | _ => none

/-- The entries of one call. -/
def movesOf (i : Nat) (entries : List (Nat × Nat × Int)) : List (Nat × Int) :=
  (entries.filter fun entry => entry.1 = i).map fun entry => entry.2

theorem movesOf_append (i : Nat) (entries more : List (Nat × Nat × Int)) :
    movesOf i (entries ++ more) = movesOf i entries ++ movesOf i more := by
  simp only [movesOf, filter_append, map_append]

theorem coMove_apart (apart : ∀ i answer, label ≠ .dial i answer) : s.coMove label = none := by
  cases label with
  | dial i answer => exact absurd rfl (apart i answer)
  | addDialer | onClose | close | updateDialer | tick | keep => rfl

theorem movesOf_coMove {j : Nat} {answer : Answer} {d : Dial} (found : s.dials[i]? = some d) :
    movesOf j (s.coMove (.dial i answer)).toList = if i = j then d.pc.move.toList else [] := by
  simp only [coMove, found, bind_some]
  cases d.pc.move with
  | none => simp [movesOf]
  | some move => by_cases same : i = j <;> simp [movesOf, same]

/-- No call for the key has found that `co` had wrapped around. -/
def Whole (s : DialSys) (key : Bytes) : Prop :=
  ∀ d ∈ s.dials, d.para.key = key → d.pc.wrapped = false

theorem Whole.before {d d' : Dial} {m : DialerMng} (found : s.dials[i]? = some d)
    (moves : Stepped s.mng d m d')
    (whole : ({ s with mng := m, dials := s.dials.set i d' } : DialSys).Whole key) :
    s.Whole key := by
  intro t member own
  obtain ⟨j, at_⟩ := mem_iff_getElem?.mp member
  by_cases same : i = j
  · subst same
    rw [found] at at_
    cases at_
    have after := whole d' (mem_set_self found d') (by rw [moves.para.1]; exact own)
    refine Bool.eq_false_iff.mpr fun wrapped => ?_
    rw [moves.wrapped wrapped] at after
    cases after
  · exact whole t (mem_of_getElem? ((getElem?_set_ne same).trans at_)) own

/-- `co` counts the calls that hold a slot, as long as it does not wrap around, and the
entries of a call tell where it stands. -/
structure Slots (key : Bytes) (seen : List (Nat × Nat × Int)) (s : DialSys) : Prop where
  co : s.Whole key → ∀ p, s.mng.Own key p →
    s.mng.co p = s.dials.countP (Dial.slotOf p) ∧ s.dials.countP (Dial.slotOf p) < 2147483648
  fresh : ∀ i, s.dials.length ≤ i → movesOf i seen = []
  told : ∀ (i : Nat) (d : Dial), s.dials[i]? = some d → d.para.key = key →
    d.Told s.mng (movesOf i seen)

theorem Slots.boot (key : Bytes) : Slots key [] boot :=
  ⟨fun _ _ _ => ⟨rfl, Nat.zero_lt_succ _⟩, fun _ _ => rfl, nofun⟩

variable {seen : List (Nat × Nat × Int)}

/-- A call moves on, and has not found that `co` of the status had wrapped around. -/
theorem Slots.counts {d d' : Dial} {m : DialerMng} (wf : Wf s) (steadfast : Steadfast key s)
    (slots : Slots key seen s) (found : s.dials[i]? = some d) (moves : Stepped s.mng d m d')
    (whole : ({ s with mng := m, dials := s.dials.set i d' } : DialSys).Whole key)
    (alone : s.mng.Own key p) :
    m.co p = (s.dials.set i d').countP (Dial.slotOf p) ∧
      (s.dials.set i d').countP (Dial.slotOf p) < 2147483648 := by
  have inside := mem_of_getElem? found
  have knows := wf.dials d inside
  have mine (held : p ∈ d.pc.refs) : d.para.key = key := knows.own alone held
  have intact := Whole.before found moves whole
  obtain ⟨before, few⟩ := slots.co intact p alone
  have moved := countP_set found (Dial.slotOf p) d'
  have own := moves.co (r := p) knows (by rw [before]; exact int32_of_fits (by omega) (by omega))
    (fun a b at_ is => by
      have refs : a ∈ d.pc.refs ∧ b ∈ d.pc.refs := by
        rcases at_ with at_ | at_ <;> simp [at_, Pc.refs]
      have ours : d.para.key = key := by
        rcases is with rfl | rfl
        · exact mine refs.1
        · exact mine refs.2
      have one := steadfast.one d inside ours
      exact some.inj ((one b refs.2).symm.trans (one a refs.1)))
    (fun resets => by
      have not := intact d inside (mine (by simp [resets, Pc.refs]))
      rw [resets] at not
      cases not)
  have sum : s.mng.co p + (d'.slotOf p).toNat - (d.slotOf p).toNat =
      (s.dials.set i d').countP (Dial.slotOf p) := by
    omega
  rw [sum] at own
  -- the call that takes the last slot would have to reset `co`
  have few' : (s.dials.set i d').countP (Dial.slotOf p) < 2147483648 := by
    by_contra many
    have full : (s.dials.set i d').countP (Dial.slotOf p) = 2147483648 := by
      have step := Bool.toNat_le (d'.slotOf p)
      omega
    have free : d.slotOf p = false := by
      cases held : d.slotOf p with
      | false => rfl
      | true =>
        have step := Bool.toNat_le (d'.slotOf p)
        rw [held, Bool.toNat_true] at moved
        omega
    have taken : d'.slotOf p = true := by
      cases holds : d'.slotOf p with
      | true => rfl
      | false =>
        rw [free, holds] at moved
        omega
    obtain ⟨at_, resets⟩ := moves.takes (of_decide_eq_false free) (of_decide_eq_true taken)
    have wrapped := resets (by rw [own, full]; decide)
    have not := whole d' (mem_set_self found d')
      (by rw [moves.para.1]; exact mine (by simp [at_, Pc.refs]))
    rw [wrapped] at not
    cases not
  refine ⟨?_, few'⟩
  rw [own]
  exact int32_of_fits (by omega) (by omega)

theorem Slots.turn (wf : Wf s) (steadfast : Steadfast key s) (slots : Slots key seen s)
    (turn : Turn s label s') : Slots key (seen ++ (s.coMove label).toList) s' := by
  obtain ⟨co, fresh, told⟩ := slots
  -- a step that is not one of a call adds nothing to the entries
  have still (apart : ∀ i answer, label ≠ .dial i answer) :
      seen ++ (s.coMove label).toList = seen := by
    rw [coMove_apart apart]
    exact append_nil seen
  cases turn with
  | starts _ para max keeper fair apart =>
    rw [still apart]
    refine ⟨fun whole p alone => ?_, fun i out => ?_, fun i d found own => ?_⟩
    · rw [countP_start _ rfl]
      exact co (fun d member => whole d (mem_append_left _ member)) p alone
    · refine fresh i ?_
      change (s.dials ++ [_]).length ≤ i at out
      rw [length_append] at out
      exact Nat.le_of_add_right_le out
    rcases getElem?_append_one found with old | ⟨rfl, rfl⟩
    · exact told i d old own
    rw [fresh _ (Nat.le_refl _)]
    exact .new para max s.mng
  | @dials i answer d d' m found next =>
    have inside := mem_of_getElem? found
    have step := Dial.next_stepped next
    refine ⟨fun whole p alone => ?_, fun j out => ?_, fun j t at_ own => ?_⟩
    · exact Slots.counts wf steadfast ⟨co, fresh, told⟩ found step whole (alone.earlier step.grows)
    · rw [length_set] at out
      have apart : i ≠ j := by
        rintro rfl
        rw [getElem?_eq_none out] at found
        cases found
      rw [movesOf_append, movesOf_coMove found, if_neg apart, append_nil]
      exact fresh j out
    rw [movesOf_append, movesOf_coMove found]
    rcases getElem?_set found at_ with ⟨rfl, rfl⟩ | ⟨other, old⟩
    · rw [if_pos rfl]
      rw [step.para.1] at own
      refine step.told (told j d found own) ?_ ?_ <;> rw [own]
      · exact steadfast.active
      · exact steadfast.one d inside own
    rw [if_neg (Ne.symm other), append_nil]
    exact (told j t old own).later fun p => step.status
  | calls i found named there =>
    rw [still (by simp)]
    exact ⟨co, fresh, told⟩
  | closes j found next =>
    obtain ⟨-, -, -, status, -, same⟩ := Closer.next_frame next
    rw [still (by simp)]
    refine ⟨fun whole p alone => ?_, fresh, fun i d at_ own => (told i d at_ own).later ?_⟩
    · rw [(same p).2]
      exact co whole p (alone.earlier (.of_eq fun q => (same q).1))
    rw [status]
    exact fun p known => known
  | updates add other =>
    rw [still (by simp)]
    rw [updateDialer_eq]
    exact ⟨co, fresh, fun i d at_ own => (told i d at_ own).later fun p known => known⟩
  | keeps _ keeper _ apart =>
    rw [still apart]
    exact ⟨co, fresh, told⟩
  | forgets other at_ =>
    rw [still (by simp)]
    have apart : key ≠ other := fun same => steadfast.spared (same ▸ at_)
    refine ⟨co, fresh, fun i d at_ own => (told i d at_ own).later fun p known => ?_⟩
    rw [own] at known ⊢
    exact (Function.update_of_ne apart _ _).trans known

/-- The books of a key that is never deactivated. -/
theorem run_slots {labels : List Label} (steady : ∀ a ∈ labels, a ≠ .updateDialer false key)
    (done : run step boot labels = some s) :
    Wf s ∧ Steadfast key s ∧ Slots key (log step coMove boot labels) s := by
  have kept (seen : List (Nat × Nat × Int)) (s : DialSys) (a : Label) (next : DialSys)
      (taken : step s a = some next) (allowed : a ≠ .updateDialer false key)
      (before : Wf s ∧ Steadfast key s ∧ Slots key seen s) :
      Wf next ∧ Steadfast key next ∧ Slots key (seen ++ (s.coMove a).toList) next := by
    obtain ⟨wf, steadfast, slots⟩ := before
    have turn := step_turn taken
    exact ⟨wf.turn turn, steadfast.turn wf allowed turn, slots.turn wf steadfast turn⟩
  have start : Wf boot ∧ Steadfast key boot ∧ Slots key [] boot := ⟨.boot, .boot key, .boot key⟩
  exact run_log_invariant (P := fun _ a _ => a ≠ .updateDialer false key)
    (I := fun seen s => Wf s ∧ Steadfast key s ∧ Slots key seen s) kept done
    (each_of_forall (fun a member _ _ => steady a member) boot) start

end DialSys

/-- The call has returned, and its connection is open or gone. -/
def Pc.resolved : Pc → Bool
  | .ended | .opened _ _ | .kept _ _ => true
  | _ => false

/-- The call was resolved on a way that does not lower `co`. -/
def Pc.lost : Pc → Bool
  | .kept _ _ => true
  | _ => false

variable {pc : Pc}

theorem Pc.begun_of_resolved (resolved : pc.resolved = true) : pc.begun = true := by
  cases pc <;> first | rfl | cases resolved

theorem Pc.slot_of_resolved (resolved : pc.resolved = true) : pc.slot = none ↔ pc.lost = false := by
  cases pc with
  | ended | opened => exact iff_of_true rfl rfl
  | kept => exact iff_of_false nofun nofun
  | _ => cases resolved

theorem Pc.resolved_of_lost (lost : pc.lost = true) : pc.resolved = true := by
  cases pc <;> first | rfl | cases lost

theorem Pc.unwrapped (resolved : pc.resolved = true) (lost : pc.lost = false) :
    pc.wrapped = false := by
  cases pc with
  | reset => cases resolved
  | kept => cases lost
  | _ => rfl

/-- A call runs on its own, with the given answers. -/
def Dial.play (d : Dial) (m : DialerMng) : List Answer → Option (DialerMng × Dial)
  | [] => some (m, d)
  | a :: rest => match d.next m a with
    | none => none
    | some (m, d) => d.play m rest

namespace DialSys

theorem run_play {s : DialSys} {d d' : Dial} {m' : DialerMng} {answers : List Answer}
    (found : s.dials[i]? = some d) (played : d.play s.mng answers = some (m', d')) :
    run step s (answers.map (.dial i)) =
      some { s with mng := m', dials := s.dials.set i d' } := by
  induction answers generalizing s d with
  | nil =>
    have same : s.dials.set i d = s.dials := by
      obtain ⟨inside, here⟩ := List.getElem?_eq_some_iff.mp found
      rw [← here]
      exact set_getElem_self inside
    cases played
    rw [same]
    rfl
  | cons a rest ih =>
    unfold Dial.play at played
    split at played
    · cases played
    rename_i m t next
    have inside : i < s.dials.length := (List.getElem?_eq_some_iff.mp found).1
    have first : step s (.dial i a) = some { s with mng := m, dials := s.dials.set i t } := by
      simp only [step, found, next]
    rw [map_cons, run_cons _ _ _ _ first, ih (getElem?_set_self inside) played]
    simp only [set_set]

variable {s : DialSys} {key : Bytes}

/-- The number of calls for a key that are under way. -/
def inFlight (s : DialSys) (key : Bytes) : Nat :=
  s.dials.countP fun d => d.para.key = key ∧ d.pc.resolved = false

/-- The number of calls for a key that have not given their slot back and never will. -/
def lost (s : DialSys) (key : Bytes) : Nat :=
  s.dials.countP fun d => d.para.key = key ∧ d.pc.lost = true

theorem whole_of_idle (kept : s.lost key = 0) (idle : s.inFlight key = 0) : s.Whole key := by
  intro d member own
  have past := countP_eq_zero.mp idle d member
  have held := countP_eq_zero.mp kept d member
  rw [decide_eq_true_eq, not_and, Bool.not_eq_false] at past
  rw [decide_eq_true_eq, not_and, Bool.not_eq_true] at held
  exact Pc.unwrapped (past own) (held own)

/-- A new call of `addDialer` runs alone up to where it dials or gives up. -/
def attempt (s : DialSys) (para : DialParam) (max : Int) : Option Pc :=
  (run step (s.start para max) (List.replicate 4 (.dial s.dials.length .go))).bind
    fun later => (later.dials[s.dials.length]?).map Dial.pc

theorem attempt_of_play {para : DialParam} {max : Int} {m : DialerMng} {d : Dial}
    (played : Dial.play ⟨para, max, none, .start⟩ s.mng [.go, .go, .go, .go] = some (m, d)) :
    s.attempt para max = some d.pc := by
  have done := run_play (s := s.start para max) getElem?_concat_length played
  have here : ((s.start para max).dials.set s.dials.length d)[s.dials.length]? = some d :=
    getElem?_set_self (by simp [start])
  unfold attempt
  rw [show replicate 4 (Label.dial s.dials.length .go) =
    [Answer.go, .go, .go, .go].map (.dial s.dials.length) from rfl, done]
  simp only [bind_some, here, map_some]

/-- Whether the next call dials is decided by `alive` and by the slots that are taken. -/
theorem attempt_eq {para : DialParam} {max : Int} (active : para.key ∉ s.mng.inactive)
    (found : s.mng.status para.key = some p) (known : p < s.mng.heap.length)
    (least : 0 ≤ s.mng.co p) (few : s.mng.co p < 2147483647) :
    s.attempt para max = some (if s.mng.alive p ≥ s.mng.except p ∨ s.mng.co p + 1 > int32 max
      then .undo p else .bootup p) := by
  have raised := addCo_co (q := p) known 1
  rw [if_pos rfl, int32_of_fits (by omega) (by omega)] at raised
  have played : Dial.play ⟨para, max, none, .start⟩ s.mng [.go, .go, .go, .go] =
      some (s.mng.addCo p 1, ⟨para, max, none,
        if s.mng.alive p ≥ s.mng.except p ∨ s.mng.co p + 1 > int32 max then .undo p
        else .bootup p⟩) := by
    simp only [Dial.play, Dial.next, if_neg active, findStatus, found, raised]
    rw [if_neg (by omega)]
    simp only [addCo_alive, addCo_except]
    by_cases full : s.mng.alive p ≥ s.mng.except p
    · simp only [if_pos full, if_pos (Or.inl full)]
    by_cases many : s.mng.co p + 1 > int32 max
    · simp only [if_neg full, if_pos many, if_pos (Or.inr many)]
    · simp only [if_neg full, if_neg many, if_neg (not_or.mpr ⟨full, many⟩)]
  exact attempt_of_play played

/-- The calls of a key give their slots back: each one that is resolved has raised `co` once
and lowered it once, and between the calls `co` is zero and stands in the way of nobody. -/
structure GivenBack (key : Bytes) (p : Nat) (seen : List (Nat × Nat × Int)) (s : DialSys) :
    Prop where
  once : ∀ (i : Nat) (d : Dial), s.dials[i]? = some d → d.para.key = key →
    d.pc.resolved = true → movesOf i seen = [(p, 1), (p, -1)]
  idle : s.inFlight key = 0 → s.mng.co p = 0
  free : s.inFlight key = 0 → ∀ (para : DialParam) (max : Int), para.key = key →
    0 < int32 max → s.mng.alive p < s.mng.except p → s.attempt para max = some (.bootup p)

/-- Between the calls `co` is the number of lost slots. -/
theorem Slots.co_idle {seen : List (Nat × Nat × Int)} (wf : Wf s) (steadfast : Steadfast key s)
    (slots : Slots key seen s) (found : s.mng.status key = some p) (whole : s.Whole key)
    (idle : s.inFlight key = 0) : s.mng.co p = s.lost key := by
  have known := wf.named key p found
  rw [(slots.co whole p (own_of_status wf.named found)).1]
  refine congrArg Nat.cast (countP_congr fun d member => ?_)
  have past (own : d.para.key = key) : d.pc.resolved = true := by
    have void := countP_eq_zero.mp idle d member
    simpa [own] using void
  simp only [Dial.slotOf, decide_eq_true_eq]
  constructor
  · intro slot
    have held := Pc.slot_refs slot
    have own : d.para.key = key := by
      have mine := wf.dials d member p held
      exact some.inj (mine.symm.trans known)
    refine ⟨own, ?_⟩
    have lost := (Pc.slot_of_resolved (past own)).not
    rw [slot] at lost
    simpa using lost
  rintro ⟨own, lost⟩
  have held := (Pc.slot_of_resolved (past own)).not.mpr (by simp [lost])
  obtain ⟨q, slot⟩ := ne_none_iff_exists'.mp held
  rw [slot]
  exact (steadfast.one d member own q (Pc.slot_refs slot)).symm.trans found

end DialSys

open DialSys

/-- A key that is never deactivated: its slots come back if and only if no call for it has
ended on a way out that leaves `co` as it is. Every such call costs a slot for good. -/
theorem slots_given_back_iff (key : Bytes) (labels : List DialSys.Label) (s : DialSys) (p : Nat)
    (steady : ∀ a ∈ labels, a ≠ .updateDialer false key)
    (done : run DialSys.step DialSys.boot labels = some s)
    (found : s.mng.status key = some p) :
    (s.Whole key → s.inFlight key = 0 → s.mng.co p = s.lost key) ∧
    (s.GivenBack key p (log DialSys.step DialSys.coMove DialSys.boot labels) ↔
      s.lost key = 0) := by
  obtain ⟨wf, steadfast, slots⟩ := run_slots steady done
  have books := slots.co_idle wf steadfast found
  have zero (void : s.lost key = 0) (idle : s.inFlight key = 0) : s.mng.co p = 0 := by
    rw [books (whole_of_idle void idle) idle, void]
    rfl
  refine ⟨books, fun given => ?_, fun void => ⟨fun i d at_ own resolved => ?_, fun idle => ?_,
    fun idle para max own positive room => ?_⟩⟩
  · refine List.countP_eq_zero.mpr fun d member both => ?_
    obtain ⟨own, lost⟩ := of_decide_eq_true both
    have resolved := Pc.resolved_of_lost lost
    obtain ⟨i, inside, rfl⟩ := List.mem_iff_getElem.mp member
    have at_ := List.getElem?_eq_getElem inside
    obtain ⟨q, slot⟩ := Option.ne_none_iff_exists'.mp
      ((Pc.slot_of_resolved resolved).not.mpr (by simp [lost]))
    have half := (slots.told i _ at_ own).holding q slot
    rw [given.once i _ at_ own resolved] at half
    cases half
  · have kept := List.countP_eq_zero.mp void d (List.mem_of_getElem? at_)
    have free : d.pc.slot = .none :=
      (Pc.slot_of_resolved resolved).mpr (by simpa [own] using kept)
    obtain ⟨q, mine, moves⟩ := (slots.told i d at_ own).back (Pc.begun_of_resolved resolved) free
    rw [own, found] at mine
    cases mine
    exact moves
  · exact zero void idle
  subst own
  have zero := zero void idle
  have known := keyOf_lt (wf.named _ p found)
  rw [attempt_eq steadfast.active found known (by omega) (by omega), zero, if_neg (by omega)]

def somewhere : DialParam := ⟨[49], [], [107], TYPE_CONN⟩

/-- One call that ends with an open connection. -/
def openedDial : List DialSys.Label :=
  .addDialer somewhere 1 :: List.replicate 4 (.dial 0 .go) ++
    [.dial 0 (.dialed true), .dial 0 (.client 7 true), .dial 0 (.attached true)] ++
    List.replicate 5 (.dial 0 .go)

theorem slots_given_back_opened : ∃ s,
    run DialSys.step DialSys.boot openedDial = some s ∧
      s.mng.status somewhere.key = some 0 ∧
      s.GivenBack somewhere.key 0
        (log DialSys.step DialSys.coMove DialSys.boot openedDial) := by
  refine ⟨_, rfl, rfl, ?_⟩
  exact (slots_given_back_iff somewhere.key openedDial _ 0 (by decide) rfl rfl).2.mpr rfl

/-- One call whose connection the loop refuses, because its channel is full. -/
def refusedDial : List DialSys.Label :=
  .addDialer somewhere 1 :: List.replicate 4 (.dial 0 .go) ++
    [.dial 0 (.dialed true), .dial 0 (.client 7 false)]

/-- Nothing is in flight, `co` is one, and the next call gives up because of it. -/
theorem slot_lost_refused : ∃ s,
    run DialSys.step DialSys.boot refusedDial = some s ∧
      s.mng.status somewhere.key = some 0 ∧ s.inFlight somewhere.key = 0 ∧ s.mng.co 0 = 1 ∧
      s.mng.alive 0 < s.mng.except 0 ∧ s.attempt somewhere 1 = some (.undo 0) ∧
      ¬ s.GivenBack somewhere.key 0
        (log DialSys.step DialSys.coMove DialSys.boot refusedDial) := by
  refine ⟨_, rfl, rfl, rfl, rfl, by decide, rfl, fun given => ?_⟩
  have zero := given.idle rfl
  cases zero

end Connaxis.Dialer
