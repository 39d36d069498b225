import Connaxis.Timer.TimeWheel

namespace Connaxis

open MachineInt TimeWheel Function Runs Option List

/-- What a wheel is for: the tick at which each timer has to fire. -/
structure Timeline where
  ticks : Nat
  expriate : UInt64 → Int
  due : UInt64 → Option Nat

/-- No timer is added for exactly one revolution, and none is removed that was never added. -/
def TimeWheel.Below (tw : TimeWheel) : Call → Prop
  | .addTimer id => (tw.timers id).expriate ≠ tw.interval * tw.slotNum
  | .delTimer id => (tw.timers id).slot ≠ -1
  | _ => True

instance (tw : TimeWheel) : ∀ call, Decidable (tw.Below call)
  | .addTimer id => inferInstanceAs (Decidable ((tw.timers id).expriate ≠ _))
  | .delTimer id => inferInstanceAs (Decidable ((tw.timers id).slot ≠ _))
  | .refreshTimer _ | .setExpriate .. | .onTimeOut => isTrue trivial

namespace Timeline

/-- A timer is taken if its expiry is within the range. It fires once `expriate / interval` ticks
have passed, at the next one. -/
def step (interval range : Int) (line : Timeline) : Call → Timeline
  | .addTimer id =>
    if 0 ≤ line.expriate id ∧ line.expriate id ≤ range then
      { line with due := Function.update line.due id
                           (some (line.ticks + (line.expriate id / interval).toNat)) }
    else line
  | .delTimer id => { line with due := Function.update line.due id none }
  | .refreshTimer _ => line
  | .setExpriate id e => { line with expriate := Function.update line.expriate id e }
  | .onTimeOut =>
    { line with ticks := line.ticks + 1,
                due := fun id => if line.due id = some line.ticks then none else line.due id }

def after (interval slotNum : Int) (expriate : UInt64 → Int) (calls : List Call) : Timeline :=
  calls.foldl (step interval (Size.bits64.wrap (interval * slotNum))) ⟨0, expriate, fun _ => none⟩

/-- Within one revolution a slot stands for one tick. -/
theorem slot_eq_iff {slotNum ticks d : Int} (early : ticks ≤ d) (late : d < ticks + slotNum) :
    ticks % slotNum = d % slotNum ↔ d = ticks := by
  refine ⟨fun same => ?_, fun same => by rw [same]⟩
  have whole := Int.emod_eq_emod_iff_emod_sub_eq_zero.mp same.symm
  rw [Int.emod_eq_of_lt (by omega) (by omega)] at whole
  omega

/-- The wheel keeps to the timeline. -/
structure Tracks (interval slotNum : Int) (line : Timeline) (tw : TimeWheel) : Prop where
  turned : Turned interval slotNum line.ticks tw
  expriate : ∀ id, (tw.timers id).expriate = line.expriate id
  stored : ∀ id j, id ∈ tw.slots j ↔ ∃ d, line.due id = some d ∧ j = d % slotNum
  ahead : ∀ id d, line.due id = some d → line.ticks ≤ d ∧ (d : Int) < line.ticks + slotNum

variable {interval slotNum : Int} {line : Timeline} {tw tw' : TimeWheel} {id : UInt64}

theorem Tracks.new (expriate : UInt64 → Int) :
    Tracks interval slotNum ⟨0, expriate, fun _ => none⟩ (new interval slotNum expriate) :=
  ⟨new_turned expriate, fun _ => rfl, fun _ _ => ⟨nofun, nofun⟩, nofun⟩

/-- A tick takes what is due. -/
theorem Tracks.due (tracks : Tracks interval slotNum line tw)
    (turn : tw.tickSlot = line.ticks % slotNum) :
    id ∈ tw.slots tw.tickSlot ↔ line.due id = some line.ticks := by
  rw [tracks.stored, turn]
  constructor
  · rintro ⟨d, due, same⟩
    obtain ⟨early, late⟩ := tracks.ahead id d due
    rw [due, Int.natCast_inj.mp ((slot_eq_iff (by omega) late).mp same)]
  · exact fun due => ⟨line.ticks, due, rfl⟩

section

variable (tracks : Tracks interval slotNum line tw) (slotted : 0 < slotNum)
  (few : line.ticks < 2147483648)
include tracks slotted few

theorem Tracks.addTimer {ok : Bool} (turns : 0 < interval)
    (below : tw.Below (.addTimer id))
    (done : tw.addTimer id = some (tw', ok)) :
    Tracks interval slotNum (line.step interval (Size.bits64.wrap (interval * slotNum))
      (.addTimer id)) tw' := by
  have now := addTimer_turned tracks.turned done
  rcases addTimer_cases tracks.turned.placed done with ⟨_, taken, armed⟩ | ⟨_, out, rfl⟩
  · unfold Admitted at taken
    simp only [Below] at below
    rw [tracks.turned.interval, tracks.turned.slotNum] at taken below
    have target := tracks.turned.target few slotted turns taken.1
    rw [tracks.expriate] at taken below target
    have range : line.expriate id < interval * slotNum := by
      have positive := Int.mul_pos turns slotted
      by_cases fits : interval * slotNum < 9223372036854775808
      · rw [Size.wrap_of_fits ⟨by simp only [Size.limit]; omega, by simp only [Size.limit]; omega⟩]
          at taken
        omega
      have most : Size.bits64.wrap (interval * slotNum) < 9223372036854775808 :=
        Int.bmod_lt (by decide)
      omega
    have steps := Int.ediv_nonneg taken.1 (Int.le_of_lt turns)
    have fewer : line.expriate id / interval < slotNum :=
      Int.ediv_lt_of_lt_mul turns (by rw [Int.mul_comm]; exact range)
    simp only [step, if_pos taken]
    refine ⟨now, fun q => ?_, fun q j => ?_, fun q d due => ?_⟩
    · rw [armed.shape]
      by_cases own : q = id <;> simp [store, own, tracks.expriate]
    · rw [armed.stored]
      by_cases own : q = id
      · subst own
        simp [target, Int.toNat_of_nonneg steps]
      · simp [own, tracks.stored]
    by_cases own : q = id
    · subst own
      simp only [update_self, some.injEq] at due
      dsimp only
      omega
    simp only [update_of_ne own] at due
    exact tracks.ahead q d due
  unfold Admitted at out
  rw [tracks.turned.interval, tracks.turned.slotNum, tracks.expriate] at out
  simp only [step, if_neg out]
  exact tracks

theorem Tracks.onTimeOut (fits : slotNum ≤ 2147483648) (done : tw.step .onTimeOut = some tw')
    (range : Int) : Tracks interval slotNum (line.step interval range .onTimeOut) tw' := by
  have now := step_turned tracks.turned done
  obtain ⟨_, turn⟩ := tracks.turned.tickSlot few slotted fits
  simp only [TimeWheel.step, TimeWheel.onTimeOut] at done
  split at done
  · cases done
    refine ⟨now, tracks.expriate, fun q j => ?_, fun q d due => ?_⟩
    · simp only [step]
      by_cases here : j = tw.tickSlot
      · subst here
        have taken : q ∈ tw.slots tw.tickSlot ↔ line.due q = some line.ticks :=
          tracks.due turn
        rw [tracks.stored] at taken
        simp only [update_self, Finset.notMem_empty, false_iff]
        rintro ⟨d, due, same⟩
        split at due
        · cases due
        rename_i later
        exact later (taken.mp ⟨d, due, same⟩)
      rw [update_of_ne here, tracks.stored]
      split
      · rename_i due
        simp [due, turn ▸ here]
      · rfl
    simp only [step] at due
    split at due
    · cases due
    rename_i later
    obtain ⟨early, late⟩ := tracks.ahead q d due
    have other : d ≠ line.ticks := fun same => later (same ▸ due)
    simp only [step]
    omega
  · cases done

end

theorem run_tracks {calls : List Call} (tracks : Tracks interval slotNum line tw)
    (turns : 0 < interval) (slotted : 0 < slotNum) (fits : slotNum ≤ 2147483648)
    (few : line.ticks + ticksOf calls < 2147483648) (plain : ∀ id, .refreshTimer id ∉ calls)
    (below : Asks TimeWheel.step Below tw calls) :
    (∃ tw', run TimeWheel.step tw calls = some tw' ∧ Tracks interval slotNum
        (calls.foldl (step interval (Size.bits64.wrap (interval * slotNum))) line) tw') ∧
      (calls.foldl (step interval (Size.bits64.wrap (interval * slotNum))) line).ticks <
        2147483648 := by
  induction calls generalizing tw line with
  | nil => exact ⟨⟨tw, rfl, tracks⟩, few⟩
  | cons call calls ih =>
    obtain ⟨here, later⟩ := below
    simp only [ticksOf, map_cons, sum_cons] at few ih
    obtain ⟨next, taken⟩ := step_total tracks.turned (by omega) slotted turns fits call
      fun id same => by subst same; exact here
    rw [run_cons _ _ _ _ taken]
    have goes (tracks' : Tracks interval slotNum
        (line.step interval (Size.bits64.wrap (interval * slotNum)) call) next)
        (ticks : (line.step interval (Size.bits64.wrap (interval * slotNum)) call).ticks =
          line.ticks + call.ticks) :=
      ih tracks' (by omega) (fun id member => plain id (mem_cons_of_mem _ member))
        (later next taken)
    have now := step_turned tracks.turned taken
    cases call with
    | addTimer id =>
      obtain ⟨⟨_, ok⟩, added, rfl⟩ := map_eq_some_iff.mp taken
      refine goes (tracks.addTimer slotted (by omega) turns here added) ?_
      simp only [step]
      split <;> rfl
    | delTimer id =>
      simp only [TimeWheel.step, delTimer, ite_none_right_eq_some,
        some.injEq] at taken
      obtain ⟨_, rfl⟩ := taken
      refine goes ⟨now, tracks.expriate, fun q j => ?_, fun q d due => ?_⟩ rfl
      · rw [mem_delete tracks.turned.placed, tracks.stored]
        by_cases own : q = id <;> simp [step, own]
      by_cases own : q = id
      · simp [step, own] at due
      simp only [step, update_of_ne own] at due
      exact tracks.ahead q d due
    | refreshTimer id => exact absurd mem_cons_self (plain id)
    | setExpriate id e =>
      cases taken
      refine goes ⟨now, fun q => ?_, tracks.stored, tracks.ahead⟩ rfl
      by_cases own : q = id <;> simp [step, setExpriate, own, tracks.expriate]
    | onTimeOut =>
      exact goes (tracks.onTimeOut slotted (by omega) fits taken _) rfl

end Timeline

namespace TimeWheel

/-- A run of `AddTimer`, `DelTimer` and `OnTimeOut` in which no timer is added for exactly one
revolution and none is removed that was never added. It does not panic, the wheel stores the
timers that are pending, each in the slot that it remembers, and the next tick fires those that
are due. -/
theorem fires_on_time (interval slotNum : Int) (expriate : UInt64 → Int) (calls : List Call)
    (line : Timeline) (turns : 0 < interval) (slotted : 0 < slotNum)
    (fits : slotNum ≤ 2147483648) (few : ticksOf calls < 2147483648)
    (plain : ∀ id, .refreshTimer id ∉ calls)
    (below : Asks step Below (new interval slotNum expriate) calls)
    (meant : line = Timeline.after interval slotNum expriate calls) :
    ∃ tw, run step (new interval slotNum expriate) calls = some tw ∧
      (∀ id j, id ∈ tw.slots j ↔ line.due id ≠ none ∧ j = (tw.timers id).slot) ∧
      ∃ tw' fired, tw.onTimeOut = some (tw', fired) ∧
        ∀ id, id ∈ fired ↔ line.due id = some line.ticks := by
  obtain ⟨⟨tw, done, tracks⟩, few⟩ := Timeline.run_tracks (.new expriate) turns slotted fits
    (by simpa using few) plain below
  change Timeline.Tracks interval slotNum (Timeline.after interval slotNum expriate calls) tw
    at tracks
  change (Timeline.after interval slotNum expriate calls).ticks < 2147483648 at few
  rw [← meant] at tracks few
  have slot {id : UInt64} {d : Nat} (due : line.due id = some d) :
      (tw.timers id).slot = d % slotNum :=
    (tracks.turned.placed id _ ((tracks.stored id _).mpr ⟨d, due, rfl⟩)).1
  refine ⟨tw, done, fun id j => ?_, ?_⟩
  · rw [tracks.stored]
    constructor
    · rintro ⟨d, due, rfl⟩
      exact ⟨by simp [due], (slot due).symm⟩
    rintro ⟨pending, rfl⟩
    obtain ⟨d, due⟩ := ne_none_iff_exists'.mp pending
    exact ⟨d, due, slot due⟩
  obtain ⟨modulus, turn⟩ := tracks.turned.tickSlot few slotted fits
  refine ⟨_, tw.slots tw.tickSlot, if_pos ⟨modulus, ?_⟩, fun id => tracks.due turn⟩
  rw [turn, Slot, tracks.turned.slotNum]
  exact ⟨Int.emod_nonneg _ (by omega), Int.emod_lt_of_pos _ slotted⟩

/-- Two ticks after it was added with an expiry of two intervals the timer is due. -/
theorem fires_on_time_third : ∃ tw tw' fired,
    run step (new 1 4 fun _ => 2) [.addTimer 7, .onTimeOut, .onTimeOut] = some tw ∧
      tw.onTimeOut = some (tw', fired) ∧ 7 ∈ fired := by
  obtain ⟨tw, done, _, tw', fired, fires, due⟩ := fires_on_time 1 4 (fun _ => 2)
    [.addTimer 7, .onTimeOut, .onTimeOut] _ (by decide) (by decide) (by decide) (by decide)
    (by simp) (by decide) rfl
  exact ⟨tw, tw', fired, done, fires, (due 7).mpr rfl⟩

/-- An expiry of a whole revolution is accepted, and the timer fires at the first tick. -/
theorem full_revolution_fires_at_once : ∃ tw tw' fired,
    (new 1 2 fun _ => 2).addTimer 7 = some (tw, true) ∧ tw.onTimeOut = some (tw', fired) ∧
      7 ∈ fired :=
  ⟨_, _, _, rfl, rfl, by decide⟩

end TimeWheel

end Connaxis
