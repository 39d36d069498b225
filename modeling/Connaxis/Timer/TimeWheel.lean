import Connaxis.Lib.MachineInt
import Connaxis.Lib.Runs
import Mathlib.Data.Finset.Basic

namespace Connaxis

open MachineInt List Runs Function

/-- What an `ITimer` answers to `GetExpriate` and `GetSlot`. -/
structure Timer where
  expriate : Int
  slot : Int
deriving DecidableEq

/-- The wheel, with the timers by their ids. A container is the set of the ids in it;
`currentPos` is an `int32`. -/
structure TimeWheel where
  interval : Int
  slotNum : Int
  currentPos : Int
  slots : Int → Finset UInt64
  timers : UInt64 → Timer

namespace TimeWheel

/-- A new wheel, and timers that were never added. -/
def new (interval slotNum : Int) (expriate : UInt64 → Int) : TimeWheel :=
  ⟨interval, slotNum, 0, fun _ => ∅, fun id => ⟨expriate id, -1⟩⟩

variable (tw : TimeWheel) (id : UInt64)

/-- An index into `slots`. Any other one panics. -/
def Slot (i : Int) : Prop := 0 ≤ i ∧ i < tw.slotNum

instance (i : Int) : Decidable (tw.Slot i) := inferInstanceAs (Decidable (0 ≤ i ∧ i < tw.slotNum))

/-- The slot a tick empties: `pos % int32(slotNum)`. -/
def tickSlot : Int := tw.currentPos.tmod (Size.bits32.wrap tw.slotNum)

/-- The timers whose callbacks are started. -/
def onTimeOut : Option (TimeWheel × Finset UInt64) :=
  if Size.bits32.wrap tw.slotNum ≠ 0 ∧ tw.Slot tw.tickSlot then
    some ({ tw with slots := update tw.slots tw.tickSlot ∅,
                    currentPos := Size.bits32.wrap (tw.currentPos + 1) }, tw.slots tw.tickSlot)
  else none

/-- The slot `expriate/interval` behind the current position. -/
def target : Int :=
  (tw.currentPos.tmod tw.slotNum + (tw.timers id).expriate.tdiv tw.interval).tmod tw.slotNum

/-- Remove the timer from a container. -/
def delete (i : Int) : TimeWheel :=
  { tw with slots := update tw.slots i ((tw.slots i).erase id) }

/-- Neither negative nor beyond the wheel's range, which is an `int64`. -/
def Admitted : Prop :=
  0 ≤ (tw.timers id).expriate ∧
    (tw.timers id).expriate ≤ Size.bits64.wrap (tw.interval * tw.slotNum)

instance : Decidable (tw.Admitted id) := inferInstanceAs (Decidable (_ ∧ _))

/-- Put the timer into a container, and `SetSlot`. -/
def store (i : Int) : TimeWheel :=
  { tw with slots := update tw.slots i (insert id (tw.slots i)),
            timers := update tw.timers id { tw.timers id with slot := i } }

def addTimer : Option (TimeWheel × Bool) :=
  let t := tw.timers id
  if t.expriate < 0 then some (tw, false)
  else if t.expriate > Size.bits64.wrap (tw.interval * tw.slotNum) then some (tw, false)
  else
    let tw := if tw.Slot t.slot then tw.delete id t.slot else tw
    if tw.Slot (tw.target id) then some (tw.store id (tw.target id), true) else none

def delTimer : Option TimeWheel :=
  if tw.Slot (tw.timers id).slot then some (tw.delete id (tw.timers id).slot) else none

def refreshTimer : Option (TimeWheel × Bool) :=
  if (tw.timers id).slot = -1 then (tw.addTimer id).map fun added => (added.1, true)
  else if tw.target id ≠ (tw.timers id).slot then
    (tw.delTimer id).bind fun tw => (tw.addTimer id).map fun added => (added.1, true)
  else some (tw, true)

def setExpriate (e : Int) : TimeWheel :=
  { tw with timers := update tw.timers id { tw.timers id with expriate := e } }

inductive Call
  | addTimer (id : UInt64)
  | delTimer (id : UInt64)
  | refreshTimer (id : UInt64)
  | setExpriate (id : UInt64) (e : Int)
  | onTimeOut
deriving DecidableEq

def step : Call → Option TimeWheel
  | .addTimer id => (tw.addTimer id).map Prod.fst
  | .delTimer id => tw.delTimer id
  | .refreshTimer id => (tw.refreshTimer id).map Prod.fst
  | .setExpriate id e => some (tw.setExpriate id e)
  | .onTimeOut => tw.onTimeOut.map Prod.fst

/-- A timer is at most in the container of the slot that it remembers. -/
def Placed : Prop := ∀ id j, id ∈ tw.slots j → (tw.timers id).slot = j ∧ tw.Slot j

variable {tw id} {tw' : TimeWheel}

/-- What `AddTimer` does with a timer that it accepts. -/
structure Armed (tw : TimeWheel) (id : UInt64) (tw' : TimeWheel) : Prop where
  slot : tw.Slot (tw.target id)
  shape : tw' = { tw.store id (tw.target id) with slots := tw'.slots }
  stored : ∀ q j, q ∈ tw'.slots j ↔ if q = id then j = tw.target id else q ∈ tw.slots j

/-- The container that a timer remembers is the only one it has to be removed from. -/
theorem mem_delete (placed : tw.Placed) (q : UInt64) (j : Int) :
    q ∈ (tw.delete id (tw.timers id).slot).slots j ↔ q ≠ id ∧ q ∈ tw.slots j := by
  simp only [delete, update_apply]
  split
  · rename_i same
    rw [same, Finset.mem_erase]
  rename_i other
  refine ⟨fun stored => ⟨?_, stored⟩, And.right⟩
  rintro rfl
  exact other (placed q j stored).1.symm

theorem addTimer_cases {ok : Bool} (placed : tw.Placed)
    (done : tw.addTimer id = some (tw', ok)) :
    ok = true ∧ tw.Admitted id ∧ Armed tw id tw' ∨ ok = false ∧ ¬ tw.Admitted id ∧ tw' = tw := by
  unfold addTimer at done
  unfold Admitted
  dsimp only at done
  split at done
  · cases done
    exact .inr ⟨rfl, by omega, rfl⟩
  split at done
  · cases done
    exact .inr ⟨rfl, by omega, rfl⟩
  obtain ⟨removed, same, gone⟩ : ∃ removed,
      (if tw.Slot (tw.timers id).slot then tw.delete id (tw.timers id).slot else tw) =
        { tw with slots := removed } ∧ ∀ q j, q ∈ removed j ↔ q ≠ id ∧ q ∈ tw.slots j := by
    split
    · exact ⟨_, rfl, mem_delete placed⟩
    rename_i outside
    refine ⟨_, rfl, fun q j => ⟨fun stored => ⟨?_, stored⟩, And.right⟩⟩
    rintro rfl
    exact outside ((placed q j stored).1 ▸ (placed q j stored).2)
  rw [same] at done
  split at done
  · rename_i inside
    cases done
    refine .inl ⟨rfl, by omega, inside, rfl, fun q j => ?_⟩
    simp only [store, update_apply, target]
    split
    · by_cases own : q = id <;> simp_all
    · by_cases own : q = id <;> simp_all
  · cases done

/-- A timer is added again, or left where it is believed to be. -/
theorem refreshTimer_cases {ok : Bool} (done : tw.refreshTimer id = some (tw', ok)) :
    ok = true ∧ ((tw.timers id).slot = tw.target id ∧ tw' = tw ∨
      ∃ mid added, mid.addTimer id = some (tw', added) ∧ ((tw.timers id).slot = -1 ∧ mid = tw ∨
        (tw.timers id).slot ≠ tw.target id ∧ mid = tw.delete id (tw.timers id).slot)) := by
  unfold refreshTimer delTimer at done
  split at done
  · rename_i never
    obtain ⟨⟨_, added⟩, stored, same⟩ := Option.map_eq_some_iff.mp done
    cases same
    exact ⟨rfl, .inr ⟨tw, added, stored, .inl ⟨never, rfl⟩⟩⟩
  split at done
  · rename_i other
    obtain ⟨mid, removed, done⟩ := Option.bind_eq_some_iff.mp done
    obtain ⟨⟨_, added⟩, stored, same⟩ := Option.map_eq_some_iff.mp done
    simp only [Option.ite_none_right_eq_some, Option.some.injEq] at removed
    cases same
    exact ⟨rfl, .inr ⟨mid, added, stored, .inr ⟨fun same => other same.symm, removed.2.symm⟩⟩⟩
  rename_i same
  cases done
  exact ⟨rfl, .inl ⟨(Decidable.not_not.mp same).symm, rfl⟩⟩

/-- After `ticks` calls of `OnTimeOut`, whatever was called between them. -/
structure Turned (interval slotNum : Int) (ticks : Nat) (tw : TimeWheel) : Prop where
  interval : tw.interval = interval
  slotNum : tw.slotNum = slotNum
  pos : tw.currentPos = Size.bits32.wrap ticks
  placed : tw.Placed
  remembered : ∀ id, (tw.timers id).slot = -1 ∨ tw.Slot (tw.timers id).slot

def Call.ticks : Call → Nat
  | .onTimeOut => 1
  | _ => 0

variable {interval slotNum : Int} {ticks : Nat}

theorem Armed.turned (armed : Armed tw id tw') (now : Turned interval slotNum ticks tw) :
    Turned interval slotNum ticks tw' := by
  have slots := armed.stored
  have inside := armed.slot
  rw [armed.shape]
  refine ⟨now.interval, now.slotNum, now.pos, fun q j stored => ?_, fun q => ?_⟩
  · rw [slots] at stored
    by_cases own : q = id
    · simp_all [store, Slot]
    · simpa [store, own, Slot] using now.placed q j (by simpa [own] using stored)
  by_cases own : q = id
  · simp_all [store, Slot]
  · simpa [store, own, Slot] using now.remembered q

section

variable (now : Turned interval slotNum ticks tw)
include now

theorem Turned.delete : Turned interval slotNum ticks (tw.delete id (tw.timers id).slot) := by
  refine ⟨now.interval, now.slotNum, now.pos, fun q j stored => ?_, now.remembered⟩
  rw [mem_delete now.placed] at stored
  exact now.placed q j stored.2

theorem addTimer_turned {ok : Bool} (done : tw.addTimer id = some (tw', ok)) :
    Turned interval slotNum ticks tw' := by
  rcases addTimer_cases now.placed done with ⟨_, _, armed⟩ | ⟨_, _, rfl⟩
  · exact armed.turned now
  · exact now

theorem step_turned {call : Call} (done : tw.step call = some tw') :
    Turned interval slotNum (ticks + call.ticks) tw' := by
  cases call with
  | addTimer id =>
    obtain ⟨⟨_, ok⟩, added, rfl⟩ := Option.map_eq_some_iff.mp done
    exact addTimer_turned now added
  | delTimer id =>
    simp only [step, delTimer, Option.ite_none_right_eq_some, Option.some.injEq] at done
    rw [← done.2]
    exact now.delete
  | refreshTimer id =>
    obtain ⟨⟨_, ok⟩, refreshed, rfl⟩ := Option.map_eq_some_iff.mp done
    obtain ⟨_, ⟨_, rfl⟩ | ⟨mid, added, stored, ⟨_, rfl⟩ | ⟨_, rfl⟩⟩⟩ :=
      refreshTimer_cases refreshed
    · exact now
    · exact addTimer_turned now stored
    · exact addTimer_turned now.delete stored
  | setExpriate id e =>
    cases done
    have slot (q : UInt64) : ((tw.setExpriate id e).timers q).slot = (tw.timers q).slot := by
      by_cases own : q = id <;> simp [setExpriate, own]
    exact ⟨now.interval, now.slotNum, now.pos, fun q j stored => slot q ▸ now.placed q j stored,
      fun q => slot q ▸ now.remembered q⟩
  | onTimeOut =>
    simp only [step, onTimeOut] at done
    split at done
    · cases done
      refine ⟨now.interval, now.slotNum, ?_, fun q j stored => ?_, now.remembered⟩
      · have next : ((ticks + Call.onTimeOut.ticks : Nat) : Int) = ticks + 1 := rfl
        rw [now.pos, next, Size.wrap, Size.wrap, Int.bmod_add_bmod, Size.wrap]
      simp only [update_apply] at stored
      split at stored
      · cases stored
      · exact now.placed q j stored
    · cases done

end

theorem new_turned (expriate : UInt64 → Int) :
    Turned interval slotNum 0 (new interval slotNum expriate) :=
  ⟨rfl, rfl, rfl, fun _ _ => nofun, fun _ => .inl rfl⟩

def ticksOf (calls : List Call) : Nat := (calls.map Call.ticks).sum

theorem run_turned {calls : List Call} (now : Turned interval slotNum ticks tw)
    (done : run step tw calls = some tw') :
    Turned interval slotNum (ticks + ticksOf calls) tw' := by
  induction calls generalizing tw ticks with
  | nil =>
    cases done
    exact now
  | cons call calls ih =>
    obtain ⟨next, taken, remaining⟩ := run_cons_cases done
    have later := ih (step_turned now taken) remaining
    simpa only [ticksOf, map_cons, sum_cons, Nat.add_assoc] using later

/-- After any run, `RefreshTimer` arms a timer within the wheel's range exactly if the slot that
the timer remembers is not the one it has to go to, or the timer is still there: a timer that has
fired remembers its slot. -/
theorem refresh_arms_iff (interval slotNum : Int) (expriate : UInt64 → Int) (calls : List Call)
    (tw tw' : TimeWheel) (id : UInt64) (ok : Bool)
    (done : run step (new interval slotNum expriate) calls = some tw)
    (inside : tw.Admitted id) (refreshed : tw.refreshTimer id = some (tw', ok)) :
    ok = true ∧ ((∀ j, id ∈ tw'.slots j ↔ j = tw.target id) ↔
      (tw.timers id).slot ≠ tw.target id ∨ id ∈ tw.slots (tw.timers id).slot) := by
  have now := run_turned (new_turned expriate) done
  obtain ⟨told, ends⟩ := refreshTimer_cases refreshed
  refine ⟨told, ?_⟩
  have armed {mid : TimeWheel} {added : Bool} (placed : mid.Placed) (same : mid.Admitted id)
      (stored : mid.addTimer id = some (tw', added)) : Armed mid id tw' := by
    rcases addTimer_cases placed stored with ⟨_, _, armed⟩ | ⟨_, out, _⟩
    · exact armed
    · exact absurd same out
  rcases ends with ⟨same, rfl⟩ | ⟨mid, added, stored, ⟨never, rfl⟩ | ⟨other, rfl⟩⟩
  · rw [same]
    refine ⟨fun stored => .inr ((stored _).mpr rfl), fun either j => ⟨fun stored => ?_, ?_⟩⟩
    · rw [← (now.placed id j stored).1, same]
    rintro rfl
    simpa using either
  · have armed := armed now.placed inside stored
    have first := armed.slot.1
    exact iff_of_true (fun j => by simp [armed.stored]) (.inl (by omega))
  have armed := armed now.delete.placed inside stored
  have same : (tw.delete id (tw.timers id).slot).target id = tw.target id := rfl
  exact iff_of_true (fun j => by simp [armed.stored, same]) (.inl other)

theorem refresh_arms_iff_pending : ∃ tw tw' : TimeWheel,
    run step (new 1 2 fun _ => 0) [.addTimer 7] = some tw ∧
    tw.refreshTimer 7 = some (tw', true) ∧ ∀ j, 7 ∈ tw'.slots j ↔ j = 0 :=
  ⟨_, _, rfl, rfl, (refresh_arms_iff 1 2 (fun _ => 0) [.addTimer 7] _ _ 7 true rfl (by decide)
    rfl).2.mpr (.inr (by decide))⟩

/-- A timer fires, a revolution passes, and it is refreshed: in vain. -/
theorem refresh_forgets_fired : ∃ tw tw' : TimeWheel,
    run step (new 1 2 fun _ => 0) [.addTimer 7, .onTimeOut, .onTimeOut] = some tw ∧
    tw.Admitted 7 ∧ tw.refreshTimer 7 = some (tw', true) ∧ ∀ j, 7 ∉ tw'.slots j := by
  refine ⟨_, _, rfl, by decide, rfl, fun j stored => ?_⟩
  have now := run_turned (new_turned fun _ => 0)
    (show run step (new 1 2 fun _ => 0) [.addTimer 7, .onTimeOut, .onTimeOut] = _ from rfl)
  obtain ⟨same, _⟩ := now.placed 7 j stored
  subst same
  exact absurd stored (by decide)

section

variable {pos : Int} (counted : 0 ≤ pos) (slotted : 0 < slotNum)
include counted slotted

/-- As long as the counter has not wrapped, a tick takes the slot that is its turn. -/
theorem tmod_wrap (fits : slotNum ≤ 2147483648) : Size.bits32.wrap slotNum ≠ 0 ∧
    pos.tmod (Size.bits32.wrap slotNum) = pos % slotNum := by
  have modulus : Size.bits32.wrap slotNum = slotNum ∨
      slotNum = 2147483648 ∧ Size.bits32.wrap slotNum = -slotNum := by
    by_cases most : slotNum = 2147483648
    · subst most
      exact .inr ⟨rfl, by decide⟩
    exact .inl (Size.wrap_of_fits ⟨by simp only [Size.limit]; omega,
      by simp only [Size.limit]; omega⟩)
  rcases modulus with same | ⟨_, negative⟩
  · rw [same, Int.tmod_eq_emod_of_nonneg counted]
    exact ⟨by omega, rfl⟩
  rw [negative, Int.tmod_neg, Int.tmod_eq_emod_of_nonneg counted]
  exact ⟨by omega, rfl⟩

theorem tmod_behind {e : Int} (turns : 0 < interval) (inside : 0 ≤ e) :
    (pos.tmod slotNum + e.tdiv interval).tmod slotNum = (pos + e / interval) % slotNum := by
  have steps := Int.ediv_nonneg inside (Int.le_of_lt turns)
  have low := Int.emod_nonneg pos (Int.ne_of_gt slotted)
  rw [Int.tmod_eq_emod_of_nonneg counted, Int.tdiv_eq_ediv_of_nonneg inside,
    Int.tmod_eq_emod_of_nonneg (by omega), Int.emod_add_emod]

end

section

variable (now : Turned interval slotNum ticks tw) (few : ticks < 2147483648)
include now few

theorem Turned.pos_eq : tw.currentPos = ticks := by
  rw [now.pos]
  exact Size.wrap_of_fits ⟨by simp only [Size.limit]; omega, by simp only [Size.limit]; omega⟩

variable (slotted : 0 < slotNum)
include slotted

theorem Turned.tickSlot (fits : slotNum ≤ 2147483648) :
    Size.bits32.wrap tw.slotNum ≠ 0 ∧ tw.tickSlot = ticks % slotNum := by
  rw [TimeWheel.tickSlot, now.pos_eq few, now.slotNum]
  exact tmod_wrap (Int.natCast_nonneg _) slotted fits

variable (turns : 0 < interval)
include turns

theorem Turned.target (inside : 0 ≤ (tw.timers id).expriate) :
    tw.target id = (ticks + (tw.timers id).expriate / interval) % slotNum := by
  rw [TimeWheel.target, now.pos_eq few, now.slotNum, now.interval]
  exact tmod_behind (Int.natCast_nonneg _) slotted turns inside

theorem Turned.slot_target (id : UInt64) (inside : 0 ≤ (tw.timers id).expriate) :
    tw.Slot (tw.target id) := by
  rw [now.target few slotted turns inside, Slot, now.slotNum]
  exact ⟨Int.emod_nonneg _ (by omega), Int.emod_lt_of_pos _ slotted⟩

theorem addTimer_total (id : UInt64) : ∃ result, tw.addTimer id = some result := by
  unfold addTimer
  dsimp only
  split
  · exact ⟨_, rfl⟩
  split
  · exact ⟨_, rfl⟩
  have inside := now.slot_target few slotted turns id (by omega)
  by_cases old : tw.Slot (tw.timers id).slot
  · rw [if_pos old]
    exact ⟨_, if_pos inside⟩
  rw [if_neg old]
  exact ⟨_, if_pos inside⟩

/-- Until then no call panics but the removal of a timer that was never added. -/
theorem step_total (fits : slotNum ≤ 2147483648) (call : Call)
    (added : ∀ id, call = .delTimer id → (tw.timers id).slot ≠ -1) :
    ∃ tw', tw.step call = some tw' := by
  have slot {id : UInt64} (known : (tw.timers id).slot ≠ -1) : tw.Slot (tw.timers id).slot :=
    (now.remembered id).resolve_left known
  cases call with
  | addTimer id =>
    obtain ⟨result, stored⟩ := addTimer_total now few slotted turns id
    exact ⟨_, congrArg (Option.map Prod.fst) stored⟩
  | delTimer id => exact ⟨_, if_pos (slot (added id rfl))⟩
  | refreshTimer id =>
    simp only [step, refreshTimer, delTimer]
    split
    · obtain ⟨result, stored⟩ := addTimer_total now few slotted turns id
      exact ⟨_, by rw [stored]; rfl⟩
    split
    · rename_i known _
      obtain ⟨result, stored⟩ := addTimer_total now.delete few slotted turns id
      exact ⟨_, by rw [if_pos (slot known), Option.bind_some, stored]; rfl⟩
    · exact ⟨_, rfl⟩
  | setExpriate id e => exact ⟨_, rfl⟩
  | onTimeOut =>
    obtain ⟨modulus, turn⟩ := now.tickSlot few slotted fits
    have inside : tw.Slot tw.tickSlot := by
      rw [turn, Slot, now.slotNum]
      exact ⟨Int.emod_nonneg _ (by omega), Int.emod_lt_of_pos _ slotted⟩
    simp only [step, onTimeOut, if_pos (And.intro modulus inside)]
    exact ⟨_, rfl⟩

end

theorem run_total {calls : List Call} (now : Turned interval slotNum ticks tw)
    (slotted : 0 < slotNum) (turns : 0 < interval) (fits : slotNum ≤ 2147483648)
    (kept : ∀ id, .delTimer id ∉ calls) (few : ticks + ticksOf calls < 2147483648) :
    ∃ tw', run step tw calls = some tw' := by
  induction calls generalizing tw ticks with
  | nil => exact ⟨tw, rfl⟩
  | cons call calls ih =>
    simp only [ticksOf, map_cons, sum_cons] at few ih
    obtain ⟨next, taken⟩ := step_total now (by omega) slotted turns fits call
      fun id same => absurd (same ▸ mem_cons_self) (kept id)
    rw [run_cons _ _ _ _ taken]
    exact ih (step_turned now taken) (fun id member => kept id (mem_cons_of_mem _ member))
      (by omega)

/-- Until the counter has reached `2^31` the wheel turns: nothing panics, the ticks take the slots
in turn, and a timer is given one of the slots. -/
theorem wheel_turns (interval slotNum : Int) (expriate : UInt64 → Int) (calls : List Call)
    (turns : 0 < interval) (slotted : 0 < slotNum) (kept : ∀ id, .delTimer id ∉ calls)
    (fits : slotNum ≤ 2147483648) (few : ticksOf calls < 2147483648) :
    ∃ tw, run step (new interval slotNum expriate) calls = some tw ∧
      tw.Slot tw.tickSlot ∧ tw.tickSlot = ticksOf calls % slotNum ∧
      ∀ id, tw.Admitted id → tw.Slot (tw.target id) := by
  have start : Turned interval slotNum 0 (new interval slotNum expriate) := new_turned expriate
  obtain ⟨tw, done⟩ := run_total start slotted turns fits kept (by omega)
  have now := run_turned start done
  rw [Nat.zero_add] at now
  obtain ⟨_, turn⟩ := now.tickSlot few slotted fits
  refine ⟨tw, done, ?_, turn, fun id admitted => now.slot_target few slotted turns id admitted.1⟩
  rw [turn, Slot, now.slotNum]
  exact ⟨Int.emod_nonneg _ (by omega), Int.emod_lt_of_pos _ slotted⟩

theorem wheel_turns_twice : ∃ tw,
    run step (new 1 3 fun _ => 0) [.onTimeOut, .addTimer 7, .onTimeOut] = some tw ∧
      tw.tickSlot = 2 := by
  obtain ⟨tw, done, _, turn, _⟩ := wheel_turns 1 3 (fun _ => 0)
    [.onTimeOut, .addTimer 7, .onTimeOut] (by decide) (by decide) (by simp) (by decide) (by decide)
  exact ⟨tw, done, turn⟩

theorem run_ticks {ticks : Nat} (few : ticks ≤ 2147483648) :
    ∃ calls tw, (∀ call ∈ calls, call = Call.onTimeOut) ∧
      run step (new 1 3 fun _ => 0) calls = some tw ∧ Turned 1 3 ticks tw := by
  induction ticks with
  | zero => exact ⟨[], _, nofun, rfl, new_turned _⟩
  | succ ticks ih =>
    obtain ⟨calls, mid, only, done, now⟩ := ih (by omega)
    obtain ⟨tw, last⟩ := step_total now (by omega) (by decide) (by decide) (by decide)
      .onTimeOut nofun
    exact ⟨_, tw, forall_mem_append.mpr ⟨only, forall_mem_singleton.mpr rfl⟩,
      run_snoc done last, step_turned now last⟩

/-- After `2^31` ticks the counter is negative, and so is the index of the next tick. -/
theorem wheel_panics : ∃ calls tw, (∀ call ∈ calls, call = Call.onTimeOut) ∧
    run step (new 1 3 fun _ => 0) calls = some tw ∧ tw.tickSlot = -2 ∧
      tw.onTimeOut = none := by
  obtain ⟨calls, tw, only, done, now⟩ := run_ticks (Nat.le_refl 2147483648)
  have negative : tw.tickSlot = -2 := by
    rw [tickSlot, now.pos, now.slotNum]
    decide
  refine ⟨calls, tw, only, done, negative, ?_⟩
  rw [onTimeOut, negative, if_neg]
  simp [Slot]

end TimeWheel

end Connaxis
