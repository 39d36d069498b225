import Connaxis.Timer.Timeline

namespace Connaxis.TimeWheel

open MachineInt Runs Option Function List

/-- Where `OnTimeOut` is. Last, it holds the container that it has taken out of its slot. -/
inductive TickPc
  | idle
  | loaded (pos : Int)
  | starting (m : Finset UInt64)
deriving DecidableEq

/-- The timers whose callbacks are still to be started. -/
def TickPc.container : TickPc → Finset UInt64
  | .starting m => m
  | _ => ∅

/-- Where a call of `AddTimer` is that has accepted its timer. -/
inductive AddPc
  | accepted (slot : Int)
  | removed
  | loaded (pos : Int)
  | inserted (slot : Int)

structure Adding where
  id : UInt64
  expriate : Int
  pc : AddPc

/-- The next step of an `AddTimer` call, and what is left of the call. -/
def Adding.next (tw : TimeWheel) (c : Adding) : Option (TimeWheel × Option Adding) :=
  match c.pc with
  | .accepted slot =>
    some (if tw.Slot slot then tw.delete c.id slot else tw, some { c with pc := .removed })
  | .removed => some (tw, some { c with pc := .loaded tw.currentPos })
  | .loaded pos =>
    let slot := (pos.tmod tw.slotNum + c.expriate.tdiv tw.interval).tmod tw.slotNum
    if tw.Slot slot then
      some ({ tw with slots := Function.update tw.slots slot (insert c.id (tw.slots slot)) },
        some { c with pc := .inserted slot })
    else none
  | .inserted slot =>
    some ({ tw with
      timers := Function.update tw.timers c.id { tw.timers c.id with slot := slot } }, none)

/-- A wheel in use: `OnTimeOut` is called by one goroutine, `AddTimer` by any number. -/
structure Busy where
  wheel : TimeWheel
  tick : TickPc
  adds : Nat → Option Adding

/-- The steps of `OnTimeOut`, and those of the callers of `AddTimer`. -/
inductive Step
  | load
  | swap
  | start (id : UInt64)
  | advance
  | call (k : Nat) (id : UInt64)
  | add (k : Nat)
  | setExpriate (id : UInt64) (e : Int)
deriving DecidableEq

namespace Busy

def new (interval slotNum : Int) (expriate : UInt64 → Int) : Busy :=
  ⟨.new interval slotNum expriate, .idle, fun _ => none⟩

def step (s : Busy) : Step → Option Busy
  | .load => if s.tick = .idle then some { s with tick := .loaded s.wheel.currentPos } else none
  | .swap =>
    match s.tick with
    | .loaded pos =>
      let slot := pos.tmod (Size.bits32.wrap s.wheel.slotNum)
      if Size.bits32.wrap s.wheel.slotNum ≠ 0 ∧ s.wheel.Slot slot then
        some { s with wheel := { s.wheel with slots := Function.update s.wheel.slots slot ∅ },
                      tick := .starting (s.wheel.slots slot) }
      else none
    | _ => none
  | .start id =>
    match s.tick with
    | .starting m => if id ∈ m then some { s with tick := .starting (m.erase id) } else none
    | _ => none
  | .advance =>
    if s.tick = .starting ∅ then
      some { s with
        wheel := { s.wheel with currentPos := Size.bits32.wrap (s.wheel.currentPos + 1) }
        tick := .idle }
    else none
  | .call k id =>
    if (s.adds k).isSome then none
    else if s.wheel.Admitted id then
      let t := s.wheel.timers id
      some { s with adds := Function.update s.adds k (some ⟨id, t.expriate, .accepted t.slot⟩) }
    else some s
  | .add k =>
    match s.adds k with
    | none => none
    | some c => (c.next s.wheel).map fun (tw, c) =>
        { s with wheel := tw, adds := Function.update s.adds k c }
  | .setExpriate id e => some { s with wheel := s.wheel.setExpriate id e }

/-- How many ticks have emptied their slot. -/
def served (s : Busy) : Int :=
  match s.tick with
  | .starting _ => s.wheel.currentPos + 1
  | _ => s.wheel.currentPos

/-- The step of an `AddTimer` call that takes the timer out of the slot it was in. -/
def takes (s : Busy) (id : UInt64) : Step → Bool
  | .add k =>
    match s.adds k with
    | some ⟨q, _, .accepted _⟩ => q = id
    | _ => false
  | _ => false

/-- The expiry was checked, and a position that was loaded is one of the past. -/
def Fine (now : Int) (c : Adding) : Prop :=
  0 ≤ c.expriate ∧ ∀ pos, c.pc = .loaded pos → 0 ≤ pos ∧ pos ≤ now

/-- After `n` ticks have begun. -/
structure Wf (interval slotNum : Int) (n : Nat) (s : Busy) : Prop where
  interval : s.wheel.interval = interval
  slotNum : s.wheel.slotNum = slotNum
  begun : (n : Int) = s.wheel.currentPos + if s.tick = .idle then 0 else 1
  counted : 0 ≤ s.wheel.currentPos
  loaded : ∀ pos, s.tick = .loaded pos → pos = s.wheel.currentPos
  adds : ∀ k, ∀ c ∈ s.adds k, Fine s.wheel.currentPos c

/-- The timer is in the slot of tick `d`, which is to come, or that tick is about to start its
callback. -/
def Due (slotNum d : Int) (id : UInt64) (s : Busy) : Prop :=
  id ∈ s.wheel.slots (d % slotNum) ∧ s.served ≤ d ∧ d < s.served + slotNum ∨
    s.wheel.currentPos = d ∧ id ∈ s.tick.container

variable {interval slotNum : Int} {n k : Nat} {s s' : Busy} {a : Step}

theorem new_wf (expriate : UInt64 → Int) : Wf interval slotNum 0 (new interval slotNum expriate) :=
  ⟨rfl, rfl, rfl, Int.le_refl 0, by simp [new], by simp [new]⟩

section

variable (wf : Wf interval slotNum n s)
include wf

theorem Wf.update {left : Option Adding} (fine : ∀ c ∈ left, Fine s.wheel.currentPos c) (j : Nat) :
    ∀ c ∈ update s.adds k left j, Fine s.wheel.currentPos c := by
  rw [update_apply]
  split
  · exact fine
  · exact wf.adds j

/-- A caller leaves the tick alone. A timer is taken out of its slot only to be added again. -/
theorem add_frame (done : s.step (.add k) = some s') : ∃ slots timers adds,
    s' = ⟨{ s.wheel with slots := slots, timers := timers }, s.tick, adds⟩ ∧
      (∀ j, ∀ c ∈ adds j, Fine s.wheel.currentPos c) ∧
      ∀ q j, q ∈ s.wheel.slots j → q ∈ slots j ∨ s.takes q (.add k) = true := by
  simp only [step] at done
  split at done
  · cases done
  rename_i c found
  obtain ⟨sound, _⟩ := wf.adds k c found
  obtain ⟨⟨tw, left⟩, next, rfl⟩ := map_eq_some_iff.mp done
  unfold Adding.next at next
  split at next
  · rename_i slot pc
    cases next
    have taken (q : UInt64) (own : c.id = q) : s.takes q (.add k) = true := by
      obtain ⟨_, _, _⟩ := c
      cases pc
      simpa [takes, found] using own
    split
    · refine ⟨_, _, _, rfl, wf.update (by simpa [Fine] using sound), fun q j stored => ?_⟩
      by_cases own : c.id = q
      · exact .inr (taken q own)
      have other : q ≠ c.id := fun same => own same.symm
      exact .inl (by rw [update_apply]; split <;> simp_all)
    · exact ⟨_, _, _, rfl, wf.update (by simpa [Fine] using sound), fun _ _ => .inl⟩
  · cases next
    exact ⟨_, _, _, rfl, wf.update (by simpa [Fine] using ⟨sound, wf.counted⟩), fun _ _ => .inl⟩
  · dsimp only at next
    split at next
    · cases next
      refine ⟨_, _, _, rfl, wf.update (by simpa [Fine] using sound), fun q j stored => .inl ?_⟩
      rw [update_apply]
      split <;> simp_all
    · cases next
  cases next
  exact ⟨_, _, _, rfl, wf.update (by simp), fun _ _ => .inl⟩

theorem step_kept (slotted : 0 < slotNum) (fits : slotNum ≤ 2147483648) (few : n < 2147483648)
    (done : s.step a = some s') : Wf interval slotNum (n + [a].count .load) s' ∧
      ∀ d q, Due slotNum d q s → (s.takes q a = true → d < s.served) →
        Due slotNum d q s' ∨ a = .start q ∧ s.wheel.currentPos = d := by
  have now := wf
  obtain ⟨hi, hn, begun, counted, loaded, adds⟩ := now
  cases a with
  | load =>
    simp only [step, ite_none_right_eq_some, some.injEq] at done
    obtain ⟨idle, rfl⟩ := done
    rw [idle] at begun
    refine ⟨⟨hi, hn, by simpa using begun, counted, by simp, adds⟩, fun d q due _ => .inl ?_⟩
    simpa [Due, served, idle, TickPc.container] using due
  | swap =>
    simp only [step] at done
    split at done
    · rename_i pos tick
      simp only [ite_none_right_eq_some, some.injEq] at done
      obtain ⟨_, rfl⟩ := done
      rw [tick] at begun
      refine ⟨⟨hi, hn, by simpa using begun, counted, by simp, adds⟩, fun d q due _ => .inl ?_⟩
      have turn := (tmod_wrap counted slotted fits).2
      obtain rfl := loaded pos tick
      simp only [Due, served, tick, hn, turn] at due ⊢
      rcases due with ⟨stored, early, late⟩ | ⟨_, void⟩
      · by_cases now : d = s.wheel.currentPos
        · subst now
          exact .inr ⟨rfl, stored⟩
        have other := mt (Timeline.slot_eq_iff early late).mp now
        rw [update_of_ne fun same => other same.symm]
        exact .inl ⟨stored, by omega, by omega⟩
      · simp [TickPc.container] at void
    · cases done
  | start r =>
    simp only [step] at done
    split at done
    · rename_i m tick
      simp only [ite_none_right_eq_some, some.injEq] at done
      obtain ⟨_, rfl⟩ := done
      rw [tick] at begun
      refine ⟨⟨hi, hn, by simpa using begun, counted, by simp, adds⟩, fun d q due _ => ?_⟩
      simp only [Due, served, tick] at due ⊢
      rcases due with waits | ⟨now, there⟩
      · exact .inl (.inl waits)
      by_cases own : q = r
      · exact .inr ⟨by rw [own], now⟩
      · exact .inl (.inr ⟨now, Finset.mem_erase.mpr ⟨own, there⟩⟩)
    · cases done
  | advance =>
    simp only [step, ite_none_right_eq_some, some.injEq] at done
    obtain ⟨tick, rfl⟩ := done
    rw [tick] at begun
    have next : Size.bits32.wrap (s.wheel.currentPos + 1) = s.wheel.currentPos + 1 :=
      Size.wrap_of_fits ⟨by simp only [Size.limit]; omega, by simp [Size.limit] at begun ⊢; omega⟩
    rw [next]
    refine ⟨⟨hi, hn, by simpa using begun, by dsimp only; omega, by simp, fun k c found =>
      ⟨(adds k c found).1, fun pos pc => ?_⟩⟩, fun d q due _ => .inl ?_⟩
    · have old := (adds k c found).2 pos pc
      dsimp only
      omega
    · simpa [Due, served, tick, TickPc.container] using due
  | call k r =>
    simp only [step] at done
    split at done
    · cases done
    split at done
    · rename_i admitted
      cases done
      exact ⟨⟨hi, hn, begun, counted, loaded, wf.update (by simpa [Fine] using admitted.1)⟩,
        fun d q due _ => .inl due⟩
    cases done
    exact ⟨⟨hi, hn, begun, counted, loaded, adds⟩, fun d q due _ => .inl due⟩
  | add k =>
    obtain ⟨slots, timers, adds, rfl, fine, kept⟩ := add_frame wf done
    refine ⟨⟨hi, hn, begun, counted, loaded, fine⟩, fun d q due alone => .inl ?_⟩
    rcases due with ⟨stored, early, late⟩ | starts
    · rcases kept q _ stored with stays | taken
      · exact .inl ⟨stays, early, late⟩
      · exact absurd (alone taken) (Int.not_lt.mpr early)
    · exact .inr starts
  | setExpriate r e =>
    cases done
    exact ⟨⟨hi, hn, begun, counted, loaded, adds⟩, fun d q due _ => .inl due⟩

theorem run_kept {labels : List Step} (slotted : 0 < slotNum) (fits : slotNum ≤ 2147483648)
    (few : n + labels.count .load < 2147483648) (done : run step s labels = some s') :
    Wf interval slotNum (n + labels.count .load) s' ∧ ∀ d q, Due slotNum d q s →
      Each step (fun t a _ => t.takes q a = true → d < t.served) s labels →
        Due slotNum d q s' ∨ ∃ front rest t, labels = front ++ .start q :: rest ∧
          run step s front = some t ∧ t.wheel.currentPos = d := by
  induction labels generalizing s n with
  | nil =>
    cases done
    exact ⟨wf, fun d q due _ => .inl due⟩
  | cons a labels ih =>
    obtain ⟨next, taken, remaining⟩ := run_cons_cases done
    have count : (a :: labels).count .load = [a].count .load + labels.count .load := by
      rw [← count_append, singleton_append]
    rw [count, ← Nat.add_assoc] at few ⊢
    obtain ⟨now, kept⟩ := step_kept wf slotted fits (by omega) taken
    obtain ⟨later, held⟩ := ih now few remaining
    refine ⟨later, fun d q due alone => ?_⟩
    obtain ⟨here, alone⟩ := alone next taken
    rcases kept d q due here with due | ⟨rfl, tick⟩
    · rcases held d q due alone with due | ⟨front, rest, t, cut, reached, tick⟩
      · exact .inl due
      exact .inr ⟨a :: front, rest, t, by rw [cut, cons_append],
        (run_cons s next a front taken).trans reached, tick⟩
    · exact .inr ⟨[], labels, s, rfl, rfl, tick⟩

/-- The timer is put into its slot before the tick that it is due at has emptied that. -/
theorem insert_due {c : Adding} {pos : Int} (turns : 0 < interval) (slotted : 0 < slotNum)
    (calls : s.adds k = some c) (loaded : c.pc = .loaded pos)
    (range : c.expriate < interval * slotNum) (timely : s.served ≤ pos + c.expriate / interval)
    (done : s.step (.add k) = some s') : Due slotNum (pos + c.expriate / interval) c.id s' := by
  obtain ⟨sound, past⟩ := wf.adds k c calls
  obtain ⟨low, high⟩ := past pos loaded
  have target := tmod_behind low slotted turns sound
  have passed : s.wheel.currentPos ≤ s.served := by
    unfold served
    split <;> omega
  have steps : c.expriate / interval < slotNum :=
    Int.ediv_lt_of_lt_mul turns (by rw [Int.mul_comm]; exact range)
  simp only [step, calls, Adding.next, loaded, wf.interval, wf.slotNum, target] at done
  obtain ⟨⟨tw, left⟩, stored, rfl⟩ := map_eq_some_iff.mp done
  simp only [ite_none_right_eq_some, some.injEq, Prod.mk.injEq] at stored
  obtain ⟨_, rfl, _⟩ := stored
  refine .inl ⟨?_, timely, Int.lt_of_lt_of_le (by omega) (Int.add_le_add_right passed slotNum)⟩
  simp

end

/-- A timer that is put into its slot before the tick it is due at has emptied it, and that is not
taken out again before, is fired by that tick, so by the time `expriate / interval + 2` ticks have
begun and ended after `AddTimer` has returned. -/
theorem added_in_time (interval slotNum : Int) (expriate : UInt64 → Int)
    (before mid after : List Step) (s next final : Busy) (k : Nat) (c : Adding) (pos : Int)
    (turns : 0 < interval) (slotted : 0 < slotNum) (fits : slotNum ≤ 2147483648)
    (few : (before ++ .add k :: (mid ++ .add k :: after)).count .load < 2147483648)
    (reached : run step (new interval slotNum expriate) before = some s)
    (calls : s.adds k = some c) (loaded : c.pc = .loaded pos)
    (range : c.expriate < interval * slotNum)
    (inserted : s.step (.add k) = some next)
    (done : run step next (mid ++ .add k :: after) = some final)
    (timely : s.served ≤ pos + c.expriate / interval)
    (alone : Each step (fun t a _ => t.takes c.id a = true → pos + c.expriate / interval < t.served)
      next (mid ++ .add k :: after))
    (rests : final.tick = .idle) (ticks : c.expriate / interval + 2 ≤ after.count .load) :
    ∃ front rest t, mid ++ .add k :: after = front ++ .start c.id :: rest ∧
      run step next front = some t ∧ t.wheel.currentPos = pos + c.expriate / interval := by
  have other : Step.add k ≠ .load := by simp
  simp only [count_append, count_cons_of_ne other] at few
  have wf := (run_kept (new_wf expriate) slotted fits (by omega) reached).1
  have now := (step_kept wf slotted fits (by omega) inserted).1
  have later : (mid ++ .add k :: after).count .load = mid.count .load + after.count .load := by
    rw [count_append, count_cons_of_ne other]
  rw [count_cons_of_ne other, count_nil] at now
  obtain ⟨end_, kept⟩ := run_kept now slotted fits (by omega) done
  have due := insert_due wf turns slotted calls loaded range timely inserted
  rcases kept _ _ due alone with still | fires
  · have past := ((wf.adds k c calls).2 pos loaded).2
    have begun := end_.begun
    have start := wf.begun
    simp only [Due, served, rests, TickPc.container, if_true, Finset.notMem_empty, and_false,
      or_false] at still begun
    split at start <;> omega
  · exact fires

/-- A tick whose slot is empty. -/
def emptyTick : List Step := [.load, .swap, .advance]

theorem added_in_time_third : ∃ next front rest t,
    run step (new 1 4 fun _ => 2) [.call 0 7, .add 0, .add 0, .add 0] = some next ∧
      Step.add 0 :: (emptyTick ++ emptyTick ++ [.load, .swap, .start 7, .advance] ++ emptyTick) =
        front ++ .start 7 :: rest ∧
      run step next front = some t ∧ t.wheel.currentPos = 2 := by
  obtain ⟨front, rest, t, cut, ran, tick⟩ := added_in_time 1 4 (fun _ => 2)
    [.call 0 7, .add 0, .add 0] []
    (emptyTick ++ emptyTick ++ [.load, .swap, .start 7, .advance] ++ emptyTick) _ _ _ 0 _ 0
    (by decide) (by decide) (by decide) (by decide) rfl rfl rfl (by decide) rfl rfl (by decide)
    (by decide) rfl (by decide)
  exact ⟨_, front, rest, t, rfl, cut, ran, tick⟩

-- A callback adds its timer again, for the next tick, before the counter is advanced: two ticks
-- later the timer is still in the slot that was emptied before.
example : ∃ s,
    run step (new 1 3 fun _ => 0) ([.call 0 7, .add 0, .add 0, .add 0, .add 0, .load, .swap,
      .start 7, .call 1 7, .add 1, .add 1, .add 1, .add 1, .advance] ++ emptyTick ++ emptyTick) =
        some s ∧
    s.tick = .idle ∧ 7 ∈ s.wheel.slots 0 := by
  exact computed (by decide) (by decide)

end Busy

end Connaxis.TimeWheel
