import Connaxis.Dialer.Slots

namespace Connaxis.Dialer

open List Runs Dial Tasks

/-- What a status was made for, and for how many connections. -/
def DialerMng.target (m : DialerMng) (p : Nat) : Option (DialParam × Int) :=
  (m.heap[p]?).map fun st => (st.para, st.except)

def Dial.fitsOf (max : Int) (p : Nat) (d : Dial) : Bool := d.slotOf p && d.pc.fits max
def Dial.pendingOf (p : Nat) (d : Dial) : Bool := d.slotOf p && d.pc.pending

theorem Pc.fits_of_pending {pc : Pc} {max : Int} (pending : pc.pending = true) :
    pc.fits max = true := by
  cases pc <;> first | exact pending | cases pending

variable {p : Nat}

theorem Dial.fitsOf_of_pendingOf {d : Dial} {max : Int} (pending : d.pendingOf p = true) :
    d.fitsOf max p = true := by
  obtain ⟨slot, waits⟩ := Bool.and_eq_true_iff.mp pending
  exact Bool.and_eq_true_iff.mpr ⟨slot, Pc.fits_of_pending waits⟩

section Steps

variable {m m' : DialerMng} {d d' : Dial}

theorem Dial.slotOf_eq_false (apart : p ∉ d.pc.refs) : d.slotOf p = false := by
  refine decide_eq_false fun slot => apart (Pc.slot_refs slot)

theorem Dial.countedOf_eq_false (apart : p ∉ d.pc.refs) : d.countedOf p = false := by
  refine decide_eq_false fun counted => apart (Pc.counted_refs counted)

theorem Stepped.target (step : Stepped m d m' d') (p : Nat) :
    m'.target p = m.target p ∨ m'.target p = some (d.para, int32 d.max) := by
  cases step with
  | finds =>
    rcases m.findStatus_cases d.para d.max with ⟨q, -, found⟩ | ⟨-, made⟩
    · rw [found]
      exact .inl rfl
    rw [made]
    unfold DialerMng.target
    rcases Nat.lt_trichotomy p m.heap.length with old | rfl | out
    · rw [getElem?_append_left old]
      exact .inl rfl
    · rw [getElem?_concat_length]
      exact .inr rfl
    rw [getElem?_eq_none (by simp; omega), getElem?_eq_none (by omega)]
    exact .inl rfl
  | raises | resets | lowers | opens => exact .inl (DialerMng.atomic_field _ fun _ => rfl)
  | quiet | admits | stores => exact .inl rfl

theorem Closer.next_target {c c' : Closer} (done : c.next m = some (m', c')) (p : Nat) :
    m'.target p = m.target p := by
  cases Closer.next_shutting done with
  | lowers => exact DialerMng.atomic_field _ fun _ => rfl
  | quiet | misses | deletes => rfl

/-- A call comes to fit only when it raises `co`. -/
theorem Stepped.fits (step : Stepped m d m' d') (p : Nat) :
    (d'.fitsOf (int32 d.max) p = true → d.fitsOf (int32 d.max) p = true) ∨
      (d'.fitsOf (int32 d.max) p = true → m'.co p ≤ int32 d.max) := by
  cases step with
  | quiet _ _ pc quiet =>
    left
    simp only [fitsOf, slotOf, quiet.slot, Bool.and_eq_true]
    exact fun both => ⟨both.1, quiet.fits both.2⟩
  | raises q at_ =>
    by_cases same : q = p
    · subst same
      right
      by_cases low : (m.addCo q 1).co q ≤ 0
      · rw [if_pos low]
        simp [fitsOf, Pc.fits, Pc.pending]
      rw [if_neg low]
      simp [fitsOf, Pc.fits, slotOf, Pc.slot]
    left
    split <;> simp [fitsOf, slotOf, Pc.slot, same]
  | admits q co at_ room few =>
    left
    simp only [fitsOf, slotOf, at_, Pc.slot, Pc.fits, Bool.and_eq_true]
    exact fun both => ⟨both.1, decide_eq_true few⟩
  | lowers a b pc at_ =>
    rcases at_ with ⟨-, -, rfl⟩ | ⟨-, rfl⟩ | ⟨-, rfl⟩ <;> simp [fitsOf, Pc.fits, Pc.pending]
  | finds | resets | opens | stores => simp [fitsOf, Pc.fits, Pc.pending]

/-- `alive` and the calls that are let through: together they grow only when one more is let
through, and then there was room for it. -/
theorem Stepped.pending (step : Stepped m d m' d') (knows : d.Knows m)
    (least : -2147483648 ≤ m.alive p)
    (fair : ∀ a b, d.pc = .openAlive a b → b = p → a = p) :
    m'.alive p + (d'.pendingOf p).toNat ≤ m.alive p + (d.pendingOf p).toNat ∨
      m'.alive p = m.alive p ∧ d.pendingOf p = false ∧ d.fitsOf (int32 d.max) p = true ∧
        m.alive p < m.except p := by
  have less (same : m'.alive p = m.alive p) (fewer : d'.pendingOf p = true → d.pendingOf p = true) :
      m'.alive p + (d'.pendingOf p).toNat ≤ m.alive p + (d.pendingOf p).toNat := by
    rw [same]
    have := Bool.toNat_le_toNat fewer
    omega
  cases step with
  | quiet _ _ pc quiet =>
    refine .inl (less rfl ?_)
    simp only [pendingOf, slotOf, quiet.slot, Bool.and_eq_true]
    exact fun both => ⟨both.1, quiet.pending both.2⟩
  | finds at_ =>
    refine .inl (less (DialerMng.findStatus_alive _ _) ?_)
    simp [pendingOf, Pc.pending]
  | raises q at_ =>
    refine .inl (less (DialerMng.addCo_alive _) ?_)
    split <;> simp [pendingOf, Pc.pending]
  | resets q at_ =>
    have same : (m.atomic q fun st => { st with co := 0 }).alive p = m.alive p :=
      congrArg (Option.getD · 0) (DialerMng.atomic_field _ fun _ => rfl)
    refine .inl (less same ?_)
    simp [pendingOf, Pc.pending]
  | admits q co at_ room few =>
    by_cases same : q = p
    · subst same
      refine .inr ⟨rfl, ?_, ?_, room⟩
      · simp [pendingOf, at_, Pc.pending]
      · simp [fitsOf, slotOf, at_, Pc.slot, Pc.fits, few]
    refine .inl (less rfl ?_)
    simp [pendingOf, slotOf, Pc.slot, same]
  | lowers a b pc at_ =>
    refine .inl (less (DialerMng.addCo_alive _) ?_)
    rcases at_ with ⟨-, -, rfl⟩ | ⟨-, rfl⟩ | ⟨-, rfl⟩ <;> simp [pendingOf, Pc.pending]
  | opens a b at_ =>
    have known : b < m.heap.length := DialerMng.keyOf_lt (knows b (by simp [at_, Pc.refs]))
    have raised := DialerMng.addAlive_alive (q := p) known 1
    by_cases same : b = p
    · have both := fair a b at_ same
      have next := int32_le (n := m.alive p + 1) (by omega)
      left
      rw [raised, if_pos same]
      simpa [pendingOf, slotOf, at_, Pc.slot, Pc.pending, both] using next
    rw [if_neg same] at raised
    refine .inl (less raised ?_)
    simp [pendingOf, Pc.pending]
  | stores a b cid at_ =>
    refine .inl (less rfl ?_)
    simp [pendingOf, Pc.pending]

end Steps

variable {i : Nat}

namespace DialSys

variable {s s' : DialSys} {label : Label} {key : Bytes}

/-- The key is not deactivated, and whoever asks for it asks for `max` connections. -/
def Label.Keeps (key : Bytes) (max : Int) : Label → Prop
  | .addDialer para m => para.key = key → m = max
  | .updateDialer add k => add = false → k ≠ key
  | _ => True

theorem Label.Keeps.steady {max : Int} (keeps : label.Keeps key max) :
    label ≠ .updateDialer false key := by
  rintro rfl
  exact keeps rfl rfl

/-- What the next step adds to a `co` or takes from an `alive` does not wrap around. -/
def Room (s : DialSys) : Label → Prop
  | .dial i _ => match (s.dials[i]?).map pc with
    | some (.add p) => s.mng.co p < 2147483647
    | _ => True
  | .close j => match (s.closers[j]?).map Closer.pc with
    | some (.alive q) => -2147483648 < s.mng.alive q
    | _ => True
  | _ => True

theorem Whole.boot (key : Bytes) : boot.Whole key := nofun

/-- No call finds that `co` has wrapped around if it had room before. -/
theorem Whole.turn {seen : List (Nat × Nat × Int)} (wf : Wf s) (slots : Slots key seen s)
    (whole : s.Whole key) (room : s.Room label) (turn : Turn s label s') : s'.Whole key := by
  cases turn with
  | starts _ para max keeper =>
    intro t member own
    rcases mem_append_one member with old | rfl
    · exact whole t old own
    · rfl
  | @dials i answer d d' m found next =>
    intro t member own
    have inside := mem_of_getElem? found
    have step := next_stepped next
    rcases mem_set member with old | rfl
    · exact whole t old own
    rw [step.para.1] at own
    have before := whole d inside own
    cases step with
    | quiet _ _ pc quiet => exact quiet.wrapped.trans before
    | raises p at_ =>
      have known := wf.dials d inside p (by simp [at_, Pc.refs])
      have counted := (slots.co whole p fun other is => by
        rw [known] at is
        exact (Option.some.inj is).symm.trans own).1
      simp only [Room, found, Option.map_some, at_] at room
      have raised := DialerMng.addCo_co (q := p) (DialerMng.keyOf_lt known) 1
      rw [if_pos rfl, int32_of_fits (by omega) (by omega)] at raised
      dsimp only
      rw [if_neg (by omega)]
      rfl
    | resets p at_ =>
      rw [at_] at before
      cases before
    | lowers p q pc at_ => rcases at_ with ⟨-, -, rfl⟩ | ⟨-, rfl⟩ | ⟨-, rfl⟩ <;> rfl
    | finds | admits | opens | stores => rfl
  | updates add other =>
    rw [DialerMng.updateDialer_eq]
    exact whole
  | calls | closes | keeps | forgets => exact whole

/-- Everybody asks for `max` connections of the key. At most `max` calls fit at a time, and a
call is let through only while `alive` is below `max`. -/
structure Target (key : Bytes) (max : Int) (s : DialSys) : Prop where
  statuses : ∀ p para except, s.mng.target p = some (para, except) → para.key = key →
    except = int32 max
  calls : ∀ d ∈ s.dials, d.para.key = key → int32 d.max = int32 max
  spawning : ∀ para cur m, s.keeper = .spawning para cur m → para.key = key →
    int32 m = int32 max
  fits : ∀ p, s.mng.Own key p →
    s.dials.countP (fitsOf (int32 max) p) ≤ (int32 max).toNat
  bound : ∀ p, s.mng.Own key p →
    s.mng.alive p + s.dials.countP (pendingOf p) ≤ (2 * (int32 max).toNat - 1 : Nat)

theorem Target.boot (key : Bytes) (max : Int) : Target key max boot :=
  ⟨nofun, nofun, nofun, fun _ _ => Nat.zero_le _, fun _ _ => Int.natCast_nonneg _⟩

theorem Target.except_eq {max : Int} (target : Target key max s)
    (known : s.mng.keyOf p = some key) : s.mng.except p = int32 max := by
  obtain ⟨st, found, own⟩ := Option.map_eq_some_iff.mp known
  have same := target.statuses p st.para st.except (by unfold DialerMng.target; rw [found]; rfl) own
  unfold DialerMng.except
  rw [found]
  exact same

variable {max : Int} {seen : List (Nat × Nat × Int)}

/-- A call moves on: at most `max` fit. -/
theorem Target.dial_fits {answer : Answer} {d d' : Dial} {m : DialerMng} (wf : Wf s)
    (target : Target key max s)
    (slots' : Slots key seen { s with mng := m, dials := s.dials.set i d' })
    (whole' : ({ s with mng := m, dials := s.dials.set i d' } : DialSys).Whole key)
    (found : s.dials[i]? = some d) (next : d.next s.mng answer = some (m, d')) (own : m.Own key p) :
    (s.dials.set i d').countP (fitsOf (int32 max) p) ≤ (int32 max).toNat := by
  have inside := mem_of_getElem? found
  have step := next_stepped next
  have own' := own.earlier step.grows
  have before := target.fits p own'
  have moved := countP_set found (fitsOf (int32 max) p) d'
  by_cases mine : d.para.key = key
  · have fits := step.fits p
    rw [target.calls d inside mine] at fits
    rcases fits with fewer | few
    · have := Bool.toNat_le_toNat fewer
      omega
    cases now : d'.fitsOf (int32 max) p with
    | false =>
      rw [now, Bool.toNat_false] at moved
      omega
    | true =>
      -- the calls that fit hold a slot, so they are no more than `co`
      have slots := (slots'.co whole' p own).1
      have holders := countP_mono_left (l := s.dials.set i d')
        fun t _ (fit : t.fitsOf (int32 max) p = true) => (Bool.and_eq_true_iff.mp fit).1
      have top := few now
      dsimp only at slots
      omega
  have knows' := step.knows wf.named (wf.dials d inside)
  have apart : d'.slotOf p = false := slotOf_eq_false fun held => mine (by
    rw [← knows'.own own held, step.para.1])
  have void : d'.fitsOf (int32 max) p = false := by
    unfold fitsOf
    rw [apart, Bool.false_and]
  rw [void, Bool.toNat_false] at moved
  omega

/-- A call moves on: `alive` and the calls that are let through stay below the bound. -/
theorem Target.dial_bound {answer : Answer} {d d' : Dial} {m : DialerMng} (wf : Wf s)
    (steadfast : Steadfast key s) (counted : Counted s) (target : Target key max s)
    (found : s.dials[i]? = some d) (next : d.next s.mng answer = some (m, d')) (own : m.Own key p) :
    m.alive p + (s.dials.set i d').countP (pendingOf p) ≤
      (2 * (int32 max).toNat - 1 : Nat) := by
  have inside := mem_of_getElem? found
  have step := next_stepped next
  have knows := wf.dials d inside
  have own' := own.earlier step.grows
  have before := target.bound p own'
  have moved := countP_set found (pendingOf p) d'
  by_cases mine : d.para.key = key
  · have one := steadfast.one d inside mine
    have least := (int32_range (s.mng.alive p)).1
    rw [counted.fits p] at least
    rcases step.pending knows least fun a b at_ is => by
        have refs : a ∈ d.pc.refs ∧ b ∈ d.pc.refs := by simp [at_, Pc.refs]
        rw [← is]
        exact Option.some.inj ((one a refs.1).symm.trans (one b refs.2)) with
      less | ⟨same, not, fit, room⟩
    · omega
    rw [target.calls d inside mine] at fit
    have held : p ∈ d.pc.refs :=
      Pc.slot_refs (of_decide_eq_true (Bool.and_eq_true_iff.mp fit).1)
    have except := target.except_eq (mine ▸ knows p held)
    -- this call fits and is not yet let through, so the others that are let through are fewer
    have few := target.fits p own'
    have strict : s.dials.countP (pendingOf p) <
        s.dials.countP (fitsOf (int32 max) p) :=
      countP_lt inside (fun _ => fitsOf_of_pendingOf) not fit
    have last := Bool.toNat_le (d'.pendingOf p)
    rw [not, Bool.toNat_false] at moved
    omega
  have knows' := step.knows wf.named knows
  have out : p ∉ d.pc.refs := fun held => mine (knows.own own' held)
  have out' : p ∉ d'.pc.refs := fun held => mine (by rw [← knows'.own own held, step.para.1])
  have alive := step.alive knows (counted.fits p)
  rw [countedOf_eq_false out, countedOf_eq_false out', Int.add_sub_cancel,
    counted.fits p] at alive
  have void : d.pendingOf p = false ∧ d'.pendingOf p = false := by
    unfold pendingOf
    rw [slotOf_eq_false out, slotOf_eq_false out']
    exact ⟨rfl, rfl⟩
  rw [void.1, void.2] at moved
  omega

theorem Target.turn (wf : Wf s) (steadfast : Steadfast key s) (counted : Counted s)
    (slots' : Slots key seen s') (whole' : s'.Whole key) (target : Target key max s)
    (keeps : label.Keeps key max) (room : s.Room label) (turn : Turn s label s') :
    Target key max s' := by
  obtain ⟨statuses, calls, spawning, fits, bound⟩ := target
  cases turn with
  | starts _ para m keeper _ _ source =>
    have asks : para.key = key → int32 m = int32 max := by
      intro own
      rcases source with ⟨rfl, -⟩ | ⟨cur, at_, -⟩
      · exact congrArg int32 (keeps own)
      · exact spawning para cur m at_ own
    refine ⟨statuses, fun d member own => ?_, fun other cur n at_ own => ?_, fun p own => ?_,
      fun p own => ?_⟩
    · rcases mem_append_one member with old | rfl
      · exact calls d old own
      · exact asks own
    · rcases source with ⟨-, same⟩ | ⟨before, was, is⟩
      · exact spawning other cur n (same.symm.trans at_) own
      cases is.symm.trans at_
      exact spawning _ before _ was own
    · rw [countP_start _ rfl]
      exact fits p own
    rw [countP_start _ rfl]
    exact bound p own
  | @dials i answer d d' m found next =>
    have inside := mem_of_getElem? found
    have step := next_stepped next
    have target : Target key max s := ⟨statuses, calls, spawning, fits, bound⟩
    refine ⟨fun p para except at_ own => ?_, fun t member own => ?_, spawning,
      fun p own => target.dial_fits wf slots' whole' found next own,
      fun p own => target.dial_bound wf steadfast counted found next own⟩
    · rcases step.target p with same | made
      · exact statuses p para except (same.symm.trans at_) own
      cases made.symm.trans at_
      exact calls d inside own
    rcases mem_set member with old | rfl
    · exact calls t old own
    rw [step.para.1] at own
    rw [step.para.2]
    exact calls d inside own
  | calls i found named there => exact ⟨statuses, calls, spawning, fits, bound⟩
  | @closes j c c' m found next =>
    obtain ⟨-, -, -, -, -, same⟩ := Closer.next_frame next
    have earlier {p : Nat} (own : m.Own key p) : s.mng.Own key p :=
      own.earlier (.of_eq fun q => (same q).1)
    refine ⟨fun p para except at_ => ?_, calls, spawning, fun p own => fits p (earlier own),
      fun p own => ?_⟩
    · rw [Closer.next_target next] at at_
      exact statuses p para except at_
    have high := (int32_range (s.mng.alive p)).2
    rw [counted.fits p] at high
    have less := Closer.next_alive_le next (wf.closers c (mem_of_getElem? found)) high
      fun at_ => by simpa only [Room, found, Option.map_some, at_] using room
    have before := bound p (earlier own)
    dsimp only
    omega
  | updates add other =>
    rw [DialerMng.updateDialer_eq]
    exact ⟨statuses, calls, spawning, fits, bound⟩
  | keeps _ keeper _ _ spawns =>
    refine ⟨statuses, calls, fun para cur m at_ own => ?_, fits, bound⟩
    rcases spawns para cur m at_ with same | ⟨st, member, rfl, rfl⟩
    · exact spawning para cur m (same.trans at_) own
    obtain ⟨p, inside, rfl⟩ := mem_iff_getElem.mp member
    have is := statuses p _ _ (by unfold DialerMng.target; rw [getElem?_eq_getElem inside]; rfl) own
    rw [is, int32_int32]
  | forgets other at_ => exact ⟨statuses, calls, nofun, fits, bound⟩

/-- The steps that the bound is about. -/
def Calm (key : Bytes) (max : Int) (s : DialSys) (label : Label) (_ : DialSys) : Prop :=
  label.Keeps key max ∧ s.Room label

theorem run_target {labels : List Label} (calm : Each step (Calm key max) boot labels)
    (done : run step boot labels = some s) : Wf s ∧ Target key max s := by
  have all := run_invariant (G := fun s a => Calm key max s a s)
    (I := fun s => Wf s ∧ Steadfast key s ∧ Counted s ∧ (∃ seen, Slots key seen s) ∧
      s.Whole key ∧ Target key max s) ?_ done calm
    ⟨.boot, .boot key, .boot, ⟨[], .boot key⟩, .boot key, .boot key max⟩
  · exact ⟨all.1, all.2.2.2.2.2⟩
  rintro s a next taken ⟨keeps, room⟩ ⟨wf, steadfast, counted, ⟨seen, slots⟩, whole, target⟩
  have turn := step_turn taken
  have slots' := slots.turn wf steadfast turn
  have whole' := whole.turn wf slots room turn
  exact ⟨wf.turn turn, steadfast.turn wf keeps.steady turn, counted.turn wf turn, ⟨_, slots'⟩,
    whole', target.turn wf steadfast counted slots' whole' keeps room turn⟩

/-- Nobody takes `alive` for more than an `int32`. -/
theorem run_counted {labels : List Label} (done : run step boot labels = some s) :
    Wf s ∧ Counted s := by
  refine run_invariant_all (I := fun s => Wf s ∧ Counted s) ?_ done ⟨.boot, .boot⟩
  rintro s a next taken ⟨wf, counted⟩
  have turn := step_turn taken
  exact ⟨wf.turn turn, counted.turn wf turn⟩

end DialSys

/-- A call that runs on its own with the given answers finds room in `co`. -/
def Dial.Roomy (d : Dial) (m : DialerMng) : List Answer → Prop
  | [] => True
  | a :: rest => (∀ p, d.pc = .add p → m.co p < 2147483647) ∧ match d.next m a with
    | none => True
    | some (m, d) => d.Roomy m rest

section Overshoot

open DialSys

theorem each_play {s : DialSys} {d : Dial} {key : Bytes} {max : Int} {a : List Answer}
    (found : s.dials[i]? = some d) (roomy : d.Roomy s.mng a) :
    Each step (Calm key max) s (a.map (.dial i)) := by
  induction a generalizing s d with
  | nil => trivial
  | cons first rest ih =>
    obtain ⟨room, later⟩ := roomy
    intro next taken
    refine ⟨⟨trivial, ?_⟩, ?_⟩
    · simp only [Room, found, Option.map_some]
      split
      · rename_i p at_
        exact room p (Option.some.inj at_)
      · trivial
    simp only [step, found] at taken
    split at taken
    · cases taken
    rename_i m t moved
    cases taken
    rw [moved] at later
    exact ih (getElem?_set_self (List.getElem?_eq_some_iff.mp found).1) later

variable (Addr Key : Bytes) (max : Int)

/-- Somebody to dial, without a certificate. -/
def plain : DialParam := ⟨Addr, [], Key, TYPE_CONN⟩

/-- The key has one status with `alive` and `co` as given. -/
structure Stands (alive co : Int) (s : DialSys) : Prop where
  heap : s.mng.heap = [⟨int32 max, alive, co, plain Addr Key⟩]
  status : s.mng.status (plain Addr Key).key = some 0
  active : (plain Addr Key).key ∉ s.mng.inactive

/-- A call of `addDialer` up to its dial. -/
def asks (i : Nat) : List Label :=
  .addDialer (plain Addr Key) max :: [Answer.go, .go, .go, .go].map (.dial i)

/-- The dial succeeds and the connection is opened. -/
def connects (cid : UInt64) (i : Nat) : List Label :=
  [Answer.dialed true, .client cid true, .attached true, .go, .go, .go, .go, .go].map (.dial i)

/-- A run that calls for `max` connections of the key. -/
def Goes (s : DialSys) (labels : List Label) (s' : DialSys) : Prop :=
  run step s labels = some s' ∧
    Each step (Calm (plain Addr Key).key max) s labels

variable {Addr Key max} {alive co : Int} {s s' : DialSys}

variable (Addr Key max) in
/-- The first call makes the status, and then waits. -/
theorem goes_first : ∃ s,
    Goes Addr Key max boot [.addDialer (plain Addr Key) max, .dial 0 .go, .dial 0 .go] s ∧
      Stands Addr Key max 0 0 s := by
  refine ⟨_, ⟨rfl, fun next taken => ?_⟩, rfl, Function.update_self _ _ _, Finset.notMem_empty _⟩
  cases taken
  refine ⟨⟨fun _ => rfl, trivial⟩, each_play (i := 0) (a := [.go, .go]) rfl ?_⟩
  exact ⟨nofun, nofun, trivial⟩

theorem Stands.asks (stands : Stands Addr Key max alive co s) (least : 0 ≤ co)
    (room : alive < int32 max) (few : co + 1 ≤ int32 max) : ∃ s',
    Goes Addr Key max s (asks Addr Key max s.dials.length) s' ∧
      Stands Addr Key max alive (co + 1) s' ∧
      s'.dials = s.dials ++ [⟨plain Addr Key, max, none, .bootup 0⟩] := by
  obtain ⟨heap, status, active⟩ := stands
  have top := (int32_range max).2
  have sum : int32 (co + 1) = co + 1 := int32_of_fits (by omega) (by omega)
  have now : s.mng.addCo 0 1 =
      { s.mng with heap := [⟨int32 max, alive, co + 1, plain Addr Key⟩] } := by
    unfold DialerMng.addCo DialerMng.atomic
    rw [heap, modify_zero_cons, sum]
  have before : s.mng.co 0 = co := by
    unfold DialerMng.co
    rw [heap]
    rfl
  have played : play ⟨plain Addr Key, max, none, .start⟩ s.mng [.go, .go, .go, .go] =
      some (s.mng.addCo 0 1, ⟨plain Addr Key, max, none, .bootup 0⟩) := by
    have raised : (s.mng.addCo 0 1).co 0 = co + 1 := by rw [now]; rfl
    have below : ¬ (s.mng.addCo 0 1).alive 0 ≥ (s.mng.addCo 0 1).except 0 := by
      rw [now]
      exact Int.not_le.mpr room
    simp only [play, Dial.next, if_neg active, DialerMng.findStatus, status, raised]
    rw [if_neg (by omega)]
    simp only [if_neg below]
    rw [if_neg (by omega)]
  have roomy : Roomy ⟨plain Addr Key, max, none, .start⟩ s.mng [.go, .go, .go, .go] := by
    refine ⟨fun _ at_ => (by cases at_), ?_⟩
    simp only [Roomy, Dial.next, if_neg active, DialerMng.findStatus, status]
    refine ⟨fun _ at_ => (by cases at_), fun p at_ => ?_, ?_⟩
    · cases at_
      omega
    split <;> exact ⟨fun _ at_ => (by cases at_), by split <;> trivial⟩
  have here : (s.start (plain Addr Key) max).dials[s.dials.length]? =
      some ⟨plain Addr Key, max, none, .start⟩ := getElem?_concat_length
  refine ⟨_, ⟨(run_cons _ _ _ _ rfl).trans (run_play here played), fun next taken => ?_⟩,
    ⟨?_, status, active⟩, ?_⟩
  · cases taken
    exact ⟨⟨fun _ => rfl, trivial⟩, each_play here roomy⟩
  · rw [now]
  dsimp only [DialSys.start]
  rw [set_append_right _ _ (Nat.le_refl _), Nat.sub_self, set_cons_zero]

theorem Stands.connects (stands : Stands Addr Key max alive co s) (cid : UInt64)
    (least : 0 ≤ alive) (room : alive + 1 ≤ 2147483647) (slot : 0 < co) (few : co ≤ int32 max)
    (found : s.dials[i]? = some ⟨plain Addr Key, max, none, .bootup 0⟩) : ∃ s',
    Goes Addr Key max s (connects cid i) s' ∧
      Stands Addr Key max (alive + 1) (co - 1) s' ∧
      s'.dials = s.dials.set i ⟨plain Addr Key, max, some cid, .opened 0 0⟩ := by
  obtain ⟨heap, status, active⟩ := stands
  have top := (int32_range max).2
  have more : int32 (alive + 1) = alive + 1 := int32_of_fits (by omega) (by omega)
  have less : int32 (co + -1) = co - 1 := int32_of_fits (by omega) (by omega)
  have goes : (plain Addr Key).supported = true ∧ (plain Addr Key).Cert = [] := ⟨rfl, rfl⟩
  have played : play ⟨plain Addr Key, max, none, .bootup 0⟩ s.mng
      [.dialed true, .client cid true, .attached true, .go, .go, .go, .go, .go] =
      some ((((({ s.mng with online := int32 (s.mng.online + 1) } : DialerMng).addAlive 0 1).store
        cid (plain Addr Key).key).addCo 0 (-1)),
        ⟨plain Addr Key, max, some cid, .opened 0 0⟩) := by
    simp only [play, Dial.next, status, goes, if_true]
  have roomy : Roomy ⟨plain Addr Key, max, none, .bootup 0⟩ s.mng
      [.dialed true, .client cid true, .attached true, .go, .go, .go, .go, .go] := by
    simp [Roomy, Dial.next, status, goes]
  refine ⟨_, ⟨run_play found played, each_play found roomy⟩, ⟨?_, status, active⟩, rfl⟩
  simp only [DialerMng.addCo, DialerMng.store, DialerMng.addAlive, DialerMng.atomic, heap,
    modify_zero_cons, more, less]

variable (Addr Key max) in
/-- A state that calls for `max` connections of the key can lead to. -/
def Reached (s : DialSys) : Prop := ∃ labels, Goes Addr Key max boot labels s

theorem Reached.more {labels : List Label} (reached : Reached Addr Key max s)
    (goes : Goes Addr Key max s labels s') : Reached Addr Key max s' := by
  obtain ⟨before, came, calm⟩ := reached
  refine ⟨before ++ labels, (run_append came).trans goes.1, calm.append fun mid done => ?_⟩
  cases came.symm.trans done
  exact goes.2

variable (Addr Key max) in
/-- Connections are opened one after the other. -/
theorem reached_many (k : Nat) (few : (k : Int) ≤ int32 max) :
    ∃ s, Reached Addr Key max s ∧ Stands Addr Key max k 0 s := by
  have top := (int32_range max).2
  induction k with
  | zero =>
    obtain ⟨s, goes, stands⟩ := goes_first Addr Key max
    exact ⟨s, ⟨_, goes⟩, stands⟩
  | succ k ih =>
    obtain ⟨s, reached, stands⟩ := ih (by omega)
    obtain ⟨s₁, goes₁, stands₁, dials₁⟩ := stands.asks (by omega) (by omega) (by omega)
    obtain ⟨s₂, goes₂, stands₂, -⟩ := stands₁.connects (.ofNat s.dials.length)
      (by omega) (by omega) (by omega) (by omega)
      (i := s.dials.length) (by rw [dials₁]; exact getElem?_concat_length)
    exact ⟨s₂, (reached.more goes₁).more goes₂, stands₂⟩

variable (Addr Key max) in
/-- Two calls find room for one. -/
theorem reached_too_many (two : 2 ≤ int32 max) (below : int32 max < 2147483647) :
    ∃ s, Reached Addr Key max s ∧ Stands Addr Key max (int32 max + 1) 0 s := by
  obtain ⟨s, reached, stands⟩ := reached_many Addr Key max ((int32 max).toNat - 1) (by omega)
  obtain ⟨s₁, goes₁, stands₁, dials₁⟩ := stands.asks (by omega) (by omega) (by omega)
  obtain ⟨s₂, goes₂, stands₂, dials₂⟩ := stands₁.asks (by omega) (by omega) (by omega)
  have second : s₂.dials[s₁.dials.length]? = some ⟨plain Addr Key, max, none, .bootup 0⟩ := by
    rw [dials₂]
    exact getElem?_concat_length
  have first : s.dials.length < s₁.dials.length := by
    rw [dials₁]
    simp
  obtain ⟨s₃, goes₃, stands₃, dials₃⟩ := stands₂.connects (.ofNat s₁.dials.length)
    (by omega) (by omega) (by omega) (by omega) second
  have other : s₃.dials[s.dials.length]? = some ⟨plain Addr Key, max, none, .bootup 0⟩ := by
    rw [dials₃, getElem?_set_ne (by omega), dials₂, getElem?_append_left first, dials₁]
    exact getElem?_concat_length
  obtain ⟨s₄, goes₄, stands₄, -⟩ := stands₃.connects (.ofNat s.dials.length)
    (by omega) (by omega) (by omega) (by omega) other
  refine ⟨s₄, (((reached.more goes₁).more goes₂).more goes₃).more goes₄, ?_⟩
  have counts : (((int32 max).toNat - 1 : Nat) : Int) + 1 + 1 = int32 max + 1 := by omega
  rw [counts] at stands₄
  exact stands₄

theorem Stands.alive_eq (stands : Stands Addr Key max alive co s) :
    s.mng.alive 0 = alive ∧ s.mng.except 0 = int32 max := by
  unfold DialerMng.alive DialerMng.except
  rw [stands.heap]
  exact ⟨rfl, rfl⟩

end Overshoot

open DialSys

/-- Calls for `max` connections of one key that is never deactivated. As long as no counter
wraps around there are never more than `2 * max - 1` connections, and `alive` stays below
`except` in every run if and only if `max` is zero, one or the largest `int32`. -/
theorem alive_le_except_iff (Addr Key : Bytes) (max : Int) :
    (∀ (labels : List Label) (s : DialSys) (p : Nat),
      Goes Addr Key max boot labels s → s.mng.status (plain Addr Key).key = some p →
      s.mng.except p = int32 max ∧ s.mng.alive p ≤ (2 * (int32 max).toNat - 1 : Nat)) ∧
    ((∀ (labels : List Label) (s : DialSys) (p : Nat),
      Goes Addr Key max boot labels s → s.mng.status (plain Addr Key).key = some p →
      s.mng.alive p ≤ s.mng.except p) ↔
      int32 max = 0 ∨ int32 max = 1 ∨ int32 max = 2147483647) ∧
    ∀ (labels : List Label) (s : DialSys) (p : Nat),
      run step boot labels = some s → s.mng.except p = 2147483647 →
      s.mng.alive p ≤ s.mng.except p := by
  have bounds (labels : List Label) (s : DialSys) (p : Nat)
      (goes : Goes Addr Key max boot labels s)
      (found : s.mng.status (plain Addr Key).key = some p) :
      s.mng.except p = int32 max ∧ s.mng.alive p ≤ (2 * (int32 max).toNat - 1 : Nat) := by
    obtain ⟨wf, target⟩ := run_target goes.2 goes.1
    have known := wf.named _ p found
    have bound := target.bound p (DialerMng.own_of_status wf.named found)
    exact ⟨target.except_eq known, by omega⟩
  have largest (labels : List Label) (s : DialSys) (p : Nat)
      (done : run step boot labels = some s)
      (most : s.mng.except p = 2147483647) : s.mng.alive p ≤ s.mng.except p := by
    have high := (int32_range (s.mng.alive p)).2
    rw [(run_counted done).2.fits p] at high
    omega
  refine ⟨bounds, ⟨fun below => ?_, fun small labels s p goes found => ?_⟩, largest⟩
  · by_contra large
    have top := (int32_range max).2
    by_cases negative : int32 max < 0
    · obtain ⟨s, goes, stands⟩ := goes_first Addr Key max
      have least := below _ s 0 goes stands.status
      rw [stands.alive_eq.1, stands.alive_eq.2] at least
      omega
    obtain ⟨s, ⟨labels, goes⟩, stands⟩ := reached_too_many Addr Key max (by omega) (by omega)
    have most := below labels s 0 goes stands.status
    rw [stands.alive_eq.1, stands.alive_eq.2] at most
    omega
  obtain ⟨except, bound⟩ := bounds labels s p goes found
  rcases small with zero | one | top
  · omega
  · omega
  · exact largest labels s p goes.1 (except.trans top)

/-- One connection is open, and two more calls are let through before either is counted. -/
def threeOfTwo : List Label :=
  asks [49] [107] 2 0 ++ connects 7 0 ++ asks [49] [107] 2 1 ++ asks [49] [107] 2 2 ++
    connects 8 1 ++ connects 9 2

theorem alive_exceeds_two : ∃ s,
    run step boot threeOfTwo = some s ∧
      s.mng.status (plain [49] [107]).key = some 0 ∧ s.mng.except 0 = 2 ∧ s.mng.alive 0 = 3 :=
  ⟨_, rfl, rfl, rfl, rfl⟩

end Connaxis.Dialer
