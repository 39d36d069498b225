import Connaxis.Lib.Runs
import Connaxis.Lib.Tasks

namespace Connaxis

def defaultTLSHandshakePoolSize : Nat := 128
def defaultTLSHandshakePoolMinActive : Nat := 8

structure TLSHandshakeWorker where
  maxWorkers : Nat
  minWorkers : Nat
  workers : Nat
  idleWorkers : Nat
  pending : Int
  stopping : Bool
deriving DecidableEq, Repr

namespace TLSHandshakeWorker

/-- `NewTLSHandshakeWorker`. -/
def new (maxWorkers : Int) : TLSHandshakeWorker :=
  let maxWorkers := if maxWorkers ≤ 0 ∨ maxWorkers > defaultTLSHandshakePoolSize then
    defaultTLSHandshakePoolSize else maxWorkers.toNat
  let minWorkers := if defaultTLSHandshakePoolMinActive > maxWorkers then maxWorkers
    else defaultTLSHandshakePoolMinActive
  ⟨maxWorkers, minWorkers, 0, 0, 0, false⟩

def start (w : TLSHandshakeWorker) : TLSHandshakeWorker :=
  { w with workers := w.minWorkers, idleWorkers := w.minWorkers }

/-- `Submit` as far as the decision, which is taken under the lock. -/
def submit {γ : Type} (w : TLSHandshakeWorker) (c : Option γ) : Except String TLSHandshakeWorker :=
  if c.isNone then .error "nil tls conn"
  else if w.stopping then .error "tls handshake worker stopped"
  else if w.idleWorkers > 0 then .ok { w with idleWorkers := w.idleWorkers - 1 }
  else if w.workers < w.maxWorkers then .ok { w with workers := w.workers + 1 }
  else .error "tls handshake pool full"

def recycleWorker (w : TLSHandshakeWorker) : TLSHandshakeWorker :=
  if w.stopping then w
  else if w.idleWorkers < w.workers then { w with idleWorkers := w.idleWorkers + 1 }
  else w

end TLSHandshakeWorker

/-- Where an accepted submission stands. It is `admitted` while `Submit` still holds the
lock; from `spawned` on it is a goroutine of its own. -/
inductive Stage
  | admitted
  | spawned
  | handshaking
  /-- `handleConn` has given back its part of `pending`; it closes the connection or hands it
  to its loop. -/
  | counted
  | handled
  | recycled
  | finished
deriving DecidableEq, Repr

namespace Stage

/-- `recycleWorker` has not run. -/
def inFlight : Stage → Bool
  | recycled | finished => false
  | _ => true

/-- The submission is part of `pending`. -/
def pending : Stage → Bool
  | spawned | handshaking => true
  | _ => false

/-- The submission is part of the wait group. -/
def waited : Stage → Bool
  | admitted | finished => false
  | _ => true

end Stage

/-- The pool with the goroutines it has started. -/
structure TlsPool where
  w : TLSHandshakeWorker
  locked : Bool
  wg : Nat
  tasks : List Stage
  /-- `Stop` has returned. -/
  stopped : Bool
deriving DecidableEq, Repr

inductive TlsPool.Label (γ : Type)
  | submit (c : Option γ)
  /-- `Submit` goes on: it counts the submission, releases the lock and starts the goroutine. -/
  | enroll (i : Nat)
  | begin (i : Nat)
  /-- `CompleteServerHandshake` returns. -/
  | handshaken (i : Nat) (ok : Bool)
  | handled (i : Nat)
  | recycle (i : Nat)
  | done (i : Nat)
  /-- The first call of `Stop` sets the flag, and then waits. -/
  | stop
  | stopReturn

namespace TlsPool

variable {γ : Type}

/-- The pool after `Start`. -/
def start (maxWorkers : Int) : TlsPool :=
  ⟨(TLSHandshakeWorker.new maxWorkers).start, false, 0, [], false⟩

def inFlight (s : TlsPool) : Nat := s.tasks.countP Stage.inFlight

def setTask (s : TlsPool) (i : Nat) (now : Stage) : TlsPool :=
  { s with tasks := s.tasks.set i now }

def step (s : TlsPool) : Label γ → Option TlsPool
  | .submit c =>
    if s.locked then none
    else match s.w.submit c with
      | .error _ => some s
      | .ok w => some { s with w := w, locked := true, tasks := s.tasks ++ [.admitted] }
  | .enroll i =>
    match s.tasks[i]? with
    | some .admitted =>
      some ({ s with w := { s.w with pending := s.w.pending + 1 }, wg := s.wg + 1,
                     locked := false }.setTask i .spawned)
    | _ => none
  | .begin i =>
    match s.tasks[i]? with
    | some .spawned => some (s.setTask i .handshaking)
    | _ => none
  | .handshaken i _ =>
    match s.tasks[i]? with
    | some .handshaking =>
      some ({ s with w := { s.w with pending := s.w.pending - 1 } }.setTask i .counted)
    | _ => none
  | .handled i =>
    match s.tasks[i]? with
    | some .counted => some (s.setTask i .handled)
    | _ => none
  | .recycle i =>
    if s.locked then none
    else match s.tasks[i]? with
      | some .handled => some ({ s with w := s.w.recycleWorker }.setTask i .recycled)
      | _ => none
  | .done i =>
    match s.tasks[i]? with
    | some .recycled => some ({ s with wg := s.wg - 1 }.setTask i .finished)
    | _ => none
  | .stop =>
    if s.locked ∨ s.w.stopping then none
    else some { s with w := { s.w with stopping := true } }
  | .stopReturn =>
    if s.w.stopping ∧ s.wg = 0 then some { s with stopped := true } else none

/-- The counters in terms of the submissions. -/
structure Sound (s : TlsPool) : Prop where
  idle : s.w.idleWorkers ≤ s.w.workers
  bound : s.w.workers ≤ s.w.maxWorkers
  books : s.w.stopping = false → s.w.workers = s.w.idleWorkers + s.inFlight
  pending : s.w.pending = s.tasks.countP Stage.pending
  wg : s.wg = s.tasks.countP Stage.waited
  lock : s.tasks.countP (· = .admitted) = s.locked.toNat
  shut : s.w.stopping = true → s.locked = false
  past : s.stopped = true → s.w.stopping = true ∧ s.wg = 0

theorem start_sound (maxWorkers : Int) : Sound (start maxWorkers) := by
  refine ⟨Nat.le_refl _, ?_, fun _ => rfl, rfl, rfl, rfl, nofun, nofun⟩
  unfold start TLSHandshakeWorker.new TLSHandshakeWorker.start
  dsimp only
  split <;> split <;> omega

variable {s : TlsPool} {i : Nat}

/-- A task that neither comes into flight nor leaves it moves on: it is enough that the
other three counters follow. -/
theorem Sound.move (sound : Sound s) {old now : Stage} (found : s.tasks[i]? = some old)
    {pending : Int} {wg : Nat} {locked : Bool} (flight : now.inFlight = old.inFlight)
    (counts : pending + old.pending.toNat = s.w.pending + now.pending.toNat)
    (waits : wg + old.waited.toNat = s.wg + now.waited.toNat)
    (holds : locked.toNat + (decide (old = .admitted)).toNat =
      s.locked.toNat + (decide (now = .admitted)).toNat)
    (shut : s.w.stopping = true → locked = false) (past : s.stopped = true → wg = 0) :
    Sound ({ s with w := { s.w with pending := pending }, wg := wg,
                    locked := locked }.setTask i now) := by
  have flights := Tasks.countP_set found Stage.inFlight now
  have pendings := Tasks.countP_set found Stage.pending now
  have waiteds := Tasks.countP_set found Stage.waited now
  have holders := Tasks.countP_set found (· = .admitted) now
  have pending := sound.pending
  have wg := sound.wg
  have lock := sound.lock
  refine ⟨sound.idle, sound.bound, fun running => ?_, ?_, ?_, ?_, shut, fun gone => ?_⟩
  · have books := sound.books running
    rw [flight] at flights
    simp only [inFlight, setTask] at books ⊢
    omega
  · simp only [setTask]
    omega
  · simp only [setTask]
    omega
  · simp only [setTask]
    omega
  · exact ⟨(sound.past gone).1, past gone⟩

/-- A submission that is not counted yet holds the lock. -/
theorem Sound.held (sound : Sound s) (found : s.tasks[i]? = some .admitted) : s.locked = true := by
  have present : 0 < s.tasks.countP (· = .admitted) :=
    List.countP_pos_iff.mpr ⟨_, List.mem_of_getElem? found, rfl⟩
  rw [sound.lock] at present
  cases held : s.locked with
  | true => rfl
  | false =>
    rw [held] at present
    cases present

/-- What `Submit` does to the counters when it accepts. -/
theorem submit_cases {w w' : TLSHandshakeWorker} {c : Option γ} (taken : w.submit c = .ok w') :
    w.stopping = false ∧ (0 < w.idleWorkers ∧ w' = { w with idleWorkers := w.idleWorkers - 1 } ∨
      w.idleWorkers = 0 ∧ w.workers < w.maxWorkers ∧ w' = { w with workers := w.workers + 1 }) := by
  unfold TLSHandshakeWorker.submit at taken
  split at taken
  · cases taken
  split at taken
  · cases taken
  rename_i running
  refine ⟨eq_false_of_ne_true running, ?_⟩
  split at taken
  · rename_i filled
    cases taken
    exact .inl ⟨filled, rfl⟩
  rename_i void
  split at taken
  · rename_i room
    cases taken
    exact .inr ⟨by omega, room, rfl⟩
  · cases taken

theorem submit_sound (sound : Sound s) (free : s.locked = false) {w : TLSHandshakeWorker}
    {c : Option γ} (taken : s.w.submit c = .ok w) :
    Sound { s with w := w, locked := true, tasks := s.tasks ++ [.admitted] } := by
  obtain ⟨idle, bound, books, pending, wg, lock, shut, past⟩ := sound
  obtain ⟨running, changed⟩ := submit_cases taken
  have books := books running
  have flight := Tasks.countP_append_one Stage.inFlight s.tasks .admitted
  have count := Tasks.countP_append_one Stage.pending s.tasks .admitted
  have group := Tasks.countP_append_one Stage.waited s.tasks .admitted
  have holder := Tasks.countP_append_one (· = .admitted) s.tasks .admitted
  rw [lock, free] at holder
  simp only [inFlight] at books
  simp only [Stage.inFlight, Stage.pending, Stage.waited, Bool.toNat_true, Bool.toNat_false,
    decide_true] at flight count group holder
  rcases changed with ⟨filled, rfl⟩ | ⟨void, room, rfl⟩
  all_goals
    refine ⟨by dsimp only; omega, by assumption, fun _ => ?_,
      pending.trans (congrArg Nat.cast count.symm), wg.trans group.symm, holder,
      fun stop => ?_, past⟩
    · simp only [inFlight, flight]
      omega
    · cases running.symm.trans stop

/-- While the pool runs, a worker that is in flight can always be given back. -/
theorem Sound.recycle (sound : Sound s) (found : s.tasks[i]? = some .handled) :
    Sound ({ s with w := s.w.recycleWorker }.setTask i .recycled) := by
  have flight := Tasks.countP_set found Stage.inFlight .recycled
  have count := Tasks.countP_set found Stage.pending .recycled
  have group := Tasks.countP_set found Stage.waited .recycled
  have holder := Tasks.countP_set found (· = .admitted) .recycled
  simp only [Stage.inFlight, Stage.pending, Stage.waited, reduceCtorEq, decide_false,
    Bool.toNat_true, Bool.toNat_false, Nat.add_zero] at flight count group holder
  have idle := sound.idle
  have pending := sound.pending
  have wg := sound.wg
  have lock := sound.lock
  unfold TLSHandshakeWorker.recycleWorker
  by_cases stopping : s.w.stopping = true
  · rw [if_pos stopping]
    refine ⟨idle, sound.bound, fun running => ?_, ?_, ?_, ?_, sound.shut, sound.past⟩
    · cases stopping.symm.trans running
    · exact pending.trans (congrArg Nat.cast count.symm)
    · simp only [setTask]
      omega
    · exact holder.trans lock
  rw [if_neg stopping]
  have books := sound.books (eq_false_of_ne_true stopping)
  unfold inFlight at books
  rw [if_pos (by omega)]
  refine ⟨?_, sound.bound, fun _ => ?_, ?_, ?_, ?_, sound.shut, sound.past⟩
  · simp only [setTask]
    omega
  · simp only [inFlight, setTask]
    omega
  · exact pending.trans (congrArg Nat.cast count.symm)
  · simp only [setTask]
    omega
  · exact holder.trans lock

variable {s' : TlsPool}

theorem step_sound {a : Label γ} (sound : Sound s) (done : s.step a = some s') : Sound s' := by
  cases a <;> dsimp only [step] at done
  case submit c =>
    split at done
    · cases done
    rename_i free
    split at done
    · cases done
      exact sound
    rename_i w taken
    cases done
    exact submit_sound sound (eq_false_of_ne_true free) taken
  case enroll i =>
    split at done
    · rename_i found
      cases done
      have held := sound.held found
      refine sound.move found rfl (Int.add_zero _) rfl ?_ (fun _ => rfl) fun gone => ?_
      · rw [held]
        rfl
      · cases (sound.shut (sound.past gone).1).symm.trans held
    · cases done
  case begin i =>
    split at done
    · rename_i found
      cases done
      exact sound.move found rfl rfl rfl rfl sound.shut fun gone => (sound.past gone).2
    · cases done
  case handshaken i ok =>
    split at done
    · rename_i found
      cases done
      refine sound.move found rfl ?_ rfl rfl sound.shut fun gone => (sound.past gone).2
      exact (Int.sub_add_cancel _ 1).trans (Int.add_zero _).symm
    · cases done
  case handled i =>
    split at done
    · rename_i found
      cases done
      exact sound.move found rfl rfl rfl rfl sound.shut fun gone => (sound.past gone).2
    · cases done
  case recycle i =>
    split at done
    · cases done
    split at done
    · rename_i found
      cases done
      exact sound.recycle found
    · cases done
  case done i =>
    split at done
    · rename_i found
      cases done
      have present : 0 < s.wg := by
        rw [sound.wg]
        exact List.countP_pos_iff.mpr ⟨_, List.mem_of_getElem? found, rfl⟩
      refine sound.move found rfl rfl ?_ rfl sound.shut fun gone => ?_
      · change s.wg - 1 + 1 = s.wg + 0
        omega
      · rw [(sound.past gone).2]
    · cases done
  case stop =>
    split at done
    · cases done
    rename_i free
    cases done
    obtain ⟨unlocked, running⟩ := not_or.mp free
    exact ⟨sound.idle, sound.bound, nofun, sound.pending, sound.wg, sound.lock,
      fun _ => eq_false_of_ne_true unlocked, fun gone => ⟨rfl, (sound.past gone).2⟩⟩
  case stopReturn =>
    split at done
    · rename_i empty
      cases done
      exact ⟨sound.idle, sound.bound, sound.books, sound.pending, sound.wg, sound.lock,
        sound.shut, fun _ => empty⟩
    · cases done

theorem run_sound {maxWorkers : Int} {labels : List (Label γ)}
    (done : Runs.run step (start maxWorkers) labels = some s) : Sound s :=
  Runs.run_invariant_all (fun _ _ _ taken sound => step_sound sound taken) done
    (start_sound maxWorkers)

/-- `Submit` turns a connection away exactly when every worker is busy. -/
theorem Sound.full_iff (sound : Sound s) (running : s.w.stopping = false) (c : γ) :
    (∃ reason, s.w.submit (some c) = .error reason) ↔ s.inFlight = s.w.maxWorkers := by
  have books := sound.books running
  have bound := sound.bound
  unfold TLSHandshakeWorker.submit
  rw [if_neg (by simp), running, if_neg Bool.false_ne_true]
  split
  · exact iff_of_false nofun (by omega)
  split
  · exact iff_of_false nofun (by omega)
  · exact iff_of_true ⟨_, rfl⟩ (by omega)

theorem Sound.pending_le (sound : Sound s) : s.w.pending ≤ s.inFlight := by
  rw [sound.pending]
  refine Int.ofNat_le.mpr (List.countP_mono_left fun stage _ pending => ?_)
  cases stage <;> first | rfl | cases pending

/-- What no step takes back: once `Stop` has set its flag, nobody is admitted. -/
structure Later (s s' : TlsPool) : Prop where
  maxWorkers : s'.w.maxWorkers = s.w.maxWorkers
  stopping : s.w.stopping = true → s'.w.stopping = true ∧ s'.tasks.length = s.tasks.length
  stopped : s.stopped = true → s'.stopped = true

theorem step_later {a : Label γ} (done : s.step a = some s') : Later s s' := by
  cases a <;> dsimp only [step] at done
  case submit c =>
    split at done
    · cases done
    split at done
    · cases done
      exact ⟨rfl, fun stopping => ⟨stopping, rfl⟩, id⟩
    rename_i w taken
    obtain ⟨running, changed⟩ := submit_cases taken
    cases done
    refine ⟨?_, fun stopping => ?_, id⟩
    · rcases changed with ⟨_, rfl⟩ | ⟨_, _, rfl⟩ <;> rfl
    · cases running.symm.trans stopping
  case recycle i =>
    split at done
    · cases done
    split at done
    · cases done
      refine ⟨?_, fun stopping => ?_, id⟩
      · unfold TLSHandshakeWorker.recycleWorker
        split
        · rfl
        · split <;> rfl
      rw [TLSHandshakeWorker.recycleWorker, if_pos stopping]
      exact ⟨stopping, List.length_set⟩
    · cases done
  case enroll i | begin i | handshaken i ok | handled i | done i =>
    split at done
    · cases done
      exact ⟨rfl, fun stopping => ⟨stopping, List.length_set⟩, id⟩
    · cases done
  case stop =>
    split at done
    · cases done
    cases done
    exact ⟨rfl, fun _ => ⟨rfl, rfl⟩, id⟩
  case stopReturn =>
    split at done
    · cases done
      exact ⟨rfl, fun stopping => ⟨stopping, rfl⟩, fun _ => rfl⟩
    · cases done

theorem run_later {labels : List (Label γ)} (done : Runs.run step s labels = some s') :
    Later s s' := by
  refine Runs.run_invariant_all (I := Later s) (fun t a next taken so => ?_) done
    ⟨rfl, fun stopping => ⟨stopping, rfl⟩, id⟩
  have more := step_later taken
  refine ⟨more.maxWorkers.trans so.maxWorkers, fun stopping => ?_, fun stopped => ?_⟩
  · obtain ⟨still, same⟩ := so.stopping stopping
    obtain ⟨last, same'⟩ := more.stopping still
    exact ⟨last, same'.trans same⟩
  · exact more.stopped (so.stopped stopped)

/-- When `Stop` has returned, all goroutines have ended. -/
theorem Sound.ended (sound : Sound s) (stopped : s.stopped = true) {stage : Stage}
    (found : s.tasks[i]? = some stage) : stage = .finished := by
  obtain ⟨stopping, empty⟩ := sound.past stopped
  have void := sound.wg.symm.trans empty
  have nobody := List.countP_eq_zero.mp void stage (List.mem_of_getElem? found)
  cases stage with
  | finished => rfl
  | admitted => cases (sound.held found).symm.trans (sound.shut stopping)
  | spawned | handshaking | counted | handled | recycled => exact absurd rfl nobody

/-- No handshake starts any more. -/
theorem Sound.no_begin (sound : Sound s) (stopped : s.stopped = true) {more : List (Label γ)}
    (done : Runs.run step s more = some s') (i : Nat) : Label.begin i ∉ more := by
  induction more generalizing s with
  | nil => exact nofun
  | cons a rest ih =>
    obtain ⟨next, taken, remaining⟩ := Runs.run_cons_cases done
    rintro (_ | ⟨_, later⟩)
    · dsimp only [step] at taken
      split at taken
      · rename_i found
        cases sound.ended stopped found
      · cases taken
    · exact ih (step_sound sound taken) ((step_later taken).stopped stopped) remaining later

end TlsPool

open TlsPool

/-- The bounds of the handshake pool in every state that can be reached after `Start`. -/
theorem tls_pool_bound {γ : Type} (maxWorkers : Int) (labels : List (TlsPool.Label γ))
    (s : TlsPool) (done : Runs.run TlsPool.step (TlsPool.start maxWorkers) labels = some s) :
    s.w.maxWorkers = (TLSHandshakeWorker.new maxWorkers).maxWorkers ∧
    (s.w.stopping = false →
      s.w.idleWorkers ≤ s.w.workers ∧ s.w.workers ≤ s.w.maxWorkers ∧
      s.w.workers = s.w.idleWorkers + s.inFlight ∧ 0 ≤ s.w.pending ∧ s.w.pending ≤ s.inFlight ∧
      ∀ c : γ, (∃ reason, s.w.submit (some c) = .error reason) ↔ s.inFlight = s.w.maxWorkers) ∧
    (s.w.stopping = true → ∀ (more : List (TlsPool.Label γ)) (s' : TlsPool),
      Runs.run TlsPool.step s more = some s' → s'.tasks.length = s.tasks.length) ∧
    (s.stopped = true → ∀ (more : List (TlsPool.Label γ)) (s' : TlsPool),
      Runs.run TlsPool.step s more = some s' → ∀ i, TlsPool.Label.begin i ∉ more) := by
  have sound := run_sound done
  refine ⟨(run_later done).maxWorkers, fun running => ⟨sound.idle, sound.bound,
    sound.books running, ?_, sound.pending_le, sound.full_iff running⟩,
    fun stopping more s' further => ((run_later further).stopping stopping).2,
    fun stopped more s' further i => sound.no_begin stopped further i⟩
  rw [sound.pending]
  exact Int.natCast_nonneg _

/-- One worker, which is busy. -/
def oneHandshake : List (TlsPool.Label Unit) := [.submit (some ()), .enroll 0, .begin 0]

theorem tls_pool_bound_full : ∃ s,
    Runs.run TlsPool.step (TlsPool.start 1) oneHandshake = some s ∧
      s.w.stopping = false ∧ s.inFlight = 1 ∧ s.w.maxWorkers = 1 ∧
      ∃ reason, s.w.submit (some ()) = .error reason := by
  refine ⟨_, rfl, rfl, rfl, rfl, ?_⟩
  obtain ⟨_, running, _⟩ := tls_pool_bound 1 oneHandshake _ rfl
  exact ((running rfl).2.2.2.2.2 ()).mpr rfl

end Connaxis
