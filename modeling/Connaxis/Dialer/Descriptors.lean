import Connaxis.Lib.Runs
import Connaxis.Lib.Tasks
import Mathlib.Algebra.Ring.Nat

namespace Connaxis.Dialer

open List Function Runs Option

/-- What `Close` does to descriptors, and where another goroutine may come in between. -/
inductive CloseOp
  /-- `unix.Close(c.fd)`. -/
  | sysClose
  /-- `closecb.OnClose(c.ctx)`. -/
  | onClose
  /-- `d.f.Close()`, in `Dialer.Close`. -/
  | fileClose
  /-- `m.dialers.Delete(d.cid)`. -/
  | delete
  /-- `c.fd = 0`. -/
  | forget
deriving DecidableEq, Repr

/-- A connection with all that can close a descriptor for it. `file` is the number that the
`os.File` of its dialer has, and `listed` says whether `dialers` has its id. An accepted
connection has no dialer. `todo` is what `Close` has still to do. -/
structure Sock where
  tls : Bool
  fd : Nat
  dialer : Bool
  file : Option Nat
  listed : Bool
  todo : Option (List CloseOp)
deriving DecidableEq, Repr

/-- `Conn.Close` and `ATLSConn.Close`. The `tls.Conn` of the latter is over a buffer. -/
def Sock.close (c : Sock) : List CloseOp :=
  if c.tls then [.onClose, .sysClose, .forget] else [.sysClose, .onClose, .forget]

/-- The number that the operation closes. -/
def CloseOp.closes (c : Sock) : CloseOp → Option Nat
  | .sysClose => some c.fd
  | .fileClose => c.file
  | _ => none

/-- `DialerMng.OnClose` returns at once if the dialer is not there. -/
def CloseOp.run (c : Sock) (rest : List CloseOp) : CloseOp → Sock
  | .sysClose => { c with todo := some rest }
  | .onClose =>
    { c with todo := some (if c.dialer ∧ c.listed then .fileClose :: .delete :: rest else rest) }
  | .fileClose => { c with file := none, todo := some rest }
  | .delete => { c with listed := false, todo := some rest }
  | .forget => { c with fd := 0, todo := some rest }

inductive Sock.Act
  /-- `OnOpen` puts the dialer into `dialers`. -/
  | opened
  | close
  /-- `Close` goes on. -/
  | next
  /-- An `os.File` that nobody closed is collected, and its finalizer closes it. -/
  | collect
deriving DecidableEq, Repr

/-- What a connection does next, and the number that is closed. -/
def Sock.act (c : Sock) : Sock.Act → Option (Option Nat × Sock)
  | .opened => if c.dialer ∧ c.todo = none then some (none, { c with listed := true }) else none
  | .close => if c.todo = none then some (none, { c with todo := some c.close }) else none
  | .next =>
    match c.todo with
    | some (op :: rest) => some (op.closes c, op.run c rest)
    | _ => none
  | .collect =>
    match c.todo, c.file with
    | some [], some n => some (some n, { c with file := none })
    | _, _ => none

/-- The connections, and the kernel's table: whom each number has been given to. -/
structure Fds where
  holder : Nat → Option Nat
  socks : List Sock

inductive Fds.Label
  /-- A loop accepts a connection and gets a number that is free. -/
  | accept (tls : Bool) (n : Nat)
  /-- A dial ends in `Dialer.system`: the `os.File` and the connection have the same number. -/
  | dial (tls : Bool) (n : Nat)
  | act (i : Nat) (a : Sock.Act)
deriving DecidableEq, Repr

namespace Fds

def boot : Fds := ⟨fun _ => none, []⟩

def give (s : Fds) (n : Nat) (c : Sock) : Option Fds :=
  if s.holder n = none then
    some ⟨Function.update s.holder n (some s.socks.length), s.socks ++ [c]⟩
  else none

/-- The system call, if there is one. -/
def release (s : Fds) : Option Nat → Nat → Option Nat
  | none => s.holder
  | some n => Function.update s.holder n none

def step (s : Fds) : Label → Option Fds
  | .accept tls n => s.give n ⟨tls, n, false, none, false, none⟩
  | .dial tls n => s.give n ⟨tls, n, true, some n, false, none⟩
  | .act i a =>
    match s.socks[i]? with
    | none => none
    | some c =>
      match c.act a with
      | none => none
      | some (closed, c) => some ⟨s.release closed, s.socks.set i c⟩

/-- The number a step closes, and for which connection. -/
def closes (s : Fds) : Label → Option (Nat × Nat)
  | .act i a => ((s.socks[i]?).bind fun c => c.act a).bind fun done => done.1.map fun n => (i, n)
  | _ => none

/-- The step closes no descriptor that somebody else has. -/
def Clean (s : Fds) (label : Label) : Prop :=
  ∀ entry ∈ s.closes label, s.holder entry.2 = none ∨ s.holder entry.2 = some entry.1

end Fds

/-- The operations that may be left of a `Close`. -/
def Sock.shapes (tls : Bool) : List (List CloseOp) :=
  if tls then [[.onClose, .sysClose, .forget], [.fileClose, .delete, .sysClose, .forget],
    [.delete, .sysClose, .forget], [.sysClose, .forget], [.forget], []]
  else [[.sysClose, .onClose, .forget], [.onClose, .forget], [.fileClose, .delete, .forget],
    [.delete, .forget], [.forget], []]

/-- `unix.Close` is still to come. -/
def Sock.open (c : Sock) : Bool :=
  match c.todo with
  | none => true
  | some ops => .sysClose ∈ ops

/-- The number of a connection that has not been closed in either way. -/
def Sock.intact (c : Sock) : Option Nat :=
  if c.open ∧ (c.dialer → c.file ≠ none) then some c.fd else none

/-- The number of a connection that has been closed in one way and not yet in the other. -/
def Sock.pending (c : Sock) : Option Nat :=
  if c.open then if c.dialer ∧ c.file = none then some c.fd else none
  else c.file

/-- The file has the number of the connection. -/
structure Sock.Ok (c : Sock) : Prop where
  shape : ∀ ops, c.todo = some ops → ops ∈ Sock.shapes c.tls
  same : c.open = true → ∀ n, c.file = some n → n = c.fd
  own : c.dialer = false → c.file = none

theorem Sock.shapes_tail {tls : Bool} {op : CloseOp} {rest : List CloseOp}
    (shape : op :: rest ∈ Sock.shapes tls) :
    rest ∈ Sock.shapes tls ∧ (op = .sysClose ∨ op = .forget → .sysClose ∉ rest) ∧
      (op = .onClose → .fileClose :: .delete :: rest ∈ Sock.shapes tls) := by
  cases tls <;>
    simp only [shapes, Bool.false_eq_true, if_true, if_false, mem_cons, cons.injEq,
      not_mem_nil, or_false, reduceCtorEq] at shape <;>
    rcases shape with ⟨rfl, rfl⟩ | ⟨rfl, rfl⟩ | ⟨rfl, rfl⟩ | ⟨rfl, rfl⟩ | ⟨rfl, rfl⟩ <;> decide

variable {n : Nat}

section Acts

variable {c c' : Sock} {a : Sock.Act} {closed : Option Nat}

theorem Sock.open_close (c : Sock) : ({ c with todo := some c.close } : Sock).open = true := by
  cases tls : c.tls <;> simp [Sock.open, close, tls]

/-- What an operation of `Close` does: nothing to descriptors, or it closes the number in the
first way, or in the second. -/
inductive Acted (c c' : Sock) : Option Nat → Prop
  | quiet (intact : c'.intact = c.intact) (pending : c'.pending = c.pending) : Acted c c' none
  | first (n : Nat) (before : c.intact = some n) (after : c'.intact = none)
      (pending : ∀ m, c'.pending = some m → m = n) : Acted c c' (some n)
  | second (n : Nat) (before : c.pending = some n) (after : c'.intact = none)
      (pending : c'.pending = none) : Acted c c' (some n)

theorem Acted.of_same (opens : c'.open = c.open) (fd : c.open = true → c'.fd = c.fd)
    (dialer : c'.dialer = c.dialer) (file : c'.file = c.file) : Acted c c' none := by
  cases is : c.open with
  | false =>
    refine .quiet ?_ ?_
    · simp [Sock.intact, opens, is]
    · simp [Sock.pending, opens, is, file]
  | true =>
    refine .quiet ?_ ?_
    · simp only [Sock.intact, opens, fd is, dialer, file]
    · simp only [Sock.pending, opens, fd is, dialer, file]

/-- `unix.Close`. -/
theorem Sock.Ok.sysClose (ok : c.Ok) (before : c.open = true) (after : c'.open = false)
    (file : c'.file = c.file) : Acted c c' (some c.fd) := by
  have gone : c'.intact = none := by simp [Sock.intact, after]
  have left : c'.pending = c.file := by simp [Sock.pending, after, file]
  by_cases closed : c.dialer = true ∧ c.file = none
  · refine .second c.fd ?_ gone (left.trans closed.2)
    simp [Sock.pending, before, closed]
  refine .first c.fd ?_ gone fun m is => ok.same before m (left.symm.trans is)
  have both : c.dialer = true → c.file ≠ none := fun dialer file => closed ⟨dialer, file⟩
  simp only [Sock.intact, before, true_and, if_pos both]

/-- The file is closed, by the dialer or when it is collected. -/
theorem Sock.Ok.fileClose (ok : c.Ok) (held : c.file = some n) (opens : c'.open = c.open)
    (fd : c'.fd = c.fd) (dialer : c'.dialer = c.dialer) (file : c'.file = none) :
    Acted c c' (some n) := by
  have dialed : c.dialer = true := by
    cases is : c.dialer with
    | true => rfl
    | false =>
      have void := ok.own is
      rw [held] at void
      cases void
  have gone : c'.intact = none := by simp [Sock.intact, dialer, dialed, file]
  cases is : c.open with
  | false =>
    refine .second n ?_ gone ?_
    · simp [Sock.pending, is, held]
    · simp [Sock.pending, opens, is, file]
  | true =>
    have same := ok.same is n held
    refine .first n ?_ gone fun m pending => ?_
    · simp [Sock.intact, is, held, same]
    simp only [Sock.pending, opens, is, dialer, dialed, file, fd, and_self, if_true,
      some.injEq] at pending
    exact pending.symm.trans same.symm

theorem CloseOp.run_acted {op : CloseOp} {rest : List CloseOp} (ok : c.Ok)
    (at_ : c.todo = some (op :: rest)) :
    (op.run c rest).Ok ∧ Acted c (op.run c rest) (op.closes c) := by
  obtain ⟨tail, last, more⟩ := Sock.shapes_tail (ok.shape _ at_)
  have opens : c.open = decide (.sysClose ∈ op :: rest) := by simp only [Sock.open, at_]
  cases op with
  | sysClose =>
    have before : c.open = true := by rw [opens]; simp
    have after : (CloseOp.sysClose.run c rest).open = false := decide_eq_false (last (.inl rfl))
    refine ⟨⟨?_, fun is => ?_, ok.own⟩, ok.sysClose before after rfl⟩
    · rintro ops ⟨⟩
      exact tail
    rw [after] at is
    cases is
  | onClose =>
    have same : (CloseOp.onClose.run c rest).open = c.open := by
      rw [opens]
      simp only [CloseOp.run, Sock.open]
      split <;> simp
    refine ⟨⟨?_, fun is => ok.same (same ▸ is), ok.own⟩, .of_same same (fun _ => rfl) rfl rfl⟩
    rintro ops ⟨⟩
    split
    · exact more rfl
    · exact tail
  | fileClose =>
    have same : (CloseOp.fileClose.run c rest).open = c.open := by
      rw [opens]
      simp [CloseOp.run, Sock.open]
    have ok' : (CloseOp.fileClose.run c rest).Ok := by
      refine ⟨?_, fun _ n held => ?_, fun _ => rfl⟩
      · rintro ops ⟨⟩
        exact tail
      · cases held
    refine ⟨ok', ?_⟩
    cases held : c.file with
    | none =>
      simp only [CloseOp.closes, held]
      exact .of_same same (fun _ => rfl) rfl held.symm
    | some n =>
      simp only [CloseOp.closes, held]
      exact ok.fileClose held same rfl rfl rfl
  | delete =>
    have same : (CloseOp.delete.run c rest).open = c.open := by
      rw [opens]
      simp [CloseOp.run, Sock.open]
    refine ⟨⟨?_, fun is => ok.same (same ▸ is), ok.own⟩, .of_same same (fun _ => rfl) rfl rfl⟩
    rintro ops ⟨⟩
    exact tail
  | forget =>
    have out : CloseOp.sysClose ∉ rest := last (.inr rfl)
    have before : c.open = false := by
      rw [opens]
      simp [out]
    have after : (CloseOp.forget.run c rest).open = false := decide_eq_false out
    refine ⟨⟨?_, fun is => ?_, ok.own⟩, .of_same (after.trans before.symm) (fun is => ?_) rfl rfl⟩
    · rintro ops ⟨⟩
      exact tail
    · rw [after] at is
      cases is
    rw [before] at is
    cases is

theorem Sock.act_acted (ok : c.Ok) (done : c.act a = some (closed, c')) :
    c'.Ok ∧ Acted c c' closed := by
  unfold Sock.act at done
  cases a <;> dsimp only at done
  case opened =>
    split at done
    · cases done
      exact ⟨⟨ok.shape, ok.same, ok.own⟩, .of_same rfl (fun _ => rfl) rfl rfl⟩
    · cases done
  case close =>
    split at done
    · rename_i idle
      cases done
      have opens : c.open = true := by simp [Sock.open, idle]
      refine ⟨⟨?_, fun _ => ok.same opens, ok.own⟩,
        .of_same ((Sock.open_close c).trans opens.symm) (fun _ => rfl) rfl rfl⟩
      cases tls : c.tls <;> simp [Sock.close, Sock.shapes, tls]
    · cases done
  case next =>
    split at done
    · rename_i op rest at_
      cases done
      exact CloseOp.run_acted ok at_
    · cases done
  case collect =>
    split at done
    · rename_i n at_ held
      cases done
      refine ⟨⟨ok.shape, fun _ m is => ?_, fun _ => rfl⟩, ok.fileClose held rfl rfl rfl rfl⟩
      cases is
    · cases done

theorem Sock.pending_of_intact (intact : c.intact = some n) : c.pending = none := by
  unfold Sock.intact at intact
  split at intact
  · rename_i both
    unfold Sock.pending
    rw [if_pos both.1, if_neg fun closed => both.2 closed.1 closed.2]
  · cases intact

/-- How far a connection is from its last close. -/
def CloseOp.weight : CloseOp → Nat
  | .onClose => 3
  | _ => 1

def Sock.weight (c : Sock) : Nat :=
  match c.todo with
  | none => 10
  | some ops => (ops.map CloseOp.weight).sum

/-- A connection that has a number still to close can go on. -/
theorem Sock.goes_on (pending : c.pending = some n) : ∃ a closed c',
    c.act a = some (closed, c') ∧ (closed = none → c'.weight < c.weight) := by
  cases at_ : c.todo with
  | none =>
    refine ⟨.close, none, { c with todo := some c.close }, by simp [Sock.act, at_], fun _ => ?_⟩
    cases tls : c.tls <;> simp [Sock.weight, at_, Sock.close, tls, CloseOp.weight]
  | some ops =>
    cases ops with
    | nil =>
      have file : c.file = some n := by simpa [Sock.pending, Sock.open, at_] using pending
      exact ⟨.collect, some n, { c with file := none }, by simp [Sock.act, at_, file], nofun⟩
    | cons op rest =>
      refine ⟨.next, op.closes c, op.run c rest, by simp [Sock.act, at_], fun quiet => ?_⟩
      cases op with
      | sysClose => cases quiet
      | onClose =>
        simp only [CloseOp.run, Sock.weight, at_]
        split
        · simp only [map_cons, sum_cons, CloseOp.weight]
          omega
        · simp [CloseOp.weight]
      | fileClose | delete | forget => simp [CloseOp.run, Sock.weight, at_, CloseOp.weight]

end Acts

namespace Fds

variable {s s' : Fds} {label : Label}

/-- No number is given out that a connection has still to close for the second time. -/
def Fresh (s : Fds) : Label → Prop
  | .accept _ n | .dial _ n => ∀ c ∈ s.socks, c.pending ≠ some n
  | .act _ _ => True

/-- The table is right about everybody who has not closed, and has nobody for the numbers
that are to be closed a second time. -/
structure Tidy (s : Fds) : Prop where
  ok : ∀ c ∈ s.socks, c.Ok
  intact : ∀ (i : Nat) (c : Sock) (n : Nat), s.socks[i]? = some c → c.intact = some n →
    s.holder n = some i
  pending : ∀ c ∈ s.socks, ∀ n, c.pending = some n → s.holder n = none

theorem Tidy.boot : Tidy boot := by
  refine ⟨nofun, fun i c n found => ?_, nofun⟩
  cases found

variable {c c' : Sock} {a : Sock.Act} {closed : Option Nat}

theorem give_cases (done : s.give n c = some s') :
    s.holder n = none ∧
      s' = ⟨update s.holder n (some s.socks.length), s.socks ++ [c]⟩ := by
  unfold give at done
  split at done
  · rename_i free
    cases done
    exact ⟨free, rfl⟩
  · cases done

variable {i : Nat}

theorem act_cases (done : s.step (.act i a) = some s') :
    ∃ c closed c', s.socks[i]? = some c ∧ c.act a = some (closed, c') ∧
      s.closes (.act i a) = closed.map (fun n => (i, n)) ∧
      s' = ⟨s.release closed, s.socks.set i c'⟩ := by
  simp only [step] at done
  split at done
  · cases done
  rename_i c found
  split at done
  · cases done
  rename_i closed c' acts
  cases done
  refine ⟨c, closed, c', found, acts, ?_, rfl⟩
  simp only [closes, found, acts, bind_some]

theorem release_of_ne (other : ∀ m, closed = some m → m ≠ n) : s.release closed n = s.holder n := by
  cases closed with
  | none => rfl
  | some m => exact update_of_ne (Ne.symm (other m rfl)) _ _

theorem release_none (free : s.holder n = none) : s.release closed n = none := by
  by_cases is : closed = some n
  · subst is
    exact update_self _ _ _
  rw [release_of_ne fun m same => by rintro rfl; exact is same]
  exact free

/-- Whom a close of a tidy table can hit. -/
theorem Tidy.hits (tidy : Tidy s) (found : s.socks[i]? = some c)
    (acts : c.act a = some (some n, c')) : s.holder n = none ∨ s.holder n = some i := by
  have inside := mem_of_getElem? found
  cases (Sock.act_acted (tidy.ok c inside) acts).2 with
  | first n before => exact .inr (tidy.intact i c n found before)
  | second n before => exact .inl (tidy.pending c inside n before)

theorem Tidy.give (tidy : Tidy s) (fresh : ∀ c ∈ s.socks, c.pending ≠ some n) (ok : c.Ok)
    (intact : c.intact = some n) (pending : c.pending = none) (free : s.holder n = none) :
    Tidy ⟨update s.holder n (some s.socks.length), s.socks ++ [c]⟩ := by
  refine ⟨forall_mem_append.mpr ⟨tidy.ok, forall_mem_singleton.mpr ok⟩,
    fun i t m at_ is => ?_, fun t member m is => ?_⟩
  · rcases Tasks.getElem?_append_one at_ with old | ⟨rfl, rfl⟩
    · have held := tidy.intact i t m old is
      have other : m ≠ n := by
        rintro rfl
        rw [free] at held
        cases held
      exact (update_of_ne other _ _).trans held
    cases intact.symm.trans is
    exact update_self _ _ _
  rcases mem_append.mp member with old | new
  · have other : m ≠ n := by
      rintro rfl
      exact fresh t old is
    exact (update_of_ne other _ _).trans (tidy.pending t old m is)
  rw [mem_singleton.mp new, pending] at is
  cases is

theorem Tidy.act (tidy : Tidy s) (found : s.socks[i]? = some c)
    (acts : c.act a = some (closed, c')) : Tidy ⟨s.release closed, s.socks.set i c'⟩ := by
  have inside := mem_of_getElem? found
  obtain ⟨ok', acted⟩ := Sock.act_acted (tidy.ok c inside) acts
  -- nobody else has the number that is closed
  have others (j n : Nat) (t : Sock) (other : j ≠ i) (at_ : s.socks[j]? = some t)
      (is : t.intact = some n) : ∀ m, closed = some m → m ≠ n := by
    rintro m rfl rfl
    have held := tidy.intact j t m at_ is
    rcases tidy.hits found acts with free | mine
    · rw [free] at held
      cases held
    · exact other (some.inj (held.symm.trans mine))
  refine ⟨fun t member => ?_, fun j t n at_ is => ?_, fun t member n is => ?_⟩
  · rcases mem_or_eq_of_mem_set member with old | rfl
    · exact tidy.ok t old
    · exact ok'
  · rcases Tasks.getElem?_set found at_ with ⟨rfl, rfl⟩ | ⟨other, old⟩
    · cases acted with
      | quiet intact pending => exact tidy.intact j c n found (intact.symm.trans is)
      | first _ _ after | second _ _ after =>
        rw [after] at is
        cases is
    dsimp only
    rw [release_of_ne (others j n t other old is)]
    exact tidy.intact j t n old is
  rcases mem_or_eq_of_mem_set member with old | rfl
  · exact release_none (tidy.pending t old n is)
  cases acted with
  | quiet intact pending => exact tidy.pending c inside n (pending.symm.trans is)
  | first m before after pending =>
    rw [pending n is]
    exact update_self _ _ _
  | second m before after pending =>
    rw [pending] at is
    cases is

theorem Tidy.step (tidy : Tidy s) (fresh : s.Fresh label) (done : s.step label = some s') :
    s.Clean label ∧ Tidy s' := by
  cases label with
  | accept tls n =>
    obtain ⟨free, rfl⟩ := give_cases done
    exact ⟨nofun, tidy.give fresh ⟨nofun, nofun, fun _ => rfl⟩ rfl rfl free⟩
  | dial tls n =>
    obtain ⟨free, rfl⟩ := give_cases done
    exact ⟨nofun, tidy.give fresh ⟨nofun, fun _ m is => (some.inj is).symm, nofun⟩ rfl rfl
      free⟩
  | act i a =>
    obtain ⟨c, closed, c', found, acts, closes, rfl⟩ := act_cases done
    refine ⟨fun entry member => ?_, tidy.act found acts⟩
    rw [closes] at member
    obtain ⟨n, rfl, rfl⟩ := map_eq_some_iff.mp member
    exact tidy.hits found acts

/-- Those who are there go on. -/
def Label.Inner : Label → Prop
  | .act _ _ => True
  | _ => False

theorem step_act (found : s.socks[i]? = some c) (acts : c.act a = some (closed, c')) :
    s.step (.act i a) = some ⟨s.release closed, s.socks.set i c'⟩ := by
  simp only [step, found, acts]

/-- The second close comes, and it hits whoever has the number. -/
theorem second_close_hits {j : Nat} (found : s.socks[i]? = some c) (ok : c.Ok)
    (pending : c.pending = some n) (held : s.holder n = some j) (other : j ≠ i) :
    ∃ more : List Label, (∀ a ∈ more, a.Inner) ∧
      ¬ Each step (fun s a _ => s.Clean a) s more := by
  generalize bound : c.weight = k
  induction k using Nat.strongRecOn generalizing s c with
  | _ k ih =>
    obtain ⟨a, closed, c', acts, less⟩ := Sock.goes_on pending
    have taken := step_act found acts
    obtain ⟨ok', acted⟩ := Sock.act_acted ok acts
    cases acted with
    | quiet intact same =>
      obtain ⟨more, inner, hits⟩ := ih c'.weight (by rw [← bound]; exact less rfl)
        (s := ⟨s.holder, s.socks.set i c'⟩)
        (getElem?_set_self (List.getElem?_eq_some_iff.mp found).1) ok'
        (same.trans pending) held rfl
      refine ⟨.act i a :: more, fun b member => ?_, fun each => hits (each _ taken).2⟩
      rcases mem_cons.mp member with rfl | later
      · trivial
      · exact inner b later
    | first m before =>
      rw [Sock.pending_of_intact before] at pending
      cases pending
    | second m before =>
      cases before.symm.trans pending
      refine ⟨[.act i a], fun b member => ?_, fun each => ?_⟩
      · rw [mem_singleton.mp member]
        trivial
      have clean := (each _ taken).1 (i, n) (by simp [closes, found, acts])
      rw [held] at clean
      rcases clean with free | mine
      · cases free
      · exact other (some.inj mine)

/-- A number is given out that is to be closed a second time. -/
theorem fresh_of_clean (tidy : Tidy s) (done : s.step label = some s')
    (clean : ∀ more : List Label, (∀ a ∈ more, a.Inner) →
      Each step (fun s a _ => s.Clean a) s' more) : s.Fresh label := by
  have given (n : Nat) (t : Sock) (gives : s.give n t = some s') :
      ∀ c ∈ s.socks, c.pending ≠ some n := by
    intro c member pending
    obtain ⟨i, inside, rfl⟩ := mem_iff_getElem.mp member
    obtain ⟨-, rfl⟩ := give_cases gives
    have found : (s.socks ++ [t])[i]? = some s.socks[i] := by
      rw [getElem?_append_left inside]
      exact getElem?_eq_getElem inside
    obtain ⟨more, inner, hits⟩ := second_close_hits
      (s := ⟨update s.holder n (some s.socks.length), s.socks ++ [t]⟩) found
      (tidy.ok _ member) pending (update_self _ _ _) (Nat.ne_of_gt inside)
    exact hits (clean more inner)
  cases label with
  | accept _ n | dial _ n => exact given n _ done
  | act i a => trivial

theorem fresh_of_clean_run {labels : List Label} (tidy : Tidy s)
    (clean : ∀ front, front <+: labels → ∀ more : List Label, (∀ a ∈ more, a.Inner) →
      Each step (fun s a _ => s.Clean a) s (front ++ more)) :
    Each step (fun s a _ => s.Fresh a) s labels := by
  induction labels generalizing s with
  | nil => trivial
  | cons a rest ih =>
    intro next taken
    have fresh : s.Fresh a := by
      refine fresh_of_clean tidy taken fun more inner => ?_
      exact (clean [a] (by simp) more inner next taken).2
    refine ⟨fresh, ih (tidy.step fresh taken).2 fun front early more inner => ?_⟩
    exact (clean (a :: front) (cons_prefix_cons.mpr ⟨rfl, early⟩) more inner next taken).2

end Fds

open Fds

/-- Connections are accepted, dialed and closed in any order. No close hits the descriptor of
another connection, neither so far nor when those who are there go on, if and only if no
number was given out while a dialed connection had still to close it for the second time. -/
theorem closes_own_iff (labels : List Fds.Label) :
    (∀ front, front <+: labels → ∀ more : List Fds.Label, (∀ a ∈ more, a.Inner) →
      Each Fds.step (fun s a _ => s.Clean a) Fds.boot (front ++ more)) ↔
    Each Fds.step (fun s a _ => s.Fresh a) Fds.boot labels := by
  refine ⟨fresh_of_clean_run .boot, ?_⟩
  rintro fresh front ⟨tail, rfl⟩ more inner
  have allowed : Each step (fun s a _ => s.Fresh a) boot (front ++ more) := by
    refine fresh.front.append fun s _ => each_of_forall (fun a member s _ => ?_) s
    have is := inner a member
    cases a with
    | act => trivial
    | accept | dial => cases is
  have kept (s : Fds) (a : Fds.Label) (next : Fds) (taken : Fds.step s a = some next)
      (fresh : s.Fresh a) (tidy : Tidy s) : s.Clean a ∧ Tidy next := tidy.step fresh taken
  exact each_of_invariant kept allowed .boot

/-- A dialed connection on number 5 is being closed. After the first of its two closes a loop
accepts another connection and gets the number. -/
def reused (tls : Bool) : List Fds.Label :=
  [.dial tls 5, .act 0 .opened, .act 0 .close, .act 0 .next] ++
    (if tls then [.act 0 .next] else []) ++ [.accept false 5]

/-- The second close, in both orders. -/
theorem foreign_close_plain_tls :
    (∃ s, run Fds.step Fds.boot (reused false ++ [.act 0 .next]) = some s ∧
      s.holder 5 = some 1 ∧ s.closes (.act 0 .next) = some (0, 5) ∧ ¬ s.Clean (.act 0 .next)) ∧
    (∃ s, run Fds.step Fds.boot (reused true ++ [.act 0 .next]) = some s ∧
      s.holder 5 = some 1 ∧ s.closes (.act 0 .next) = some (0, 5) ∧ ¬ s.Clean (.act 0 .next)) := by
  refine ⟨⟨_, rfl, rfl, rfl, fun clean => ?_⟩, ⟨_, rfl, rfl, rfl, fun clean => ?_⟩⟩
  · rcases clean (0, 5) rfl with free | mine
    · cases free
    · cases mine
  rcases clean (0, 5) rfl with free | mine
  · cases free
  · cases mine

end Connaxis.Dialer
