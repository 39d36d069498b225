import Connaxis.Dialer.DialSteps
import Connaxis.Lib.Runs
import Connaxis.Lib.Tasks

namespace Connaxis.Dialer

open Function List DialerMng Dial Tasks Finset

namespace DialSys

variable {s s' : DialSys} {label : Label}

/-- Nobody holds a status of another key. -/
structure Wf (s : DialSys) : Prop where
  named : s.mng.Named
  dials : ∀ d ∈ s.dials, d.Knows s.mng
  closers : ∀ c ∈ s.closers, c.Knows s.mng

theorem Wf.boot : Wf boot := ⟨nofun, nofun, nofun⟩

theorem mem_set {T : Type} {tasks : List T} {i : Nat} {now t : T} (member : t ∈ tasks.set i now) :
    t ∈ tasks ∨ t = now := (mem_or_eq_of_mem_set member)

theorem Wf.turn (wf : Wf s) (turn : Turn s label s') : Wf s' := by
  have later {m : DialerMng} (grows : s.mng.Grows m) :
      (∀ d ∈ s.dials, d.Knows m) ∧ ∀ c ∈ s.closers, c.Knows m :=
    ⟨fun d member p inside => grows p _ (wf.dials d member p inside),
      fun c member p inside => grows p _ (wf.closers c member p inside)⟩
  cases turn with
  | starts _ para max keeper =>
    refine ⟨wf.named, fun d member => ?_, wf.closers⟩
    rcases mem_append_one member with old | rfl
    · exact wf.dials d old
    · exact nofun
  | dials i answer found next =>
    have step := next_stepped next
    obtain ⟨dials, closers⟩ := later step.grows
    refine ⟨step.named wf.named, fun d' member => ?_, closers⟩
    rcases mem_set member with old | rfl
    · exact dials d' old
    · exact step.knows wf.named (wf.dials _ (mem_of_getElem? found))
  | calls i found named there =>
    refine ⟨wf.named, wf.dials, fun c member => ?_⟩
    rcases mem_append_one member with old | rfl
    · exact wf.closers c old
    · exact nofun
  | closes j found next =>
    obtain ⟨-, -, -, status, -, same⟩ := Closer.next_frame next
    obtain ⟨dials, closers⟩ := later (.of_eq fun p => (same p).1)
    refine ⟨fun key p known => ?_, dials, fun c member => ?_⟩
    · rw [status] at known
      rw [(same p).1]
      exact wf.named key p known
    rcases mem_set member with old | rfl
    · exact closers c old
    · exact Closer.next_knows next wf.named (wf.closers _ (mem_of_getElem? found))
  | updates add key =>
    rw [updateDialer_eq]
    exact ⟨wf.named, wf.dials, wf.closers⟩
  | keeps _ keeper => exact ⟨wf.named, wf.dials, wf.closers⟩
  | forgets key at_ =>
    refine ⟨fun other p known => ?_, wf.dials, wf.closers⟩
    change update s.mng.status key none other = some p at known
    by_cases same : other = key
    · subst same
      rw [update_self] at known
      cases known
    rw [update_of_ne same] at known
    exact wf.named other p known

theorem countP_start (kind : Dial → Bool) {para : DialParam} {max : Int}
    (not : kind ⟨para, max, none, .start⟩ = false) :
    (s.start para max).dials.countP kind = s.dials.countP kind := by
  rw [start, countP_append_one, not, Bool.toNat_false, Nat.add_zero]

/-- `alive` of every status is the number of calls of `OnOpen` that have raised it less the
number of calls of `OnClose` that have lowered it, up to a wrap-around. -/
def Counted (s : DialSys) : Prop :=
  ∀ p, s.mng.alive p =
    int32 (s.dials.countP (countedOf p) - s.closers.countP (Closer.countedOf p))

theorem Counted.boot : Counted boot :=
  fun _ => (int32_of_fits (n := 0) (by decide) (by decide)).symm

theorem Counted.fits (counted : Counted s) (p : Nat) : int32 (s.mng.alive p) = s.mng.alive p := by
  rw [counted p, int32_int32]

theorem Counted.turn (wf : Wf s) (counted : Counted s) (turn : Turn s label s') : Counted s' := by
  intro p
  have before := counted p
  cases turn with
  | starts _ para max keeper =>
    rw [countP_start _ rfl]
    exact before
  | @dials i answer d d' m found next =>
    have own := (next_stepped next).alive (wf.dials d (mem_of_getElem? found))
      (counted.fits p)
    have moved := countP_set found (countedOf p) d'
    dsimp only
    rw [own, before, Int.add_sub_assoc, int32_add]
    congr 1
    omega
  | @calls i d cid found named there =>
    have void := countP_append_one (Closer.countedOf p) s.closers
      ⟨i, d.para.key, cid, .online⟩
    rw [void]
    exact before
  | @closes j c c' m found next =>
    have own := Closer.next_alive next (wf.closers c (mem_of_getElem? found)) (counted.fits p)
    have moved := countP_set found (Closer.countedOf p) c'
    dsimp only
    rw [own, before, Int.sub_eq_add_neg, Int.add_assoc, int32_add]
    congr 1
    omega
  | updates add key =>
    rw [updateDialer_eq]
    exact before
  | keeps | forgets => exact before

/-- The key has not been deactivated: its one status is the one that everybody has found. -/
structure Steadfast (key : Bytes) (s : DialSys) : Prop where
  active : key ∉ s.mng.inactive
  spared : s.keeper ≠ .deleting key
  one : ∀ d ∈ s.dials, d.para.key = key → ∀ p ∈ d.pc.refs, s.mng.status key = some p

theorem Steadfast.boot (key : Bytes) : Steadfast key boot :=
  ⟨notMem_empty key, nofun, nofun⟩

theorem Steadfast.turn {key : Bytes} (wf : Wf s) (steadfast : Steadfast key s)
    (allowed : label ≠ .updateDialer false key) (turn : Turn s label s') :
    Steadfast key s' := by
  obtain ⟨active, spared, one⟩ := steadfast
  cases turn with
  | starts _ para max keeper fair =>
    refine ⟨active, fun at_ => spared (fair key at_), fun d member own => ?_⟩
    rcases mem_append_one member with old | rfl
    · exact one d old own
    · exact nofun
  | @dials i answer d d' m found next =>
    have step := next_stepped next
    have inside := mem_of_getElem? found
    refine ⟨by rw [step.inactive]; exact active, spared, fun t member own => ?_⟩
    rcases mem_set member with old | rfl
    · exact fun p held => step.status (one t old own p held)
    rw [step.para.1] at own
    subst own
    exact step.one wf.named (one d inside rfl)
  | calls i found named there => exact ⟨active, spared, one⟩
  | closes j found next =>
    obtain ⟨-, -, -, status, inactive, -⟩ := Closer.next_frame next
    refine ⟨by rw [inactive]; exact active, spared, fun d member own p held => ?_⟩
    rw [status]
    exact one d member own p held
  | updates add other =>
    cases add with
    | true => exact ⟨fun listed => active (mem_of_mem_erase listed), spared, one⟩
    | false =>
      refine ⟨fun listed => ?_, spared, one⟩
      rcases mem_insert.mp listed with is | old
      · exact allowed (by rw [is])
      · exact active old
  | keeps _ keeper fair =>
    exact ⟨active, fun at_ => (fair key at_).elim spared active, one⟩
  | forgets other at_ =>
    have apart : key ≠ other := fun same => spared (same ▸ at_)
    refine ⟨active, nofun, fun d member own p held => ?_⟩
    exact (update_of_ne apart _ _).trans (one d member own p held)

end DialSys

end Connaxis.Dialer
