import Connaxis.IdleScan
import Mathlib.Data.Finset.Card

namespace Connaxis

open LoopConn List Runs EngineConn Sys

variable {σ π : Type} {e : Env σ π}

/-- The application is told that this connection is closed. -/
def Obs.closes (r : Ref) : Obs → Bool
  | .closed c _ => c = r
  | _ => false

/-- How often `OnClosed` was called for a connection. -/
def closings (r : Ref) (trace : List Obs) : Nat := trace.countP (Obs.closes r)

theorem closings_append (r : Ref) (first second : List Obs) :
    closings r (first ++ second) = closings r first + closings r second :=
  countP_append

theorem closings_zero {r : Ref} {trace : List Obs} (void : ∀ o ∈ trace, o.closes r = false) :
    closings r trace = 0 := by
  refine countP_eq_zero.mpr fun o member => ?_
  rw [void o member]
  exact Bool.false_ne_true

theorem Obs.Traffic.unclosed {r : Ref} {o : Obs} (traffic : o.Traffic r) (q : Ref) :
    o.closes q = false := by
  cases o with
  | closed => exact traffic.elim
  | _ => rfl

/-- What was observed of one connection. -/
def observed (r : Ref) (trace : List Obs) : List Obs := trace.filter fun o => o.ref = r

section

variable (r : Ref) {trace : List Obs}

theorem mem_observed {o : Obs} : o ∈ observed r trace ↔ o ∈ trace ∧ o.ref = r := by
  rw [observed, mem_filter, decide_eq_true_iff]

theorem observed_append (first second : List Obs) :
    observed r (first ++ second) = observed r first ++ observed r second :=
  filter_append _ _

theorem closings_observed : closings r (observed r trace) = closings r trace := by
  rw [closings, observed, countP_filter]
  refine countP_congr fun o _ => ?_
  cases o with
  | closed c => exact Bool.eq_iff_iff.mp (Bool.and_self (decide (c = r)))
  | _ => rfl

variable {r}

theorem observed_none (void : ∀ o ∈ trace, o.ref ≠ r) : observed r trace = [] :=
  filter_eq_nil_iff.mpr fun o member => by simpa using void o member

theorem observed_all (all : ∀ o ∈ trace, o.ref = r) : observed r trace = trace :=
  filter_eq_self.mpr fun o member => decide_eq_true (all o member)

end

variable {op : Op π}

namespace LoopConn

variable {l l' m : LoopConn σ π} {r : Ref}

/-- The slots of this loop's connections with the property `p`. -/
def slots (e : Env σ π) (l : LoopConn σ π) (p : EngineConn π → Bool) : Finset Nat :=
  (Finset.range e.tableSize).filter fun fd => (l.connByFD e fd).any fun r => p (l.conns r)

variable {but but' : Ref → Prop}

section

variable {p : EngineConn π → Bool}

theorem SoundBut.mem_slots (sound : SoundBut e l but) (fd : Nat) :
    fd ∈ slots e l p ↔ ∃ r, Attached l r ∧ (l.conns r).fd = fd ∧ p (l.conns r) = true := by
  rw [slots, Finset.mem_filter, Finset.mem_range, Option.any_eq_true]
  constructor
  · rintro ⟨_, r, found, kind⟩
    obtain ⟨attached, same⟩ := sound.attached found
    exact ⟨r, attached, same, kind⟩
  rintro ⟨r, attached, rfl, kind⟩
  exact ⟨(sound.slot _ r attached.2).2.2.1, r, sound.found attached, kind⟩

/-- The same connections are attached. -/
theorem slots_kept (sound : SoundBut e l but) (sound' : SoundBut e l' but')
    (attached : ∀ q, Attached l' q ↔ Attached l q)
    (fd : ∀ q, Attached l q → (l'.conns q).fd = (l.conns q).fd)
    (kind : ∀ q, Attached l q → p (l'.conns q) = p (l.conns q)) : slots e l' p = slots e l p := by
  ext f
  rw [sound.mem_slots, sound'.mem_slots]
  refine exists_congr fun q => ?_
  rw [attached q]
  refine and_congr_right fun present => ?_
  rw [fd q present, kind q present]

/-- One connection is attached in addition. -/
theorem slots_placed (sound : SoundBut e l but) (sound' : SoundBut e l' but')
    (own : Attached l' r) (absent : ¬ Attached l r)
    (attached : ∀ q, q ≠ r → (Attached l' q ↔ Attached l q))
    (conns : ∀ q, q ≠ r → l'.conns q = l.conns q) :
    (slots e l' p).card = (slots e l p).card + if p (l'.conns r) then 1 else 0 := by
  have other {q : Ref} (present : Attached l q) : q ≠ r := fun same => absent (same ▸ present)
  have mem (f : Nat) : f ∈ slots e l' p ↔
      f ∈ slots e l p ∨ f = (l'.conns r).fd ∧ p (l'.conns r) = true := by
    rw [sound.mem_slots, sound'.mem_slots]
    constructor
    · rintro ⟨q, present, same, kind⟩
      by_cases new : q = r
      · subst new
        exact .inr ⟨same.symm, kind⟩
      rw [attached q new] at present
      rw [conns q new] at same kind
      exact .inl ⟨q, present, same, kind⟩
    rintro (⟨q, present, same, kind⟩ | ⟨same, kind⟩)
    · refine ⟨q, (attached q (other present)).mpr present, ?_, ?_⟩
      · rw [conns q (other present)]
        exact same
      rw [conns q (other present)]
      exact kind
    · exact ⟨r, own, same.symm, kind⟩
  have new : (l'.conns r).fd ∉ slots e l p := by
    intro member
    obtain ⟨q, present, same, _⟩ := (sound.mem_slots _).mp member
    have there := (attached q (other present)).mpr present
    rw [Attached, conns q (other present), same, own.2] at there
    exact other present (Option.some.inj there.2).symm
  split
  · rename_i kind
    have shape : slots e l' p = insert (l'.conns r).fd (slots e l p) := by
      ext f
      rw [mem, Finset.mem_insert, or_comm, and_iff_left kind]
    rw [shape, Finset.card_insert_of_notMem new]
  rename_i kind
  have shape : slots e l' p = slots e l p := by
    ext f
    rw [mem]
    exact or_iff_left fun both => kind both.2
  rw [shape, Nat.add_zero]

end

/-- The counters agree with the table. -/
structure Counted (e : Env σ π) (l : LoopConn σ π) : Prop where
  count : l.count = (slots e l fun _ => true).card
  dcount : l.dcount = (slots e l client).card

theorem Counted.kept (sound : SoundBut e l but) (sound' : SoundBut e l' but')
    (count : l'.count = l.count) (dcount : l'.dcount = l.dcount)
    (attached : ∀ q, Attached l' q ↔ Attached l q)
    (same : ∀ q, Attached l q → (l'.conns q).fd = (l.conns q).fd ∧
      (l'.conns q).client = (l.conns q).client) (counted : Counted e l) : Counted e l' := by
  have fd (q : Ref) (present : Attached l q) := (same q present).1
  refine ⟨?_, ?_⟩
  · rw [count, slots_kept sound sound' attached fd fun _ _ => rfl]
    exact counted.count
  rw [dcount, slots_kept sound sound' attached fd fun q present => (same q present).2]
  exact counted.dcount

theorem Ended.counted (sound : SoundBut e l but) (sound' : Sound e l') (attached : Attached l r)
    (ended : Ended e l r l') (counted : Counted e l) : Counted e l' := by
  cases ended with
  | kept worked =>
    refine counted.kept sound sound' worked.count worked.dcount worked.attached ?_
    intro q _
    refine ⟨?_, worked.client q⟩
    by_cases same : q = r
    · rw [same]
      exact worked.fd_eq
    · exact congrArg fd (worked.others q same)
  | @closed m err worked =>
    have effect := worked.toApart.closed sound attached err
    have live : (m.conns r).fd ≠ 0 := by
      rw [worked.fd_eq]
      exact attached.1
    have gone : ¬ Attached (m.closeConn e r err) r := fun present => present.1 (closeConn_fd err)
    -- Read backwards, closing is attaching one connection more.
    have fewer (p : EngineConn π → Bool) : (slots e l p).card =
        (slots e (m.closeConn e r err) p).card + if p (l.conns r) then 1 else 0 :=
      slots_placed sound' sound attached gone
        (fun q other => (effect.attached_iff attached other).symm)
        fun q other => (effect.others q other).symm
    have count : (m.closeConn e r err).count = l.count - 1 := by
      rw [closeConn_open err live, worked.count]
    have dcount : (m.closeConn e r err).dcount =
        if (l.conns r).client then l.dcount - 1 else l.dcount := by
      rw [closeConn_open err live, worked.dcount, worked.client r]
    refine ⟨?_, ?_⟩
    · have one := fewer fun _ => true
      rw [count, counted.count, one, if_pos rfl]
      omega
    have one := fewer client
    rw [dcount, counted.dcount, one]
    split
    · omega
    · rfl

/-- Only an operation for a connection attaches or detaches it. -/
theorem Act.attached_iff {q : Ref} (sound : Sound e l) (act : Act e l op l')
    (other : op.subject ≠ some q) : Attached l' q ↔ Attached l q := by
  constructor
  · intro present
    rcases act.slot sound present.2 with before | own
    · have made := (sound.slot _ q before).2.2.2.2
      exact (act.untouched sound made other).attached.mp present
    rw [own] at other
    exact absurd rfl other
  intro present
  have made := (sound.slot _ q present.2).2.2.2.2
  exact (act.untouched sound made other).attached.mpr present

/-- Every operation keeps the counters. -/
theorem Act.counted (sound : Sound e l) (act : Act e l op l') (counted : Counted e l) :
    Counted e l' := by
  have sound' := act.sound sound
  have aside (void : op.subject = none) (count : l'.count = l.count)
      (dcount : l'.dcount = l.dcount) : Counted e l' := by
    refine counted.kept sound sound' count dcount
      (fun q => act.attached_iff sound (void ▸ nofun)) fun q present => ?_
    have made := (sound.slot _ q present.2).2.2.2.2
    rw [(act.untouched sound made (void ▸ nofun)).conn]
    exact ⟨rfl, rfl⟩
  have served {r : Ref} (attached : Attached l r) (own : op.subject = some r) :=
    (act.ended sound attached own).counted sound sound' attached counted
  cases act with
  | tidy same => exact aside rfl (by rw [same]) (by rw [same])
  | make | age => exact aside rfl rfl rfl
  | track r attached =>
    have same : (l.track e r).count = l.count ∧ (l.track e r).dcount = l.dcount := by
      unfold LoopConn.track
      split <;> exact ⟨rfl, rfl⟩
    exact aside rfl same.1 same.2
  | close _ _ attached | send _ attached | read _ _ attached | flush _ _ attached
  | enqueue _ _ _ attached => exact served attached rfl
  | attach r registered fresh small free greeted =>
    have books := placed_sound sound fresh small free registered
    have own := placed_attached (e := e) fresh registered
    have client : ((l.placed e r registered).conns r).client = (l.conns r).client := by
      simp only [placed, Function.update_self]
    have more (p : EngineConn π → Bool) : (slots e (l.placed e r registered) p).card =
        (slots e l p).card + if p ((l.placed e r registered).conns r) then 1 else 0 :=
      slots_placed sound books own (fun present => fresh.loose _ present.2)
        (fun q other => (placed_untouched free registered other).attached)
        fun q other => (placed_untouched free registered other).conn
    refine (greeted.ended own).counted books sound' own ⟨?_, ?_⟩
    · rw [more, if_pos rfl, Int.natCast_add, ← counted.count]
      rfl
    rw [more, client, Int.natCast_add, ← counted.dcount]
    change (if (l.conns r).client then l.dcount + 1 else l.dcount) = _
    split <;> simp
  | drop r fresh =>
    have conn {q : Ref} (other : q ≠ r) := setConn_other (l := l)
      ({ l.conns r with loopID := l.idx }.close e.toConnEnv) q other
    refine counted.kept sound sound' rfl rfl (fun q => ?_) fun q present => ?_
    · by_cases same : q = r
      · refine iff_of_false (fun present => ?_) fun present => fresh.ne present same.symm
        rw [same, Attached, setConn_self] at present
        exact present.1 rfl
      rw [Attached, conn same]
      exact Iff.rfl
    rw [conn (fresh.ne present).symm]
    exact ⟨rfl, rfl⟩

/-- What the application has been told of a connection: it was announced if it is attached,
and its close was reported once if it was announced and is closed. -/
structure Life (l : LoopConn σ π) (r : Ref) : Prop where
  announced : Attached l r → .connected r ∈ l.trace
  held : (l.conns r).fd ≠ 0 → .connected r ∈ l.trace → Attached l r
  reported : closings r l.trace =
    if .connected r ∈ l.trace ∧ (l.conns r).fd = 0 then 1 else 0

/-- What the application observes of a connection, in order, by where the connection is. It is
announced first, then come its bytes and packets, and last its close. -/
inductive Conduct (l : LoopConn σ π) (r : Ref) : Prop
  | away (apart : ¬ Attached l r) (void : observed r l.trace = [])
  | present (attached : Attached l r) (traffic : List Obs) (about : ∀ o ∈ traffic, o.Traffic r)
      (told : observed r l.trace = .connected r :: traffic)
  | gone (shut : (l.conns r).fd = 0) (traffic : List Obs) (about : ∀ o ∈ traffic, o.Traffic r)
      (err : Option CloseErr)
      (told : observed r l.trace = .connected r :: (traffic ++ [.closed r err]))

structure Told (l : LoopConn σ π) (r : Ref) : Prop extends Life l r where
  conduct : Conduct l r

/-- What was observed says how often the close was reported. -/
theorem Conduct.told (conduct : Conduct l r) : Told l r := by
  refine ⟨?_, conduct⟩
  have known : .connected r ∈ l.trace ↔ .connected r ∈ observed r l.trace := by
    rw [mem_observed]
    exact (and_iff_left rfl).symm
  have quiet {traffic : List Obs} (about : ∀ o ∈ traffic, o.Traffic r) :
      closings r (.connected r :: traffic) = 0 := by
    rw [closings, countP_cons_of_neg Bool.false_ne_true]
    exact closings_zero fun o member => (about o member).unclosed r
  cases conduct with
  | away apart void =>
    rw [void, mem_nil_iff, iff_false] at known
    refine ⟨fun attached => absurd attached apart, fun _ told => absurd told known, ?_⟩
    rw [if_neg fun both => known both.1, ← closings_observed, void]
    rfl
  | present attached traffic about told =>
    refine ⟨fun _ => known.mpr (told ▸ mem_cons_self), fun _ _ => attached, ?_⟩
    rw [if_neg fun both => attached.1 both.2, ← closings_observed, told]
    exact quiet about
  | gone shut traffic about err told =>
    refine ⟨fun attached => absurd shut attached.1, fun live => absurd shut live, ?_⟩
    rw [if_pos ⟨known.mpr (told ▸ mem_cons_self), shut⟩, ← closings_observed, told]
    rw [← cons_append, closings_append, quiet about]
    simp [closings, Obs.closes]

theorem Ended.conduct (ended : Ended e l r l') (attached : Attached l r) {traffic : List Obs}
    (about : ∀ o ∈ traffic, o.Traffic r) (told : observed r l.trace = .connected r :: traffic) :
    Conduct l' r := by
  have further {m : LoopConn σ π} (worked : Worked e l m r) : ∃ traffic,
      (∀ o ∈ traffic, o.Traffic r) ∧ observed r m.trace = .connected r :: traffic := by
    obtain ⟨ext, extended, more⟩ := worked.traffic
    refine ⟨traffic ++ ext, forall_mem_append.mpr ⟨about, more⟩, ?_⟩
    rw [extended, observed_append, told, observed_all fun o member => (more o member).ref_eq]
    rfl
  cases ended with
  | kept worked =>
    obtain ⟨traffic, about, told⟩ := further worked
    exact .present ((worked.attached r).mpr attached) traffic about told
  | @closed m err worked =>
    obtain ⟨traffic, about, told⟩ := further worked
    refine .gone (closeConn_fd err) traffic about err ?_
    have live : (m.conns r).fd ≠ 0 := worked.fd_eq ▸ attached.1
    rw [closeConn_open err live, observed_append, told, observed_all (by simp [Obs.ref])]
    rfl

theorem Fresh.conduct (fresh : Fresh l r) : Conduct l r :=
  .away (fun present => fresh.loose _ present.2) (observed_none fresh.unseen)

end LoopConn

theorem life_upheld (e : Env σ π) : Upheld e (fun _ _ => True) Told where
  fresh _ _ l r _ fresh _ := fresh.conduct.told
  frame l l' r same told := by
    obtain ⟨ext, extended, about⟩ := same.trace
    have trace : observed r l'.trace = observed r l.trace := by
      rw [extended, observed_append, observed_none about, append_nil]
    refine Conduct.told ?_
    cases told.conduct with
    | away apart void => exact .away (mt same.attached.mp apart) (trace.trans void)
    | present attached traffic about told =>
      exact .present (same.attached.mpr attached) traffic about (trace.trans told)
    | gone shut traffic about err told =>
      exact .gone (same.conn ▸ shut) traffic about err (trace.trans told)
  subject _ _ l op l' r _ sound _ _ act own told := by
    refine Conduct.told ?_
    cases act.handled sound own with
    | served attached ended =>
      cases told.conduct with
      | away apart => exact absurd attached apart
      | present _ traffic about told => exact ended.conduct attached about told
      | gone shut => exact absurd shut attached.1
    | joined registered fresh attached ended =>
      refine ended.conduct attached (forall_mem_nil _) ?_
      refine (observed_append r l.trace [.connected r]).trans ?_
      rw [observed_none fresh.unseen, observed_all (by simp [Obs.ref])]
      rfl
    | dropped fresh =>
      refine .away (fun present => ?_) (observed_none fresh.unseen)
      rw [Attached, setConn_self] at present
      exact present.1 rfl

namespace LoopConn

variable {l l' m : LoopConn σ π} {r : Ref}

section

variable (off : ¬ (e.checkInterval > 0 ∧ e.idleLimit > 0))
include off

theorem Ended.unwatched (ended : Ended e l r l') : l'.idleBook = l.idleBook := by
  have silent {m : LoopConn σ π} (worked : Worked e l m r) : m.idleBook = l.idleBook := by
    rcases worked.heard with same | heard
    · exact same
    · rw [heard, touch, if_neg fun on => off ⟨on.1, on.2.1⟩]
  cases ended with
  | kept worked => exact silent worked
  | @closed m err worked =>
    rw [← silent worked]
    by_cases dead : (m.conns r).fd = 0
    · rw [closeConn_dead err dead]
    rw [closeConn_open err dead, untrack, if_neg off]
    rfl

/-- Without idle checks the idle book stays empty. -/
theorem Act.unwatched (sound : Sound e l) (act : Act e l op l')
    (empty : l.idleBook = ([], fun _ => none)) : l'.idleBook = ([], fun _ => none) := by
  have served {r : Ref} (attached : Attached l r) (own : op.subject = some r) :=
    ((act.ended sound attached own).unwatched off).trans empty
  cases act with
  | tidy same =>
    rw [same]
    exact empty
  | make => exact empty
  | age lastCheck nowSec checkList touchMap listed known =>
    obtain ⟨list, map⟩ := Prod.mk.inj empty
    refine Prod.ext ?_ (funext fun id => ?_)
    · refine eq_nil_iff_forall_not_mem.mpr fun item member => ?_
      have before := listed item member
      rw [list] at before
      cases before
    cases found : touchMap id with
    | none => exact found
    | some checker =>
      have before := known id checker found
      rw [map] at before
      cases before
  | track r =>
    unfold LoopConn.track
    rw [if_neg fun on => off ⟨on.1, on.2.1⟩]
    exact empty
  | close _ _ attached | send _ attached | read _ _ attached | flush _ _ attached
  | enqueue _ _ _ attached => exact served attached rfl
  | attach r registered fresh small free greeted =>
    exact ((greeted.ended (placed_attached fresh registered)).unwatched off).trans empty
  | drop => exact empty

end

end LoopConn

variable {idx : Nat} {hs : σ} {shared : Bytes} {labels : List (Label π)} {s : Sys σ π}

section

variable (done : Reached e idx hs shared labels s)
include done

/-- The idle book speaks of attached connections only. -/
theorem run_listed (distinct : Distinct s.loop) :
    (∀ item ∈ s.loop.checkList, Attached s.loop item.2) ∧
      ∀ id checker, s.loop.touchMap id = some checker →
        ∃ r, Attached s.loop r ∧ (s.loop.conns r).id = id := by
  by_cases on : e.checkInterval > 0 ∧ e.idleLimit > 0
  · have watched := (run_watched False on.1 on.2 done
      (each_of_forall (fun _ _ _ _ => False.elim) _)).2 distinct
    refine ⟨fun item member => (watched.listed item member).1, fun id checker found => ?_⟩
    obtain ⟨r, there, name⟩ := watched.linked.item id checker found
    exact ⟨r, (watched.listed _ there).1, name⟩
  have empty : s.loop.idleBook = ([], fun _ => none) := by
    refine (run_invariant_all (I := fun s => Wf e s ∧
      s.loop.idleBook = ([], fun _ => none)) (fun s a s' step now => ?_) done
      ⟨boot_wf idx hs shared, rfl⟩).2
    have turn := step_turn now.1 step
    exact ⟨turn.wf, (turn.acts.keeps (I := fun m => m.idleBook = ([], fun _ => none))
      now.1.sound now.2 fun _ _ _ sound _ act => act.unwatched on sound).2⟩
  obtain ⟨list, map⟩ := Prod.mk.inj empty
  rw [list, map]
  exact ⟨forall_mem_nil _, fun _ _ found => (nomatch found)⟩

theorem run_counted : Counted e s.loop := by
  refine (run_invariant_all (I := fun s => Wf e s ∧ Counted e s.loop)
    (fun s a s' step now => ?_) done ⟨boot_wf idx hs shared, ?_⟩).2
  · have turn := step_turn now.1 step
    exact ⟨turn.wf, (turn.acts.keeps (I := Counted e) now.1.sound now.2
      fun _ _ _ sound _ act => act.counted sound).2⟩
  have void (p : EngineConn π → Bool) :
      slots e (boot idx hs shared : Sys σ π).loop p = ∅ := by
    refine Finset.eq_empty_of_forall_notMem fun fd member => ?_
    obtain ⟨r, present, _⟩ := ((boot_wf idx hs shared).sound.mem_slots fd).mp member
    cases present.2
  refine ⟨?_, ?_⟩
  · rw [void]
    rfl
  rw [void]
  rfl

/-- A closed connection is in no table. -/
theorem run_absent {r : Ref} (dead : (s.loop.conns r).fd = 0) :
    (∀ fd, s.loop.fdTable fd ≠ some r) ∧
      (Distinct s.loop → (∀ item ∈ s.loop.checkList, item.2 ≠ r) ∧
        (r < s.loop.nconns → s.loop.touchMap (s.loop.conns r).id = none)) := by
  have wf := ((life_upheld e).always done).1
  refine ⟨fun fd slot => ?_, fun distinct => ?_⟩
  · obtain ⟨same, live, _⟩ := wf.sound.slot fd r slot
    exact live (same ▸ dead)
  obtain ⟨listed, known⟩ := run_listed done distinct
  refine ⟨fun item member same => ?_, fun made => ?_⟩
  · exact (listed item member).1 (same ▸ dead)
  cases found : s.loop.touchMap (s.loop.conns r).id with
  | none => rfl
  | some checker =>
    obtain ⟨q, present, name⟩ := known _ checker found
    have other := (wf.sound.slot _ q present.2).2.2.2.2
    rw [distinct q other r made name] at present
    exact absurd dead present.1

end

/-- The loop's books in every reachable state: the counters are the numbers of its slots,
each set of descriptors holds descriptors of attached connections, the application has been
told once of every attached connection that is gone, and a closed connection is in no
table. The idle book is kept by id, so there it takes distinct ids. -/
theorem books_balance (e : Env σ π) (idx : Nat) (hs : σ) (shared : Bytes)
    (labels : List (Label π)) (s : Sys σ π)
    (done : Reached e idx hs shared labels s) :
    s.loop.count = (slots e s.loop fun _ => true).card ∧
      s.loop.dcount = (slots e s.loop client).card ∧
      (∀ fd, fd ∈ s.loop.writeFds ∨ fd ∈ s.loop.closeOnDrain ∨ fd ∈ s.loop.cmdFlushSet →
        ∃ r, s.loop.connByFD e fd = some r ∧ (s.loop.conns r).fd = fd) ∧
      (∀ r, .connected r ∈ s.loop.trace →
        closings r s.loop.trace = if Attached s.loop r then 0 else 1) ∧
      ∀ r, (s.loop.conns r).fd = 0 → (∀ fd, s.loop.fdTable fd ≠ some r) ∧
        (Distinct s.loop → (∀ item ∈ s.loop.checkList, item.2 ≠ r) ∧
          (r < s.loop.nconns → s.loop.touchMap (s.loop.conns r).id = none)) := by
  obtain ⟨wf, lives⟩ := (life_upheld e).always done
  have counted := run_counted done
  refine ⟨counted.count, counted.dcount, fun fd member => ?_, fun r told => ?_, fun r dead => ?_⟩
  · have filled : s.loop.fdTable fd ≠ none := by
      rcases member with armed | marked | flushed
      · exact wf.sound.armed fd armed
      · exact wf.sound.marked fd marked
      · exact wf.sound.flushed fd flushed
    obtain ⟨r, slot⟩ := Option.ne_none_iff_exists'.mp filled
    obtain ⟨rfl, live, _⟩ := wf.sound.slot fd r slot
    exact ⟨r, wf.sound.found ⟨live, slot⟩, rfl⟩
  · have life := lives r (wf.sound.seen _ told)
    rw [life.reported]
    by_cases live : (s.loop.conns r).fd = 0
    · rw [if_pos ⟨told, live⟩, if_neg fun present => present.1 live]
    · rw [if_neg fun both => live both.2, if_pos (life.held live told)]
  · exact run_absent done dead

/-- Two connections, of which the first is closed by a command. -/
def oneLeaves : List (Label Unit) :=
  arrival 5 (fun _ => .full) ++ arrival 6 (fun _ => .full) ++ request 0 .CMD_CLOSE [] ++ batch 1 []

theorem books_balance_one_leaves :
    ∃ s, run (step Env.watchful) (boot 0 () [0, 0, 0, 0]) oneLeaves = some s ∧
      s.loop.count = 1 ∧ (slots Env.watchful s.loop fun _ => true).card = 1 ∧
      closings 0 s.loop.trace = 1 ∧ closings 1 s.loop.trace = 0 ∧
      (∀ fd, s.loop.fdTable fd ≠ some 0) ∧ ∀ item ∈ s.loop.checkList, item.2 ≠ 0 := by
  obtain ⟨s, ran, count, first, second, gone, present, dead, distinct⟩ : ∃ s,
      run (step Env.watchful) (boot 0 () [0, 0, 0, 0]) oneLeaves = some s ∧
      s.loop.count = 1 ∧ .connected 0 ∈ s.loop.trace ∧ .connected 1 ∈ s.loop.trace ∧
      ¬ Attached s.loop 0 ∧ Attached s.loop 1 ∧ (s.loop.conns 0).fd = 0 ∧ Distinct s.loop :=
    computed
  obtain ⟨slots, _, _, told, absent⟩ := books_balance Env.watchful 0 () _ _ s ran
  have zero := told 0 first
  have one := told 1 second
  rw [if_neg gone] at zero
  rw [if_pos present] at one
  refine ⟨s, ran, count, ?_, zero, one, (absent 0 dead).1, ((absent 0 dead).2 distinct).1⟩
  omega

/-- A table for descriptors of more than 16 bits. -/
def Env.roomy : Env Unit Unit := { Env.watchful with tableSize := 131072 }

/-- The second connection and the third get one id, and the second is closed. -/
def oneIdTwice : List (Label Unit) :=
  arrival 6 (fun _ => .full) ++ arrival 65541 (fun _ => .full) ++ arrival 5 (fun _ => .full) ++
    request 1 .CMD_CLOSE [] ++ batch 1 []

/-- The closed connection is still in the list, and the one that is open is not. -/
theorem closed_still_listed :
    ∃ s, run (step Env.roomy) (boot 0 () [0, 0, 0, 0]) oneIdTwice = some s ∧
      (s.loop.conns 1).id = 12885229568 ∧ (s.loop.conns 2).id = 12885229568 ∧
      (s.loop.conns 1).fd = 0 ∧ Attached s.loop 2 ∧ s.loop.checkList.map Prod.snd = [0, 1] := by
  exact computed

/-- In every reachable state the application has seen each connection in order: it was
announced once and first, and nothing is observed of it once its close was reported. -/
theorem callbacks_in_order (e : Env σ π) (idx : Nat) (hs : σ) (shared : Bytes)
    (labels : List (Label π)) (s : Sys σ π)
    (done : Reached e idx hs shared labels s) (r : Ref)
    (made : r < s.loop.nconns) : Conduct s.loop r :=
  (((life_upheld e).always done).2 r made).conduct

theorem callbacks_in_order_one_leaves :
    ∃ s, run (step Env.watchful) (boot 0 () [0, 0, 0, 0]) oneLeaves = some s ∧
      ¬ Attached s.loop 0 ∧ Attached s.loop 1 ∧ Conduct s.loop 0 ∧ Conduct s.loop 1 := by
  obtain ⟨s, ran, gone, present, two⟩ : ∃ s,
      run (step Env.watchful) (boot 0 () [0, 0, 0, 0]) oneLeaves = some s ∧
      ¬ Attached s.loop 0 ∧ Attached s.loop 1 ∧ s.loop.nconns = 2 := computed
  have told := callbacks_in_order Env.watchful 0 () _ _ s ran
  exact ⟨s, ran, gone, present, told 0 (two ▸ by decide), told 1 (two ▸ by decide)⟩

end Connaxis
