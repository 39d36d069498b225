import Connaxis.IdleList

namespace Connaxis

open LoopConn List Runs Option
open Function (update_apply update update_self update_of_ne)

variable {σ π : Type} {e : Env σ π} {elem : Nat} {checker : ConnChecker}

variable {item : Nat × Ref}

namespace LoopConn

variable {l l' m : LoopConn σ π} {r : Ref}

variable {readBytes n : Int} {answers : List SysRead} {last : Bool}

/-- A `Read` that succeeds is noted in the idle book. -/
theorem receive_heard {inp : Memory.Slice}
    (done : l.receive e r readBytes answers = some (l', n, .got inp last)) :
    l'.idleBook = (l.touch e r).idleBook := by
  unfold receive at done
  dsimp only at done
  split at done
  · cases done
  rename_i h ring recvbuf chosen
  split at done
  · cases done
  rename_i c bytes err served
  have same : c.identity = (l.conns r).identity :=
    ((Works.refl.ring ring).read served : Works e.toConnEnv (l.conns r) c).identity
  split at done
  · cases done
  split at done
  · cases done
  cases done
  refine touch_congr rfl rfl ?_ ?_
  · rw [observe, setConn_self]
    exact congrArg Identity.id same
  rw [observe, setConn_self]
  exact congrArg Identity.client same

theorem updateWriteFd_idleBook : (l.updateWriteFd r).idleBook = l.idleBook := by
  rw [updateWriteFd_books]
  rfl

variable {again : Bool}

/-- The end of a round leaves the idle book alone, unless the connection is closed. -/
theorem respond_idleBook {wantClose : Bool}
    (done : l.respond e r wantClose last = some (l', again)) (live : (l'.conns r).fd ≠ 0) :
    l'.idleBook = l.idleBook := by
  obtain ⟨c, sum, err, -, ends⟩ := respond_ends done
  cases ends with
  | closed => exact absurd (closeConn_fd _) live
  | marked | waiting => exact updateWriteFd_idleBook
  | again => rfl

theorem readRound_heard (done : l.readRound e r readBytes answers = some (l', n, again))
    (live : (l'.conns r).fd ≠ 0) : l'.idleBook = (l.touch e r).idleBook := by
  cases readRound_ends done with
  | failed | broken => exact absurd (closeConn_fd _) live
  | answered received _ responded =>
    have heard := receive_heard received
    exact (respond_idleBook responded live).trans heard

/-- A read event after which the connection is open has been noted in the idle book. -/
theorem processRead_heard {answers : List (List SysRead)}
    (done : l.processRead e r answers = some l') (live : (l'.conns r).fd ≠ 0) :
    l'.idleBook = (l.touch e r).idleBook := by
  -- Further rounds come within the same second.
  refine processRead_rule (P := fun m => (m.touch e r).idleBook = (l.touch e r).idleBook)
    (fun _ once before => Eq.trans ?_ before)
    (fun _ once before live => (readRound_heard once live).trans before) done rfl live
  obtain ⟨_, first, inside, ⟨stop, _⟩ | ⟨_, rfl, _⟩⟩ := readRound_cases once
  · cases stop
  have same := inside.works.identity
  rcases inside.heard with silent | heard
  · refine touch_congr silent ?_ (congrArg Identity.id same) (congrArg Identity.client same)
    rw [inside.books]
  refine (touch_congr heard ?_ ?_ ?_).trans touch_touch
  · rw [touch_books, inside.books]
  · rw [touch_books]
    exact congrArg Identity.id same
  rw [touch_books]
  exact congrArg Identity.client same

/-- Touch values are old ones or the present second. -/
def Renews (now : Int) (l l' : LoopConn σ π) : Prop :=
  ∀ id checker', l'.touchMap id = some checker' →
    checker'.touch = now ∨ ∃ checker, l.touchMap id = some checker ∧ checker'.touch = checker.touch

variable {now : Int}

theorem Renews.of_eq (same : l'.touchMap = l.touchMap) : Renews now l l' := by
  intro id checker' found
  rw [same] at found
  exact .inr ⟨checker', found, rfl⟩

theorem Renews.trans (first : Renews now l m) (second : Renews now m l') : Renews now l l' := by
  intro id checker' found
  rcases second id checker' found with fresh | ⟨checker, before, same⟩
  · exact .inl fresh
  rw [same]
  exact first id checker before

theorem touch_renews : Renews l.nowSec l (l.touch e r) := by
  unfold touch
  split
  · split
    · exact .of_eq rfl
    intro id checker' found
    dsimp only at found
    rw [update_apply] at found
    split at found
    · cases found
      exact .inl rfl
    · exact .inr ⟨checker', found, rfl⟩
  · exact .of_eq rfl

theorem untrack_renews (id : UInt64) : Renews now l (l.untrack e id) := by
  unfold untrack
  split
  · split
    · exact .of_eq rfl
    intro other checker' found
    dsimp only at found
    rw [update_apply] at found
    split at found
    · cases found
    · exact .inr ⟨checker', found, rfl⟩
  · exact .of_eq rfl

theorem Worked.renews (worked : Worked e l m r) : Renews l.nowSec l m := by
  rcases worked.heard with silent | heard
  · exact .of_eq (congrArg Prod.snd silent)
  intro id checker' found
  rw [show m.touchMap = (l.touch e r).touchMap from congrArg Prod.snd heard] at found
  exact touch_renews id checker' found

theorem Ended.renews (ended : Ended e l r l') :
    l'.nowSec = l.nowSec ∧ Renews l.nowSec l l' := by
  cases ended with
  | kept worked => exact ⟨worked.nowSec, worked.renews⟩
  | @closed m err worked =>
    by_cases dead : (m.conns r).fd = 0
    · rw [closeConn_dead err dead]
      exact ⟨worked.nowSec, worked.renews⟩
    rw [closeConn_open err dead]
    refine ⟨worked.nowSec, worked.renews.trans ?_⟩
    exact untrack_renews (m.conns r).id

theorem track_renews : (l.track e r).nowSec = l.nowSec ∧ Renews l.nowSec l (l.track e r) := by
  unfold track
  split
  · refine ⟨rfl, fun id checker' found => ?_⟩
    dsimp only at found
    rw [update_apply] at found
    split at found
    · cases found
      exact .inl rfl
    · exact .inr ⟨checker', found, rfl⟩
  · exact ⟨rfl, .of_eq rfl⟩

variable {op : Op π}

/-- Within a second. -/
theorem Act.renews (sound : Sound e l) (act : Act e l op l') (timeless : op ≠ .age) :
    l'.nowSec = l.nowSec ∧ Renews l.nowSec l l' := by
  have served {r : Ref} (attached : Attached l r) (own : op.subject = some r) :=
    (act.ended sound attached own).renews
  cases act with
  | tidy same =>
    rw [same]
    exact ⟨rfl, .of_eq rfl⟩
  | make => exact ⟨rfl, .of_eq rfl⟩
  | age => exact absurd rfl timeless
  | track r => exact track_renews
  | close _ _ attached | send _ attached | read _ _ attached | flush _ _ attached
  | enqueue _ _ _ attached => exact served attached rfl
  | attach r registered fresh small free greeted =>
    exact (greeted.ended (placed_attached fresh registered)).renews
  | drop => exact ⟨rfl, .of_eq rfl⟩

/-- Elements come into the idle list by `track` only, and for server connections only. -/
theorem Act.items (sound : Sound e l) (act : Act e l op l') (member : item ∈ l'.checkList) :
    item ∈ l.checkList ∨ op = .track item.2 ∧ (l.conns item.2).client = false := by
  have served {r : Ref} (attached : Attached l r) (own : op.subject = some r) :
      item ∈ l.checkList := (act.effect sound attached own).listed item member
  cases act with
  | tidy same =>
    rw [same] at member
    exact .inl member
  | make => exact .inl member
  | age _ _ _ _ listed => exact .inl (listed item member)
  | track r =>
    unfold LoopConn.track at member
    split at member
    · rename_i on
      rcases mem_append.mp member with old | new
      · exact .inl old
      cases mem_singleton.mp new
      refine .inr ⟨rfl, ?_⟩
      simpa using on.2.2
    · exact .inl member
  | close _ _ attached | send _ attached | read _ _ attached | flush _ _ attached
  | enqueue _ _ _ attached => exact .inl (served attached rfl)
  | attach r registered fresh small free greeted =>
    have books := placed_sound sound fresh small free registered
    have attached := placed_attached (e := e) fresh registered
    cases greeted with
    | refused => exact .inl ((closeConn_effect books attached _).listed item member)
    | waits => exact .inl member
    | read answers done =>
      exact .inl ((processRead_effect books attached done).listed item member)
  | drop => exact .inl member

/-- What the idle scan closes is taken from the list, and has been silent for too long. -/
structure Expired (e : Env σ π) (l : LoopConn σ π) (r : Ref) : Prop where
  listed : ∃ elem, (elem, r) ∈ l.checkList
  live : (l.conns r).fd ≠ 0
  silent : ∃ checker, l.touchMap (l.conns r).id = some checker ∧
    l.nowSec - checker.touch > e.idleLimit

/-- A state of the scan, seen from its start. -/
structure Scanning (e : Env σ π) (l m : LoopConn σ π) : Prop where
  clock : m.nowSec = l.nowSec
  listed : ∀ item ∈ m.checkList, item ∈ l.checkList
  known : ∀ id checker, m.touchMap id = some checker → l.touchMap id = some checker
  name : ∀ r, (m.conns r).id = (l.conns r).id ∧ ((m.conns r).fd ≠ 0 → (l.conns r).fd ≠ 0)
  told : ∃ ext, m.trace = l.trace ++ ext ∧
    ∀ o ∈ ext, ∃ r, o = .closed r (some .CLOSE_BY_ANTI_IDLE) ∧ Expired e l r

theorem Scanning.refl (e : Env σ π) (l : LoopConn σ π) : Scanning e l l :=
  ⟨rfl, fun _ member => member, fun _ _ found => found, fun _ => ⟨rfl, id⟩,
    [], (append_nil _).symm, forall_mem_nil _⟩

/-- One round of the scan that closes the front of the list. -/
theorem Scanning.round {rest : List (Nat × Ref)} (scanning : Scanning e l m)
    (front : m.checkList = (elem, r) :: rest) (found : m.touchMap (m.conns r).id = some checker)
    (old : m.nowSec - checker.touch > e.idleLimit) :
    Scanning e l (closeConn e { m with
      checkList := rest
      touchMap := update m.touchMap (m.conns r).id none } r
      (some .CLOSE_BY_ANTI_IDLE)) := by
  obtain ⟨next, shape⟩ : ∃ next : LoopConn σ π, next = { m with
      checkList := rest
      touchMap := update m.touchMap (m.conns r).id none } := ⟨_, rfl⟩
  have first : (elem, r) ∈ m.checkList := front ▸ mem_cons_self
  have dropped : Scanning e l next := by
    rw [shape]
    refine ⟨scanning.clock, fun item member => scanning.listed item ?_,
      fun id entry there => scanning.known id entry ?_, scanning.name, scanning.told⟩
    · rw [front]
      exact mem_cons_of_mem _ member
    dsimp only at there
    rw [update_apply] at there
    split at there
    · cases there
    · exact there
  rw [← shape]
  by_cases dead : (next.conns r).fd = 0
  · rw [closeConn_dead _ dead]
    exact dropped
  have live : (m.conns r).fd ≠ 0 := by
    rw [shape] at dead
    exact dead
  have expired : Expired e l r := by
    refine ⟨⟨elem, scanning.listed _ first⟩, (scanning.name r).2 live, checker, ?_, ?_⟩
    · rw [← (scanning.name r).1]
      exact scanning.known _ _ found
    rw [← scanning.clock]
    exact old
  rw [closeConn_open _ dead]
  obtain ⟨ext, trace, all⟩ := dropped.told
  refine ⟨dropped.clock, fun item member => dropped.listed item (untrack_listed _ item member),
    fun id entry there => dropped.known id entry ?_, fun q => ?_,
    ext ++ [.closed r (some .CLOSE_BY_ANTI_IDLE)], ?_,
    forall_mem_append.mpr ⟨all, forall_mem_singleton.mpr ⟨r, rfl, expired⟩⟩⟩
  · have absent : next.touchMap (next.conns r).id = none := by
      rw [shape]
      exact update_self _ _ _
    have same : next.untrack e (next.conns r).id = next := by
      unfold untrack
      rw [absent]
      split <;> rfl
    rw [same] at there
    exact there
  · by_cases same : q = r
    · rw [same]
      simp only [update_self]
      exact ⟨(dropped.name r).1, fun open' => absurd rfl open'⟩
    simp only [update_of_ne same]
    exact dropped.name q
  · rw [trace, append_assoc]

theorem idleLoop_scanning (rounds : Nat) (scanning : Scanning e l m) :
    Scanning e l (m.idleLoop e rounds) := by
  induction rounds generalizing m with
  | zero => exact scanning
  | succ rounds ih =>
    unfold idleLoop
    split
    · exact scanning
    rename_i elem r rest front
    dsimp only
    split
    · exact scanning
    rename_i checker found
    split
    · rename_i old
      exact ih (scanning.round front found old)
    · exact scanning

theorem onIdle_scanning (e : Env σ π) (l : LoopConn σ π) : Scanning e l (l.onIdle e) := by
  have noted : Scanning e l { l with lastCheck := l.nowSec } :=
    { Scanning.refl e l with }
  unfold onIdle
  split
  · exact noted
  split
  · split
    · exact idleLoop_scanning _ noted
    · exact noted
  · exact .refl e l

end LoopConn

namespace Sys

variable {s s' : Sys σ π} {a : Label π}

/-- The connection that a step attaches or reads. -/
def hears (s : Sys σ π) : Label π → Option Ref
  | .recv _ => match s.pc with
    | .read c => some c
    | _ => none
  | .attach _ _ => s.acceptChan.head?
  | .accepted _ => some s.loop.nconns
  | _ => none

theorem hears_of_admits {r : Ref} (admitted : Admits s a r) : s.hears a = some r := by
  cases a with
  | attach => exact admitted
  | accepted => exact congrArg some admitted.symm
  | _ => exact admitted.elim

/-- Between two calls of `SyncTime` the clock stands still and touch values only become
the present second. -/
theorem step_renews (wf : Wf e s) (done : s.step e a = some s')
    (timeless : ∀ sec, a ≠ .syncTime sec) :
    s'.loop.nowSec = s.loop.nowSec ∧ Renews s.loop.nowSec s.loop s'.loop := by
  by_cases idle : a = .idle
  · subst idle
    dsimp only [step, stepWith] at done
    split at done <;> cases done
    have scanning := onIdle_scanning e s.loop
    exact ⟨scanning.clock, fun id checker' found =>
      .inr ⟨checker', scanning.known id checker' found, rfl⟩⟩
  refine ((step_turn wf done).acts.keeps (I := fun m => m.nowSec = s.loop.nowSec ∧
    Renews s.loop.nowSec s.loop m) wf.sound ⟨rfl, .of_eq rfl⟩
    fun m op m' sound serves act now => ?_).2
  have within := act.renews sound fun aging => by
    subst aging
    rcases serves with is | ⟨sec, is⟩
    · exact idle is
    · exact timeless sec is
  rw [now.1] at within
  exact ⟨within.1, now.2.trans within.2⟩

/-- New elements of the idle list belong to the connection that is being attached. -/
theorem step_items (wf : Wf e s) (done : s.step e a = some s') (member : item ∈ s'.loop.checkList) :
    item ∈ s.loop.checkList ∨ s.hears a = some item.2 := by
  refine ((step_turn wf done).acts.keeps (I := fun m => ∀ item ∈ m.checkList,
    item ∈ s.loop.checkList ∨ s.hears a = some item.2) wf.sound (fun _ there => .inl there)
    fun m op m' sound serves act before item there => ?_).2 item member
  rcases act.items sound there with old | ⟨rfl, _⟩
  · exact before item old
  · exact .inr (hears_of_admits serves)

/-- The idle list holds server connections. -/
theorem step_servers (wf : Wf e s) (done : s.step e a = some s')
    (servers : ∀ item ∈ s.loop.checkList, (s.loop.conns item.2).client = false) :
    ∀ item ∈ s'.loop.checkList, (s'.loop.conns item.2).client = false := by
  refine ((step_turn wf done).acts.keeps (I := fun m => ∀ item ∈ m.checkList,
    (m.conns item.2).client = false) wf.sound servers
    fun m op m' sound serves act before item there => ?_).2
  have kept (made : item.2 < m.nconns) :
      (m'.conns item.2).client = (m.conns item.2).client :=
    congrArg Identity.client (act.kept sound made).name
  rcases act.items sound there with old | ⟨rfl, server⟩
  · rw [kept (sound.listed item old).1]
    exact before item old
  cases act with
  | track _ attached =>
    rw [kept (sound.slot _ _ attached.2).2.2.2.2]
    exact server

/-- A connection that is let in and stays open is entered with the present second. -/
theorem attachClient_entered {l l' : LoopConn σ π} {r : Ref} {registered : Bool}
    {answers : List (List SysRead)} (sound : Sound e l) (fresh : Fresh l r)
    (done : l.attachClient e r registered answers = some l') (live : (l'.conns r).fd ≠ 0)
    (listed : (elem, r) ∈ l'.checkList) (found : l'.touchMap (l'.conns r).id = some checker) :
    checker.touch = l.nowSec := by
  obtain ⟨acts, now, unknown, free⟩ :=
    closePrev_acts (P := fun _ op => op ≠ .age) sound fresh fun _ _ => nofun
  have clock : (l.closePrev e r).nowSec = l.nowSec :=
    (acts.keeps (I := fun m => m.nowSec = l.nowSec) sound rfl
      fun m op m' sound timeless act before =>
        (act.renews sound timeless).1.trans before).2
  cases attachClient_cases done now unknown free with
  | dropped =>
    rw [setConn_self] at live
    exact absurd rfl live
  | closed act gone => exact absurd gone live
  | @kept next act attached =>
    have second : next.nowSec = l.nowSec := (act.renews now nofun).1.trans clock
    have loose (item : Nat × Ref) (there : item ∈ next.checkList) : item.2 ≠ r := by
      intro same
      rcases act.items now there with old | ⟨never, _⟩
      · have open' : ((l.closePrev e r).conns item.2).fd ≠ 0 := same ▸ unknown.live
        exact unknown.loose _ (same ▸ ((now.listed item old).2 open').2)
      · cases never
    unfold LoopConn.track at listed found
    split at listed
    · rename_i on
      rw [if_pos on] at found
      dsimp only at found
      rw [update_self] at found
      cases found
      exact second
    · exact absurd rfl (loose _ listed)

/-- A connection that a step attaches or reads, and leaves open, carries the present
second. -/
theorem step_entered {r : Ref} (on : e.checkInterval > 0 ∧ e.idleLimit > 0) (wf : Wf e s)
    (done : s.step e a = some s')
    (servers : ∀ item ∈ s'.loop.checkList, (s'.loop.conns item.2).client = false)
    (heard : s.hears a = some r) (live : (s'.loop.conns r).fd ≠ 0)
    (listed : (elem, r) ∈ s'.loop.checkList)
    (found : s'.loop.touchMap (s'.loop.conns r).id = some checker) :
    checker.touch = s.loop.nowSec := by
  cases a with
  | recv answers =>
    dsimp only [hears] at heard
    split at heard
    · rename_i c at_
      cases heard
      simp only [step, stepWith, at_] at done
      split at done
      · cases done
      rename_i l read
      cases done
      have attached := wf.busy r (by rw [at_]; rfl)
      have effect := processRead_effect wf.sound attached read
      have name : (l.conns r).id = (s.loop.conns r).id := congrFun effect.ids r
      have server : (s.loop.conns r).client = false :=
        (effect.client r).symm.trans (servers _ listed)
      have touched : l.touchMap = (s.loop.touch e r).touchMap :=
        congrArg Prod.snd (processRead_heard read live)
      rw [name, touched, touch, if_pos ⟨on.1, on.2, by rw [server]; rfl⟩] at found
      split at found
      · rename_i absent
        rw [absent] at found
        cases found
      dsimp only at found
      rw [update_self] at found
      cases found
      rfl
    · cases heard
  | attach registered answers =>
    obtain ⟨c, rest, n, l, queue, _, attach, rfl⟩ := step_attach done
    have same : c = r := by
      dsimp only [hears] at heard
      rw [queue] at heard
      exact some.inj heard
    subst same
    exact attachClient_entered wf.sound (wf.queued c (queue ▸ mem_cons_self)) attach live
      listed found
  | accepted outcome =>
    cases heard
    dsimp only [step, stepWith] at done
    split at done
    · cases acceptStep_cases done with
      | passed =>
        exact absurd (wf.sound.listed _ listed).1 (Nat.lt_irrefl _)
      | attached fd gen sock registered seq id pc free _ nonzero attach =>
        obtain ⟨books, fresh⟩ := wf.newcomer_fresh seq id sock nonzero
        have entered := attachClient_entered books fresh attach live listed found
        exact entered
    · cases done
  | _ => cases heard

end Sys

/-- The loop with the wall clock, in units of which some make a second. `next` is when
`Server.stat` calls `SyncTime` next, and `synced` tells that it has done so before. For
each connection, `heard` is when it was attached or last read, and `informed` what `synced`
was then. -/
structure Timed (σ π : Type) where
  sys : Sys σ π
  now : Nat
  next : Nat
  synced : Bool
  heard : Ref → Nat
  informed : Ref → Bool

/-- Time passes, `Server.stat` ticks, or anything else happens. -/
inductive Happening (π : Type)
  | pass (duration : Nat)
  | tick
  | act (a : Label π)

namespace Timed

variable {t t' : Timed σ π} {unit : Nat}

/-- The time of the connection that is attached or read is noted. -/
def note (t : Timed σ π) (sys : Sys σ π) : Option Ref → Timed σ π
  | none => { t with sys := sys }
  | some r => { t with sys := sys, heard := Function.update t.heard r t.now,
                       informed := Function.update t.informed r t.synced }

def step (e : Env σ π) (unit : Nat) (t : Timed σ π) : Happening π → Option (Timed σ π)
  | .pass duration =>
    if t.now + duration ≤ t.next then some { t with now := t.now + duration } else none
  | .tick =>
    if t.now = t.next then
      match t.sys.step e (.syncTime (t.now / unit : Nat)) with
      | none => none
      | some sys => some { t with sys := sys, next := t.next + unit, synced := true }
    else none
  | .act (.syncTime _) => none
  | .act a =>
    match t.sys.step e a with
    | none => none
    | some sys => some (t.note sys (t.sys.hears a))

/-- The loop starts at the time `start` and is told the time a second later. -/
def boot (idx : Nat) (hs : σ) (shared : Bytes) (start unit : Nat) : Timed σ π :=
  ⟨Sys.boot idx hs shared, start, start + unit, false, fun _ => 0, fun _ => false⟩

/-- The loop's clock is behind, by less than two seconds, and so are touch values. -/
structure Timely (e : Env σ π) (unit : Nat) (t : Timed σ π) : Prop where
  wf : Sys.Wf e t.sys
  servers : ∀ item ∈ t.sys.loop.checkList, (t.sys.loop.conns item.2).client = false
  due : t.now ≤ t.next
  behind : t.synced = true → t.sys.loop.nowSec * unit ≤ t.now ∧
    (t.next : Int) < (t.sys.loop.nowSec + 2) * unit
  past : ∀ r, t.heard r ≤ t.now
  known : ∀ r, t.informed r = true → t.synced = true
  touched : ∀ elem r checker, (elem, r) ∈ t.sys.loop.checkList → (t.sys.loop.conns r).fd ≠ 0 →
    t.sys.loop.touchMap (t.sys.loop.conns r).id = some checker → t.informed r = true →
    (t.heard r : Int) < (checker.touch + 2) * unit

theorem note_sys (t : Timed σ π) (sys : Sys σ π) (heard : Option Ref) :
    t.note sys heard = { t with sys := sys, heard := (t.note sys heard).heard,
                                informed := (t.note sys heard).informed } := by
  cases heard <;> rfl

theorem note_heard (t : Timed σ π) (sys : Sys σ π) (heard : Option Ref) (r : Ref) :
    (t.note sys heard).heard r = (if heard = some r then t.now else t.heard r) ∧
      (t.note sys heard).informed r = if heard = some r then t.synced else t.informed r := by
  cases heard with
  | none => exact ⟨rfl, rfl⟩
  | some q =>
    by_cases same : r = q
    · subst same
      simp only [note, update_self, if_true, and_self]
    have other : some q ≠ some r := fun back => same (some.inj back).symm
    simp only [note, update_of_ne same, if_neg other, and_self]

theorem Timely.act {a : Label π} {sys : Sys σ π} (on : e.checkInterval > 0 ∧ e.idleLimit > 0)
    (timely : Timely e unit t) (done : t.sys.step e a = some sys)
    (timeless : ∀ sec, a ≠ .syncTime sec) : Timely e unit (t.note sys (t.sys.hears a)) := by
  obtain ⟨clock, renews⟩ := Sys.step_renews timely.wf done timeless
  have servers := Sys.step_servers timely.wf done timely.servers
  have present (r : Ref) (is : t.synced = true) :
      (t.now : Int) < (t.sys.loop.nowSec + 2) * unit := by
    have := timely.due
    have := (timely.behind is).2
    omega
  have notes := note_heard t sys (t.sys.hears a)
  rw [note_sys]
  refine ⟨(Sys.step_turn timely.wf done).wf, servers, timely.due, ?_, fun r => ?_, fun r => ?_, ?_⟩
  · rw [clock]
    exact timely.behind
  · rw [(notes r).1]
    split
    · exact Nat.le_refl _
    · exact timely.past r
  · rw [(notes r).2]
    split
    · exact id
    · exact timely.known r
  intro elem r checker listed live found informed
  rw [(notes r).2] at informed
  rw [(notes r).1]
  by_cases heard : t.sys.hears a = some r
  · rw [if_pos heard] at informed ⊢
    rw [Sys.step_entered on timely.wf done servers heard live listed found]
    exact present r informed
  rw [if_neg heard] at informed ⊢
  rcases Sys.step_items timely.wf done listed with old | new
  · have made := (timely.wf.sound.listed _ old).1
    obtain ⟨_, name, keeps⟩ := Sys.step_names timely.wf done made
    rcases renews _ checker found with fresh | ⟨before, there, same⟩
    · rw [fresh]
      have := timely.past r
      have := present r (timely.known r informed)
      omega
    have known : (sys.loop.conns r).id = (t.sys.loop.conns r).id := congrArg Identity.id name
    rw [known] at there
    rw [same]
    exact timely.touched elem r before old (keeps live ▸ live) there informed
  · exact absurd new heard

/-- The second that `SyncTime` passes on is over within two seconds of its beginning. -/
theorem second_bounds (now : Nat) (positive : 0 < unit) :
    ((now / unit : Nat) : Int) * unit ≤ now ∧
      ((now + unit : Nat) : Int) < ((now / unit : Nat) + 2) * unit := by
  have low := Nat.div_mul_le_self now unit
  have high : now < now / unit * unit + unit := Nat.lt_div_mul_add positive
  constructor
  · exact_mod_cast low
  rw [Int.add_mul]
  have above : (now : Int) < (now / unit : Nat) * unit + unit := by exact_mod_cast high
  push_cast at above ⊢
  omega

theorem Timely.step {h : Happening π} (on : e.checkInterval > 0 ∧ e.idleLimit > 0)
    (positive : 0 < unit) (timely : Timely e unit t) (done : t.step e unit h = some t') :
    Timely e unit t' := by
  cases h with
  | pass duration =>
    dsimp only [Timed.step] at done
    split at done
    · rename_i early
      cases done
      refine { timely with due := early, behind := fun is => ?_, past := fun r => ?_ }
      · obtain ⟨low, high⟩ := timely.behind is
        dsimp only
        omega
      have := timely.past r
      dsimp only
      omega
    · cases done
  | tick =>
    dsimp only [Timed.step] at done
    split at done
    · rename_i due
      split at done
      · cases done
      rename_i sys synced
      have wf := (Sys.step_turn timely.wf synced).wf
      cases synced
      cases done
      obtain ⟨low, high⟩ := second_bounds t.now positive
      refine ⟨wf, timely.servers, ?_, fun _ => ⟨low, ?_⟩, timely.past, fun _ _ => rfl,
        timely.touched⟩
      · dsimp only
        omega
      rw [← due]
      exact high
    · cases done
  | act a =>
    cases a with
    | syncTime sec => cases done
    | _ =>
      dsimp only [Timed.step] at done
      split at done
      · cases done
      rename_i sys acted
      cases done
      exact timely.act on acted nofun

theorem run_timely {idx : Nat} {hs : σ} {shared : Bytes} {start : Nat}
    {happenings : List (Happening π)} (on : e.checkInterval > 0 ∧ e.idleLimit > 0)
    (positive : 0 < unit)
    (done : run (Timed.step e unit) (Timed.boot idx hs shared start unit) happenings =
      some t) : Timely e unit t := by
  refine run_invariant_all (fun _ _ _ step timely => timely.step on positive step) done ?_
  exact ⟨Sys.boot_wf idx hs shared, forall_mem_nil _, Nat.le_add_right _ _,
    fun never => (nomatch never), fun _ => Nat.zero_le _, fun _ never => (nomatch never),
    fun _ _ _ member => (nomatch member)⟩

end Timed

/-- Without idle checks nobody is told anything. -/
theorem LoopConn.onIdle_off {l : LoopConn σ π} (off : ¬ (e.checkInterval > 0 ∧ e.idleLimit > 0)) :
    (l.onIdle e).trace = l.trace := by
  unfold onIdle
  split
  · rfl
  split
  · rename_i due
    rw [if_neg fun limits => off ⟨due.1, limits⟩]
  · rfl

/-- An idle scan closes a connection only if at least the limit less one second has passed
since it was attached and since it was last read, provided the loop knew the time then. -/
theorem no_early_idle_close (e : Env σ π) (idx : Nat) (hs : σ) (shared : Bytes)
    (start unit : Nat) (positive : 0 < unit) (happenings : List (Happening π)) (t t' : Timed σ π)
    (done : run (Timed.step e unit) (Timed.boot idx hs shared start unit) happenings = some t)
    (scan : t.step e unit (.act .idle) = some t') (ext : List Obs)
    (told : t'.sys.loop.trace = t.sys.loop.trace ++ ext) (r : Ref)
    (closed : .closed r (some .CLOSE_BY_ANTI_IDLE) ∈ ext) (informed : t.informed r = true) :
    (e.idleLimit - 1) * unit ≤ (t.now : Int) - t.heard r := by
  have scanned : t'.sys.loop = t.sys.loop.onIdle e := by
    dsimp only [Timed.step, Sys.step, Sys.stepWith] at scan
    split at scan
    · cases scan
    rename_i sys acted
    split at acted
    · cases acted
      cases scan
      rfl
    · cases acted
  rw [scanned] at told
  by_cases on : e.checkInterval > 0 ∧ e.idleLimit > 0
  · have timely := Timed.run_timely on positive done
    obtain ⟨ext', trace, all⟩ := (onIdle_scanning e t.sys.loop).told
    rw [trace] at told
    rw [← List.append_cancel_left told] at closed
    obtain ⟨q, same, ⟨elem, listed⟩, live, checker, found, silent⟩ := all _ closed
    cases same
    have touched := timely.touched elem r checker listed live found informed
    have behind := (timely.behind (timely.known r informed)).1
    have later : (checker.touch + e.idleLimit + 1) * unit ≤ t.sys.loop.nowSec * unit := by
      refine Int.mul_le_mul_of_nonneg_right ?_ (Int.natCast_nonneg unit)
      omega
    rw [Int.add_mul, Int.add_mul] at later
    rw [Int.add_mul] at touched
    rw [Int.sub_mul]
    omega
  rw [onIdle_off on] at told
  rw [List.self_eq_append_right.mp told] at closed
  cases closed

/-- Idle connections are closed after `limit` seconds. -/
def Env.limited (limit : Int) : Env Unit Unit :=
  { Env.plain (fun b => (b, false)) 64 with checkInterval := 1, idleLimit := limit }

/-- A second goes by. -/
def oneSecond : List (Happening Unit) := [.pass 1, .tick]

/-- The loop looks at its idle list, finds nothing to do and goes back to the poller. -/
def firstCheck : List (Happening Unit) := .act .idle :: List.replicate 9 (.act .tau)

theorem no_early_idle_close_three_seconds : ∃ t t',
    run (Timed.step (Env.limited 2) 1) (Timed.boot 0 () [0, 0, 0, 0] 1000 1)
      (oneSecond ++ (arrival 5 fun _ => .full).map .act ++ firstCheck ++ oneSecond ++ oneSecond ++
        oneSecond) = some t ∧
    t.step (Env.limited 2) 1 (.act .idle) = some t' ∧
    t'.sys.loop.trace = t.sys.loop.trace ++ [.closed 0 (some .CLOSE_BY_ANTI_IDLE)] ∧
    (2 - 1) * (1 : Nat) ≤ (t.now : Int) - t.heard 0 := by
  obtain ⟨t, ran, steps, informed, after⟩ : ∃ t,
      run (Timed.step (Env.limited 2) 1) (Timed.boot 0 () [0, 0, 0, 0] 1000 1)
        (oneSecond ++ (arrival 5 fun _ => .full).map .act ++ firstCheck ++ oneSecond ++ oneSecond ++
          oneSecond) = some t ∧
      (t.step (Env.limited 2) 1 (.act .idle)).isSome = true ∧ t.informed 0 = true ∧
      ∀ t' ∈ t.step (Env.limited 2) 1 (.act .idle), t'.sys.loop.trace = t.sys.loop.trace ++
        [.closed 0 (some .CLOSE_BY_ANTI_IDLE)] := computed
  obtain ⟨t', scan⟩ := isSome_iff_exists.mp steps
  exact ⟨t, t', ran, scan, after t' scan, no_early_idle_close (Env.limited 2) 0 () _ 1000 1
    (by decide) _ t t' ran scan _ (after t' scan) 0 List.mem_cons_self informed⟩

/-- A connection that is attached before the first `SyncTime` carries the second 0, and two
seconds later it is closed for having been silent for more than sixty. -/
theorem closed_two_seconds_after_attach : ∃ t t',
    run (Timed.step (Env.limited 60) 1) (Timed.boot 0 () [0, 0, 0, 0] 1000 1)
      ((arrival 5 fun _ => .full).map .act ++ oneSecond ++ firstCheck ++ oneSecond) = some t ∧
    t.step (Env.limited 60) 1 (.act .idle) = some t' ∧
    t'.sys.loop.trace = t.sys.loop.trace ++ [.closed 0 (some .CLOSE_BY_ANTI_IDLE)] ∧
    t.now = 1002 ∧ t.heard 0 = 1000 := by
  obtain ⟨t, ran, steps, now, heard, after⟩ : ∃ t,
      run (Timed.step (Env.limited 60) 1) (Timed.boot 0 () [0, 0, 0, 0] 1000 1)
        ((arrival 5 fun _ => .full).map .act ++ oneSecond ++ firstCheck ++ oneSecond) = some t ∧
      (t.step (Env.limited 60) 1 (.act .idle)).isSome = true ∧ t.now = 1002 ∧ t.heard 0 = 1000 ∧
      ∀ t' ∈ t.step (Env.limited 60) 1 (.act .idle), t'.sys.loop.trace = t.sys.loop.trace ++
        [.closed 0 (some .CLOSE_BY_ANTI_IDLE)] := computed
  obtain ⟨t', scan⟩ := isSome_iff_exists.mp steps
  exact ⟨t, t', ran, scan, after t' scan, now, heard⟩

end Connaxis
