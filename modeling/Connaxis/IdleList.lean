import Connaxis.IdleBook
import Connaxis.LoopEnds

namespace Connaxis

open List

variable {σ π : Type} {e : Env σ π}

namespace LoopConn

variable {l l' m : LoopConn σ π} {r : Ref} {but : Ref → Prop} {timed : Prop}

def ids (l : LoopConn σ π) (r : Ref) : UInt64 := (l.conns r).id

/-- No two connections were given one id. -/
def Distinct (l : LoopConn σ π) : Prop :=
  ∀ q < l.nconns, ∀ r < l.nconns, l.ids q = l.ids r → q = r

instance (l : LoopConn σ π) : Decidable (Distinct l) :=
  inferInstanceAs (Decidable (∀ q < l.nconns, ∀ r < l.nconns, _))

/-- The touch values of the connections in `checkList`, in its order. -/
def line (l : LoopConn σ π) : List (Ref × Int) := IdleBook.line l.ids l.idleBook

/-- The idle book is in order and lists the attached connections that are not clients; of
those, `but` may be missing. It is sorted by touch values if the clock is `timed`, that is,
never turned back. -/
structure Watched (timed : Prop) (l : LoopConn σ π) (but : Ref → Prop) : Prop where
  linked : IdleBook.Linked l.ids l.elems l.idleBook
  ordered : timed → Aging.Ordered l.nowSec l.line
  listed : ∀ item ∈ l.checkList, Attached l item.2 ∧ (l.conns item.2).client = false
  complete : ∀ r, Attached l r → (l.conns r).client = false → ¬ but r →
    ∃ elem, (elem, r) ∈ l.checkList

theorem Act.distinct_of {op : Op π} (sound : Sound e l) (act : Act e l op l')
    (distinct : Distinct l') : Distinct l := by
  intro q made r made' same
  have kept {q : Ref} (made : q < l.nconns) : l'.ids q = l.ids q :=
    congrArg Identity.id (act.kept sound made).name
  refine distinct q (act.made sound made) r (act.made sound made') ?_
  rw [kept made, kept made']
  exact same

theorem Acts.distinct_of {P : LoopConn σ π → Op π → Prop} (sound : Sound e l)
    (acts : Acts e P l l') (distinct : Distinct l') : Distinct l :=
  (acts.keeps (I := fun m => Distinct m → Distinct l) sound id
    fun _ _ _ now _ act before unique => before (act.distinct_of now unique)).2 distinct

theorem Distinct.of_eq (distinct : Distinct l) (ids : l'.ids = l.ids)
    (nconns : l'.nconns = l.nconns) : Distinct l' := by
  unfold Distinct
  rw [ids, nconns]
  exact distinct

theorem Effect.ids (effect : Effect l l' r) : l'.ids = l.ids := by
  funext q
  by_cases same : q = r
  · rw [same]
    exact congrArg Identity.id effect.name
  · exact congrArg EngineConn.id (effect.others q same)

theorem Effect.client (effect : Effect l l' r) (q : Ref) :
    (l'.conns q).client = (l.conns q).client := by
  by_cases same : q = r
  · rw [same]
    exact congrArg Identity.client effect.name
  · exact congrArg EngineConn.client (effect.others q same)

variable {open' : Ref → Prop}

theorem SoundBut.own (sound : SoundBut e l open') (distinct : Distinct l) (made : r < l.nconns) :
    IdleBook.Own l.ids l.idleBook r :=
  fun item member same => distinct item.2 (sound.listed item member).1 r made same

theorem touch_idleBook (checks : e.checkInterval > 0) (limits : e.idleLimit > 0) :
    (l.touch e r).idleBook =
      if (l.conns r).client then l.idleBook else l.idleBook.hear (l.ids r) l.nowSec := by
  unfold touch IdleBook.hear
  cases client : (l.conns r).client with
  | true => simp
  | false =>
    simp only [checks, limits, Bool.not_false, and_self, if_true, Bool.false_eq_true, if_false,
      idleBook, ids]
    cases l.touchMap (l.conns r).id <;> rfl

theorem untrack_idleBook (checks : e.checkInterval > 0) (limits : e.idleLimit > 0) (id : UInt64) :
    (l.untrack e id).idleBook = l.idleBook.forget id := by
  unfold untrack IdleBook.forget
  simp only [checks, limits, and_self, if_true, idleBook]
  cases l.touchMap id <;> rfl

/-- The book did not change, and whatever is still asked for was asked for before. -/
theorem Watched.of_same {but' : Ref → Prop} (watched : Watched timed l but)
    (book : l'.idleBook = l.idleBook) (elems : l'.elems = l.elems)
    (clock : timed → l.nowSec ≤ l'.nowSec)
    (ids : ∀ item ∈ l.checkList, l'.ids item.2 = l.ids item.2)
    (listed : ∀ item ∈ l.checkList, Attached l' item.2 ∧ (l'.conns item.2).client = false)
    (complete : ∀ r, Attached l' r → (l'.conns r).client = false → ¬ but' r →
      Attached l r ∧ (l.conns r).client = false ∧ ¬ but r) : Watched timed l' but' := by
  have list : l'.checkList = l.checkList := congrArg Prod.fst book
  have map : l'.touchMap = l.touchMap := congrArg Prod.snd book
  have lines : l'.line = l.line := by
    unfold line IdleBook.line
    rw [book]
    refine map_congr_left fun item member => ?_
    rw [IdleBook.stamp, ids item member]
    rfl
  refine ⟨⟨?_, ?_, ?_, ?_⟩, ?_, ?_, ?_⟩
  · rw [book]
    exact watched.linked.numbered
  · rw [book, elems]
    exact watched.linked.below
  · intro item member
    rw [book] at member ⊢
    rw [ids item member]
    exact watched.linked.entry item member
  · intro id checker found
    rw [book] at found ⊢
    obtain ⟨q, there, name⟩ := watched.linked.item id checker found
    exact ⟨q, there, (ids _ there).trans name⟩
  · intro sure
    rw [lines]
    exact (watched.ordered sure).later (clock sure)
  · rw [list]
    exact listed
  intro r attached server asked
  rw [list]
  obtain ⟨before, same, needed⟩ := complete r attached server asked
  exact watched.complete r before same needed

/-- The connections of the list are those of the line. -/
theorem mem_line_refs {q : Ref} :
    (∃ elem, (elem, q) ∈ l.checkList) ↔ q ∈ l.line.map Prod.fst := by
  rw [line, IdleBook.line_refs, mem_map]
  constructor
  · rintro ⟨elem, there⟩
    exact ⟨_, there, rfl⟩
  rintro ⟨item, there, rfl⟩
  exact ⟨item.1, there⟩

theorem Worked.ids (worked : Worked e l m r) : m.ids = l.ids := by
  funext q
  by_cases same : q = r
  · rw [same]
    exact congrArg Identity.id worked.same
  · exact congrArg EngineConn.id (worked.others q same)

theorem Worked.client (worked : Worked e l m r) (q : Ref) :
    (m.conns q).client = (l.conns q).client := by
  by_cases same : q = r
  · rw [same]
    exact congrArg Identity.client worked.same
  · exact congrArg EngineConn.client (worked.others q same)

theorem Worked.attached (worked : Worked e l m r) (q : Ref) : Attached m q ↔ Attached l q := by
  have fd : (m.conns q).fd = (l.conns q).fd := by
    by_cases same : q = r
    · rw [same]
      exact worked.fd_eq
    · exact congrArg EngineConn.fd (worked.others q same)
  rw [Attached, Attached, fd, worked.table]

section

variable (checks : e.checkInterval > 0) (limits : e.idleLimit > 0)
include checks limits

section

variable (sound : SoundBut e l open')
include sound

section

variable (distinct : Distinct l)
include distinct

section

variable (attached : Attached l r)
include attached

/-- Work that keeps the connection moves it to the back of the line at most. -/
theorem Worked.watched (worked : Worked e l m r) (watched : Watched timed l but) :
    Watched timed m but := by
  have own := sound.own distinct (sound.slot _ r attached.2).2.2.2.2
  have held (item : Nat × Ref) (member : item ∈ m.checkList) :
      Attached m item.2 ∧ (m.conns item.2).client = false := by
    rw [worked.attached, worked.client]
    exact watched.listed item (worked.listed item member)
  have quiet (book : m.idleBook = l.idleBook) : Watched timed m but := by
    have list : m.checkList = l.checkList := congrArg Prod.fst book
    refine watched.of_same book worked.elems (fun _ => le_of_eq worked.nowSec.symm)
      (fun item _ => congrFun worked.ids item.2) (list ▸ held) ?_
    intro q present server asked
    rw [worked.attached] at present
    rw [worked.client] at server
    exact ⟨present, server, asked⟩
  rcases worked.heard with silent | heard
  · exact quiet silent
  rw [touch_idleBook checks limits] at heard
  split at heard
  · exact quiet heard
  cases found : l.touchMap (l.ids r) with
  | none =>
    refine quiet (heard.trans ?_)
    unfold IdleBook.hear
    rw [show l.idleBook.2 (l.ids r) = none from found]
  | some checker =>
    have moved (item : Nat × Ref) (member : item ∈ l.checkList) : item ∈ m.checkList := by
      rw [show m.checkList = (l.idleBook.hear (l.ids r) l.nowSec).1 from
        congrArg Prod.fst heard, IdleBook.hear,
        show l.idleBook.2 (l.ids r) = some checker from found]
      rw [mem_append, mem_filter, mem_filter]
      by_cases same : item.1 = checker.elem
      · exact .inr ⟨member, decide_eq_true same⟩
      · exact .inl ⟨member, decide_eq_true same⟩
    refine ⟨?_, ?_, held, ?_⟩
    · rw [worked.ids, worked.elems, heard]
      exact watched.linked.hear own _
    · intro sure
      rw [line, worked.ids, worked.nowSec, heard, IdleBook.line_hear watched.linked own _ found]
      exact (watched.ordered sure).refresh r
    intro q present server asked
    rw [worked.attached] at present
    rw [worked.client] at server
    obtain ⟨elem, there⟩ := watched.complete q present server asked
    exact ⟨elem, moved _ there⟩

/-- A connection that is closed leaves the book, and nobody else does. -/
theorem Worked.closed_watched (worked : Worked e l m r) (err : Option CloseErr)
    (watched : Watched timed m but) :
    Watched timed (m.closeConn e r err) but ∧
      (m.closeConn e r err).line = Aging.remove m.line r := by
  have effect := worked.toApart.closed sound attached err
  have own : IdleBook.Own m.ids m.idleBook r := by
    rw [worked.ids]
    exact fun item member =>
      sound.own distinct (sound.slot _ r attached.2).2.2.2.2 item (worked.listed item member)
  have live : (m.conns r).fd ≠ 0 := by
    rw [worked.fd_eq]
    exact attached.1
  have ids : (m.closeConn e r err).ids = m.ids := effect.ids.trans worked.ids.symm
  have client (q : Ref) : ((m.closeConn e r err).conns q).client = (m.conns q).client :=
    (effect.client q).trans (worked.client q).symm
  have book : (m.closeConn e r err).idleBook = m.idleBook.forget (m.ids r) := by
    rw [← untrack_idleBook checks limits, closeConn_open err live]
    rfl
  have elems : (m.closeConn e r err).elems = m.elems := by rw [closeConn_open err live]
  have clock : (m.closeConn e r err).nowSec = m.nowSec := by rw [closeConn_open err live]
  have lines : (m.closeConn e r err).line = Aging.remove m.line r := by
    rw [line, ids, book]
    exact IdleBook.line_forget watched.linked own
  have member_iff (q : Ref) : (∃ elem, (elem, q) ∈ (m.closeConn e r err).checkList) ↔
      (∃ elem, (elem, q) ∈ m.checkList) ∧ q ≠ r := by
    rw [mem_line_refs, mem_line_refs, lines, Aging.remove, mem_map, mem_map]
    constructor
    · rintro ⟨entry, there, rfl⟩
      obtain ⟨inside, other⟩ := mem_filter.mp there
      exact ⟨⟨entry, inside, rfl⟩, of_decide_eq_true other⟩
    rintro ⟨⟨entry, there, rfl⟩, other⟩
    exact ⟨entry, mem_filter.mpr ⟨there, decide_eq_true other⟩, rfl⟩
  have still {q : Ref} (other : q ≠ r) :
      Attached (m.closeConn e r err) q ↔ Attached m q :=
    (effect.attached_iff attached other).trans (worked.attached q).symm
  refine ⟨⟨?_, ?_, ?_, ?_⟩, lines⟩
  · rw [ids, elems, book]
    exact watched.linked.forget own
  · intro sure
    rw [lines, clock]
    exact (watched.ordered sure).remove r
  · intro item member
    obtain ⟨⟨elem, before⟩, other⟩ := (member_iff item.2).mp ⟨item.1, member⟩
    rw [still other, client item.2]
    exact watched.listed (elem, item.2) before
  intro q present server asked
  have other : q ≠ r := by
    intro same
    rw [same] at present
    exact present.1 (closeConn_fd err)
  rw [still other] at present
  rw [client q] at server
  exact (member_iff q).mpr ⟨watched.complete q present server asked, other⟩

theorem Ended.watched (ended : Ended e l r l') (watched : Watched timed l but) :
    Watched timed l' but := by
  cases ended with
  | kept worked => exact worked.watched checks limits sound distinct attached watched
  | closed err worked =>
    have now := worked.watched checks limits sound distinct attached watched
    exact (worked.closed_watched checks limits sound distinct attached err now).1

/-- A connection that has got its slot is watched from now on. -/
theorem track_watched (unlisted : ∀ item ∈ l.checkList, item.2 ≠ r)
    (watched : Watched timed l (· = r)) : Watched timed (l.track e r) fun _ => False := by
  have own := sound.own distinct (sound.slot _ r attached.2).2.2.2.2
  unfold track
  cases client : (l.conns r).client with
  | true =>
    rw [if_neg (by simp)]
    refine watched.of_same rfl rfl (fun _ => le_refl _) (fun _ _ => rfl) watched.listed
      fun q present server _ => ⟨present, server, ?_⟩
    rintro rfl
    rw [client] at server
    cases server
  | false =>
    rw [if_pos ⟨checks, limits, rfl⟩]
    have absent : l.touchMap (l.ids r) = none := by
      cases found : l.touchMap (l.ids r) with
      | none => rfl
      | some checker =>
        obtain ⟨q, there, name⟩ := watched.linked.item _ checker found
        exact absurd (own _ there name) (unlisted _ there)
    refine ⟨watched.linked.enter absent _, ?_, ?_, ?_⟩
    · intro sure
      change Aging.Ordered l.nowSec
        (IdleBook.line l.ids (l.idleBook.enter r (l.ids r) l.nowSec l.elems))
      rw [IdleBook.line_enter watched.linked absent]
      refine (watched.ordered sure).push fun member => ?_
      rw [← mem_line_refs] at member
      obtain ⟨elem, there⟩ := member
      exact unlisted _ there rfl
    · exact forall_mem_append.mpr
        ⟨watched.listed, forall_mem_singleton.mpr ⟨attached, client⟩⟩
    intro q present server _
    by_cases same : q = r
    · exact ⟨l.elems, mem_append_right _ (by rw [same]; exact mem_cons_self)⟩
    obtain ⟨elem, there⟩ := watched.complete q present server same
    exact ⟨elem, mem_append_left _ there⟩

end

end

end

/-- Between taking its slot and being watched the newcomer is the only one missing. -/
theorem attach_watched (sound : Sound e l) (distinct : Distinct l) (act : Act e l (.attach r) l')
    (watched : Watched timed l fun _ => False) :
    Watched timed l' (· = r) ∧ ∀ item ∈ l'.checkList, item.2 ≠ r := by
  cases act with
  | attach _ registered fresh small free greeted =>
    have books := placed_sound sound fresh small free registered
    have attached := placed_attached (e := e) fresh registered
    have unlisted (item : Nat × Ref) (member : item ∈ l.checkList) : item.2 ≠ r := by
      intro same
      exact fresh.loose _ (same ▸ (watched.listed item member).1.2)
    have conn {q : Ref} (other : q ≠ r) : (l.placed e r registered).conns q = l.conns q :=
      Function.update_of_ne other _ _
    have name : (l.placed e r registered).ids = l.ids := by
      funext q
      by_cases same : q = r
      · simp only [ids, placed, same, Function.update_self]
      · exact congrArg EngineConn.id (conn same)
    have placed : Watched timed (l.placed e r registered) (· = r) := by
      refine watched.of_same rfl rfl (fun _ => le_refl _) (fun item _ => congrFun name item.2) ?_ ?_
      · intro item member
        have other := unlisted item member
        rw [(placed_untouched free registered other).attached, conn other]
        exact watched.listed item member
      intro q present server other
      rw [(placed_untouched free registered other).attached] at present
      rw [conn other] at server
      exact ⟨present, server, not_false⟩
    have ended := greeted.ended attached
    refine ⟨ended.watched checks limits books (distinct.of_eq name rfl) attached placed, ?_⟩
    intro item member
    refine unlisted item ?_
    cases ended with
    | kept worked => exact worked.listed item member
    | closed err worked =>
      exact (worked.toApart.closed books attached err).listed item member

theorem attachClient_watched {registered : Bool} {answers : List (List SysRead)}
    (sound : Sound e l) (fresh : Fresh l r) (distinct : Distinct l')
    (done : l.attachClient e r registered answers = some l')
    (watched : Watched timed l fun _ => False) : Watched timed l' fun _ => False := by
  obtain ⟨before, now, unknown, free⟩ :=
    closePrev_acts (P := fun _ _ => True) sound fresh fun _ _ => trivial
  have admission := attachClient_cases done now unknown free
  have freed : Distinct (l.closePrev e r) → Watched timed (l.closePrev e r) fun _ => False := by
    intro unique
    have early := before.distinct_of sound unique
    unfold closePrev
    split
    · rename_i prev found
      have attached := (sound.attached found).1
      exact (Ended.closed _ (Worked.refl e l prev)).watched checks limits sound early attached
        watched
    · exact watched
  generalize l.closePrev e r = m at now unknown free admission freed
  cases admission with
  | dropped =>
    have unique := (Act.drop r unknown).distinct_of now distinct
    have held := freed unique
    have conn {q : Ref} (other : q ≠ r) := setConn_other (l := m)
      ({ m.conns r with loopID := m.idx }.close e.toConnEnv) q other
    have unlisted {q : Ref} (present : Attached m q) : q ≠ r := (unknown.ne present).symm
    refine held.of_same rfl rfl (fun _ => le_refl _) ?_ ?_ ?_
    · intro item member
      rw [ids, conn (unlisted (held.listed item member).1)]
      rfl
    · intro item member
      rw [Attached, conn (unlisted (held.listed item member).1)]
      exact held.listed item member
    intro q present server _
    have other : q ≠ r := by
      intro same
      rw [same, Attached, setConn_self] at present
      exact present.1 rfl
    rw [conn other] at server
    rw [Attached, conn other] at present
    exact ⟨present, server, not_false⟩
  | closed act gone =>
    have unique := act.distinct_of now distinct
    obtain ⟨held, _⟩ := attach_watched checks limits now unique act (freed unique)
    refine held.of_same rfl rfl (fun _ => le_refl _) (fun _ _ => rfl) held.listed ?_
    intro q present server _
    refine ⟨present, server, ?_⟩
    rintro rfl
    exact present.1 gone
  | kept act attached =>
    have next := act.sound now
    have later := (Act.track (e := e) r attached).distinct_of next distinct
    have unique := act.distinct_of now later
    obtain ⟨held, unlisted⟩ := attach_watched checks limits now unique act (freed unique)
    exact track_watched checks limits next later attached unlisted held

end

end LoopConn

end Connaxis
