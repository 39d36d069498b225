import Connaxis.Lib.Aging
import Connaxis.LoopFrame

namespace Connaxis

open List Function
open Function (comp_def update_of_ne update_self update_apply comp_apply update)

namespace IdleBook

/-- What `closeConn` does to the book. -/
def forget (b : IdleBook) (id : UInt64) : IdleBook :=
  match b.2 id with
  | none => b
  | some checker =>
    (b.1.filter fun item => item.1 ≠ checker.elem, update b.2 id none)

/-- What `processRead` does to the book. -/
def hear (b : IdleBook) (id : UInt64) (now : Int) : IdleBook :=
  match b.2 id with
  | none => b
  | some checker =>
    ((b.1.filter fun item => item.1 ≠ checker.elem) ++
      b.1.filter fun item => item.1 = checker.elem,
      update b.2 id (some { checker with touch := now }))

/-- What `attachClient` does to the book. -/
def enter (b : IdleBook) (r : Ref) (id : UInt64) (now : Int) (elem : Nat) : IdleBook :=
  (b.1 ++ [(elem, r)], update b.2 id (some ⟨now, elem⟩))

/-- List and map agree: elements are told apart by number, each has its entry under its
connection's id, and there is no entry without its element. -/
structure Linked (ids : Ref → UInt64) (elems : Nat) (b : IdleBook) : Prop where
  numbered : (b.1.map Prod.fst).Nodup
  below : ∀ item ∈ b.1, item.1 < elems
  entry : ∀ item ∈ b.1, ∃ touch, b.2 (ids item.2) = some ⟨touch, item.1⟩
  item : ∀ id checker, b.2 id = some checker →
    ∃ r, (checker.elem, r) ∈ b.1 ∧ ids r = id

/-- Nobody in the book has the id of `r` but `r`. -/
def Own (ids : Ref → UInt64) (b : IdleBook) (r : Ref) : Prop :=
  ∀ item ∈ b.1, ids item.2 = ids r → item.2 = r

def stamp (ids : Ref → UInt64) (b : IdleBook) (r : Ref) : Int :=
  match b.2 (ids r) with
  | none => 0
  | some checker => checker.touch

/-- The connections in the order of the list, with their touch values. -/
def line (ids : Ref → UInt64) (b : IdleBook) : List (Ref × Int) :=
  b.1.map fun item => (item.2, b.stamp ids item.2)

variable {ids : Ref → UInt64} {elems : Nat} {b : IdleBook} {r : Ref} {checker : ConnChecker}

theorem line_refs (ids : Ref → UInt64) (b : IdleBook) :
    (line ids b).map Prod.fst = b.1.map Prod.snd := by
  simp only [line, map_map, comp_def]

theorem stamp_of (found : b.2 (ids r) = some checker) : stamp ids b r = checker.touch := by
  simp only [stamp, found]

theorem Linked.same_item (linked : Linked ids elems b) {one two : Nat × Ref} (first : one ∈ b.1)
    (second : two ∈ b.1) (same : one.1 = two.1) : one = two :=
  inj_on_of_nodup_map linked.numbered first second same

variable {item : Nat × Ref}

section

variable (linked : Linked ids elems b)
include linked

/-- The entry of a connection leads to its element and to no other. -/
theorem Linked.element_iff (own : Own ids b r) (found : b.2 (ids r) = some checker)
    (member : item ∈ b.1) : item.1 = checker.elem ↔ item.2 = r := by
  constructor
  · intro same
    obtain ⟨q, there, id⟩ := linked.item _ checker found
    rw [linked.same_item member there same]
    exact own _ there id
  intro same
  obtain ⟨touch, entry⟩ := linked.entry item member
  rw [same, found] at entry
  exact (congrArg ConnChecker.elem (Option.some.inj entry)).symm

theorem Linked.id_ne (found : b.2 (ids r) = some checker) (member : item ∈ b.1)
    (other : item.1 ≠ checker.elem) : ids item.2 ≠ ids r := by
  intro same
  obtain ⟨touch, entry⟩ := linked.entry item member
  rw [same, found] at entry
  exact other (congrArg ConnChecker.elem (Option.some.inj entry)).symm

/-- An id without an entry is nobody's in the list. -/
theorem Linked.absent_ne (absent : b.2 (ids r) = none) (member : item ∈ b.1) :
    ids item.2 ≠ ids r := by
  intro same
  obtain ⟨touch, entry⟩ := linked.entry item member
  rw [same, absent] at entry
  cases entry

theorem Linked.found {elem : Nat} (member : (elem, r) ∈ b.1) :
    b.2 (ids r) = some ⟨stamp ids b r, elem⟩ := by
  obtain ⟨touch, entry⟩ := linked.entry _ member
  rw [stamp_of entry]
  exact entry

/-- Elements of one connection have one id, hence one entry, and are one element. -/
theorem Linked.once : ((line ids b).map Prod.fst).Nodup := by
  rw [line_refs]
  refine (linked.numbered.of_map _).map_on fun one first two second same => ?_
  obtain ⟨touch, entry⟩ := linked.entry one first
  obtain ⟨touch', entry'⟩ := linked.entry two second
  rw [same, entry'] at entry
  exact linked.same_item first second (congrArg ConnChecker.elem (Option.some.inj entry)).symm

/-- Elements are made for a connection that has none, with a new number. -/
theorem Linked.enter (absent : b.2 (ids r) = none) (now : Int) :
    Linked ids (elems + 1) (b.enter r (ids r) now elems) := by
  refine ⟨?_, ?_, ?_, ?_⟩
  · rw [IdleBook.enter, map_append]
    refine linked.numbered.append (nodup_singleton _) (disjoint_singleton.mpr ?_)
    intro member
    obtain ⟨item, inside, same⟩ := mem_map.mp member
    exact Nat.lt_irrefl _ (same ▸ linked.below item inside)
  · exact forall_mem_append.mpr ⟨fun item before => Nat.lt_succ_of_lt (linked.below item before),
      forall_mem_singleton.mpr (Nat.lt_succ_self elems)⟩
  · intro item member
    rcases mem_append.mp member with before | last
    · simp only [IdleBook.enter, update_of_ne (linked.absent_ne absent before)]
      exact linked.entry item before
    rw [mem_singleton.mp last]
    exact ⟨now, update_self _ _ _⟩
  intro id checker found
  simp only [IdleBook.enter, update_apply] at found
  split at found
  · rename_i same
    cases found
    exact ⟨r, mem_append_right _ mem_cons_self, same.symm⟩
  obtain ⟨q, there, name⟩ := linked.item id checker found
  exact ⟨q, mem_append_left _ there, name⟩

theorem line_enter (absent : b.2 (ids r) = none) (now : Int) :
    line ids (b.enter r (ids r) now elems) = Aging.push (line ids b) r now := by
  have own : stamp ids (b.enter r (ids r) now elems) r = now := by
    simp only [stamp, IdleBook.enter, update_self]
  rw [line, show (b.enter r (ids r) now elems).1 = b.1 ++ [(elems, r)] from rfl, map_append,
    map_singleton, own, Aging.push, line]
  congr 1
  refine map_congr_left fun item member => ?_
  simp only [stamp, IdleBook.enter, update_of_ne (linked.absent_ne absent member)]

theorem Linked.forget (own : Own ids b r) : Linked ids elems (b.forget (ids r)) := by
  unfold IdleBook.forget
  split
  · exact linked
  rename_i checker found
  refine ⟨linked.numbered.sublist (filter_sublist.map _), ?_, ?_, ?_⟩
  · intro item member
    exact linked.below item (mem_of_mem_filter member)
  · intro item member
    obtain ⟨inside, other⟩ := mem_filter.mp member
    dsimp only
    rw [update_of_ne (linked.id_ne found inside (of_decide_eq_true other))]
    exact linked.entry item inside
  intro id checker' entry
  dsimp only at entry
  rw [update_apply] at entry
  split at entry
  · cases entry
  rename_i foreign
  obtain ⟨q, there, name⟩ := linked.item id checker' entry
  refine ⟨q, mem_filter.mpr ⟨there, decide_eq_true fun same => foreign ?_⟩, name⟩
  exact name.symm.trans (congrArg ids ((linked.element_iff own found there).mp same))

theorem line_forget (own : Own ids b r) :
    line ids (b.forget (ids r)) = Aging.remove (line ids b) r := by
  unfold IdleBook.forget
  split
  · rename_i absent
    refine (filter_eq_self.mpr fun entry member => decide_eq_true ?_).symm
    obtain ⟨item, inside, rfl⟩ := mem_map.mp member
    exact fun same => linked.absent_ne absent inside (congrArg ids same)
  rename_i checker found
  simp only [line, Aging.remove, filter_map]
  have kept : b.1.filter ((fun entry : Ref × Int => decide (entry.1 ≠ r)) ∘
      fun item => (item.2, stamp ids b item.2)) =
      b.1.filter fun item => item.1 ≠ checker.elem := by
    refine filter_congr fun item member => ?_
    simp only [comp_apply, linked.element_iff own found member, ne_eq]
  rw [kept]
  refine map_congr_left fun item member => ?_
  obtain ⟨inside, other⟩ := mem_filter.mp member
  simp only [stamp, update_of_ne (linked.id_ne found inside (of_decide_eq_true other))]

/-- Elements with one number are one element. -/
theorem Linked.filter_eq (member : item ∈ b.1) :
    (b.1.filter fun other => other.1 = item.1) = [item] := by
  have once := linked.numbered
  generalize b.1 = list at member once
  induction list with
  | nil => cases member
  | cons first rest ih =>
    rw [map_cons, nodup_cons] at once
    rcases mem_cons.mp member with rfl | later
    · rw [filter_cons_of_pos (by simp), filter_eq_nil_iff.mpr]
      intro other inside same
      exact once.1 (of_decide_eq_true same ▸ mem_map_of_mem inside)
    rw [filter_cons_of_neg, ih later once.2]
    intro same
    exact once.1 (of_decide_eq_true same ▸ mem_map_of_mem later)

theorem Linked.hear (own : Own ids b r) (now : Int) : Linked ids elems (b.hear (ids r) now) := by
  unfold IdleBook.hear
  split
  · exact linked
  rename_i checker found
  have same (item : Nat × Ref) :
      item ∈ ((b.1.filter fun item => item.1 ≠ checker.elem) ++
        b.1.filter fun item => item.1 = checker.elem) ↔ item ∈ b.1 := by
    simp only [mem_append, mem_filter, decide_eq_true_eq, ne_eq]
    tauto
  refine ⟨?_, ?_, ?_, ?_⟩
  · rw [map_append]
    refine (linked.numbered.sublist (filter_sublist.map _)).append
      (linked.numbered.sublist (filter_sublist.map _)) fun elem front back => ?_
    obtain ⟨one, first, rfl⟩ := mem_map.mp front
    obtain ⟨two, second, equal⟩ := mem_map.mp back
    refine of_decide_eq_true (mem_filter.mp first).2 ?_
    rw [← equal]
    exact of_decide_eq_true (mem_filter.mp second).2
  · intro item member
    exact linked.below item ((same item).mp member)
  · intro item member
    have inside := (same item).mp member
    dsimp only
    rw [update_apply]
    split
    · rename_i name
      exact ⟨now, by rw [(linked.element_iff own found inside).mpr (own item inside name)]⟩
    · exact linked.entry item inside
  intro id checker' entry
  dsimp only at entry
  rw [update_apply] at entry
  split at entry
  · rename_i name
    cases entry
    obtain ⟨q, there, known⟩ := linked.item _ checker found
    exact ⟨q, (same _).mpr there, known.trans name.symm⟩
  obtain ⟨q, there, name⟩ := linked.item id checker' entry
  exact ⟨q, (same _).mpr there, name⟩

theorem line_hear (own : Own ids b r) (now : Int) (found : b.2 (ids r) = some checker) :
    line ids (b.hear (ids r) now) = Aging.refresh (line ids b) r now := by
  obtain ⟨q, there, name⟩ := linked.item _ checker found
  have same : q = r := own _ there name
  subst same
  have heard : stamp ids (b.hear (ids q) now) q = now := by
    simp only [stamp, IdleBook.hear, found, update_self]
  have others : b.1.filter (fun item => item.1 ≠ checker.elem) =
      b.1.filter fun item => item.2 ≠ q := by
    refine filter_congr fun item member => ?_
    simp only [ne_eq, linked.element_iff own found member]
  have shape : (b.hear (ids q) now).1 =
      (b.1.filter fun item => item.2 ≠ q) ++ [(checker.elem, q)] := by
    simp only [IdleBook.hear, found]
    rw [others, linked.filter_eq there]
  rw [line, shape, map_append, map_singleton, heard, Aging.refresh, Aging.push,
    Aging.remove, line, filter_map]
  congr 1
  refine map_congr_left fun item member => ?_
  obtain ⟨inside, other⟩ := mem_filter.mp member
  have foreign : ids item.2 ≠ ids q := fun clash =>
    of_decide_eq_true other (own item inside clash)
  simp only [stamp, IdleBook.hear, found, update_of_ne foreign]

/-- Forgetting the first element, the way `onIdle` does it. -/
theorem Linked.forget_head {elem : Nat} {rest : List (Nat × Ref)}
    (front : b.1 = (elem, r) :: rest) :
    b.forget (ids r) = (rest, update b.2 (ids r) none) := by
  have first : (elem, r) ∈ b.1 := front ▸ mem_cons_self
  have once := linked.numbered
  rw [front, map_cons, nodup_cons] at once
  simp only [IdleBook.forget, linked.found first, front]
  congr 1
  rw [filter_cons_of_neg (by simp)]
  refine filter_eq_self.mpr fun item member => decide_eq_true fun same => ?_
  exact once.1 (mem_map.mpr ⟨item, member, same⟩)

end

end IdleBook

end Connaxis
