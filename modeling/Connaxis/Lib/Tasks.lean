import Mathlib.Data.List.Basic
import Mathlib.Data.List.Count

/- Goroutines that are started one after the other. Each has a place in a list, where its
own state stands; it keeps its place when it ends. -/
namespace Tasks

open List

variable {T : Type} {tasks : List T} {i : Nat} {t : T}

/-- A task moves on: what the count of a kind of state loses and gains. -/
theorem countP_set (found : tasks[i]? = some t) (kind : T → Bool) (now : T) :
    (tasks.set i now).countP kind + (kind t).toNat = tasks.countP kind + (kind now).toNat := by
  obtain ⟨inside, here⟩ := List.getElem?_eq_some_iff.mp found
  have present : (kind t).toNat ≤ tasks.countP kind := by
    cases seen : kind t with
    | false => exact Nat.zero_le _
    | true => exact countP_pos_iff.mpr ⟨t, here ▸ getElem_mem inside, seen⟩
  rw [List.countP_set inside, here]
  generalize kind t = before at present ⊢
  cases before <;> cases kind now <;>
    simp only [Bool.false_eq_true, ↓reduceIte, Bool.toNat_false, Bool.toNat_true] at present ⊢ <;>
    omega

theorem countP_append_one (kind : T → Bool) (tasks : List T) (t : T) :
    (tasks ++ [t]).countP kind = tasks.countP kind + (kind t).toNat := by
  rw [countP_append, countP_singleton]
  cases kind t <;> rfl

theorem mem_append_one {u : T} (member : u ∈ tasks ++ [t]) : u ∈ tasks ∨ u = t :=
  (mem_append.mp member).imp_right mem_singleton.mp

theorem getElem?_append_one {u : T} (there : (tasks ++ [t])[i]? = some u) :
    tasks[i]? = some u ∨ i = tasks.length ∧ u = t := by
  rcases Nat.lt_trichotomy i tasks.length with old | rfl | out
  · rw [getElem?_append_left old] at there
    exact .inl there
  · rw [getElem?_concat_length] at there
    exact .inr ⟨rfl, (Option.some.inj there).symm⟩
  rw [getElem?_eq_none (by simp; omega)] at there
  cases there

theorem mem_set_self (found : tasks[i]? = some t) (now : T) : now ∈ tasks.set i now :=
  List.mem_set (List.getElem?_eq_some_iff.mp found).1 now

theorem getElem?_set {now u : T} {j : Nat} (found : tasks[i]? = some t)
    (there : (tasks.set i now)[j]? = some u) : j = i ∧ u = now ∨ j ≠ i ∧ tasks[j]? = some u := by
  by_cases same : j = i
  · subst same
    rw [getElem?_set_self (List.getElem?_eq_some_iff.mp found).1] at there
    exact .inl ⟨rfl, (Option.some.inj there).symm⟩
  rw [getElem?_set_ne (Ne.symm same)] at there
  exact .inr ⟨same, there⟩

/-- Two ways to sort the same tasks. -/
theorem countP_balance {l : List T} {a b c d : T → Bool}
    (each : ∀ t ∈ l, (a t).toNat + (b t).toNat = (c t).toNat + (d t).toNat) :
    l.countP a + l.countP b = l.countP c + l.countP d := by
  induction l with
  | nil => rfl
  | cons t rest ih =>
    have here := each t mem_cons_self
    have later := ih fun u member => each u (mem_cons_of_mem _ member)
    have one (kind : T → Bool) : (t :: rest).countP kind = rest.countP kind + (kind t).toNat := by
      rw [countP_cons]
      cases kind t <;> rfl
    simp only [one]
    omega

/-- A task of the wider kind only makes the narrower kind the rarer one. -/
theorem countP_lt {kind wider : T → Bool} (member : t ∈ tasks)
    (wide : ∀ t, kind t = true → wider t = true) (not : kind t = false) (here : wider t = true) :
    tasks.countP kind < tasks.countP wider := by
  obtain ⟨front, back, rfl⟩ := append_of_mem member
  have before := countP_mono_left (l := front) fun t _ => wide t
  have after := countP_mono_left (l := back) fun t _ => wide t
  rw [countP_append, countP_append, countP_cons_of_pos here,
    countP_cons_of_neg (by rw [not]; exact Bool.false_ne_true)]
  omega

end Tasks
