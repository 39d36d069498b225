import Connaxis.Dialer.DialerMng

namespace Connaxis.Dialer

open List Function Dial

/-- The statuses a call has got hold of. -/
def Pc.refs : Pc → List Nat
  | .start | .enter | .ended => []
  | .add p | .reset p | .check p _ | .undo p | .bootup p | .handshake p | .failed p | .client p
  | .queued p | .onOpen p | .kept p _ => [p]
  | .failedUndo p q | .openOnline p q | .openAlive p q | .openStore p q | .openCo p q
  | .opened p q => [p, q]

/-- The status whose `co` the call has raised and not yet lowered. -/
def Pc.slot : Pc → Option Nat
  | .start | .enter | .ended | .add _ | .opened _ _ => none
  | .reset p | .check p _ | .undo p | .bootup p | .handshake p | .failed p | .client p
  | .queued p | .onOpen p | .kept p _ | .failedUndo p _ | .openOnline p _ | .openAlive p _
  | .openStore p _ | .openCo p _ => some p

/-- The call has raised `co`. -/
def Pc.begun : Pc → Bool
  | .start | .enter | .add _ => false
  | _ => true

/-- What the next step adds to which `co`. -/
def Pc.move : Pc → Option (Nat × Int)
  | .add p => some (p, 1)
  | .undo p | .failedUndo _ p | .openCo _ p => some (p, -1)
  | _ => none

/-- The status whose `alive` the connection is part of. -/
def Pc.counted : Pc → Option Nat
  | .openStore _ q | .openCo _ q | .opened _ q => some q
  | _ => none

/-- The call has found that `co` had wrapped around. -/
def Pc.wrapped : Pc → Bool
  | .reset _ | .kept _ .wrapped => true
  | _ => false

/-- The call has been let through and its connection is not yet counted. -/
def Pc.pending : Pc → Bool
  | .bootup _ | .handshake _ | .client _ | .queued _ | .onOpen _ | .openOnline _ _
  | .openAlive _ _ => true
  | _ => false

/-- The call is let through or may be, as far as `co` goes. -/
def Pc.fits (max : Int) : Pc → Bool
  | .check _ co => co ≤ max
  | pc => pc.pending

/-- The dialer has been put into `dialers`. -/
def Pc.stored : Pc → Bool
  | .openCo _ _ | .opened _ _ => true
  | _ => false

def ClosePc.refs : ClosePc → List Nat
  | .online | .file | .load => []
  | .alive q => [q]
  | .delete q | .done q => q.toList

/-- The status whose `alive` the call has lowered. -/
def ClosePc.counted : ClosePc → Option Nat
  | .delete q | .done q => q
  | _ => none

/-- The call of `OnClose` is past the point where it lowers `alive`. -/
def ClosePc.lowered : ClosePc → Bool
  | .delete _ | .done _ => true
  | _ => false

def Dial.slotOf (p : Nat) (d : Dial) : Bool := d.pc.slot = some p
def Dial.countedOf (p : Nat) (d : Dial) : Bool := d.pc.counted = some p
def Closer.countedOf (p : Nat) (c : Closer) : Bool := c.pc.counted = some p

variable {pc : Pc} {p : Nat}

theorem Pc.slot_refs (slot : pc.slot = some p) : p ∈ pc.refs := by
  cases pc <;> simp_all [Pc.slot, Pc.refs]

theorem Pc.counted_refs (counted : pc.counted = some p) : p ∈ pc.refs := by
  cases pc <;> simp_all [Pc.counted, Pc.refs]

theorem ClosePc.lowered_of_counted {pc : ClosePc} (counted : pc.counted = some p) :
    pc.lowered = true := by
  cases pc with
  | delete | done => rfl
  | _ => cases counted

theorem ClosePc.counted_refs {pc : ClosePc} (counted : pc.counted = some p) : p ∈ pc.refs := by
  cases pc <;> simp_all [ClosePc.counted, ClosePc.refs]

namespace DialerMng

variable {m m' : DialerMng} {p q : Nat} {key : Bytes}

/-- The key a status was made for. -/
def keyOf (m : DialerMng) (p : Nat) : Option Bytes := (m.heap[p]?).map fun st => st.para.key

theorem keyOf_lt (known : m.keyOf p = some key) : p < m.heap.length := by
  obtain ⟨st, found, -⟩ := Option.map_eq_some_iff.mp known
  exact (List.getElem?_eq_some_iff.mp found).1

theorem atomic_getElem (f : DialerStatus → DialerStatus) :
    (m.atomic p f).heap[q]? = (m.heap[q]?).map fun st => if p = q then f st else st := by
  simp only [atomic, getElem?_modify]
  split <;> rfl

/-- What an atomic operation leaves alone in every status. -/
theorem atomic_field {γ : Type} {f : DialerStatus → DialerStatus} (g : DialerStatus → γ)
    (same : ∀ st, g (f st) = g st) :
    ((m.atomic p f).heap[q]?).map g = (m.heap[q]?).map g := by
  rw [atomic_getElem, Option.map_map]
  refine congrArg (Option.map · _) (funext fun st => ?_)
  split
  · exact same st
  · rfl

variable (n : Int)

@[simp] theorem addCo_keyOf : (m.addCo p n).keyOf q = m.keyOf q :=
  atomic_field _ fun _ => rfl

@[simp] theorem addAlive_keyOf : (m.addAlive p n).keyOf q = m.keyOf q :=
  atomic_field _ fun _ => rfl

@[simp] theorem addCo_alive : (m.addCo p n).alive q = m.alive q :=
  congrArg (Option.getD · 0) (atomic_field _ fun _ => rfl)

@[simp] theorem addAlive_co : (m.addAlive p n).co q = m.co q :=
  congrArg (Option.getD · 0) (atomic_field _ fun _ => rfl)

@[simp] theorem addCo_except : (m.addCo p n).except q = m.except q :=
  congrArg (Option.getD · 0) (atomic_field _ fun _ => rfl)

theorem addCo_co (known : p < m.heap.length) (n : Int) :
    (m.addCo p n).co q = if p = q then int32 (m.co q + n) else m.co q := by
  unfold co addCo
  rw [atomic_getElem]
  by_cases same : p = q
  · subst same
    rw [getElem?_eq_getElem known]
    simp
  · cases m.heap[q]? <;> simp [same]

theorem addAlive_alive (known : p < m.heap.length) (n : Int) :
    (m.addAlive p n).alive q = if p = q then int32 (m.alive q + n) else m.alive q := by
  unfold alive addAlive
  rw [atomic_getElem]
  by_cases same : p = q
  · subst same
    rw [getElem?_eq_getElem known]
    simp
  · cases m.heap[q]? <;> simp [same]

theorem updateDialer_eq (add : Bool) (key : Bytes) : m.updateDialer add key =
    { m with inactive := (m.updateDialer add key).inactive } := by
  cases add <;> rfl

/-- The map has the statuses under their own keys. -/
def Named (m : DialerMng) : Prop := ∀ key p, m.status key = some p → m.keyOf p = some key

/-- Statuses are made, and they keep their keys. -/
def Grows (m m' : DialerMng) : Prop := ∀ p key, m.keyOf p = some key → m'.keyOf p = some key

theorem Grows.refl (m : DialerMng) : Grows m m := fun _ _ known => known

theorem Grows.of_eq (same : ∀ p, m'.keyOf p = m.keyOf p) : Grows m m' := by
  intro p key known
  rw [same]
  exact known

/-- A status that is of no other key. One that is still to be made is included. -/
def Own (m : DialerMng) (key : Bytes) (p : Nat) : Prop :=
  ∀ other, m.keyOf p = some other → other = key

theorem Own.earlier (own : m'.Own key p) (grows : Grows m m') : m.Own key p :=
  fun other known => own other (grows p other known)

theorem own_of_status (named : m.Named) (found : m.status key = some p) : m.Own key p :=
  fun _ is => Option.some.inj (is.symm.trans (named key p found))

/-- What looking a status up, or making it, does. -/
theorem findStatus_cases (m : DialerMng) (para : DialParam) (max : Int) :
    (∃ p, m.status para.key = some p ∧ m.findStatus para max = (m, p)) ∨
      m.status para.key = none ∧ m.findStatus para max =
        ({ m with heap := m.heap ++ [⟨int32 max, 0, 0, para⟩],
                  status := update m.status para.key (some m.heap.length) },
          m.heap.length) := by
  unfold findStatus
  cases found : m.status para.key with
  | some p => exact .inl ⟨p, rfl, rfl⟩
  | none => exact .inr ⟨rfl, rfl⟩

/-- A new status counts nothing. -/
theorem append_field (st : DialerStatus) (g : DialerStatus → Int) (zero : g st = 0) :
    (((m.heap ++ [st])[q]?).map g).getD 0 = ((m.heap[q]?).map g).getD 0 := by
  by_cases old : q < m.heap.length
  · rw [getElem?_append_left old]
  by_cases new : q = m.heap.length
  · subst new
    simp [zero]
  · rw [getElem?_eq_none (by simp; omega), getElem?_eq_none (by omega)]

variable (para : DialParam) (max : Int)

theorem findStatus_alive : (m.findStatus para max).1.alive q = m.alive q := by
  rcases m.findStatus_cases para max with ⟨p, -, found⟩ | ⟨-, made⟩
  · rw [found]
  rw [made]
  exact append_field _ _ rfl

theorem findStatus_co : (m.findStatus para max).1.co q = m.co q := by
  rcases m.findStatus_cases para max with ⟨p, -, found⟩ | ⟨-, made⟩
  · rw [found]
  rw [made]
  exact append_field _ _ rfl

theorem findStatus_books :
    (m.findStatus para max).1.inactive = m.inactive ∧
      (m.findStatus para max).1.dialers = m.dialers := by
  rcases m.findStatus_cases para max with ⟨p, -, found⟩ | ⟨-, made⟩
  · rw [found]
    exact ⟨rfl, rfl⟩
  rw [made]
  exact ⟨rfl, rfl⟩

theorem findStatus_grows : Grows m (m.findStatus para max).1 := by
  rcases m.findStatus_cases para max with ⟨p, -, found⟩ | ⟨-, made⟩
  · rw [found]
    exact Grows.refl m
  rw [made]
  intro p key known
  unfold keyOf
  rw [getElem?_append_left (keyOf_lt known)]
  exact known

theorem findStatus_named (named : m.Named) (para : DialParam) (max : Int) :
    (m.findStatus para max).1.Named ∧
      (m.findStatus para max).1.status para.key = some (m.findStatus para max).2 := by
  have grows := m.findStatus_grows para max
  rcases m.findStatus_cases para max with ⟨p, there, found⟩ | ⟨-, made⟩
  · rw [found]
    exact ⟨named, there⟩
  rw [made] at grows ⊢
  refine ⟨fun key p known => ?_, update_self _ _ _⟩
  dsimp only at known ⊢
  by_cases same : key = para.key
  · subst same
    rw [update_self] at known
    cases known
    unfold keyOf
    rw [getElem?_concat_length]
    rfl
  rw [update_of_ne same] at known
  exact grows p key (named key p known)

end DialerMng

/-- The call knows statuses of its own key only. -/
def Dial.Knows (d : Dial) (m : DialerMng) : Prop :=
  ∀ p ∈ d.pc.refs, m.keyOf p = some d.para.key

theorem Dial.Knows.own {d : Dial} {m : DialerMng} {key : Bytes} (knows : d.Knows m)
    (own : m.Own key p) (held : p ∈ d.pc.refs) : d.para.key = key :=
  own _ (knows p held)

def Closer.Knows (c : Closer) (m : DialerMng) : Prop :=
  ∀ p ∈ c.pc.refs, m.keyOf p = some c.key

/-- A call goes on and no counter of a status changes. -/
structure Quiet (m : DialerMng) (d : Dial) (pc : Pc) : Prop where
  move : d.pc.move = none
  wrapped : pc.wrapped = d.pc.wrapped
  begun : d.para.key ∉ m.inactive → pc.begun = d.pc.begun
  slot : pc.slot = d.pc.slot
  counted : pc.counted = d.pc.counted
  stored : pc.stored = d.pc.stored
  pending : pc.pending = true → d.pc.pending = true
  fits : pc.fits (int32 d.max) = true → d.pc.fits (int32 d.max) = true
  refs : ∀ p ∈ pc.refs, p ∈ d.pc.refs ∨ m.status d.para.key = some p

/-- All that one atomic step of a call can do. -/
inductive Stepped (m : DialerMng) (d : Dial) : DialerMng → Dial → Prop
  | quiet (online : Int) (cid : Option UInt64) (pc : Pc) (quiet : Quiet m d pc)
      (named : cid = d.cid ∨ ∃ p, d.pc = .client p) :
      Stepped m d { m with online := online } { d with cid := cid, pc := pc }
  | finds (at_ : d.pc = .enter) :
      Stepped m d (m.findStatus d.para d.max).1
        { d with pc := .add (m.findStatus d.para d.max).2 }
  | raises (p : Nat) (at_ : d.pc = .add p) :
      Stepped m d (m.addCo p 1)
        { d with pc := if (m.addCo p 1).co p ≤ 0 then .reset p else .check p ((m.addCo p 1).co p) }
  | resets (p : Nat) (at_ : d.pc = .reset p) :
      Stepped m d (m.atomic p fun st => { st with co := 0 }) { d with pc := .kept p .wrapped }
  | admits (p : Nat) (co : Int) (at_ : d.pc = .check p co) (room : m.alive p < m.except p)
      (few : co ≤ int32 d.max) : Stepped m d m { d with pc := .bootup p }
  | lowers (p q : Nat) (pc : Pc)
      (at_ : d.pc = .undo p ∧ q = p ∧ pc = .ended ∨ d.pc = .failedUndo p q ∧ pc = .ended ∨
        d.pc = .openCo p q ∧ pc = .opened p q) :
      Stepped m d (m.addCo q (-1)) { d with pc := pc }
  | opens (p q : Nat) (at_ : d.pc = .openAlive p q) :
      Stepped m d (m.addAlive q 1) { d with pc := .openStore p q }
  | stores (p q : Nat) (cid : UInt64) (at_ : d.pc = .openStore p q) (named : d.cid = some cid) :
      Stepped m d (m.store cid d.para.key) { d with pc := .openCo p q }

variable {m m' : DialerMng} {d d' : Dial} {a : Answer}

theorem Quiet.stepped (quiet : Quiet m d pc) : Stepped m d m { d with pc := pc } :=
  .quiet m.online d.cid pc quiet (.inl rfl)

theorem Dial.next_go (done : d.next m .go = some (m', d')) : Stepped m d m' d' := by
  unfold next at done
  obtain ⟨para, max, cid, pc⟩ := d
  cases pc with
  | start =>
    cases done
    refine Quiet.stepped ?_
    split
    · rename_i listed
      exact ⟨rfl, rfl, fun active => absurd listed active, rfl, rfl, rfl, nofun, nofun, nofun⟩
    · exact ⟨rfl, rfl, fun _ => rfl, rfl, rfl, rfl, nofun, nofun, nofun⟩
  | enter =>
    cases done
    exact .finds rfl
  | add p =>
    cases done
    exact .raises p rfl
  | reset p =>
    cases done
    exact .resets p rfl
  | check p co =>
    dsimp only at done
    have refused : Quiet m ⟨para, max, cid, .check p co⟩ (.undo p) :=
      ⟨rfl, rfl, fun _ => rfl, rfl, rfl, rfl, nofun, nofun, fun _ member => .inl member⟩
    split at done
    · cases done
      exact refused.stepped
    split at done
    · cases done
      exact refused.stepped
    cases done
    exact .admits p co rfl (by omega) (by dsimp only; omega)
  | undo p =>
    cases done
    exact .lowers p p _ (.inl ⟨rfl, rfl, rfl⟩)
  | failed p =>
    dsimp only at done
    split at done
    · rename_i q found
      cases done
      refine Quiet.stepped ⟨rfl, rfl, fun _ => rfl, rfl, rfl, rfl, nofun, nofun, fun r member => ?_⟩
      rcases mem_pair.mp member with rfl | rfl
      · exact .inl mem_cons_self
      · exact .inr found
    cases done
    exact Quiet.stepped
      ⟨rfl, rfl, fun _ => rfl, rfl, rfl, rfl, nofun, nofun, fun _ member => .inl member⟩
  | failedUndo p q =>
    cases done
    exact .lowers p q _ (.inr (.inl ⟨rfl, rfl⟩))
  | onOpen p =>
    dsimp only at done
    split at done
    · rename_i q found
      cases done
      refine Quiet.stepped ⟨rfl, rfl, fun _ => rfl, rfl, rfl, rfl, id, id, fun r member => ?_⟩
      rcases mem_pair.mp member with rfl | rfl
      · exact .inl mem_cons_self
      · exact .inr found
    cases done
    exact Quiet.stepped
      ⟨rfl, rfl, fun _ => rfl, rfl, rfl, rfl, nofun, nofun, fun _ member => .inl member⟩
  | openOnline p q =>
    cases done
    exact .quiet _ _ _ ⟨rfl, rfl, fun _ => rfl, rfl, rfl, rfl, id, id,
      fun _ member => .inl member⟩ (.inl rfl)
  | openAlive p q =>
    cases done
    exact .opens p q rfl
  | openStore p q =>
    cases cid with
    | none => cases done
    | some number =>
      cases done
      exact .stores p q number rfl rfl
  | openCo p q =>
    cases done
    exact .lowers p q _ (.inr (.inr ⟨rfl, rfl⟩))
  | bootup | handshake | client | queued | opened | ended | kept => cases done

theorem Dial.next_stepped (done : d.next m a = some (m', d')) : Stepped m d m' d' := by
  cases a with
  | go => exact next_go done
  | dialed ok =>
    unfold next at done
    obtain ⟨para, max, cid, pc⟩ := d
    dsimp only at done
    split at done
    · rename_i p
      have kept (pc : Pc) (wrapped : pc.wrapped = false) (begun : pc.begun = true)
          (slot : pc.slot = some p) (counted : pc.counted = none) (stored : pc.stored = false)
          (refs : pc.refs = [p]) : Quiet m ⟨para, max, cid, .bootup p⟩ pc :=
        ⟨rfl, wrapped, fun _ => begun, slot, counted, stored, fun _ => rfl, fun _ => rfl,
          fun r member => .inl (by rw [refs] at member; exact member)⟩
      split at done
      · split at done
        · split at done
          · cases done
            exact Quiet.stepped (kept _ rfl rfl rfl rfl rfl rfl)
          split at done
          · cases done
            exact Quiet.stepped (kept _ rfl rfl rfl rfl rfl rfl)
          cases done
          exact Quiet.stepped (kept _ rfl rfl rfl rfl rfl rfl)
        · cases done
      cases done
      exact Quiet.stepped (kept _ rfl rfl rfl rfl rfl rfl)
    · cases done
  | shaken ok =>
    unfold next at done
    obtain ⟨para, max, cid, pc⟩ := d
    dsimp only at done
    split at done
    · cases done
      refine Quiet.stepped ?_
      split <;> exact ⟨rfl, rfl, fun _ => rfl, rfl, rfl, rfl, fun _ => rfl, fun _ => rfl,
        fun _ member => .inl member⟩
    · cases done
  | client cid taken =>
    unfold next at done
    obtain ⟨para, max, old, pc⟩ := d
    dsimp only at done
    split at done
    · rename_i p
      cases done
      refine .quiet _ _ _ ?_ (.inr ⟨p, rfl⟩)
      split <;> exact ⟨rfl, rfl, fun _ => rfl, rfl, rfl, rfl, fun _ => rfl, fun _ => rfl,
        fun _ member => .inl member⟩
    · cases done
  | attached ok =>
    unfold next at done
    obtain ⟨para, max, cid, pc⟩ := d
    dsimp only at done
    split at done
    · cases done
      refine Quiet.stepped ?_
      split <;> exact ⟨rfl, rfl, fun _ => rfl, rfl, rfl, rfl, fun _ => rfl, fun _ => rfl,
        fun _ member => .inl member⟩
    · cases done

section

variable (step : Stepped m d m' d')
include step

theorem Stepped.para : d'.para = d.para ∧ d'.max = d.max := by
  cases step <;> exact ⟨rfl, rfl⟩

theorem Stepped.grows : m.Grows m' := by
  cases step with
  | finds => exact DialerMng.findStatus_grows _ _
  | raises p => exact .of_eq fun _ => DialerMng.addCo_keyOf _
  | resets p => exact .of_eq fun _ => DialerMng.atomic_field _ fun _ => rfl
  | lowers p q => exact .of_eq fun _ => DialerMng.addCo_keyOf _
  | opens p q => exact .of_eq fun _ => DialerMng.addAlive_keyOf _
  | quiet | admits | stores => exact .of_eq fun _ => rfl

theorem Stepped.named (named : m.Named) : m'.Named := by
  have grows := step.grows
  cases step with
  | finds => exact (DialerMng.findStatus_named named _ _).1
  | quiet | raises | resets | admits | lowers | opens | stores =>
    exact fun key p known => grows p key (named key p known)

/-- Whatever the call holds then, it has held before or has found in the map. -/
theorem Stepped.refs (named : m.Named) :
    ∀ p ∈ d'.pc.refs, p ∈ d.pc.refs ∨ m'.status d.para.key = some p := by
  cases step with
  | quiet _ _ pc quiet => exact quiet.refs
  | finds at_ =>
    intro p member
    rw [mem_singleton.mp member]
    exact .inr (DialerMng.findStatus_named named d.para d.max).2
  | raises p at_ =>
    rw [at_]
    split <;> exact fun r => .inl
  | lowers p q pc at_ =>
    rcases at_ with ⟨-, -, rfl⟩ | ⟨-, rfl⟩ | ⟨at_, rfl⟩
    · exact nofun
    · exact nofun
    rw [at_]
    exact fun r => .inl
  | resets _ at_ | admits _ _ at_ | opens _ _ at_ | stores _ _ _ at_ =>
    rw [at_]
    exact fun r => .inl

/-- A call that has found `co` wrapped around does not forget it. -/
theorem Stepped.wrapped (before : d.pc.wrapped = true) : d'.pc.wrapped = true := by
  cases step with
  | quiet _ _ pc quiet => exact quiet.wrapped.trans before
  | resets => rfl
  | lowers p q pc at_ =>
    rcases at_ with ⟨at_, -, -⟩ | ⟨at_, -⟩ | ⟨at_, -⟩ <;> rw [at_] at before <;> cases before
  | finds at_ | raises _ at_ | admits _ _ at_ | opens _ _ at_ | stores _ _ _ at_ =>
    rw [at_] at before
    cases before

theorem Stepped.knows (named : m.Named) (knows : d.Knows m) : d'.Knows m' := by
  intro p member
  rw [step.para.1]
  rcases step.refs named p member with old | found
  · exact step.grows p _ (knows p old)
  · exact step.named named _ p found

/-- `alive` follows the calls of `OnOpen`. -/
theorem Stepped.alive (knows : d.Knows m) {r : Nat} (fits : int32 (m.alive r) = m.alive r) :
    m'.alive r = int32 (m.alive r + (d'.countedOf r).toNat - (d.countedOf r).toNat) := by
  have still (same : m'.alive r = m.alive r) (counted : d'.countedOf r = d.countedOf r) :
      m'.alive r = int32 (m.alive r + (d'.countedOf r).toNat - (d.countedOf r).toNat) := by
    rw [counted, Int.add_sub_cancel, fits]
    exact same
  cases step with
  | quiet _ _ pc quiet => exact still rfl (by simp only [countedOf, quiet.counted])
  | finds at_ =>
    exact still (DialerMng.findStatus_alive _ _) (by simp [countedOf, at_, Pc.counted])
  | raises p at_ =>
    refine still (DialerMng.addCo_alive _) ?_
    simp only [countedOf, at_]
    split <;> rfl
  | resets p at_ =>
    exact still (congrArg (Option.getD · 0) (DialerMng.atomic_field _ fun _ => rfl))
      (by simp [countedOf, at_, Pc.counted])
  | lowers p q pc at_ =>
    refine still (DialerMng.addCo_alive _) ?_
    rcases at_ with ⟨at_, -, rfl⟩ | ⟨at_, rfl⟩ | ⟨at_, rfl⟩ <;>
      simp [countedOf, at_, Pc.counted]
  | opens p q at_ =>
    have known : q < m.heap.length := DialerMng.keyOf_lt (knows q (by simp [at_, Pc.refs]))
    rw [DialerMng.addAlive_alive known]
    by_cases same : q = r <;> simp [countedOf, at_, Pc.counted, same, fits]
  | admits _ _ at_ | stores _ _ _ at_ =>
    exact still rfl (by simp [countedOf, at_, Pc.counted])

/-- `co` of a status follows the slots, as long as whoever has taken one gives it back to
the same status. -/
theorem Stepped.co (knows : d.Knows m) {r : Nat} (fits : int32 (m.co r) = m.co r)
    (fair : ∀ p q, d.pc = .failedUndo p q ∨ d.pc = .openCo p q → p = r ∨ q = r → q = p)
    (going : d.pc ≠ .reset r) :
    m'.co r = int32 (m.co r + (d'.slotOf r).toNat - (d.slotOf r).toNat) := by
  have still (same : m'.co r = m.co r) (slot : d'.slotOf r = d.slotOf r) :
      m'.co r = int32 (m.co r + (d'.slotOf r).toNat - (d.slotOf r).toNat) := by
    rw [slot, Int.add_sub_cancel, fits]
    exact same
  cases step with
  | quiet _ _ pc quiet => exact still rfl (by simp only [slotOf, quiet.slot])
  | finds at_ => exact still (DialerMng.findStatus_co _ _) (by simp [slotOf, at_, Pc.slot])
  | raises p at_ =>
    have known : p < m.heap.length := DialerMng.keyOf_lt (knows p (by simp [at_, Pc.refs]))
    have slot : (if (m.addCo p 1).co p ≤ 0 then Pc.reset p
        else Pc.check p ((m.addCo p 1).co p)).slot = some p := by
      split <;> rfl
    have before : d.pc.slot = none := by rw [at_]; rfl
    rw [DialerMng.addCo_co known]
    simp only [slotOf, slot, before]
    by_cases same : p = r <;> simp [same, fits]
  | resets p at_ =>
    have other : p ≠ r := fun same => going (same ▸ at_)
    refine still ?_ (by simp [slotOf, at_, Pc.slot])
    unfold DialerMng.co
    rw [DialerMng.atomic_getElem]
    simp [other]
  | lowers p q pc at_ =>
    have gave : p = r ∨ q = r → q = p := by
      rcases at_ with ⟨-, same, -⟩ | ⟨at_, -⟩ | ⟨at_, -⟩
      · exact fun _ => same
      · exact fair p q (.inl at_)
      · exact fair p q (.inr at_)
    have known : q < m.heap.length := by
      refine DialerMng.keyOf_lt (knows q ?_)
      rcases at_ with ⟨at_, rfl, -⟩ | ⟨at_, -⟩ | ⟨at_, -⟩ <;> simp [at_, Pc.refs]
    have before : d.pc.slot = some p := by
      rcases at_ with ⟨at_, -, -⟩ | ⟨at_, -⟩ | ⟨at_, -⟩ <;> rw [at_] <;> rfl
    have after : pc.slot = none := by
      rcases at_ with ⟨-, -, rfl⟩ | ⟨-, rfl⟩ | ⟨-, rfl⟩ <;> rfl
    rw [DialerMng.addCo_co known]
    simp only [slotOf, before, after]
    by_cases mine : p = r
    · have same := gave (.inl mine)
      simp [same, mine, Int.sub_eq_add_neg]
    have other : q ≠ r := fun is => mine ((gave (.inr is)) ▸ is)
    simp [mine, other, fits]
  | opens _ _ at_ => exact still (DialerMng.addAlive_co _) (by simp [slotOf, at_, Pc.slot])
  | admits _ _ at_ | stores _ _ _ at_ =>
    exact still rfl (by simp [slotOf, at_, Pc.slot])

theorem Stepped.inactive : m'.inactive = m.inactive := by
  cases step with
  | finds => exact (DialerMng.findStatus_books _ _).1
  | quiet | raises | resets | admits | lowers | opens | stores => rfl

/-- A status stays in the map. -/
theorem Stepped.status {key : Bytes} {p : Nat} (known : m.status key = some p) :
    m'.status key = some p := by
  cases step with
  | finds =>
    rcases m.findStatus_cases d.para d.max with ⟨q, -, found⟩ | ⟨absent, made⟩
    · rw [found]
      exact known
    rw [made]
    have other : key ≠ d.para.key := by
      rintro rfl
      rw [absent] at known
      cases known
    exact (update_of_ne other _ _).trans known
  | quiet | raises | resets | admits | lowers | opens | stores => exact known

/-- A call that has found one status only goes on with it. -/
theorem Stepped.one (named : m.Named) (one : ∀ p ∈ d.pc.refs, m.status d.para.key = some p) :
    ∀ p ∈ d'.pc.refs, m'.status d.para.key = some p := by
  intro p member
  rcases step.refs named p member with old | found
  · exact step.status (one p old)
  · exact found

end

section Closing

variable {c c' : Closer}

/-- All that one atomic step of `OnClose` can do. -/
inductive Shutting (m : DialerMng) (c : Closer) : DialerMng → Closer → Prop
  | quiet (online : Int) (pc : ClosePc) (before : c.pc.lowered = false)
      (after : pc.lowered = false) (refs : ∀ p ∈ pc.refs, m.status c.key = some p) :
      Shutting m c { m with online := online } { c with pc := pc }
  | misses (at_ : c.pc = .load) (absent : m.status c.key = none) :
      Shutting m c m { c with pc := .delete none }
  | lowers (q : Nat) (at_ : c.pc = .alive q) :
      Shutting m c (m.addAlive q (-1)) { c with pc := .delete (some q) }
  | deletes (q : Option Nat) (at_ : c.pc = .delete q) :
      Shutting m c (m.delete c.cid) { c with pc := .done q }

section

variable (done : c.next m = some (m', c'))
include done

theorem Closer.next_shutting : Shutting m c m' c' := by
  unfold Closer.next at done
  obtain ⟨dial, key, cid, pc⟩ := c
  cases pc with
  | online | file =>
    cases done
    exact .quiet _ _ rfl rfl nofun
  | load =>
    dsimp only at done
    split at done
    · rename_i q found
      cases done
      refine .quiet m.online _ rfl rfl fun p member => ?_
      rw [mem_singleton.mp member]
      exact found
    rename_i absent
    cases done
    exact .misses rfl absent
  | alive q =>
    cases done
    exact .lowers q rfl
  | delete q =>
    cases done
    exact .deletes q rfl
  | done q => cases done

theorem Closer.next_frame :
    c'.key = c.key ∧ c'.cid = c.cid ∧ c'.dial = c.dial ∧ m'.status = m.status ∧
      m'.inactive = m.inactive ∧ ∀ p, m'.keyOf p = m.keyOf p ∧ m'.co p = m.co p := by
  cases Closer.next_shutting done with
  | lowers q => exact ⟨rfl, rfl, rfl, rfl, rfl,
      fun _ => ⟨DialerMng.addAlive_keyOf _, DialerMng.addAlive_co _⟩⟩
  | quiet | misses | deletes => exact ⟨rfl, rfl, rfl, rfl, rfl, fun _ => ⟨rfl, rfl⟩⟩

theorem Closer.next_knows (named : m.Named) (knows : c.Knows m) : c'.Knows m' := by
  obtain ⟨key, -, -, -, -, same⟩ := Closer.next_frame done
  intro p member
  rw [(same p).1, key]
  cases Closer.next_shutting done with
  | quiet _ _ _ _ refs => exact named _ p (refs p member)
  | misses => cases member
  | lowers _ at_ | deletes _ at_ =>
    refine knows p ?_
    rw [at_]
    exact member

end

theorem Closer.countedOf_eq_false (raised : c.pc.lowered = false) (r : Nat) :
    c.countedOf r = false := by
  refine decide_eq_false fun counted => ?_
  rw [ClosePc.lowered_of_counted counted] at raised
  cases raised

theorem Closer.next_alive (done : c.next m = some (m', c')) (knows : c.Knows m) {r : Nat}
    (fits : int32 (m.alive r) = m.alive r) :
    m'.alive r = int32 (m.alive r - (c'.countedOf r).toNat + (c.countedOf r).toNat) := by
  have still (same : m'.alive r = m.alive r) (counted : c'.countedOf r = c.countedOf r) :
      m'.alive r = int32 (m.alive r - (c'.countedOf r).toNat + (c.countedOf r).toNat) := by
    rw [counted, Int.sub_add_cancel, fits]
    exact same
  cases Closer.next_shutting done with
  | quiet _ _ before after =>
    refine still rfl ?_
    rw [Closer.countedOf_eq_false before, Closer.countedOf_eq_false (by exact after)]
  | lowers q at_ =>
    have known : q < m.heap.length := DialerMng.keyOf_lt (knows q (by simp [at_, ClosePc.refs]))
    rw [DialerMng.addAlive_alive known]
    by_cases same : q = r <;>
      simp [Closer.countedOf, at_, ClosePc.counted, same, fits, Int.sub_eq_add_neg]
  | misses at_ | deletes _ at_ =>
    refine still rfl ?_
    unfold Closer.countedOf
    rw [at_]
    rfl

/-- `alive` falls, as long as it does not wrap around. -/
theorem Closer.next_alive_le (done : c.next m = some (m', c')) (knows : c.Knows m) {r : Nat}
    (high : m.alive r < 2147483648) (low : c.pc = .alive r → -2147483648 < m.alive r) :
    m'.alive r ≤ m.alive r := by
  cases Closer.next_shutting done with
  | lowers q at_ =>
    have known : q < m.heap.length := DialerMng.keyOf_lt (knows q (by simp [at_, ClosePc.refs]))
    rw [DialerMng.addAlive_alive known]
    split
    · rename_i same
      have least := low (same ▸ at_)
      rw [int32_of_fits (by omega) (by omega)]
      omega
    · exact Int.le_refl _
  | quiet | misses | deletes => exact Int.le_refl _

end Closing

namespace DialSys

variable {s s' : DialSys} {label : Label}

/-- All that a step of the system can be. -/
inductive Turn (s : DialSys) : Label → DialSys → Prop
  | starts (label : Label) (para : DialParam) (max : Int) (keeper : KeepAlive)
      (fair : ∀ key, keeper = .deleting key → s.keeper = .deleting key)
      (apart : ∀ i answer, label ≠ .dial i answer)
      (source : label = .addDialer para max ∧ keeper = s.keeper ∨
        ∃ cur, s.keeper = .spawning para cur max ∧ keeper = .spawning para (cur + 1) max) :
      Turn s label { s.start para max with keeper := keeper }
  | dials (i : Nat) (answer : Answer) {d d' : Dial} {m : DialerMng} (found : s.dials[i]? = some d)
      (next : d.next s.mng answer = some (m, d')) :
      Turn s (.dial i answer) { s with mng := m, dials := s.dials.set i d' }
  | calls (i : Nat) {d : Dial} {cid : UInt64} (found : s.dials[i]? = some d)
      (named : d.cid = some cid) (there : s.mng.holds cid = true) :
      Turn s (.onClose i) { s with closers := s.closers ++ [⟨i, d.para.key, cid, .online⟩] }
  | closes (j : Nat) {c c' : Closer} {m : DialerMng} (found : s.closers[j]? = some c)
      (next : c.next s.mng = some (m, c')) :
      Turn s (.close j) { s with mng := m, closers := s.closers.set j c' }
  | updates (add : Bool) (key : Bytes) :
      Turn s (.updateDialer add key) { s with mng := s.mng.updateDialer add key }
  | keeps (label : Label) (keeper : KeepAlive)
      (fair : ∀ key, keeper = .deleting key → s.keeper = .deleting key ∨ key ∈ s.mng.inactive)
      (apart : ∀ i answer, label ≠ .dial i answer)
      (spawns : ∀ para cur max, keeper = .spawning para cur max → s.keeper = keeper ∨
        ∃ st ∈ s.mng.heap, para = st.para ∧ max = st.except) :
      Turn s label { s with keeper := keeper }
  | forgets (key : Bytes) (at_ : s.keeper = .deleting key) :
      Turn s .keep { s with mng := { s.mng with status := Function.update s.mng.status key none },
                            keeper := .idle }

theorem step_turn (done : s.step label = some s') : Turn s label s' := by
  unfold step at done
  cases label <;> dsimp only at done
  case addDialer para max =>
    cases done
    exact .starts _ para max s.keeper (fun _ same => same) nofun (.inl ⟨rfl, rfl⟩)
  case dial i answer =>
    split at done
    · cases done
    rename_i d found
    split at done
    · cases done
    rename_i m d' next
    cases done
    exact .dials i answer found next
  case onClose i =>
    split at done
    · rename_i para max cid pc found
      split at done
      · rename_i there
        cases done
        exact .calls i found rfl there
      cases done
      exact .keeps _ _ (fun key same => .inl same) nofun fun _ _ _ _ => .inl rfl
    · cases done
  case close j =>
    split at done
    · cases done
    rename_i c found
    split at done
    · cases done
    rename_i m c' next
    cases done
    exact .closes j found next
  case updateDialer add key =>
    cases done
    exact .updates add key
  case tick key =>
    split at done
    · cases done
      split
      · rename_i listed
        exact .keeps _ _ (fun other same => by cases same; exact .inr listed) nofun nofun
      · exact .keeps _ _ nofun nofun nofun
    · cases done
  case keep =>
    split at done
    · cases done
    · rename_i key at_
      cases done
      exact .forgets key at_
    · split at done
      · cases done
      rename_i st found
      cases done
      refine .keeps _ _ nofun nofun fun para cur max is => .inr ?_
      cases is
      exact ⟨st, mem_of_getElem? found, rfl, rfl⟩
    split at done
    · cases done
      exact .starts _ _ _ _ nofun nofun (.inr ⟨_, by assumption, rfl⟩)
    cases done
    exact .keeps _ _ nofun nofun nofun

end DialSys

end Connaxis.Dialer
