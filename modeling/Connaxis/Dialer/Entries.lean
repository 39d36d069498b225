import Connaxis.Dialer.Target

namespace Connaxis.Dialer

open List Runs Closer Tasks

/-- The call of `OnClose` has returned. -/
def ClosePc.finished : ClosePc → Bool
  | .done _ => true
  | _ => false

def Dial.storedOf (key : Bytes) (d : Dial) : Bool := d.para.key = key ∧ d.pc.stored = true

theorem Pc.counted_of_stored {pc : Pc} (stored : pc.stored = true) : pc.counted ≠ none := by
  cases pc with
  | openCo | opened => exact nofun
  | _ => cases stored

theorem ClosePc.finished_eq_false {pc : ClosePc} (raised : pc.lowered = false) :
    pc.finished = false := by
  cases pc with
  | done => cases raised
  | _ => rfl

/-- The entry of a connection. -/
structure Dial.Has (d : Dial) (cid : UInt64) (key : Bytes) : Prop where
  cid : d.cid = some cid
  key : d.para.key = key
  stored : d.pc.stored = true

section Steps

variable {m m' : DialerMng} {d d' : Dial} {c c' : Closer} {a : Answer}

section

variable (step : Stepped m d m' d')
include step

/-- What a step does to the map: nothing, or it puts the dialer of this call there. -/
theorem Stepped.dialers :
    m'.dialers = m.dialers ∧ d'.pc.stored = d.pc.stored ∨
      ∃ cid, d.cid = some cid ∧ d.pc.stored = false ∧ d'.Has cid d.para.key ∧
        m'.dialers = (m.store cid d.para.key).dialers := by
  cases step with
  | quiet _ _ pc quiet => exact .inl ⟨rfl, quiet.stored⟩
  | finds at_ => exact .inl ⟨(DialerMng.findStatus_books _ _).2, by rw [at_]; rfl⟩
  | raises p at_ =>
    refine .inl ⟨rfl, ?_⟩
    rw [at_]
    dsimp only
    split <;> rfl
  | resets _ at_ | admits _ _ at_ | opens _ _ at_ => exact .inl ⟨rfl, by rw [at_]; rfl⟩
  | lowers p q pc at_ =>
    refine .inl ⟨rfl, ?_⟩
    rcases at_ with ⟨at_, -, rfl⟩ | ⟨at_, rfl⟩ | ⟨at_, rfl⟩ <;> rw [at_] <;> rfl
  | stores p q cid at_ named => exact .inr ⟨cid, named, by rw [at_]; rfl, ⟨named, rfl, rfl⟩, rfl⟩

/-- A call gets its id once. -/
theorem Stepped.cid : d'.cid = d.cid ∨ d.pc.stored = false ∧ ∃ p, d.pc = .client p := by
  cases step with
  | quiet _ cid pc quiet named =>
    exact named.imp_right fun ⟨p, at_⟩ => ⟨by rw [at_]; rfl, p, at_⟩
  | finds | raises | resets | admits | lowers | opens | stores => exact .inl rfl

theorem Stepped.has {cid : UInt64} {key : Bytes} (has : d.Has cid key) : d'.Has cid key := by
  obtain ⟨cid, own, stored⟩ := has
  refine ⟨?_, step.para.1 ▸ own, ?_⟩
  · rcases step.cid with same | ⟨not, -⟩
    · exact same.trans cid
    rw [stored] at not
    cases not
  rcases step.dialers with ⟨-, same⟩ | ⟨_, -, not, -⟩
  · exact same.trans stored
  rw [stored] at not
  cases not

theorem Stepped.had (stored : d'.pc.stored = d.pc.stored) {cid : UInt64} {key : Bytes}
    (has : d'.Has cid key) : d.Has cid key := by
  have before := stored.symm.trans has.stored
  refine ⟨?_, step.para.1 ▸ has.key, before⟩
  rcases step.cid with same | ⟨not, -⟩
  · exact same.symm.trans has.cid
  rw [before] at not
  cases not

end

/-- The id a step gives, if any. -/
theorem Dial.next_cid (done : d.next m a = some (m', d')) :
    d'.cid = d.cid ∨ ∃ cid taken, a = .client cid taken ∧ d'.cid = some cid := by
  rcases (next_stepped done).cid with same | ⟨-, p, at_⟩
  · exact .inl same
  unfold Dial.next at done
  rw [at_] at done
  cases a with
  | client cid taken =>
    cases done
    exact .inr ⟨cid, taken, rfl, rfl⟩
  | go | dialed | shaken | attached => cases done

theorem Closer.next_dialers (done : c.next m = some (m', c')) :
    m'.dialers = m.dialers ∧ c'.pc.finished = false ∨
      m'.dialers = (m.delete c.cid).dialers ∧ c'.pc.finished = true := by
  cases next_shutting done with
  | quiet _ pc _ after => exact .inl ⟨rfl, ClosePc.finished_eq_false after⟩
  | misses | lowers => exact .inl ⟨rfl, rfl⟩
  | deletes => exact .inr ⟨rfl, rfl⟩

theorem Closer.next_over (done : c.next m = some (m', c')) : c.pc.finished = false := by
  cases next_shutting done with
  | quiet _ _ before => exact ClosePc.finished_eq_false before
  | misses at_ | lowers _ at_ | deletes _ at_ =>
    rw [at_]
    rfl

end Steps

namespace DialSys

variable {s s' : DialSys} {label : Label}

/-- A new connection has an id that no other connection has. -/
def NewId (s : DialSys) : Label → Prop
  | .dial i (.client cid _) => ∀ j < s.dials.length, (s.dials[j]?).bind Dial.cid = some cid → j = i
  | _ => True

instance (s : DialSys) : ∀ label, Decidable (s.NewId label)
  | .dial i (.client cid _) => inferInstanceAs
      (Decidable (∀ j < s.dials.length, (s.dials[j]?).bind Dial.cid = some cid → j = i))
  | .addDialer .. | .dial _ .go | .dial _ (.dialed _) | .dial _ (.shaken _)
  | .dial _ (.attached _) | .onClose _ | .close _ | .updateDialer .. | .tick _ | .keep =>
    isTrue trivial

/-- A call of `OnClose` has taken the connection out of the map. -/
def Shut (s : DialSys) (cid : UInt64) : Prop :=
  ∃ c ∈ s.closers, c.cid = cid ∧ c.pc.finished = true

instance (s : DialSys) (cid : UInt64) : Decidable (s.Shut cid) :=
  inferInstanceAs (Decidable (∃ c ∈ s.closers, c.cid = cid ∧ c.pc.finished = true))

/-- The map holds the connections that were put there and that nobody has taken out. -/
structure Entries (s : DialSys) : Prop where
  ids : ∀ (i j : Nat) (d t : Dial) (cid : UInt64), s.dials[i]? = some d → s.dials[j]? = some t →
    d.cid = some cid → t.cid = some cid → i = j
  named : ∀ d ∈ s.dials, d.pc.stored = true → ∃ cid, d.cid = some cid
  once : (s.mng.dialers.map Prod.fst).Nodup
  map : ∀ entry, entry ∈ s.mng.dialers ↔
    (∃ d ∈ s.dials, d.Has entry.1 entry.2) ∧ ¬ s.Shut entry.1
  closers : ∀ c ∈ s.closers, ∃ d ∈ s.dials, d.Has c.cid c.key

theorem Entries.boot : Entries boot := by
  refine ⟨fun i j d t cid found => ?_, nofun, nodup_nil, fun entry => ?_, nofun⟩
  · cases found
  · exact iff_of_false not_mem_nil fun both => both.1.elim fun d held => not_mem_nil held.1

section

variable (entries : Entries s)
include entries

variable {m : DialerMng} {i : Nat} {d : Dial}

/-- Of the manager it takes the map only. -/
theorem Entries.mng (same : m.dialers = s.mng.dialers) : Entries { s with mng := m } :=
  ⟨entries.ids, entries.named, same ▸ entries.once, same ▸ entries.map, entries.closers⟩

/-- Whoever has the id of a call is that call. -/
theorem Entries.same {t : Dial} {cid : UInt64} {key : Bytes} (found : s.dials[i]? = some d)
    (named : d.cid = some cid) (member : t ∈ s.dials) (has : t.Has cid key) : t = d := by
  obtain ⟨j, at_⟩ := mem_iff_getElem?.mp member
  cases entries.ids i j d t cid found at_ named has.cid
  exact Option.some.inj (at_.symm.trans found)

section

variable {answer : Answer} {d' : Dial} (found : s.dials[i]? = some d)
  (next : d.next s.mng answer = some (m, d'))
include found next

omit entries in
/-- A connection that has an entry keeps it when its call goes on. -/
theorem has_set (cid : UInt64) (key : Bytes) : (∃ t ∈ s.dials.set i d', t.Has cid key) ↔
    (∃ t ∈ s.dials, t.Has cid key) ∨ d'.Has cid key := by
  constructor
  · rintro ⟨t, member, has⟩
    rcases mem_set member with old | rfl
    · exact .inl ⟨t, old, has⟩
    · exact .inr has
  rintro (⟨t, member, has⟩ | has)
  · obtain ⟨j, at_⟩ := mem_iff_getElem?.mp member
    by_cases same : i = j
    · subst same
      cases found.symm.trans at_
      exact ⟨d', mem_set_self found d', (Dial.next_stepped next).has has⟩
    · exact ⟨t, mem_of_getElem? ((getElem?_set_ne same).trans at_), has⟩
  · exact ⟨d', mem_set_self found d', has⟩

theorem Entries.ids_set (fresh : s.NewId (.dial i answer)) :
    ∀ (j k : Nat) (t u : Dial) (cid : UInt64), (s.dials.set i d')[j]? = some t →
      (s.dials.set i d')[k]? = some u → t.cid = some cid → u.cid = some cid → j = k := by
  have other : ∀ (j : Nat) (t : Dial) (cid : UInt64), j ≠ i → s.dials[j]? = some t →
      t.cid = some cid → d'.cid ≠ some cid := by
    intro j t cid other there named is
    rcases Dial.next_cid next with same | ⟨new, taken, rfl, gives⟩
    · exact other (entries.ids j i t d cid there found named (same.symm.trans is))
    cases gives.symm.trans is
    exact other (fresh j (List.getElem?_eq_some_iff.mp there).1 (by rw [there]; exact named))
  intro j k t u cid first second named named'
  rcases getElem?_set found first with ⟨rfl, rfl⟩ | ⟨apart, there⟩
  · rcases getElem?_set found second with ⟨rfl, rfl⟩ | ⟨apart', there'⟩
    · rfl
    · exact absurd named (other k u cid apart' there' named')
  rcases getElem?_set found second with ⟨rfl, rfl⟩ | ⟨apart', there'⟩
  · exact absurd named' (other j t cid apart there named)
  · exact entries.ids j k t u cid there there' named named'

theorem Entries.named_set :
    ∀ t ∈ s.dials.set i d', t.pc.stored = true → ∃ cid, t.cid = some cid := by
  intro t member stored
  rcases mem_set member with old | rfl
  · exact entries.named t old stored
  have step := Dial.next_stepped next
  rcases step.dialers with ⟨-, same⟩ | ⟨cid, -, -, has, -⟩
  · have before := same.symm.trans stored
    obtain ⟨cid, named⟩ := entries.named d (mem_of_getElem? found) before
    exact ⟨cid, (step.has ⟨named, rfl, before⟩).cid⟩
  · exact ⟨cid, has.cid⟩

theorem Entries.dial (fresh : s.NewId (.dial i answer)) :
    Entries { s with mng := m, dials := s.dials.set i d' } := by
  have step := Dial.next_stepped next
  have ids := entries.ids_set found next fresh
  have names := entries.named_set found next
  have closers (c : Closer) (member : c ∈ s.closers) :
      ∃ t ∈ s.dials.set i d', t.Has c.cid c.key :=
    (has_set found next c.cid c.key).mpr (.inl (entries.closers c member))
  rcases step.dialers with ⟨same, stored⟩ | ⟨cid, named, not, has, stores⟩
  · refine Entries.mng (s := { s with dials := s.dials.set i d' })
      ⟨ids, names, entries.once, fun entry => (entries.map entry).trans ?_, closers⟩ same
    refine and_congr_left' ((has_set found next entry.1 entry.2).trans (or_iff_left_of_imp ?_)).symm
    exact fun has => ⟨d, mem_of_getElem? found, step.had stored has⟩
  -- the dialer of this call is put into the map: it was not there, and nobody closes it
  have unheard {t : Dial} {key : Bytes} (member : t ∈ s.dials) (has : t.Has cid key) : False := by
    have stored := has.stored
    rw [entries.same found named member has, not] at stored
    cases stored
  have absent : ∀ entry ∈ s.mng.dialers, entry.1 ≠ cid := by
    rintro entry listed rfl
    obtain ⟨⟨t, member, has⟩, -⟩ := (entries.map entry).mp listed
    exact unheard member has
  have map' : m.dialers = (cid, d.para.key) :: s.mng.dialers :=
    stores.trans (congrArg (cons _)
      (filter_eq_self.mpr fun entry member => decide_eq_true (absent entry member)))
  have nobody : ¬ s.Shut cid := by
    rintro ⟨c, inside, rfl, -⟩
    obtain ⟨t, member, has⟩ := entries.closers c inside
    exact unheard member has
  refine ⟨ids, names, ?_, fun entry => ?_, closers⟩
  · rw [map', map_cons]
    refine nodup_cons.mpr ⟨fun listed => ?_, entries.once⟩
    obtain ⟨entry, member, is⟩ := mem_map.mp listed
    exact absent entry member is
  rw [map', mem_cons, entries.map entry, has_set found next, or_and_right, or_comm]
  refine or_congr_right ⟨?_, fun both => ?_⟩
  · rintro rfl
    exact ⟨has, nobody⟩
  · exact Prod.ext (Option.some.inj (both.1.cid.symm.trans has.cid)) (both.1.key.symm.trans has.key)

end

theorem Entries.calls {cid : UInt64} (found : s.dials[i]? = some d) (named : d.cid = some cid)
    (there : s.mng.holds cid = true) :
    Entries { s with closers := s.closers ++ [⟨i, d.para.key, cid, .online⟩] } := by
  obtain ⟨entry, listed, is⟩ := any_eq_true.mp there
  obtain ⟨⟨t, member, has⟩, -⟩ := (entries.map entry).mp listed
  rw [of_decide_eq_true is] at has
  have same := entries.same found named member has
  rw [same] at member has
  have shut (other : UInt64) : ({ s with closers := s.closers ++
      [⟨i, d.para.key, cid, .online⟩] } : DialSys).Shut other ↔ s.Shut other := by
    simp [Shut, or_and_right, exists_or, ClosePc.finished]
  refine ⟨entries.ids, entries.named, entries.once, fun entry => ?_, fun c inside => ?_⟩
  · rw [shut]
    exact entries.map entry
  rcases mem_append_one inside with old | rfl
  · exact entries.closers c old
  · exact ⟨d, member, named, rfl, has.stored⟩

theorem Entries.close {j : Nat} {c c' : Closer} (found : s.closers[j]? = some c)
    (next : c.next s.mng = some (m, c')) :
    Entries { s with mng := m, closers := s.closers.set j c' } := by
  obtain ⟨key', cid', -, -, -, -⟩ := next_frame next
  have active := next_over next
  have inside := mem_of_getElem? found
  have closers (t : Closer) (member : t ∈ s.closers.set j c') :
      ∃ d ∈ s.dials, d.Has t.cid t.key := by
    rcases mem_set member with old | rfl
    · exact entries.closers t old
    rw [cid', key']
    exact entries.closers c inside
  have shut (cid : UInt64) : ({ s with closers := s.closers.set j c' } : DialSys).Shut cid ↔
      s.Shut cid ∨ c.cid = cid ∧ c'.pc.finished = true := by
    constructor
    · rintro ⟨t, member, is, past⟩
      rcases mem_set member with old | rfl
      · exact .inl ⟨t, old, is, past⟩
      · exact .inr ⟨cid' ▸ is, past⟩
    rintro (⟨t, member, is, past⟩ | ⟨is, past⟩)
    · obtain ⟨k, at_⟩ := mem_iff_getElem?.mp member
      have apart : j ≠ k := by
        rintro rfl
        cases found.symm.trans at_
        rw [active] at past
        cases past
      exact ⟨t, mem_of_getElem? ((getElem?_set_ne apart).trans at_), is, past⟩
    · exact ⟨c', mem_set_self found c', cid' ▸ is, past⟩
  rcases next_dialers next with ⟨same, past⟩ | ⟨deletes, past⟩
  · refine Entries.mng (s := { s with closers := s.closers.set j c' })
      ⟨entries.ids, entries.named, entries.once, fun entry => ?_, closers⟩ same
    rw [shut, past]
    simpa using entries.map entry
  have map' : m.dialers = s.mng.dialers.filter fun entry => entry.1 ≠ c.cid := deletes
  refine ⟨entries.ids, entries.named, ?_, fun entry => ?_, closers⟩
  · rw [map']
    exact entries.once.sublist (filter_sublist.map _)
  have after : ({ s with mng := m, closers := s.closers.set j c' } : DialSys).Shut entry.1 ↔
      s.Shut entry.1 ∨ c.cid = entry.1 := (shut entry.1).trans (or_congr_right (and_iff_left past))
  rw [map', mem_filter, entries.map entry, after, decide_eq_true_eq, and_assoc, not_or, ne_comm]

theorem Entries.turn (fresh : s.NewId label) (turn : Turn s label s') : Entries s' := by
  cases turn with
  | starts _ para max keeper =>
    have was {i : Nat} {d : Dial} {cid : UInt64}
        (found : (s.dials ++ [⟨para, max, none, .start⟩])[i]? = some d)
        (named : d.cid = some cid) : s.dials[i]? = some d := by
      rcases getElem?_append_one found with old | ⟨-, rfl⟩
      · exact old
      · cases named
    have has_more (cid : UInt64) (key : Bytes) :
        (∃ d ∈ s.dials ++ [⟨para, max, none, .start⟩], d.Has cid key) ↔
          ∃ d ∈ s.dials, d.Has cid key := by
      refine ⟨fun ⟨d, member, has⟩ => ?_, fun ⟨d, member, has⟩ => ?_⟩
      · rcases mem_append_one member with old | rfl
        · exact ⟨d, old, has⟩
        · cases has.cid
      · exact ⟨d, mem_append_left _ member, has⟩
    refine ⟨fun i j d t cid first second named named' => ?_, fun d member stored => ?_,
      entries.once, fun entry => ?_,
      fun c member => (has_more c.cid c.key).mpr (entries.closers c member)⟩
    · exact entries.ids i j d t cid (was first named) (was second named') named named'
    · rcases mem_append_one member with old | rfl
      · exact entries.named d old stored
      · cases stored
    · exact (entries.map entry).trans (and_congr_left' (has_more entry.1 entry.2).symm)
  | dials i answer found next => exact entries.dial found next fresh
  | calls i found named there => exact entries.calls found named there
  | closes j found next => exact entries.close found next
  | updates add other =>
    exact entries.mng (by rw [DialerMng.updateDialer_eq])
  | keeps | forgets =>
    exact ⟨entries.ids, entries.named, entries.once, entries.map, entries.closers⟩

end

/-- The key has not been deactivated: whoever closes a connection of it finds its one status
as well. -/
def Settled (key : Bytes) (s : DialSys) : Prop :=
  ∀ c ∈ s.closers, c.key = key → (∀ p ∈ c.pc.refs, s.mng.status key = some p) ∧
    (c.pc.lowered = true → c.pc.counted = s.mng.status key)

theorem Settled.later {key : Bytes} {m : DialerMng} (settled : Settled key s)
    (kept : ∀ p, s.mng.status key = some p → m.status key = some p)
    (there : ∀ c ∈ s.closers, c.key = key → s.mng.status key ≠ none) :
    ∀ c ∈ s.closers, c.key = key → (∀ p ∈ c.pc.refs, m.status key = some p) ∧
      (c.pc.lowered = true → c.pc.counted = m.status key) := by
  intro c member own
  obtain ⟨refs, counted⟩ := settled c member own
  refine ⟨fun p held => kept p (refs p held), fun lowered => ?_⟩
  obtain ⟨q, found⟩ := Option.ne_none_iff_exists'.mp (there c member own)
  rw [counted lowered, found]
  exact (kept q found).symm

/-- A connection that is being closed was opened with a status. -/
theorem Entries.status_found {key : Bytes} (entries : Entries s) (steadfast : Steadfast key s)
    (c : Closer) (member : c ∈ s.closers) (own : c.key = key) : s.mng.status key ≠ none := by
  obtain ⟨d, found, has⟩ := entries.closers c member
  obtain ⟨p, counted⟩ := Option.ne_none_iff_exists'.mp (Pc.counted_of_stored has.stored)
  have held := Pc.counted_refs counted
  rw [steadfast.one d found (has.key.trans own) p held]
  exact nofun

theorem Settled.turn {key : Bytes} (steadfast : Steadfast key s) (entries : Entries s)
    (settled : Settled key s) (turn : Turn s label s') : Settled key s' := by
  have there := entries.status_found steadfast
  cases turn with
  | starts => exact settled
  | dials i answer found next =>
    exact settled.later (fun p => (Dial.next_stepped next).status) there
  | calls i found named listed =>
    intro c member own
    rcases mem_append_one member with old | rfl
    · exact settled c old own
    · exact ⟨nofun, nofun⟩
  | @closes j c c' m found next =>
    obtain ⟨key', -, -, status, -, -⟩ := next_frame next
    have inside := mem_of_getElem? found
    intro t member own
    rw [status]
    rcases mem_set member with old | rfl
    · exact settled t old own
    have own' : c.key = key := key'.symm.trans own
    obtain ⟨refs, counted⟩ := settled c inside own'
    have known := there c inside own'
    cases next_shutting next with
    | quiet _ pc _ after held =>
      refine ⟨fun p member => own' ▸ held p member, fun lowered => ?_⟩
      rw [after] at lowered
      cases lowered
    | misses _ absent => exact absurd (own' ▸ absent) known
    | lowers q at_ =>
      have mine := refs q (by simp [at_, ClosePc.refs])
      refine ⟨fun p held => ?_, fun _ => mine.symm⟩
      rw [mem_singleton.mp held]
      exact mine
    | deletes q at_ =>
      have same := counted (by rw [at_]; rfl)
      rw [at_] at same refs
      exact ⟨refs, fun _ => same⟩
  | updates add other =>
    rw [DialerMng.updateDialer_eq]
    exact settled
  | keeps => exact settled
  | forgets other at_ =>
    have apart : key ≠ other := fun same => steadfast.spared (same ▸ at_)
    exact settled.later (fun p known => (Function.update_of_ne apart _ _).trans known) there

/-- The number of calls of `OnOpen` for a key between `alive` and the map. -/
def opening (s : DialSys) (key : Bytes) : Nat :=
  s.dials.countP fun d => d.para.key = key ∧ d.pc.counted ≠ none ∧ d.pc.stored = false

/-- The number of calls of `OnClose` for a key that are past the point where they lower
`alive`. -/
def closed (s : DialSys) (key : Bytes) : Nat :=
  s.closers.countP fun c => c.key = key ∧ c.pc.lowered = true

/-- The number of connections of a key that have been taken out of the map. -/
def gone (s : DialSys) (key : Bytes) : Nat :=
  s.dials.countP fun d => d.storedOf key && d.cid.any fun cid => s.Shut cid

/-- The connections of a key, open or closed, that were counted in another status. -/
def openedElsewhere (s : DialSys) (key : Bytes) (p : Nat) : Nat :=
  s.dials.countP fun d => d.para.key = key ∧ d.pc.counted ≠ none ∧ d.pc.counted ≠ some p

/-- The closed connections of a key that were taken off another status, or off none. -/
def closedElsewhere (s : DialSys) (key : Bytes) (p : Nat) : Nat :=
  s.closers.countP fun c => c.key = key ∧ c.pc.lowered = true ∧ c.pc.counted ≠ some p

variable {key : Bytes} {p : Nat}

theorem stored_balance (wf : Wf s) (found : s.mng.status key = some p) :
    s.dials.countP (Dial.storedOf key) + s.opening key =
      s.dials.countP (Dial.countedOf p) + s.openedElsewhere key p := by
  refine countP_balance fun d member => ?_
  have counted : d.pc.stored = true → d.pc.counted ≠ none := Pc.counted_of_stored
  have mine : d.pc.counted = some p → d.para.key = key := fun is =>
    (wf.dials d member).own (DialerMng.own_of_status wf.named found) (Pc.counted_refs is)
  unfold Dial.storedOf Dial.countedOf
  by_cases own : d.para.key = key
  · cases stored : d.pc.stored with
    | false => by_cases is : d.pc.counted = some p <;> simp [own, is]
    | true => by_cases is : d.pc.counted = some p <;> simp [own, is, counted stored]
  have not : d.pc.counted ≠ some p := fun is => own (mine is)
  simp [own, not]

theorem closed_balance (wf : Wf s) (found : s.mng.status key = some p) :
    s.closed key = s.closers.countP (countedOf p) + s.closedElsewhere key p := by
  have sorted := countP_balance (l := s.closers) (b := fun _ => false)
    (a := fun c => decide (c.key = key ∧ c.pc.lowered = true)) (c := countedOf p)
    (d := fun c => decide (c.key = key ∧ c.pc.lowered = true ∧ c.pc.counted ≠ some p))
    fun c member => ?_
  · rw [countP_false] at sorted
    exact sorted
  have lowered : c.pc.counted = some p → c.pc.lowered = true := ClosePc.lowered_of_counted
  have mine : c.pc.counted = some p → c.key = key := fun is =>
    DialerMng.own_of_status wf.named found _ (wf.closers c member p (ClosePc.counted_refs is))
  unfold countedOf
  by_cases is : c.pc.counted = some p
  · simp [is, mine is, lowered is]
  · simp [is]

/-- What was put into the map is there or has been taken out. -/
theorem Entries.counts (entries : Entries s) (key : Bytes) :
    s.mng.entries key + s.gone key = s.dials.countP (Dial.storedOf key) := by
  let kept (d : Dial) : Bool := d.storedOf key && !d.cid.any fun cid => s.Shut cid
  have sorted := countP_balance (l := s.dials) (a := kept) (c := Dial.storedOf key)
    (b := fun d => d.storedOf key && d.cid.any fun cid => s.Shut cid) (d := fun _ => false)
    fun d _ => by
      dsimp only [kept]
      cases d.storedOf key <;> cases d.cid.any fun cid => s.Shut cid <;> rfl
  rw [countP_false, Function.const_apply, Nat.add_zero] at sorted
  rw [← sorted]
  refine congrArg (· + s.gone key) ?_
  have apart : s.dials.Pairwise fun d t => ∀ cid, d.cid = some cid → t.cid ≠ some cid := by
    refine pairwise_iff_getElem.mpr fun i j first second less cid named named' => ?_
    have same := entries.ids i j _ _ cid (getElem?_eq_getElem first)
      (getElem?_eq_getElem second) named named'
    omega
  have named {d : Dial} (inside : d ∈ s.dials.filter kept) :
      ∃ cid, d ∈ s.dials ∧ d.Has cid key ∧ ¬ s.Shut cid := by
    obtain ⟨member, kind⟩ := mem_filter.mp inside
    obtain ⟨stored, out⟩ := Bool.and_eq_true_iff.mp kind
    obtain ⟨own, stored⟩ := of_decide_eq_true stored
    obtain ⟨cid, is⟩ := entries.named d member stored
    rw [is] at out
    exact ⟨cid, member, ⟨is, own, stored⟩, by simpa using out⟩
  have one : ((s.dials.filter kept).map fun d => (d.cid.getD 0, key)).Nodup := by
    refine pairwise_map.mpr ((apart.filter kept).imp_of_mem fun inside inside' other same => ?_)
    obtain ⟨cid, -, has, -⟩ := named inside
    obtain ⟨cid', -, has', -⟩ := named inside'
    rw [has.cid, has'.cid] at same
    cases same
    exact other cid has.cid has'.cid
  have all : (s.mng.dialers.filter fun entry => entry.2 = key) ~
      (s.dials.filter kept).map fun d => (d.cid.getD 0, key) := by
    refine (perm_ext_iff_of_nodup ((entries.once.of_map _).filter _) one).mpr fun entry => ?_
    rw [mem_filter, entries.map entry, decide_eq_true_eq, mem_map]
    constructor
    · rintro ⟨⟨⟨d, member, has⟩, out⟩, rfl⟩
      refine ⟨d, mem_filter.mpr ⟨member, ?_⟩, by rw [has.cid]; rfl⟩
      simp [kept, Dial.storedOf, has.cid, has.key, has.stored, out]
    · rintro ⟨d, inside, rfl⟩
      obtain ⟨cid, member, has, out⟩ := named inside
      rw [has.cid]
      exact ⟨⟨⟨d, member, has⟩, out⟩, rfl⟩
  unfold DialerMng.entries
  rw [countP_eq_length_filter, all.length_eq, length_map, countP_eq_length_filter]

theorem Steadfast.openedElsewhere_eq (steadfast : Steadfast key s)
    (found : s.mng.status key = some p) : s.openedElsewhere key p = 0 := by
  refine countP_eq_zero.mpr fun d member kind => ?_
  obtain ⟨own, some_, other⟩ := of_decide_eq_true kind
  obtain ⟨q, is⟩ := Option.ne_none_iff_exists'.mp some_
  have mine := steadfast.one d member own q (Pc.counted_refs is)
  exact other (is.trans (mine.symm.trans found))

theorem Settled.closedElsewhere_eq (settled : Settled key s)
    (found : s.mng.status key = some p) : s.closedElsewhere key p = 0 := by
  refine countP_eq_zero.mpr fun c member kind => ?_
  obtain ⟨own, lowered, other⟩ := of_decide_eq_true kind
  exact other (((settled c member own).2 lowered).trans found)

theorem run_entries {labels : List Label}
    (fresh : Each step (fun s a _ => s.NewId a) boot labels)
    (done : run step boot labels = some s) : Wf s ∧ Counted s ∧ Entries s := by
  refine run_invariant (I := fun s => Wf s ∧ Counted s ∧ Entries s) ?_ done fresh
    ⟨.boot, .boot, .boot⟩
  rintro s a next taken allowed ⟨wf, counted, entries⟩
  have turn := step_turn taken
  exact ⟨wf.turn turn, counted.turn wf turn, entries.turn allowed turn⟩

theorem run_settled {labels : List Label}
    (fresh : Each step (fun s a _ => s.NewId a) boot labels)
    (steady : ∀ a ∈ labels, a ≠ .updateDialer false key)
    (done : run step boot labels = some s) : Steadfast key s ∧ Settled key s := by
  have whole := run_invariant (G := fun s a => s.NewId a ∧ a ≠ .updateDialer false key)
    (I := fun s => Wf s ∧ Entries s ∧ Steadfast key s ∧ Settled key s) ?_ done
    (fresh.and (each_of_forall (fun a member _ _ => steady a member) boot))
    ⟨.boot, .boot, .boot key, nofun⟩
  · exact whole.2.2
  rintro s a next taken ⟨allowed, kept⟩ ⟨wf, entries, steadfast, settled⟩
  have turn := step_turn taken
  exact ⟨wf.turn turn, entries.turn allowed turn, steadfast.turn wf kept turn,
    settled.turn steadfast entries turn⟩

end DialSys

open DialSys

/-- One connection is opened. -/
def oneOpen : List Label := asks [49] [107] 2 0 ++ connects 7 0

/-- The key is deactivated and activated again while a connection is open. A new call makes a
new status, and then the connection is closed. -/
def reactivated : List Label :=
  oneOpen ++ [.updateDialer false (plain [49] [107]).key, .tick (plain [49] [107]).key, .keep,
    .updateDialer true (plain [49] [107]).key] ++ asks [49] [107] 2 1 ++ [.onClose 0] ++
    List.replicate 5 (.close 0)

end Connaxis.Dialer
