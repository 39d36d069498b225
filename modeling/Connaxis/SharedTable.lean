import Connaxis.Lib.Runs
import Connaxis.LoopFrame

namespace Connaxis

open Runs EngineConn Function Finset

open Function (update_self update_of_ne update)

/-- Where a connection stands, named by what is done next. From `looking` to `storing` it
is attached, from `books` to `zero` closed; `refused` is a `Close` without a slot. -/
inductive Phase
  | waiting
  | looking
  | behind (prev : Ref)
  | tagging
  | storing
  | held
  | books
  | unpoll
  | clear
  | kernel
  | zero
  | refused
  | gone
deriving DecidableEq, Repr

/-- A connection as the table sees it. `loop` is the loop that it is accepted for. -/
structure TableConn where
  fd : Nat
  loopID : Nat
  loop : Nat
  phase : Phase
deriving DecidableEq, Repr

/-- The descriptor table that all loops share, the connections of all of them, the
descriptors that are open in the kernel, and for each loop the descriptors in its own sets
and in its poller. -/
structure Shared where
  table : Nat → Option Ref
  conns : Ref → TableConn
  nconns : Nat
  opened : Finset Nat
  books : Nat → Finset Nat
  poll : Nat → Finset Nat

/-- The steps of the loops and of the handshake workers. Steps for different connections
come in any order, so every interleaving of the loops is among the runs. -/
inductive TableLabel
  /-- A connection for `loop` is accepted with a descriptor that is free. -/
  | accept (loop fd : Nat)
  /-- A connection on its way is closed: its handshake failed, or its loop is full. -/
  | discard (c : Ref)
  /-- `poll.AddRead` for an attached connection. -/
  | register (c : Ref)
  /-- The loop begins to close a connection, for whatever reason. -/
  | close (c : Ref)
  /-- The next atomic step of attaching or closing. -/
  | next (c : Ref)
deriving DecidableEq, Repr

namespace Phase

/-- The descriptor has not been given back to the kernel. -/
def isOpen : Phase → Bool
  | .zero | .gone => false
  | _ => true

/-- The slot has been taken and not been cleared. -/
def listed : Phase → Bool
  | .held | .books | .unpoll | .clear => true
  | _ => false

/-- `SetLoopID` has been called, or never will be. -/
def settled : Phase → Bool
  | .waiting | .looking | .behind _ | .tagging => false
  | _ => true

variable {p : Phase}

theorem open_of_listed (listed : p.listed = true) : p.isOpen = true := by
  cases p <;> first | rfl | cases listed

theorem settled_of_listed (listed : p.listed = true) : p.settled = true := by
  cases p <;> first | rfl | cases listed

end Phase

namespace Shared

variable (size : Nat)

/-- `connByFD` with its two reads: the slot is read in `s`, under its lock, and the loop of
what was found in `s'`. -/
def lookup (s s' : Shared) (loop fd : Nat) : Option Ref :=
  match fdTableGet size s.table fd with
  | some c => if (s'.conns c).loopID = loop then some c else none
  | none => none

def connByFD (s : Shared) (loop fd : Nat) : Option Ref := s.lookup size s loop fd

def setConn (s : Shared) (c : Ref) (conn : TableConn) : Shared :=
  { s with conns := update s.conns c conn }

def goto (s : Shared) (c : Ref) (phase : Phase) : Shared :=
  s.setConn c { s.conns c with phase := phase }

/-- `closeConn` is entered. -/
def startClose (s : Shared) (c : Ref) : Shared :=
  if (s.conns c).phase = .held then s.goto c .books else s

def enter (sets : Nat → Finset Nat) (loop fd : Nat) : Nat → Finset Nat :=
  update sets loop (insert fd (sets loop))

def leave (sets : Nat → Finset Nat) (loop fd : Nat) : Nat → Finset Nat :=
  update sets loop ((sets loop).erase fd)

def nextStep (s : Shared) (c : Ref) : Option Shared :=
  let conn := s.conns c
  match conn.phase with
  | .waiting => some (s.goto c .looking)
  | .looking =>
    match s.connByFD size conn.loop conn.fd with
    | none => some (s.goto c .tagging)
    | some prev =>
      if (s.conns prev).fd = 0 then some (s.goto c .tagging)
      else some ((s.startClose prev).goto c (.behind prev))
  | .behind prev => if (s.conns prev).phase = .gone then some (s.goto c .tagging) else none
  | .tagging => some (s.setConn c { conn with loopID := conn.loop, phase := .storing })
  | .storing =>
    match fdTableSet size s.table conn.fd c with
    | (table, true) =>
      some ({ s with table := table, books := enter s.books conn.loop conn.fd }.goto c .held)
    | (_, false) => some (s.goto c .refused)
  | .books => some ({ s with books := leave s.books conn.loop conn.fd }.goto c .unpoll)
  | .unpoll => some ({ s with poll := leave s.poll conn.loop conn.fd }.goto c .clear)
  | .clear => some ({ s with table := fdTableClear size s.table conn.fd c }.goto c .kernel)
  | .kernel | .refused => some ({ s with opened := s.opened.erase conn.fd }.goto c .zero)
  | .zero => some (s.setConn c { conn with fd := 0, phase := .gone })
  | .held | .gone => none

def step (s : Shared) : TableLabel → Option Shared
  | .accept loop fd =>
    if fd ∈ s.opened then none
    else some { s with
      conns := update s.conns s.nconns ⟨fd, 0, loop, .waiting⟩
      nconns := s.nconns + 1
      opened := insert fd s.opened }
  | .discard c =>
    if c < s.nconns ∧ (s.conns c).phase = .waiting then some (s.goto c .refused) else none
  | .register c =>
    if c < s.nconns ∧ (s.conns c).phase = .held then
      some { s with poll := enter s.poll (s.conns c).loop (s.conns c).fd }
    else none
  | .close c =>
    if c < s.nconns ∧ (s.conns c).phase = .held ∧ (s.conns c).fd ≠ 0 then
      some (s.goto c .books)
    else none
  | .next c => if c < s.nconns then s.nextStep size c else none

/-- No connection yet. -/
def boot : Shared :=
  ⟨fun _ => none, fun _ => ⟨0, 0, 0, .gone⟩, 0, ∅, fun _ => ∅, fun _ => ∅⟩

/-- Whoever has an open descriptor has it alone, and the table holds exactly the
connections whose slot was taken and not cleared. -/
structure Owned (s : Shared) : Prop where
  opened : ∀ c, (s.conns c).phase.isOpen = true → (s.conns c).fd ∈ s.opened
  apart : ∀ c d, (s.conns c).phase.isOpen = true → (s.conns d).phase.isOpen = true →
    (s.conns c).fd = (s.conns d).fd → c = d
  slot : ∀ fd c, s.table fd = some c → (s.conns c).phase.listed = true ∧ (s.conns c).fd = fd
  stored : ∀ c, (s.conns c).phase.listed = true →
    s.table (s.conns c).fd = some c ∧ (s.conns c).fd < size ∧ (s.conns c).loopID = (s.conns c).loop
  tagged : ∀ c, (s.conns c).phase = .storing → (s.conns c).loopID = (s.conns c).loop
  unmade : ∀ c, s.nconns ≤ c → (s.conns c).phase = .gone

variable {size} {s s' : Shared} {c : Ref}

theorem boot_owned : Owned size boot :=
  ⟨nofun, nofun, nofun, nofun, nofun, fun _ _ => rfl⟩

/-- A descriptor that is open and whose owner is not in the table has a free slot. -/
theorem Owned.free (owned : Owned size s) (present : (s.conns c).phase.isOpen = true)
    (unlisted : (s.conns c).phase.listed = false) : s.table (s.conns c).fd = none := by
  cases slot : s.table (s.conns c).fd with
  | none => rfl
  | some d =>
    obtain ⟨listed, same⟩ := owned.slot _ d slot
    rw [owned.apart d c (Phase.open_of_listed listed) present same, unlisted] at listed
    cases listed

/-- A step of one connection: a descriptor that it opens was free, it touches its own slot
only, and that slot is its own afterwards exactly if the connection is listed. -/
structure Move (size : Nat) (s : Shared) (a : TableLabel) (s' : Shared) (c : Ref)
    (conn : TableConn) : Prop where
  conns : s'.conns = update s.conns c conn
  made : c < s'.nconns
  nconns : s.nconns ≤ s'.nconns
  still : conn.phase.isOpen = true →
    (s.conns c).phase.isOpen = true ∧ conn.fd = (s.conns c).fd ∨
      conn.phase.listed = false ∧ conn.fd ∉ s.opened ∧ conn.fd ∈ s'.opened
  opened : ∀ fd ∈ s.opened, fd ≠ (s.conns c).fd ∨ conn.phase.isOpen = true ∨
    (s.conns c).phase.isOpen = false → fd ∈ s'.opened
  others : ∀ fd, fd ≠ (s.conns c).fd → s'.table fd = s.table fd
  own : s'.table (s.conns c).fd =
    if conn.phase.listed then some c
    else if (s.conns c).phase.listed then none else s.table (s.conns c).fd
  stored : conn.phase.listed = true → (s.conns c).fd < size ∧ conn.loopID = conn.loop
  tagged : conn.phase = .storing → conn.loopID = conn.loop
  cleared : (s.conns c).phase.listed = true → conn.phase.listed = false →
    a = .next c ∧ (s.conns c).phase = .clear
  settled : c < s.nconns → (s.conns c).phase.settled = true →
    conn.phase.settled = true ∧ conn.loopID = (s.conns c).loopID

variable {a : TableLabel}

variable {conn : TableConn}

theorem Move.listed (move : Move size s a s' c conn) (listed : conn.phase.listed = true) :
    (s.conns c).phase.isOpen = true ∧ conn.fd = (s.conns c).fd := by
  refine (move.still (Phase.open_of_listed listed)).resolve_right fun fresh => ?_
  rw [fresh.1] at listed
  cases listed

theorem Owned.move (owned : Owned size s) (move : Move size s a s' c conn) : Owned size s' := by
  have own := move.own
  have self : s'.conns c = conn := by rw [move.conns, update_self]
  have other {d : Ref} (ne : d ≠ c) : s'.conns d = s.conns d := by
    rw [move.conns, update_of_ne ne]
  -- Another open connection has another descriptor, unless `c` has given its own back.
  have elsewhere {d : Ref} (ne : d ≠ c) (present : (s.conns d).phase.isOpen = true) :
      (s.conns d).fd ≠ (s.conns c).fd ∨ (s.conns c).phase.isOpen = false := by
    cases phase : (s.conns c).phase.isOpen with
    | true => exact .inl fun same => ne (owned.apart d c present phase same)
    | false => exact .inr rfl
  have distinct {d : Ref} (ne : d ≠ c) (present : (s.conns d).phase.isOpen = true)
      (now : conn.phase.isOpen = true) : (s.conns d).fd ≠ conn.fd := by
    intro same
    rcases move.still now with ⟨before, fd⟩ | ⟨-, free, -⟩
    · exact ne (owned.apart d c present before (same.trans fd))
    · exact free (same ▸ owned.opened d present)
  have kept {d : Ref} (ne : d ≠ c) (listed : (s.conns d).phase.listed = true) :
      s'.table (s.conns d).fd = some d := by
    have before := (owned.stored d listed).1
    by_cases same : (s.conns d).fd = (s.conns c).fd
    · rcases elsewhere ne (Phase.open_of_listed listed) with apart | shut
      · exact absurd same apart
      have after : conn.phase.listed = false := by
        cases now : conn.phase.listed with
        | false => rfl
        | true =>
          rw [(move.listed now).1] at shut
          cases shut
      have earlier : (s.conns c).phase.listed = false := by
        cases now : (s.conns c).phase.listed with
        | false => rfl
        | true =>
          rw [Phase.open_of_listed now] at shut
          cases shut
      rw [same, own, after, earlier, ← same]
      exact before
    rw [move.others _ same]
    exact before
  refine ⟨?_, ?_, ?_, ?_, ?_, ?_⟩
  · intro d present
    by_cases same : d = c
    · subst same
      rw [self] at present ⊢
      rcases move.still present with ⟨before, fd⟩ | ⟨-, -, fresh⟩
      · rw [fd]
        exact move.opened _ (owned.opened d before) (.inr (.inl present))
      · exact fresh
    rw [other same] at present ⊢
    refine move.opened _ (owned.opened d present) ?_
    rcases elsewhere same present with apart | shut
    · exact .inl apart
    · exact .inr (.inr shut)
  · intro d d' present present' same
    by_cases first : d = c
    · by_cases second : d' = c
      · rw [first, second]
      rw [first, self] at present same
      rw [other second] at present' same
      exact absurd same.symm (distinct second present' present)
    rw [other first] at present same
    by_cases second : d' = c
    · rw [second, self] at present' same
      exact absurd same (distinct first present present')
    rw [other second] at present' same
    exact owned.apart d d' present present' same
  · intro fd d slot
    by_cases here : fd = (s.conns c).fd
    · rw [here, own] at slot
      split at slot
      · rename_i listed
        cases slot
        rw [self, here]
        exact ⟨listed, (move.listed listed).2⟩
      split at slot
      · cases slot
      rename_i unlisted
      obtain ⟨listed, same⟩ := owned.slot _ d slot
      have ne : d ≠ c := by
        rintro rfl
        exact unlisted listed
      rw [other ne, here]
      exact ⟨listed, same⟩
    rw [move.others fd here] at slot
    obtain ⟨listed, same⟩ := owned.slot fd d slot
    have ne : d ≠ c := by
      rintro rfl
      exact here same.symm
    rw [other ne]
    exact ⟨listed, same⟩
  · intro d listed
    by_cases same : d = c
    · subst same
      rw [self] at listed ⊢
      rw [(move.listed listed).2, own, if_pos listed]
      exact ⟨rfl, move.stored listed⟩
    rw [other same] at listed ⊢
    exact ⟨kept same listed, (owned.stored d listed).2⟩
  · intro d storing
    by_cases same : d = c
    · subst same
      rw [self] at storing ⊢
      exact move.tagged storing
    rw [other same] at storing ⊢
    exact owned.tagged d storing
  intro d unmade
  rw [other (Nat.ne_of_gt (Nat.lt_of_lt_of_le move.made unmade))]
  exact owned.unmade d (Nat.le_trans move.nconns unmade)

/-- A step that changes nothing but the connection's phase, and keeps its slot as it is. -/
theorem Move.phase {was phase : Phase} (made : c < s.nconns) (at_ : (s.conns c).phase = was)
    (conns : s'.conns = update s.conns c { s.conns c with phase := phase })
    (nconns : s'.nconns = s.nconns) (table : s'.table = s.table) (opened : s'.opened = s.opened)
    (still : was.isOpen = phase.isOpen) (listed : was.listed = phase.listed)
    (settled : phase.settled = true ∧ phase ≠ .storing ∨
      phase.settled = false ∧ was.settled = false) (owned : Owned size s) :
    Move size s a s' c { s.conns c with phase := phase } := by
  subst at_
  refine ⟨conns, nconns ▸ made, Nat.le_of_eq nconns.symm,
    fun now => .inl ⟨still.trans now, rfl⟩, ?_, ?_, ?_, ?_, ?_, ?_, ?_⟩
  · intro fd member _
    rw [opened]
    exact member
  · intro fd _
    rw [table]
  · rw [table, listed]
    split
    · rename_i now
      exact (owned.stored c (listed.trans now)).1
    · rfl
  · intro now
    exact (owned.stored c (listed.trans now)).2
  · rintro rfl
    rcases settled with ⟨-, ne⟩ | ⟨never, -⟩
    · exact absurd rfl ne
    · cases never
  · intro before after
    rw [listed] at before
    exact absurd (before.symm.trans after) (by decide)
  intro _ before
  rcases settled with ⟨now, -⟩ | ⟨-, never⟩
  · exact ⟨now, rfl⟩
  rw [before] at never
  cases never

/-- A connection that looks for a predecessor of its loop finds none. -/
theorem Owned.alone (owned : Owned size s) (looking : (s.conns c).phase = .looking) (loop : Nat) :
    s.connByFD size loop (s.conns c).fd = none := by
  have free := owned.free (by rw [looking]; rfl) (by rw [looking]; rfl)
  unfold connByFD lookup fdTableGet
  split <;> simp_all

/-- The descriptor goes back to the kernel. -/
theorem closed_moves (made : c < s.nconns)
    (phase : (s.conns c).phase = .kernel ∨ (s.conns c).phase = .refused)
    (done : some ({ s with opened := s.opened.erase (s.conns c).fd }.goto c .zero) = some s') :
    ∃ conn, Move size s (.next c) s' c conn := by
  cases done
  have unlisted : (s.conns c).phase.listed = false := by
    rcases phase with phase | phase <;> rw [phase] <;> rfl
  have present : (s.conns c).phase.isOpen = true := by
    rcases phase with phase | phase <;> rw [phase] <;> rfl
  refine ⟨_, rfl, made, Nat.le_refl _, fun now => ?_, ?_, fun _ _ => rfl, ?_, fun now => ?_,
    fun now => ?_, fun was => ?_, fun _ _ => ⟨rfl, rfl⟩⟩
  · cases now
  · intro fd member other
    rcases other with ne | now | shut
    · exact mem_erase.mpr ⟨ne, member⟩
    · cases now
    rw [present] at shut
    cases shut
  · rw [unlisted]
    rfl
  · cases now
  · cases now
  rw [unlisted] at was
  cases was

theorem nextStep_moves (owned : Owned size s) (made : c < s.nconns)
    (done : s.nextStep size c = some s') : ∃ conn, Move size s (.next c) s' c conn := by
  unfold nextStep at done
  dsimp only at done
  split at done
  case h_1 phase =>
    cases done
    exact ⟨_, .phase made phase rfl rfl rfl rfl rfl rfl (.inr ⟨rfl, rfl⟩) owned⟩
  case h_2 phase =>
    rw [owned.alone phase] at done
    cases done
    exact ⟨_, .phase made phase rfl rfl rfl rfl rfl rfl (.inr ⟨rfl, rfl⟩) owned⟩
  case h_3 phase =>
    split at done
    · cases done
      exact ⟨_, .phase made phase rfl rfl rfl rfl rfl rfl (.inr ⟨rfl, rfl⟩) owned⟩
    · cases done
  case h_4 phase | h_11 phase =>
    cases done
    refine ⟨_, rfl, made, Nat.le_refl _, ?_, fun _ member _ => member, fun _ _ => rfl, ?_, ?_, ?_,
      ?_, ?_⟩
    all_goals simp [phase, Phase.isOpen, Phase.listed, Phase.settled, setConn]
  case h_5 phase =>
    unfold fdTableSet at done
    by_cases small : (s.conns c).fd < size
    · rw [if_pos small] at done
      cases done
      have tagged := owned.tagged c phase
      refine ⟨_, rfl, made, Nat.le_refl _, fun _ => .inl ⟨by rw [phase]; rfl, rfl⟩,
        fun _ member _ => member, fun fd ne => ?_, ?_, fun _ => ⟨small, tagged⟩, fun now => ?_,
        fun _ now => ?_, fun _ _ => ⟨rfl, rfl⟩⟩
      · exact update_of_ne ne _ _
      · exact update_self _ _ _
      · cases now
      · cases now
    rw [if_neg small] at done
    cases done
    exact ⟨_, .phase made phase rfl rfl rfl rfl rfl rfl (.inl ⟨rfl, nofun⟩) owned⟩
  case h_6 phase | h_7 phase =>
    cases done
    exact ⟨_, .phase made phase rfl rfl rfl rfl rfl rfl (.inl ⟨rfl, nofun⟩) owned⟩
  case h_8 phase =>
    cases done
    have stored := owned.stored c (by rw [phase]; rfl)
    refine ⟨_, rfl, made, Nat.le_refl _, fun _ => .inl ⟨by rw [phase]; rfl, rfl⟩,
      fun _ member _ => member, fun fd ne => ?_, ?_, fun now => ?_, fun now => ?_,
      fun _ _ => ⟨rfl, phase⟩, fun _ _ => ⟨rfl, rfl⟩⟩
    · simp only [goto, setConn, fdTableClear_apply, ne, false_and, if_false]
    · simp [goto, setConn, fdTableClear_apply, stored, phase, Phase.listed]
    · cases now
    · cases now
  case h_9 phase => exact closed_moves made (.inl phase) done
  case h_10 phase => exact closed_moves made (.inr phase) done
  case h_12 | h_13 => cases done

/-- A step changes one connection, or leaves the table and the connections alone. -/
theorem step_moves (owned : Owned size s) (done : s.step size a = some s') :
    (∃ c conn, Move size s a s' c conn) ∨
    s'.table = s.table ∧ s'.conns = s.conns ∧ s'.nconns = s.nconns ∧ s'.opened = s.opened := by
  cases a <;> simp only [step] at done
  case accept loop fd =>
    split at done
    · cases done
    rename_i free
    cases done
    have unmade := owned.unmade s.nconns (Nat.le_refl _)
    refine .inl ⟨s.nconns, _, rfl, Nat.lt_succ_self _, Nat.le_succ _,
      fun _ => .inr ⟨rfl, free, mem_insert_self _ _⟩,
      fun _ member _ => mem_insert_of_mem member, fun _ _ => rfl, ?_, nofun, nofun, ?_,
      fun made => absurd made (Nat.lt_irrefl _)⟩
    all_goals simp [unmade, Phase.listed]
  case discard c =>
    split at done
    · rename_i waiting
      obtain ⟨made, phase⟩ := waiting
      cases done
      exact .inl ⟨c, _, .phase made phase rfl rfl rfl rfl rfl rfl (.inl ⟨rfl, nofun⟩) owned⟩
    · cases done
  case register c =>
    split at done
    · cases done
      exact .inr ⟨rfl, rfl, rfl, rfl⟩
    · cases done
  case close c =>
    split at done
    · rename_i attached
      obtain ⟨made, phase, -⟩ := attached
      cases done
      exact .inl ⟨c, _, .phase made phase rfl rfl rfl rfl rfl rfl (.inl ⟨rfl, nofun⟩) owned⟩
    · cases done
  case next c =>
    split at done
    · rename_i made
      exact .inl ⟨c, nextStep_moves owned made done⟩
    · cases done

theorem step_owned (owned : Owned size s) (done : s.step size a = some s') : Owned size s' := by
  rcases step_moves owned done with ⟨c, conn, move⟩ | ⟨table, conns, nconns, opened⟩
  · exact owned.move move
  obtain ⟨present, apart, slot, stored, tagged, unmade⟩ := owned
  refine ⟨?_, ?_, ?_, ?_, ?_, ?_⟩
  all_goals simp only [table, conns, nconns, opened]
  · exact present
  · exact apart
  · exact slot
  · exact stored
  · exact tagged
  · exact unmade

variable {labels : List TableLabel}

theorem run_owned (reached : run (step size) boot labels = some s) : Owned size s :=
  run_invariant_all (fun _ _ _ done owned => step_owned owned done) reached boot_owned

/-- A slot that is taken stays with its connection until that connection clears it. -/
theorem step_slot {fd : Nat} (owned : Owned size s) (done : s.step size a = some s')
    (slot : s.table fd = some c) :
    s'.table fd = some c ∨ a = .next c ∧ (s.conns c).phase = .clear ∧ s'.table fd = none := by
  rcases step_moves owned done with ⟨d, conn, move⟩ | same
  · by_cases here : fd = (s.conns d).fd
    · obtain ⟨listed, at'⟩ := owned.slot fd c slot
      have own := move.own
      rw [← here] at own
      split at own
      · rename_i now
        rw [own, owned.apart c d (Phase.open_of_listed listed) (move.listed now).1 (at'.trans here)]
        exact .inl rfl
      rename_i unlisted
      split at own
      · rename_i before
        have same := owned.apart c d (Phase.open_of_listed listed) (Phase.open_of_listed before)
          (at'.trans here)
        obtain ⟨label, phase⟩ := move.cleared before (Bool.eq_false_iff.mpr unlisted)
        rw [same]
        exact .inr ⟨label, phase, own⟩
      rw [own]
      exact .inl slot
    rw [move.others fd here]
    exact .inl slot
  rw [same.1]
  exact .inl slot

/-- `SetLoopID` is not called again. -/
theorem step_settled (owned : Owned size s) (done : s.step size a = some s') (made : c < s.nconns)
    (settled : (s.conns c).phase.settled = true) :
    c < s'.nconns ∧ (s'.conns c).phase.settled = true ∧
      (s'.conns c).loopID = (s.conns c).loopID := by
  rcases step_moves owned done with ⟨d, conn, move⟩ | same
  · refine ⟨Nat.lt_of_lt_of_le made move.nconns, ?_⟩
    rw [move.conns]
    by_cases here : c = d
    · subst here
      rw [update_self]
      exact move.settled made settled
    rw [update_of_ne here]
    exact ⟨settled, rfl⟩
  obtain ⟨-, conns, nconns, -⟩ := same
  rw [nconns, conns]
  exact ⟨made, settled, rfl⟩

theorem run_settled (owned : Owned size s) (later : run (step size) s labels = some s')
    (made : c < s.nconns) (settled : (s.conns c).phase.settled = true) :
    (s'.conns c).loopID = (s.conns c).loopID := by
  refine (run_invariant_all (I := fun t => Owned size t ∧ c < t.nconns ∧
    (t.conns c).phase.settled = true ∧ (t.conns c).loopID = (s.conns c).loopID)
    (fun t a t' done inv => ?_) later ⟨owned, made, settled, rfl⟩).2.2.2
  obtain ⟨owned, known, settled, same⟩ := inv
  obtain ⟨known', settled', same'⟩ := step_settled owned done known settled
  exact ⟨step_owned owned done, known', settled', same'.trans same⟩

end Shared

/-- In every interleaving of any number of loops, an attached connection that is not closing
has the slot of its descriptor; its own loop finds it there and no other loop does, however
many steps the lookup takes; and no step but the connection's own `clearConn` empties or
replaces a slot. -/
theorem fd_ownership (size : Nat) (labels : List TableLabel) (s : Shared)
    (reached : run (Shared.step size) Shared.boot labels = some s) :
    (∀ c < s.nconns, (s.conns c).phase = .held →
      s.table (s.conns c).fd = some c ∧
      (∀ loop, s.connByFD size loop (s.conns c).fd =
        if (s.conns c).loop = loop then some c else none) ∧
      ∀ later s', run (Shared.step size) s later = some s' →
        ∀ loop, s.lookup size s' loop (s.conns c).fd =
          if (s.conns c).loop = loop then some c else none) ∧
    ∀ fd c, s.table fd = some c → ∀ a s', s.step size a = some s' →
      s'.table fd = some c ∨ a = .next c ∧ (s.conns c).phase = .clear ∧ s'.table fd = none := by
  have owned := Shared.run_owned reached
  refine ⟨fun c made held => ?_, fun fd c slot a s' done => Shared.step_slot owned done slot⟩
  have listed : (s.conns c).phase.listed = true := by
    rw [held]
    rfl
  obtain ⟨slot, small, loop⟩ := owned.stored c listed
  have found (later : List TableLabel) (s' : Shared)
      (ran : run (Shared.step size) s later = some s') (i : Nat) :
      s.lookup size s' i (s.conns c).fd = if (s.conns c).loop = i then some c else none := by
    have same := Shared.run_settled owned ran made (Phase.settled_of_listed listed)
    unfold Shared.lookup fdTableGet
    rw [if_pos small, slot]
    dsimp only
    rw [same, loop]
  exact ⟨slot, found [] s rfl, found⟩

/-- Loop 0 has handed descriptor 7 back to the kernel and has yet to forget it; loop 1 has
been given the same number and has stored its own connection. -/
def recycled : List TableLabel :=
  [.accept 0 7, .next 0, .next 0, .next 0, .next 0, .register 0, .close 0, .next 0, .next 0,
    .next 0, .next 0, .accept 1 7, .next 1, .next 1, .next 1, .next 1]

theorem fd_ownership_recycled : ∃ s,
    run (Shared.step 1024) Shared.boot recycled = some s ∧
    (s.conns 0).phase = .zero ∧ (s.conns 0).fd = 7 ∧ s.table 7 = some 1 ∧
    s.connByFD 1024 1 7 = some 1 ∧ s.connByFD 1024 0 7 = none := by
  obtain ⟨s, reached, made, old, same, held, fd, loop⟩ : ∃ s,
      run (Shared.step 1024) Shared.boot recycled = some s ∧ s.nconns = 2 ∧
      (s.conns 0).phase = .zero ∧ (s.conns 0).fd = 7 ∧ (s.conns 1).phase = .held ∧
      (s.conns 1).fd = 7 ∧ (s.conns 1).loop = 1 := computed
  obtain ⟨slot, found, -⟩ := (fd_ownership 1024 recycled s reached).1 1 (by omega) held
  rw [fd, loop] at found
  rw [fd] at slot
  exact ⟨s, reached, old, same, slot, found 1, found 0⟩

/-- The table as one loop has it, with what the table needs to know of the connections. -/
structure Shared.Shows {σ π : Type} (s : Shared) (l : LoopConn σ π) : Prop where
  table : s.table = l.fdTable
  fd : ∀ c, (s.conns c).fd = (l.conns c).fd
  loopID : ∀ c, (s.conns c).loopID = (l.conns c).loopID

namespace Shared.Shows

variable {σ π : Type} {e : Env σ π} {s : Shared} {l : LoopConn σ π} {c : Ref}

/-- `storeConn` of the loop is the tagging and the storing. -/
theorem storeConn_runs (shows : s.Shows l) (made : c < s.nconns)
    (phase : (s.conns c).phase = .tagging) (mine : (s.conns c).loop = l.idx) :
    ∃ s', run (Shared.step e.tableSize) s [.next c, .next c] = some s' ∧
      s'.Shows (l.storeConn e c).1 ∧
      (s'.conns c).phase = if (l.storeConn e c).2 then .held else .refused := by
  have fd := shows.fd c
  have store : l.storeConn e c =
      ({ l.setConn c { l.conns c with loopID := l.idx } with
        fdTable := (fdTableSet e.tableSize l.fdTable (l.conns c).fd c).1 },
        (fdTableSet e.tableSize l.fdTable (l.conns c).fd c).2) := by
    simp only [LoopConn.storeConn, LoopConn.setConn, update_self]
  have kept (phase : Phase) (q : Ref) :
      let mine := update s.conns c
        { s.conns c with loopID := (s.conns c).loop, phase := phase } q
      let conn := (l.setConn c { l.conns c with loopID := l.idx }).conns q
      mine.fd = conn.fd ∧ mine.loopID = conn.loopID := by
    by_cases same : q = c
    · subst same
      simp only [LoopConn.setConn, update_self, fd, mine, and_self]
    · simp only [LoopConn.setConn, update_of_ne same, shows.fd q, shows.loopID q, and_self]
  rw [store]
  by_cases small : (s.conns c).fd < e.tableSize
  · refine ⟨{ s with
      table := update s.table (s.conns c).fd (some c)
      books := enter s.books (s.conns c).loop (s.conns c).fd
      conns := update s.conns c
        { s.conns c with loopID := (s.conns c).loop, phase := .held } }, ?_, ?_, ?_⟩
    · simp [run, Shared.step, nextStep, setConn, goto, made, phase, fdTableSet, small]
    · refine ⟨?_, fun q => (kept _ q).1, fun q => (kept _ q).2⟩
      simp only [fdTableSet, ← fd, small, if_true, shows.table]
    · simp only [fdTableSet, ← fd, small, if_true, update_self]
  refine ⟨s.setConn c { s.conns c with loopID := (s.conns c).loop, phase := .refused }, ?_, ?_, ?_⟩
  · simp [run, Shared.step, nextStep, setConn, goto, made, phase, fdTableSet, small]
  · refine ⟨?_, fun q => (kept _ q).1, fun q => (kept _ q).2⟩
    simp only [fdTableSet, ← fd, small, if_false, setConn, shows.table]
  · simp [fdTableSet, ← fd, small, setConn]

/-- `closeConn` of the loop is the steps from the bookkeeping to the zeroed descriptor. -/
theorem closeConn_runs (shows : s.Shows l) (made : c < s.nconns)
    (phase : (s.conns c).phase = .held) (live : (l.conns c).fd ≠ 0) (err : Option CloseErr) :
    ∃ s', run (Shared.step e.tableSize) s
        [.close c, .next c, .next c, .next c, .next c, .next c] = some s' ∧
      s'.Shows (l.closeConn e c err) ∧ (s'.conns c).phase = .gone := by
  have fd := shows.fd c
  refine ⟨{ s with
    table := fdTableClear e.tableSize s.table (s.conns c).fd c
    books := leave s.books (s.conns c).loop (s.conns c).fd
    poll := leave s.poll (s.conns c).loop (s.conns c).fd
    opened := s.opened.erase (s.conns c).fd
    conns := update s.conns c { s.conns c with fd := 0, phase := .gone } }, ?_, ?_, ?_⟩
  · simp [run, Shared.step, nextStep, setConn, goto, made, phase, fd, live]
  · rw [LoopConn.closeConn_open err live]
    refine ⟨?_, fun q => ?_, fun q => ?_⟩
    · simp only [shows.table, fd]
    · by_cases same : q = c
      · subst same
        simp only [update_self, close]
      · simp only [update_of_ne same, shows.fd q]
    by_cases same : q = c
    · subst same
      simp only [update_self, close, shows.loopID q]
    · simp only [update_of_ne same, shows.loopID q]
  · simp only [update_self]

end Shared.Shows

end Connaxis
