import Connaxis.LoopAct
import Connaxis.Machine

namespace Connaxis

open Function (update update_apply update_self update_idem)

variable {σ π : Type} {e : Env σ π}

namespace LoopConn

variable {l l' m : LoopConn σ π} {r : Ref} {P : LoopConn σ π → Op π → Prop}

theorem idleLoop_acts (rounds : Nat) (sound : Sound e m) (before : Acts e P l m)
    (forgets : ∀ m, P m .age) (closes : ∀ m r, P m (.close r (some .CLOSE_BY_ANTI_IDLE))) :
    Acts e P l (m.idleLoop e rounds) := by
  induction rounds generalizing m with
  | zero => exact before
  | succ rounds ih =>
    unfold idleLoop
    split
    · exact before
    rename_i elem r rest front
    dsimp only
    split
    · exact before
    split
    · have first : (elem, r) ∈ m.checkList := by
        rw [front]
        exact List.mem_cons_self
      obtain ⟨next, shape⟩ : ∃ next : LoopConn σ π, next = { m with
          lastCheck := m.lastCheck, nowSec := m.nowSec, checkList := rest,
          touchMap := update m.touchMap (m.conns r).id none } := ⟨_, rfl⟩
      have dropped : Act e m .age next := by
        rw [shape]
        apply Act.age
        · intro item member
          rw [front]
          exact List.mem_cons_of_mem _ member
        intro id checker found
        rw [update_apply] at found
        split at found
        · cases found
        · exact found
      have still := dropped.sound sound
      have sofar := before.tail (forgets m) dropped
      have held : (next.conns r).fd ≠ 0 → Attached next r := by
        rw [shape]
        exact (sound.listed _ first).2
      rw [← shape]
      by_cases dead : (next.conns r).fd = 0
      · rw [closeConn_dead _ dead]
        exact ih still sofar
      have closed := Act.close (e := e) r (some .CLOSE_BY_ANTI_IDLE) (held dead)
      exact ih (closed.sound still) (sofar.tail (closes next r) closed)
    · exact before

theorem onIdle_acts (sound : Sound e l) (forgets : ∀ m, P m .age)
    (closes : ∀ m r, P m (.close r (some .CLOSE_BY_ANTI_IDLE))) : Acts e P l (l.onIdle e) := by
  have noted : Act e l .age { l with lastCheck := l.nowSec } :=
    .age l.nowSec l.nowSec l.checkList l.touchMap (fun _ member => member) fun _ _ found => found
  unfold onIdle
  split
  · exact noted.acts (forgets l)
  split
  · split
    · exact idleLoop_acts _ (noted.sound sound) (noted.acts (forgets l)) forgets closes
    · exact noted.acts (forgets l)
  · exact .refl

theorem shutdown_acts (sound : Sound e l) (closes : ∀ m r, P m (.close r none)) :
    Acts e P l (l.shutdown e) := by
  unfold shutdown
  refine (List.foldlRecOn (List.range e.tableSize) _
    (motive := fun m => Sound e m ∧ Acts e P l m) ⟨sound, .refl⟩ ?_).2
  rintro m ⟨now, before⟩ fd -
  split
  · rename_i r found
    have closed := Act.close (e := e) r none (now.attached found).1
    exact ⟨closed.sound now, before.tail (closes m r) closed⟩
  · exact ⟨now, before⟩

/-- Everything a command can do. -/
inductive Consumed (e : Env σ π) (l : LoopConn σ π) (cmd : CmdData) : LoopConn σ π → Prop
  | ignored {l' : LoopConn σ π} (tidy : Tidy l l') : Consumed e l cmd l'
  | enqueued (r : Ref) (owner : Buf) (found : l.connByFD e cmd.fd = some r)
      (kind : cmd.cmd = .CMD_DATA) (data : cmd.data = some owner)
      (own : (l.conns r).id = cmd.id) (nonempty : cmd.size ≠ 0) :
      Consumed e l cmd (l.enqueueCmd e r owner cmd.size)
  | closed {l' : LoopConn σ π} (r : Ref) (found : l.connByFD e cmd.fd = some r)
      (kind : cmd.cmd = .CMD_CLOSE)
      (tidy : Tidy (l.closeConn e r (some .CLOSE_BY_CLOSE_CMD)) l') : Consumed e l cmd l'

theorem consumeCmd_cases (l : LoopConn σ π) (cmd : CmdData) :
    Consumed e l cmd (l.consumeCmd e cmd) := by
  unfold consumeCmd
  split
  · exact .ignored (reset_tidy l cmd)
  rename_i r found
  split
  · rename_i kind
    split
    · exact .ignored (Tidy.refl l)
    rename_i owner data
    split
    · exact .ignored (reset_tidy l cmd)
    rename_i right
    rw [not_or, not_or, Decidable.not_not] at right
    exact .enqueued r owner found kind data right.1 right.2.1
  · rename_i kind
    exact .closed r found kind (reset_tidy _ cmd)
  · exact .ignored (reset_tidy l cmd)

/-- The former owner of the new connection's descriptor is closed. -/
theorem closePrev_acts (sound : Sound e l) (fresh : Fresh l r)
    (closes : ∀ m q, P m (.close q (some .CLOSE_BY_DUP_ACCEPT))) :
    Acts e P l (l.closePrev e r) ∧ Sound e (l.closePrev e r) ∧ Fresh (l.closePrev e r) r ∧
      (l.closePrev e r).fdTable ((l.closePrev e r).conns r).fd = none := by
  unfold closePrev
  cases found : l.connByFD e (l.conns r).fd with
  | none =>
    refine ⟨.refl, sound, fresh, ?_⟩
    cases slot : l.fdTable (l.conns r).fd with
    | none => rfl
    | some q =>
      obtain ⟨same, nonzero, _⟩ := sound.slot _ q slot
      have attached : Attached l q := ⟨same ▸ nonzero, same ▸ slot⟩
      have owner := sound.found attached
      rw [same, found] at owner
      cases owner
  | some prev =>
    obtain ⟨attached, same⟩ := sound.attached found
    have closed := Act.close (e := e) prev (some .CLOSE_BY_DUP_ACCEPT) attached
    have other : prev ≠ r := (fresh.ne attached).symm
    have kept := closed.untouched sound fresh.made fun clash => other (Option.some.inj clash)
    refine ⟨closed.acts (closes l prev), closed.sound sound,
      closed.fresh sound fresh fun clash => other (Option.some.inj clash), ?_⟩
    rw [kept.conn, ← same]
    rcases (closeConn_effect sound attached _).outcome with gone | stays
    · exact gone.slot
    have still := stays.attached attached
    rw [closeConn_open _ attached.1, Attached] at still
    simp only [update_self] at still
    exact absurd rfl still.1

theorem storeConn_small (small : (l.conns r).fd < e.tableSize) :
    l.storeConn e r =
      ({ l with conns := update l.conns r { l.conns r with loopID := l.idx },
                fdTable := update l.fdTable (l.conns r).fd (some r) }, true) := by
  simp only [storeConn, fdTableSet, setConn, update_self, if_pos small]

theorem announce_stored (registered : Bool) :
    announce e { l with
      conns := update l.conns r { l.conns r with loopID := l.idx }
      fdTable := update l.fdTable (l.conns r).fd (some r)
      count := l.count + 1
      dcount := if (update l.conns r { l.conns r with loopID := l.idx } r).client then
        l.dcount + 1 else l.dcount } r registered = l.placed e r registered := by
  simp only [announce, placed, app, update_self]

/-- The ways `attachClient` ends once the descriptor is free: there is no slot for it, the
connection is closed before the handler's answer is in, or it is watched from now on. -/
inductive Admission (e : Env σ π) (m : LoopConn σ π) (r : Ref) : LoopConn σ π → Prop
  | dropped : Admission e m r (m.setConn r ({ m.conns r with loopID := m.idx }.close e.toConnEnv))
  | closed {l' : LoopConn σ π} (act : Act e m (.attach r) l') (gone : (l'.conns r).fd = 0) :
      Admission e m r l'
  | kept {next : LoopConn σ π} (act : Act e m (.attach r) next) (attached : Attached next r) :
      Admission e m r (next.track e r)

variable {registered : Bool} {answers : List (List SysRead)}

theorem attachClient_cases (done : l.attachClient e r registered answers = some l')
    (now : Sound e (l.closePrev e r)) (unknown : Fresh (l.closePrev e r) r)
    (free : (l.closePrev e r).fdTable ((l.closePrev e r).conns r).fd = none) :
    Admission e (l.closePrev e r) r l' := by
  unfold attachClient attachWith at done
  generalize l.closePrev e r = m at done now unknown free
  by_cases small : (m.conns r).fd < e.tableSize
  · have placing {next : LoopConn σ π} (greeted : Greeted e (m.placed e r registered) r next) :
        Act e m (.attach r) next := .attach r registered unknown small free greeted
    have attached := placed_attached (e := e) unknown registered
    have books := placed_sound now unknown small free registered
    rw [storeConn_small small] at done
    simp only [postAccept, acceptWith, announce_stored] at done
    generalize m.placed e r registered = next at done placing attached books
    cases registered with
    | false =>
      cases done
      exact .closed (placing .refused) (closeConn_fd _)
    | true =>
      by_cases atOnce : readsAtOnce (next.conns r) = true
      · rw [if_pos atOnce] at done
        cases read : next.processRead e r answers with
        | none =>
          rw [read] at done
          cases done
        | some after =>
          have greeted := placing (.read answers read)
          rw [read] at done
          by_cases open' : (after.conns r).fd ≠ 0
          · simp only [open', ne_eq, not_false_iff, decide_true] at done
            cases done
            exact .kept greeted
              ((processRead_effect books attached read).attached_of_open attached open')
          simp only [open', decide_false] at done
          cases done
          rw [closeConn_dead _ (Decidable.not_not.mp open')]
          exact .closed greeted (Decidable.not_not.mp open')
      rw [if_neg atOnce] at done
      cases done
      exact .kept (placing (.waits (Bool.eq_false_iff.mpr atOnce))) attached
  simp only [storeConn, fdTableSet, setConn, update_self, if_neg small] at done
  cases done
  rw [update_idem]
  exact .dropped

theorem attachClient_acts (sound : Sound e l) (fresh : Fresh l r)
    (done : l.attachClient e r registered answers = some l')
    (closes : ∀ m q, P m (.close q (some .CLOSE_BY_DUP_ACCEPT))) (attaches : ∀ m, P m (.attach r))
    (drops : ∀ m, P m (.drop r)) (tracks : ∀ m, P m (.track r)) : Acts e P l l' := by
  obtain ⟨before, now, unknown, free⟩ := closePrev_acts sound fresh closes
  refine before.trans ?_
  cases attachClient_cases done now unknown free with
  | dropped => exact (Act.drop r unknown).acts (drops _)
  | closed act => exact act.acts (attaches _)
  | kept act attached => exact (act.acts (attaches _)).tail (tracks _) (.track r attached)

end LoopConn

end Connaxis
