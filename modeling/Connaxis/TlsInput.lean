import Connaxis.MachineSound
import Connaxis.TlsRecv

namespace Connaxis

open LoopConn List Runs RingBuffer Sys Option ATLSConn

variable {σ π : Type} {view : TlsView π} {answers : List SysRead}

variable {bytes : Bytes} {err : Option Err}

namespace EngineConn

variable {e : ConnEnv π} {c c' : EngineConn π} {drained : Prop}

/-- The same of a connection; it says nothing of plain ones and of those whose records are
left to the kernel. -/
def Receiving (view : TlsView π) (drained : Prop) (c : EngineConn π) : Prop :=
  ∀ a, c.tls = some a → a.ktls = false → a.Receiving view drained

theorem Receiving.weaken (held : c.Receiving view drained) : c.Receiving view False :=
  fun a found user => ⟨(held a found user).parted, nofun, nofun⟩

theorem Receiving.of_tls (held : c.Receiving view drained) (same : c'.tls = c.tls) :
    c'.Receiving view drained := fun a found => held a (same ▸ found)

/-- Sending leaves the receiving half alone. -/
theorem receiving_sends (reads : e.tls.Reads view) (drained : Prop) :
    Sends e fun c => c.Receiving view drained where
  queue _ _ held := held
  write c b c' n err done held := by
    unfold write at done
    split at done
    · split at done
      · cases done
        exact held
      cases done
      exact held
    rename_i a found
    split at done
    · cases done
    rename_i wrote
    cases done
    intro a' same user
    cases same
    rw [(write_ktls wrote).1] at user
    exact Receiving.write reads (held a found user) wrote
  flushN c maxBytes c' n err done held := by
    unfold flushN at done
    split at done
    · cases done
      exact held
    rename_i a found
    split at done
    · cases done
    rename_i flushed
    cases done
    intro a' same user
    cases same
    rw [flushN_ktls flushed] at user
    exact Receiving.flushN reads (held a found user) flushed

theorem Receiving.read (reads : e.tls.Reads view) (held : c.Receiving view False) {len : Nat}
    (done : c.read e len answers = some (c', bytes, err)) :
    c'.Receiving view (err = some .EAGAIN) := by
  unfold EngineConn.read at done
  split at done
  · rename_i plain
    have vacuous : c.Receiving view (err = some .EAGAIN) := fun a found =>
      absurd found (by rw [plain]; nofun)
    split at done
    · cases done
    · cases done
      exact vacuous
    cases done
    exact vacuous
  rename_i a found
  split at done
  · cases done
  rename_i served
  cases done
  intro a' same user
  cases same
  rw [read_ktls served] at user
  exact Receiving.read reads (held a found user) user served

theorem receiving_lasting (reads : e.tls.Reads view) :
    Lasting e fun c => c.Receiving view False where
  ring _ _ held := held
  stamp _ _ held := held
  read _ _ _ _ _ _ done held := (held.read reads done).weaken
  emit _ _ _ _ _ _ done held := (receiving_sends reads False).emit done held
  drain _ _ _ _ done held := (receiving_sends reads False).drain done held

end EngineConn

variable {e : Env σ π}

namespace LoopConn

variable {l l' m : LoopConn σ π} {r : Ref}

section

variable (reads : e.tls.Reads view) (unlimited : e.tuning.maxReadBytesPerEvent ≤ 0)
  (user : (l.conns r).identity.ktls = some false) (held : (l.conns r).Receiving view False)
include reads unlimited user held

variable {readBytes n : Int}

/-- Without a budget the read that ends the loop is one that found nothing whole. -/
theorem receive_last {inp : Memory.Slice}
    (done : l.receive e r readBytes answers = some (m, n, .got inp true)) :
    (m.conns r).Receiving view True := by
  unfold receive at done
  dsimp only at done
  split at done
  · cases done
  rename_i h ring recvbuf chosen
  split at done
  · cases done
  rename_i c bytes err served
  have before : EngineConn.Receiving view False { l.conns r with recvbuf := ring } := held
  have kept := before.read reads served
  have engine : c.tls.map ktls = some false :=
    (congrArg Identity.ktls (EngineConn.read_identity served).1).trans user
  split at done
  · cases done
  split at done
  · cases done
  obtain ⟨shape, _, last⟩ := Prod.mk.inj (some.inj done) |>.imp_right Prod.mk.inj
  obtain ⟨_, stops⟩ := Received.got.inj last
  have encrypted : c.getType ≠ .TYPE_CONN := by
    unfold EngineConn.getType
    cases tls : c.tls with
    | none =>
      rw [tls] at engine
      cases engine
    | some a => nofun
  simp only [encrypted, false_and, decide_false, Bool.or_false, Int.not_lt.mpr unlimited,
    gt_iff_lt, decide_eq_true_eq] at stops
  rw [← shape, setConn_self]
  refine EngineConn.Receiving.of_tls (c := c) ?_ ?_
  · rw [stops] at kept
    exact fun a found user => ⟨(kept a found user).parted,
      fun _ => (kept a found user).served rfl, fun _ => (kept a found user).exhausted rfl⟩
  rw [touch_books]
  simp only [observe, setConn_self]

/-- A round that is the last one and leaves the connection open. -/
theorem readRound_receiving (done : l.readRound e r readBytes answers = some (l', n, false))
    (live : (l'.conns r).fd ≠ 0) (quiet : Quiet r l'.trace) : (l'.conns r).Receiving view True := by
  cases readRound_ends done with
  | failed | broken => exact absurd (closeConn_fd _) live
  | @answered got _ _ _ last _ rx wantClose received parsed responded =>
    obtain ⟨ext, work, heard⟩ := Rx.parseLoop_parsed _ _ _ _ parsed
    have trace : rx.trace = got.trace ++ ext := work.trace
    have conn : (got.commit r rx).conns r = rx.conn := Function.update_self _ _ _
    obtain ⟨c, sum, err, drained, ends⟩ := respond_ends responded
    rw [conn] at drained
    cases ends with
    | closed => exact absurd (closeConn_fd _) live
    | marked close =>
      -- The connection is marked: the handler has asked for it.
      rw [close] at heard
      obtain ⟨before, bytes, ending, _⟩ := heard
      refine absurd ?_ (quiet bytes)
      rw [updateWriteFd_books]
      change _ ∈ rx.trace
      rw [trace, ending]
      exact mem_append_right _ (mem_append_right _ (mem_singleton.mpr rfl))
    | waiting _ _ ends =>
      rw [ends] at received
      have read := receive_last reads unlimited user held received
      have replied := (EngineConn.receiving_sends reads True).replies (fun _ _ kept => kept)
        work.replies read
      rw [updateWriteFd_books]
      rw [setConn_self]
      exact (EngineConn.receiving_sends reads True).drain drained replied

end

/-- After a call of `processRead` that leaves the connection open, nothing whole is left. -/
theorem processRead_receiving (reads : e.tls.Reads view)
    (unlimited : e.tuning.maxReadBytesPerEvent ≤ 0) {answers : List (List SysRead)}
    (user : (l.conns r).identity.ktls = some false) (held : (l.conns r).Receiving view False)
    (done : l.processRead e r answers = some l') (live : (l'.conns r).fd ≠ 0)
    (quiet : Quiet r l'.trace) : (l'.conns r).Receiving view True := by
  refine processRead_rule (P := fun m => (m.conns r).identity.ktls = some false ∧
      (m.conns r).Receiving view False)
    (Q := fun m => (m.conns r).fd ≠ 0 → Quiet r m.trace → (m.conns r).Receiving view True)
    ?_ ?_ done ⟨user, held⟩ live quiet
  · rintro m next _ _ _ - once ⟨user, held⟩
    obtain ⟨_, ext, inside, ⟨stop, _⟩ | ⟨_, rfl, _⟩⟩ := readRound_cases once
    · cases stop
    rw [inside.works.identity]
    exact ⟨user, inside.works.keeps (EngineConn.receiving_lasting reads) held⟩
  rintro m next _ _ _ - once ⟨user, held⟩
  exact readRound_receiving reads unlimited user held once

/-- What is known of the receiving half of an open connection. -/
def Fed (view : TlsView π) (l : LoopConn σ π) (r : Ref) : Prop :=
  (l.conns r).fd ≠ 0 → (l.conns r).Receiving view False ∧
    (Attached l r → Quiet r l.trace → (l.conns r).Receiving view True)

/-- Work that only sends keeps it. -/
theorem Wrote.fed {c : EngineConn π} (wrote : Wrote e l r c l') (fed : Fed view l r)
    (attached : Attached l r) (receiving : ∀ settled,
      (l.conns r).Receiving view settled → c.Receiving view settled) : Fed view l' r := by
  intro live
  cases wrote with
  | closed => exact absurd (closeConn_fd _) live
  | kept =>
    obtain ⟨whole, settled⟩ := fed attached.1
    rw [setConn_self]
    exact ⟨receiving _ whole, fun _ quiet => receiving _ (settled attached quiet)⟩

theorem Fed.read (reads : e.tls.Reads view) (unlimited : e.tuning.maxReadBytesPerEvent ≤ 0)
    (held : (l.conns r).Receiving view False) {answers : List (List SysRead)}
    (done : l.processRead e r answers = some l') : Fed view l' r := by
  intro live
  obtain ⟨m, ext, inside, outcome⟩ := processRead_cases done
  have whole := inside.works.keeps (EngineConn.receiving_lasting reads) held
  have conn : l'.conns r = m.conns r := by
    cases outcome with
    | closed err => exact absurd (closeConn_fd _) live
    | marked => rw [updateWriteFd_books]; rfl
    | waiting => rw [updateWriteFd_books]
  refine ⟨conn ▸ whole, fun _ quiet => ?_⟩
  by_cases user : (l.conns r).identity.ktls = some false
  · exact processRead_receiving reads unlimited user held done live quiet
  intro a found mode
  refine absurd ?_ user
  rw [← inside.works.identity, ← conn, EngineConn.identity, found, map_some, mode]

end LoopConn

/-- A connection comes out of its handshake with two rings of its own. -/
def Label.Parted : Label π → Prop
  | .join _ _ _ _ _ (some a) => ∀ b, a.buf = some b → b.Parted
  | _ => True

theorem fed_upheld (reads : e.tls.Reads view) (unlimited : e.tuning.maxReadBytesPerEvent ≤ 0) :
    Upheld e (fun _ a => a.Parted) (Fed view) where
  fresh s a l r guard fresh brought _ := by
    refine ⟨fun engine found _ => ?_, fun attached => absurd attached.2 (fresh.loose _)⟩
    rcases brought with ⟨_, _, _, _, _, _, same⟩ | ⟨p, fd, id, client, sock, tls, rfl, same⟩
    · rw [same] at found
      cases found
    rw [same] at found
    cases found
    exact ⟨guard, nofun, nofun⟩
  frame l l' r same held live := by
    rw [same.conn] at live ⊢
    obtain ⟨whole, settled⟩ := held live
    obtain ⟨ext, extended, _⟩ := same.trace
    refine ⟨whole, fun attached quiet => settled (same.attached.mp attached) fun bytes member => ?_⟩
    rw [extended] at quiet
    exact quiet bytes (mem_append_left _ member)
  subject s a l op l' r guard sound made serves act own held := by
    cases act <;> cases own
    case close err _ => exact fun live => absurd (closeConn_fd err) live
    case send attached done =>
      obtain ⟨c, sum, err, drained, wrote⟩ := processSend_wrote done
      exact wrote.fed held attached fun settled =>
        (EngineConn.receiving_sends reads settled).drain drained
    case read answers attached done => exact Fed.read reads unlimited (held attached.1).1 done
    case flush counted attached done =>
      obtain ⟨c, sum, err, drained, wrote⟩ :=
        flushFd_wrote (sound.found attached) attached.1 done
      exact wrote.fed held attached fun settled =>
        (EngineConn.receiving_sends reads settled).drain drained
    case enqueue owner size fits attached =>
      exact (enqueueCmd_wrote owner size).fed held attached fun _ => id
    case attach registered fresh small free greeted =>
      have whole := (held fresh.live).1
      have conn : (l.placed e r registered).conns r = { l.conns r with loopID := l.idx } :=
        Function.update_self r _ _
      have placed : ((l.placed e r registered).conns r).Receiving view False := by
        rw [conn]
        exact whole
      cases greeted with
      | refused => exact fun live => absurd (closeConn_fd _) live
      | waits later =>
        -- Only a connection that the kernel reads for is not read at once.
        refine fun _ => ⟨placed, fun _ _ a found user => ?_⟩
        rw [readsAtOnce, found] at later
        dsimp only at later
        rw [user] at later
        cases later
      | read answers done => exact Fed.read reads unlimited placed done
    case drop fresh =>
      refine fun live => absurd ?_ live
      rw [setConn_self]
      rfl

/-- In every run without a read budget, an open userspace TLS connection that the loop
knows has nothing whole left between its socket and the application, as long as the
application has not asked to close it. -/
theorem tls_nothing_stranded (e : Env σ π) (view : TlsView π) (reads : e.tls.Reads view)
    (unlimited : e.tuning.maxReadBytesPerEvent ≤ 0) (idx : Nat) (hs : σ) (shared : Bytes)
    (labels : List (Label π)) (s : Sys σ π)
    (done : Reached e idx hs shared labels s)
    (parted : Each (step e) (fun _ a _ => a.Parted) (boot idx hs shared) labels)
    (r : Ref) (attached : Attached s.loop r) (quiet : ∀ bytes, .data r bytes true ∉ s.loop.trace)
    (a : ATLSConn π) (engine : (s.loop.conns r).tls = some a) (user : a.ktls = false) :
    a.preRead.length ≤ a.preReadOff ∧ ∀ p b, a.tls = some p → a.buf = some b →
      view.plain p = [] ∧ ¬ HoldsRecord (view.raw p ++ content b.heap b.cin) := by
  obtain ⟨wf, held⟩ := (fed_upheld reads unlimited).run done parted
  have made := (wf.sound.slot _ r attached.2).2.2.2.2
  have settled := (held r made attached.1).2 attached quiet a engine user
  exact ⟨settled.served trivial, settled.exhausted trivial⟩

/-- Hand out the first record of `raw`. -/
def handOut (raw : Bytes) (len : Nat) : (Bytes × Bytes) × Bytes × Option Err :=
  match raw with
  | _ :: _ :: _ :: hi :: lo :: body =>
    let size := hi.toNat * 256 + lo.toNat
    ((body.drop size, (body.take size).drop len), (body.take size).take len,
      if size = 0 then some (.other 1) else none)
  | _ => ((raw, []), [], some (.other 1))

/-- A library that decrypts by dropping the header, one record a call. Its state is the raw
input and the rest of the current record. -/
def records : TlsLib (Bytes × Bytes) where
  read p len :=
    if p.2 ≠ [] then .done ((p.1, p.2.drop len), p.2.take len, none)
    else if HoldsRecord p.1 then .done (handOut p.1 len)
    else .read 65540 fun (bytes, _) =>
      if HoldsRecord (p.1 ++ bytes) then .done (handOut (p.1 ++ bytes) len)
      else .done ((p.1 ++ bytes, []), [], some .wouldBlock)
  write p src := .write (23 :: src) fun _ => .done (p, src.length, none)
  close p := .done p

def recordsView : TlsView (Bytes × Bytes) := ⟨Prod.snd, Prod.fst⟩

theorem holdsRecord_long (bytes : Bytes) (long : 65540 ≤ bytes.length) : HoldsRecord bytes := by
  match bytes with
  | _ :: _ :: _ :: hi :: lo :: body =>
    have high := hi.toNat_lt
    have low := lo.toNat_lt
    simp only [length_cons] at long
    unfold HoldsRecord
    omega
  | [] | [_] | [_, _] | [_, _, _] | [_, _, _, _] =>
    simp only [length_cons, length_nil] at long
    omega

/-- A record that was handed out has brought bytes or an error. -/
theorem handOut_some (raw : Bytes) (len : Nat) (positive : 0 < len) (whole : HoldsRecord raw)
    {p : Bytes × Bytes} (given : handOut raw len = (p, bytes, err)) :
    bytes.take len ≠ [] ∨ err = some (.other 1) := by
  match raw, whole with
  | _ :: _ :: _ :: hi :: lo :: body, whole =>
    unfold handOut at given
    cases given
    by_cases void : hi.toNat * 256 + lo.toNat = 0
    · exact .inr (if_pos void)
    refine .inl fun empty => ?_
    have length := congrArg length empty
    unfold HoldsRecord at whole
    simp only [length_take, length_nil] at length
    omega

theorem records_reads : records.Reads recordsView where
  write p q src q' p' n err served := by
    cases served with
    | write taken rest =>
      cases rest
      exact ⟨rfl, rfl, rfl⟩
  empty p q len q' p' bytes err positive served nothing soft := by
    have handed {raw : Bytes} (whole : HoldsRecord raw)
      (given : handOut raw len = (p', bytes, err)) :
        False := by
      rcases handOut_some raw len positive whole given with filled | hard
      · exact filled nothing
      rw [hard] at soft
      rcases soft with void | block | again
      · cases void
      · cases block
      · cases again
    unfold records at served
    dsimp only at served
    split at served
    · rename_i filled
      cases served
      rw [take_take, Nat.min_self, take_eq_nil_iff] at nothing
      rcases nothing with zero | empty
      · omega
      · exact absurd empty filled
    split at served
    · rename_i whole
      generalize given : handOut p.1 len = result at served
      cases served
      exact (handed whole given).elim
    cases served with
    | read rest =>
      dsimp only at rest
      split at rest
      · rename_i whole
        generalize given : handOut _ len = result at rest
        cases rest
        exact (handed whole given).elim
      rename_i short
      cases rest
      refine ⟨rfl, ?_⟩
      by_cases few : q.length ≤ 65540
      · rw [drop_eq_nil_of_le few, append_nil]
        exact short
      refine absurd (holdsRecord_long _ ?_) short
      have answer : (Bio.answer q 65540).1 = q.take 65540 := by
        unfold Bio.answer
        rw [if_neg (by decide)]
        split
        · rename_i empty
          rw [empty, take_nil]
        · rfl
      rw [answer, length_append, length_take]
      omega

/-- The pool has buffers for the ciphertext, of up to 32 KiB. -/
def recordsEnv (budget : Int) : Env Unit (Bytes × Bytes) :=
  let plain := Env.plain (fun _ => ([], false)) 4
  { tuning := { plain.tuning with maxReadBytesPerEvent := budget },
    alloc := BytesAlloctor.allocator 1024 6 fun _ _ => 0, tls := records, rounds := 0,
    handler := plain.handler, tableSize := 16, pktSizeLimit := 16, cliSbufLimit := 4,
    checkInterval := 0, idleLimit := 0, chanSize := 4, listeners := [], idg := false }

/-- A client has sent two records right behind its handshake, and the library holds both
when the loop takes the connection over. -/
def pipelined (answers : List (List SysRead)) : List (Label (Bytes × Bytes)) :=
  let a : ATLSConn (Bytes × Bytes) :=
    ⟨some ([23, 3, 3, 0, 1, 65, 23, 3, 3, 0, 1, 66], []),
      some ⟨⟨fun _ => [], 1, []⟩, .newRingBuffer, .newRingBuffer⟩, false, false, [], 0⟩
  [.join 0 5 1 false ⟨[], fun _ => .full, 0⟩ (some a), .push 0, .cas 0, .trigger 0, .wake,
    .attach true answers]

theorem pipelined_parted (e : Env Unit (Bytes × Bytes)) (s : Sys Unit (Bytes × Bytes))
    (answers : List (List SysRead)) :
    Each (step e) (fun _ a _ => a.Parted) s (pipelined answers) := by
  refine each_of_forall (fun a member _ _ => ?_) s
  simp only [pipelined, mem_cons, not_mem_nil, or_false] at member
  rcases member with rfl | rfl | rfl | rfl | rfl | rfl
  · intro b found
    cases found
    exact ⟨new_ok _, by decide, nofun, nofun⟩
  all_goals trivial

def drainsPipelined (budget : Int) (answers : List (List SysRead)) :
    Option (Sys Unit (Bytes × Bytes)) :=
  run (step (recordsEnv budget)) (boot 0 () [0, 0, 0, 0]) (pipelined answers)

theorem tls_nothing_stranded_pipelined :
    ∃ s a p, drainsPipelined 0 [[], [], [.fail .EAGAIN]] = some s ∧ Attached s.loop 0 ∧
      (s.loop.conns 0).tls = some a ∧ a.tls = some p ∧ recordsView.plain p = [] ∧
      ¬ HoldsRecord (recordsView.raw p) := by
  obtain ⟨s, ran, attached, trace, engine⟩ :
      ∃ s, drainsPipelined 0 [[], [], [.fail .EAGAIN]] = some s ∧ Attached s.loop 0 ∧
      s.loop.trace = [.connected 0, .read 0 [65], .data 0 [65] false, .read 0 [66],
        .data 0 [66] false, .read 0 []] ∧
      ((s.loop.conns 0).tls.map fun a => (a.ktls, a.tls.isSome, a.buf.map fun b => b.cin.has)) =
        some (false, true, some 0) := computed (by decide +kernel) (by decide +kernel)
  obtain ⟨a, found, mode⟩ := map_eq_some_iff.mp engine
  obtain ⟨user, conn, buf⟩ := Prod.mk.inj mode |>.imp_right Prod.mk.inj
  obtain ⟨p, conn⟩ := isSome_iff_exists.mp conn
  obtain ⟨b, buf, empty⟩ := map_eq_some_iff.mp buf
  obtain ⟨_, settled⟩ := tls_nothing_stranded (recordsEnv 0) recordsView records_reads
    (Int.le_refl 0) 0 () _ _ s ran (pipelined_parted _ _ _) 0 attached
    (by rw [trace]; intro bytes; simp) a found user
  obtain ⟨plain, raw⟩ := settled p b conn buf
  rw [content_nil _ _ empty, List.append_nil] at raw
  exact ⟨s, a, p, ran, attached, found, conn, plain, raw⟩

/-- With a budget of one byte the first record uses it up. The second one stays in the
library, and the socket has nothing more to tell of. -/
theorem tls_record_stranded : records.Reads recordsView ∧
    ∃ s a p, drainsPipelined 1 [[]] = some s ∧ Attached s.loop 0 ∧
      (∀ bytes, .data 0 bytes true ∉ s.loop.trace) ∧ (s.loop.conns 0).tls = some a ∧
      a.ktls = false ∧ a.tls = some p ∧ HoldsRecord (recordsView.raw p) := by
  refine ⟨records_reads, ?_⟩
  obtain ⟨s, ran, attached, trace, engine⟩ : ∃ s, drainsPipelined 1 [[]] = some s ∧
      Attached s.loop 0 ∧ s.loop.trace = [.connected 0, .read 0 [65], .data 0 [65] false] ∧
      ((s.loop.conns 0).tls.map fun a => (a.ktls, a.tls)) =
        some (false, some ([23, 3, 3, 0, 1, 66], [])) := computed
  obtain ⟨a, found, mode⟩ := map_eq_some_iff.mp engine
  obtain ⟨user, conn⟩ := Prod.mk.inj mode
  exact ⟨s, a, _, ran, attached, by rw [trace]; intro bytes; simp, found, user, conn, by decide⟩

end Connaxis
