import Connaxis.ConnLife
import Connaxis.ReadFraming

namespace Connaxis

open LoopConn Memory Framing RingBuffer List Runs Function

variable {σ π : Type} {e : Env σ π}

namespace LoopConn

variable {l l' m : LoopConn σ π} {r : Ref} {F : LoopConn σ π → Ref → Prop}

/-- The loop's receive buffers: the shared one and those of the connections are in order, with
more to be had of their sizes, and all of them are different. -/
structure Owned (e : Env σ π) (l : LoopConn σ π) : Prop where
  window : l.recvbuf.Live l.heap
  common : e.alloc.Serves l.recvbuf.len
  rings : ∀ q, q < l.nconns → ReadyFor e l q
  apart : ∀ q, q < l.nconns → 0 < (l.conns q).recvbuf.size →
    (l.conns q).recvbuf.buf.base ≠ l.recvbuf.base
  distinct : ∀ q p, q < l.nconns → p < l.nconns → q ≠ p → 0 < (l.conns q).recvbuf.size →
    0 < (l.conns p).recvbuf.size → (l.conns q).recvbuf.buf.base ≠ (l.conns p).recvbuf.buf.base

theorem Owned.rests (owned : Owned e l) (rests : Rests l l') (same : l'.nconns = l.nconns) :
    Owned e l' := by
  refine ⟨?_, ?_, ?_, ?_, ?_⟩
  · rw [rests.window, rests.heap]
    exact owned.window
  · rw [rests.window]
    exact owned.common
  · intro q made
    rw [same] at made
    unfold ReadyFor
    rw [rests.heap, rests.window, rests.rings q made]
    exact owned.rings q made
  · intro q made
    rw [same] at made
    rw [rests.window, rests.rings q made]
    exact owned.apart q made
  intro q p first second
  rw [same] at first second
  rw [rests.rings q first, rests.rings p second]
  exact owned.distinct q p first second

/-- Another connection's buffer is none of those that reading this one writes to. -/
theorem Owned.spared (owned : Owned e l) {q : Ref} (made : r < l.nconns) (known : q < l.nconns)
    (other : q ≠ r) (filled : 0 < (l.conns q).recvbuf.size) :
    ¬ Mine l.recvbuf (l.conns r).recvbuf (l.conns q).recvbuf.buf.base := by
  rintro (common | ⟨positive, same⟩)
  · exact owned.apart q known filled common
  · exact owned.distinct q r known made other filled positive same

/-- One connection has been read. -/
structure ReadOf (e : Env σ π) (l l' : LoopConn σ π) (r : Ref) : Prop where
  made : r < l.nconns
  nconns : l'.nconns = l.nconns
  window : l'.recvbuf = l.recvbuf
  others : ∀ q, q ≠ r → l'.conns q = l.conns q
  worked : WorkedOn e r l l'

theorem Owned.read (owned : Owned e l) (steady : e.alloc.Steady) (read : ReadOf e l l' r) :
    Owned e l' := by
  have worked := read.worked
  have known (q : Ref) (made : q < l.nconns) (filled : 0 < (l.conns q).recvbuf.size) :
      (l.conns q).recvbuf.buf.base < l.heap.next := ((owned.rings q made).valid.live filled).1
  have below : l.recvbuf.base < l.heap.next := owned.window.1
  have window : l'.recvbuf.Live l'.heap := by
    rw [read.window]
    exact worked.kept _ owned.window
  have common : e.alloc.Serves l'.recvbuf.len := by
    rw [read.window]
    exact owned.common
  refine ⟨window, common, fun q made => ?_, fun q made filled => ?_,
    fun q p first second other one two => ?_⟩
  · rw [read.nconns] at made
    by_cases own : q = r
    · rw [own]
      exact worked.readyFor steady read.window (owned.rings r (own ▸ made))
    refine ⟨?_, window, common, ?_⟩
    · rw [read.others q own]
      exact ((owned.rings q made).valid.spares worked.spares
        fun filled => owned.spared read.made made own filled).1
    · rw [read.others q own]
      exact (owned.rings q made).own
  · rw [read.nconns] at made
    rw [read.window]
    by_cases own : q = r
    · subst own
      rcases worked.place filled with ⟨before, same⟩ | fresh
      · rw [same]
        exact owned.apart q made before
      · omega
    rw [read.others q own] at filled ⊢
    exact owned.apart q made filled
  rw [read.nconns] at first second
  -- The buffer of the connection that was read is its old one or a new one.
  have newest (p : Ref) (made : p < l.nconns) (different : p ≠ r)
      (here : 0 < (l'.conns r).recvbuf.size) (there : 0 < (l.conns p).recvbuf.size) :
      (l'.conns r).recvbuf.buf.base ≠ (l.conns p).recvbuf.buf.base := by
    rcases worked.place here with ⟨before, same⟩ | fresh
    · rw [same]
      exact owned.distinct r p read.made made (Ne.symm different) before there
    have old := known p made there
    omega
  by_cases own : q = r
  · subst own
    rw [read.others p (Ne.symm other)] at two ⊢
    exact newest p second (Ne.symm other) one two
  rw [read.others q own] at one ⊢
  by_cases mine : p = r
  · subst mine
    exact Ne.symm (newest q first own two one)
  rw [read.others p mine] at two ⊢
  exact owned.distinct q p first second other one two

/-- Reading one connection does not show at another one's packets. -/
theorem Local.beside {q : Ref} (known : Local F) (owned : Owned e l) (read : ReadOf e l l' q)
    (made : r < l.nconns) (other : r ≠ q) (same : Untouched l l' r) (held : F l r) : F l' r := by
  obtain ⟨ext, extended, about⟩ := same.trace
  refine known.same held ?_ ?_ ?_ fun live => same.conn ▸ live
  · rw [extended, received_append, received_others about, append_nil]
  · rw [extended, delivered_append, delivered_others about, append_nil]
  rw [same.conn]
  exact ((owned.rings r made).valid.spares read.worked.spares
    fun filled => owned.spared read.made made other filled).2

theorem processRead_readOf {answers : List (List SysRead)} {but : Ref → Prop}
    (steady : e.alloc.Steady) (sound : SoundBut e l but) (attached : Attached l r)
    (owned : Owned e l) (done : l.processRead e r answers = some l') : ReadOf e l l' r := by
  have made := (sound.slot _ r attached.2).2.2.2.2
  have effect := processRead_effect sound attached done
  exact ⟨made, effect.nconns, effect.recvbuf, effect.others,
    (processRead_framed steady made (owned.rings r made) done).1⟩

/-- What an operation has to do with the receive buffers: nothing, it makes a connection, or
it reads one. -/
inductive Touches (e : Env σ π) (l l' : LoopConn σ π) : Prop
  | rests (rests : Rests l l') (same : l'.nconns = l.nconns)
  | makes (c : EngineConn π) (new : c.recvbuf = newRingBuffer) (shape : l' = (l.addConn c).1)
  | reads (m : LoopConn σ π) (q : Ref) (answers : List (List SysRead)) (rests : Rests l m)
      (same : m.nconns = l.nconns) (fds : ∀ p, (m.conns p).fd = (l.conns p).fd)
      (sound : SoundBut e m (· = q)) (attached : Attached m q)
      (done : m.processRead e q answers = some l')

theorem placed_rests (registered : Bool) : Rests l (l.placed e r registered) := by
  refine ⟨rfl, rfl, fun q _ => ?_, fun q => ⟨?_, ?_⟩⟩
  · simp only [placed, update_apply]
    split
    · rename_i own
      rw [own]
    · rfl
  · exact (received_append _ _ _).trans (append_nil _)
  · exact (delivered_append _ _ _).trans (append_nil _)

theorem Act.touches {op : Op π} (sound : Sound e l) (act : Act e l op l') : Touches e l l' := by
  cases act with
  | tidy same =>
    rw [same]
    exact .rests ⟨rfl, rfl, fun _ _ => rfl, fun _ => ⟨rfl, rfl⟩⟩ rfl
  | make fd id client sock tls => exact .makes _ rfl rfl
  | age => exact .rests ⟨rfl, rfl, fun _ _ => rfl, fun _ => ⟨rfl, rfl⟩⟩ rfl
  | track q =>
    unfold LoopConn.track
    split
    · exact .rests ⟨rfl, rfl, fun _ _ => rfl, fun _ => ⟨rfl, rfl⟩⟩ rfl
    · exact .rests (Rests.refl l) rfl
  | close q err attached =>
    exact .rests (closeConn_rests err) (closeConn_effect sound attached err).nconns
  | send q attached done =>
    refine .rests ?_ (processSend_effect sound attached done).nconns
    obtain ⟨c, sum, err, drained, wrote⟩ := processSend_wrote done
    exact wrote.rests (EngineConn.drainWrite_identity drained).2
  | read q answers attached done =>
    exact .reads l q answers (Rests.refl l) rfl (fun _ => rfl) sound.but attached done
  | flush q counted attached done =>
    refine .rests ?_ (flush_effect sound attached done).nconns
    obtain ⟨c, sum, err, drained, wrote⟩ := flushFd_wrote (sound.found attached) attached.1 done
    exact wrote.rests (EngineConn.drainWrite_identity drained).2
  | enqueue q owner size attached =>
    exact .rests ((enqueueCmd_wrote owner size).rests rfl)
      (enqueueCmd_effect sound attached owner size).nconns
  | attach q registered fresh small free greeted =>
    have books := placed_sound sound fresh small free registered
    have attached := placed_attached (e := e) fresh registered
    have placed := placed_rests (e := e) (l := l) (r := q) registered
    cases greeted with
    | refused =>
      exact .rests (placed.trans (closeConn_rests _) (Nat.le_refl _))
        (closeConn_effect books attached _).nconns
    | waits => exact .rests placed rfl
    | read answers done =>
      refine .reads _ q answers placed rfl (fun p => ?_) books attached done
      simp only [LoopConn.placed, update_apply]
      split
      · rename_i own
        rw [own]
      · rfl
  | drop q fresh => exact .rests (setConn_rests rfl) rfl

/-- What is known of the buffers and of the packets of one connection. -/
def Parsing (e : Env σ π) (F : LoopConn σ π → Ref → Prop) (r : Ref) (l : LoopConn σ π) : Prop :=
  Owned e l ∧ (r < l.nconns → F l r)

/-- A new connection owns no buffer and has received nothing. -/
theorem Parsing.made {c : EngineConn π} (known : Local F) (sound : Sound e l)
    (parsing : Parsing e F r l) (new : c.recvbuf = newRingBuffer) :
    Parsing e F r (l.addConn c).1 := by
  obtain ⟨owned, held⟩ := parsing
  have old {q : Ref} (known : q < l.nconns) : (l.addConn c).1.conns q = l.conns q :=
    addConn_other c known
  have last : (l.addConn c).1.conns l.nconns = c := update_self _ _ _
  have more : (l.addConn c).1.nconns = l.nconns + 1 := rfl
  have split {q : Ref} (made : q < (l.addConn c).1.nconns) : q < l.nconns ∨ q = l.nconns := by
    exact Nat.lt_succ_iff_lt_or_eq.mp made
  have empty {q : Ref} (is : q = l.nconns) : ¬ 0 < ((l.addConn c).1.conns q).recvbuf.size := by
    rw [is, last, new]
    exact Nat.lt_irrefl 0
  refine ⟨⟨owned.window, owned.common, fun q made => ?_, fun q made filled => ?_,
    fun q p first second other one two => ?_⟩, fun made => ?_⟩
  · unfold ReadyFor
    rcases split made with known | is
    · rw [old known]
      exact owned.rings q known
    rw [is, last, new]
    exact ⟨new_ok _, owned.window, owned.common, owned.common.mono (Nat.zero_le _)⟩
  · rcases split made with known | is
    · rw [old known] at filled ⊢
      exact owned.apart q known filled
    · exact absurd filled (empty is)
  · rcases split first with known | is
    · rcases split second with known' | is
      · rw [old known] at one ⊢
        rw [old known'] at two ⊢
        exact owned.distinct q p known known' other one two
      · exact absurd two (empty is)
    · exact absurd one (empty is)
  rcases split made with old' | is
  · refine known.same (held old') rfl rfl ?_ ?_
    · rw [old old']
      rfl
    rw [old old']
    exact id
  have unseen : ∀ o ∈ l.trace, o.ref ≠ r := by
    intro o member same
    have seen := sound.seen o member
    rw [same, is] at seen
    exact Nat.lt_irrefl _ seen
  refine known.new (received_others unseen) (delivered_others unseen) ?_
  rw [is, last, new]
  exact content_nil _ _ rfl

/-- The rule for what reading the connection itself keeps. -/
theorem Act.parsing {op : Op π} (steady : e.alloc.Steady) (known : Local F)
    (reads : ∀ {m m' : LoopConn σ π} {answers : List (List SysRead)}, r < m.nconns →
      ReadyFor e m r → (m.conns r).fd ≠ 0 → m.processRead e r answers = some m' → F m r → F m' r)
    (sound : Sound e l) (act : Act e l op l') (parsing : Parsing e F r l) : Parsing e F r l' := by
  cases act.touches sound with
  | rests rests same =>
    refine ⟨parsing.1.rests rests same, fun made => ?_⟩
    rw [same] at made
    exact known.rests (parsing.2 made) rests made fun live =>
      (act.kept sound made).fd live ▸ live
  | makes c new shape =>
    subst shape
    exact parsing.made known sound new
  | reads m q answers rests same fds books attached done =>
    have owned := parsing.1.rests rests same
    have read := processRead_readOf steady books attached owned done
    refine ⟨owned.read steady read, fun made => ?_⟩
    have made' : r < m.nconns := read.nconns ▸ made
    have before : F m r :=
      known.rests (parsing.2 (same ▸ made')) rests (same ▸ made') fun live => fds r ▸ live
    by_cases own : r = q
    · subst own
      exact reads made' (owned.rings r made') attached.1 done before
    exact known.beside owned read made' own
      ((processRead_effect books attached done).untouched attached own) before

theorem boot_parsing (F : LoopConn σ π → Ref → Prop) (r : Ref) (idx : Nat) (hs : σ)
    {shared : Bytes} (serves : e.alloc.Serves shared.length) :
    Parsing e F r (Sys.boot idx hs shared : Sys σ π).loop := by
  have void (q : Ref) : ¬ q < (Sys.boot idx hs shared : Sys σ π).loop.nconns := Nat.not_lt_zero q
  refine ⟨⟨⟨Nat.lt_succ_self 1, ?_⟩, serves, fun q made => absurd made (void q),
    fun q made => absurd made (void q), fun q p made => absurd made (void q)⟩,
    fun made => absurd made (void r)⟩
  change 0 + shared.length ≤ (if 1 = 1 then shared else []).length
  rw [if_pos rfl, Nat.zero_add]

end LoopConn

theorem run_parsing {parse : Bytes → Nat} {r : Ref} (steady : e.alloc.Steady)
    (stable : PrefixStable parse) (behaves : Behaves e r parse) {idx : Nat} {hs : σ}
    {shared : Bytes} (serves : e.alloc.Serves shared.length) {labels : List (Label π)}
    {s : Sys σ π} (done : Sys.Reached e idx hs shared labels s) :
    Parsing e (Framed parse) r s.loop := by
  refine (run_invariant_all (I := fun s => Sys.Wf e s ∧ Parsing e (Framed parse) r s.loop)
    (fun s a s' step now => ?_) done ⟨Sys.boot_wf idx hs shared, boot_parsing _ _ _ _ serves⟩).2
  have turn := Sys.step_turn now.1 step
  refine ⟨turn.wf, (turn.acts.keeps now.1.sound now.2 fun m op m' sound _ act before => ?_).2⟩
  refine act.parsing steady (framed_local parse) (fun made ready live done framed => ?_)
    sound before
  exact ((processRead_framed steady made ready done).2 parse behaves stable live framed).1

namespace Rx

theorem deliver_returns (rx : Rx σ π) (app : AppConn) (data : Slice) (sending : rx.conn.Sending) :
    ∃ rx' exit, rx.deliver e app data = some (rx', exit) ∧ rx'.conn.Sending := by
  obtain ⟨c, n, err, emitted, valid, _⟩ := EngineConn.emitOutput_stream (e := e.toConnEnv) sending
    rx.owners (e.handler.onData rx.hs app (rx.heap.read data)).out
  unfold deliver
  dsimp only
  rw [emitted]
  cases err with
  | some | none => exact ⟨_, _, rfl, valid⟩

/-- Every packet shortens the input, so the packet loop of a plain connection ends. -/
theorem parseLoop_returns (app : AppConn) (rounds : Nat) (rx : Rx σ π) (inp : Slice)
    (sending : rx.conn.Sending) (enough : inp.len < rounds) :
    ∃ rx' exit, parseLoop e app rounds rx inp = some (rx', exit) := by
  induction rounds generalizing rx inp with
  | zero => exact absurd enough (Nat.not_lt_zero _)
  | succ rounds ih =>
    unfold parseLoop packetLoop
    generalize e.handler.parsePacket rx.hs app (rx.heap.read inp) = parsed
    obtain ⟨hs, length, expect⟩ := parsed
    dsimp only
    split
    · exact ⟨_, _, rfl⟩
    split
    · exact ⟨_, _, rfl⟩
    split
    · split
      · exact ⟨_, _, rfl⟩
      obtain ⟨next, exit, given, valid⟩ := deliver_returns (e := e)
        { rx with hs := hs } app (inp.front length.toNat) sending
      rw [given]
      cases exit with
      | failed err => exact ⟨_, _, rfl⟩
      | done close =>
        dsimp only
        split
        · exact ⟨_, _, rfl⟩
        refine ih next _ valid ?_
        rw [Slice.tail_len]
        omega
    · exact ⟨_, _, rfl⟩

end Rx

namespace LoopConn

variable {l l' : LoopConn σ π} {r : Ref}

theorem receive_returns (plain : (l.conns r).tls = none) (readBytes : Int) (answer : SysRead) :
    ∃ l' n got, l.receive e r readBytes [answer] = some (l', n, got) ∧
      (answer = .fail .EAGAIN → ∀ inp last, got = .got inp last → last = true) := by
  unfold receive
  dsimp only
  cases chooseBuf e.alloc l.recvbuf l.heap (l.conns r).recvbuf with
  | none => exact ⟨_, _, _, rfl, fun _ _ _ same => nomatch same⟩
  | some chosen =>
    obtain ⟨h, ring, buf⟩ := chosen
    dsimp only [EngineConn.read]
    rw [plain]
    cases answer with
    | fail err =>
      dsimp only
      split
      · exact ⟨_, _, _, rfl, fun _ _ _ same => nomatch same⟩
      split
      · exact ⟨_, _, _, rfl, fun _ _ _ same => nomatch same⟩
      refine ⟨_, _, _, rfl, fun again inp last same => ?_⟩
      cases again
      rw [← (Received.got.inj same).2]
      rfl
    | data bytes =>
      dsimp only
      split
      · exact ⟨_, _, _, rfl, nofun⟩
      split
      · exact ⟨_, _, _, rfl, nofun⟩
      · exact ⟨_, _, _, rfl, nofun⟩

section

variable (sending : (l.conns r).Sending)
include sending

theorem respond_returns (wantClose last : Bool) :
    ∃ l' again, l.respond e r wantClose last = some (l', again) ∧
      (last = true → again = false) := by
  obtain ⟨c, sum, err, drained, _⟩ := EngineConn.drainWrite_stream (e := e.toConnEnv) sending
  unfold respond
  rw [drained]
  dsimp only
  split
  · exact ⟨_, _, rfl, fun _ => rfl⟩
  split
  · split
    · exact ⟨_, _, rfl, fun _ => rfl⟩
    · exact ⟨_, _, rfl, fun _ => rfl⟩
  split
  · exact ⟨_, _, rfl, fun _ => rfl⟩
  split
  · exact ⟨_, _, rfl, fun _ => rfl⟩
  rename_i more
  exact ⟨_, _, rfl, fun ends => absurd ends more⟩

/-- A round on a plain connection ends, and after `EAGAIN` there is no further one. -/
theorem readRound_returns (readBytes : Int) (answer : SysRead) :
    ∃ l' n again, l.readRound e r readBytes [answer] = some (l', n, again) ∧
      (answer = .fail .EAGAIN → again = false) ∧
      (again = true → (l'.conns r).Sending) := by
  obtain ⟨m, n, got, received, last⟩ :=
    receive_returns (e := e) (l := l) (r := r) sending.plain readBytes answer
  obtain ⟨first, inside, _⟩ := receive_inside received
  have plain := inside.works.keeps EngineConn.sending_lasting sending
  unfold readRound roundWith
  rw [received]
  cases got with
  | failed err => exact ⟨_, _, _, rfl, fun _ => rfl, nofun⟩
  | got inp ends =>
    dsimp only
    obtain ⟨rx, exit, parsed⟩ := Rx.parseLoop_returns (e := e) (m.app r) (inp.len + 1) (m.rx r)
      inp plain (Nat.lt_succ_self _)
    rw [parsed]
    cases exit with
    | failed err => exact ⟨_, _, _, rfl, fun _ => rfl, nofun⟩
    | done wantClose =>
      obtain ⟨second, work, heard⟩ := Rx.parseLoop_parsed _ _ _ _ parsed
      have whole := inside.trans (commit_inside work)
      have kept := whole.works.keeps EngineConn.sending_lasting sending
      obtain ⟨final, again, responded, stops⟩ :=
        respond_returns (e := e) kept wantClose ends
      dsimp only
      rw [responded]
      refine ⟨_, _, _, rfl, fun eagain => stops (last eagain inp ends rfl), fun more => ?_⟩
      have answers : if wantClose then Asked r second else Quiet r second := by
        cases wantClose with
        | true | false => exact heard
      obtain ⟨d, flush, ⟨stop, _⟩ | ⟨_, same, _⟩⟩ := respond_cases answers responded
      · rw [more] at stop
        cases stop
      rw [same]
      exact flush.works.keeps EngineConn.sending_lasting kept

/-- A call of `processRead` on a plain connection returns, at `EAGAIN` at the latest. -/
theorem processRead_returns (chunks : List Bytes) :
    ∃ l', l.processRead e r (chunks.map (fun bytes => [.data bytes]) ++ [[.fail .EAGAIN]]) =
      some l' := by
  unfold processRead
  generalize (0 : Int) = readBytes
  induction chunks generalizing l readBytes with
  | nil =>
    obtain ⟨l', n, again, once, stops, _⟩ :=
      readRound_returns (e := e) sending readBytes (.fail .EAGAIN)
    rw [stops rfl] at once
    refine ⟨l', ?_⟩
    rw [map_nil, nil_append, readLoop, once]
  | cons bytes rest ih =>
    obtain ⟨l', n, again, once, _, kept⟩ :=
      readRound_returns (e := e) sending readBytes (.data bytes)
    rw [map_cons, cons_append, readLoop, once]
    cases again with
    | false => exact ⟨l', rfl⟩
    | true => exact ih (kept rfl) n

end

end LoopConn

/-- However the bytes of a connection are cut into reads, `OnData` gets the greedy parse of
all that was received, and the connection's own buffer holds the unparsed rest. A
connection that was closed may have been cut short of it. Reading a plain connection
always comes to an end, and as long as neither the kernel nor the pool reports an error it is
not closed over what it has sent. -/
theorem segmentation_independent (e : Env σ π) (steady : e.alloc.Steady)
    (r : Ref) (parse : Bytes → Nat) (stable : PrefixStable parse) (behaves : Behaves e r parse)
    (idx : Nat) (hs : σ) (shared : Bytes) (serves : e.alloc.Serves shared.length)
    (labels : List (Label π)) (s : Sys σ π)
    (done : Sys.Reached e idx hs shared labels s)
    (made : r < s.loop.nconns) :
    ((s.loop.conns r).fd ≠ 0 →
      delivered r s.loop.trace = (frames parse (received r s.loop.trace)).1 ∧
      content s.loop.heap (s.loop.conns r).recvbuf = (frames parse (received r s.loop.trace)).2 ∧
      (delivered r s.loop.trace).flatten ++ content s.loop.heap (s.loop.conns r).recvbuf =
        received r s.loop.trace) ∧
    delivered r s.loop.trace <+: (frames parse (received r s.loop.trace)).1 ∧
    (s.pc = .read r → (s.loop.conns r).tls = none → ∀ chunks : List Bytes,
      (s.step e (.recv (chunks.map (fun bytes => [.data bytes]) ++ [[.fail .EAGAIN]]))).isSome) ∧
    (s.pc = .read r → (s.loop.conns r).tls = none → 0 < s.loop.recvbuf.len →
      Smooth e parse → ∀ (answers : List (List SysRead)) (s' : Sys σ π),
      (∀ round ∈ answers, ∀ a ∈ round, a.fine = true) → s.step e (.recv answers) = some s' →
      Excused s'.loop r) := by
  obtain ⟨owned, parsing⟩ := run_parsing steady stable behaves serves done
  have framed := parsing made
  obtain ⟨wf, alive⟩ := (alive_upheld e).always done
  have attached (at_ : s.pc = .read r) : Attached s.loop r := wf.busy r (by rw [at_]; rfl)
  refine ⟨fun live => ?_, framed.early, fun at_ plain chunks => ?_,
    fun at_ plain filled smooth answers s' fine step => ?_⟩
  · obtain ⟨packets, rest⟩ := framed.whole live
    refine ⟨packets, rest, ?_⟩
    rw [packets, rest, frames_flatten]
  · obtain ⟨l', read⟩ :=
      processRead_returns (e := e) ((alive r made (attached at_).1).sending plain) chunks
    dsimp only [Sys.step, Sys.stepWith]
    rw [at_]
    dsimp only
    rw [read]
    rfl
  dsimp only [Sys.step, Sys.stepWith] at step
  rw [at_] at step
  dsimp only at step
  split at step
  · cases step
  rename_i l' read
  cases step
  exact ((processRead_framed steady made (owned.rings r made) read).2 parse behaves stable
    (attached at_).1 framed).2 smooth plain filled fine

def pairLength (bytes : Bytes) : Nat := if bytes.length < 2 then 0 else 2

/-- Packets of two bytes, and a handler that keeps to itself. -/
def pairs : Env Unit Unit :=
  { Env.plain (fun _ => ([], false)) 8 with
    alloc := exactly
    handler :=
      { parsePacket := fun _ _ bytes => ((), pairLength bytes, -1)
        onData := fun _ _ bytes => ⟨(), [], false, bytes⟩
        onConnected := fun _ _ => ()
        onClosed := fun _ _ _ => () } }

theorem pairLength_stable : PrefixStable pairLength := by
  intro x y positive
  unfold pairLength at positive ⊢
  rw [length_append]
  split at positive
  · exact absurd positive (Nat.lt_irrefl 0)
  rename_i long
  rw [if_neg (by omega), if_neg long]

theorem pairs_behaves : Behaves pairs 0 pairLength :=
  ⟨fun _ _ _ _ => rfl, fun _ _ _ _ => show (-1 : Int) ≤ 16 by decide, fun _ _ _ _ => rfl⟩

def toSecondRead : List (Label Unit) :=
  arrival 5 (fun _ => .full) ++
    [.event 5 ⟨false, false, true⟩, .recv [[.data [1, 2, 3]]], .event 5 ⟨false, false, true⟩]

/-- Five bytes in two reads: the second packet straddles them. -/
def straddling (labels : List (Label Unit)) : Option (Sys Unit Unit) :=
  run (Sys.step pairs) (Sys.boot 0 () [0, 0, 0, 0]) labels

theorem segmentation_independent_straddling :
    (∃ s, straddling (toSecondRead ++ [.recv [[.data [4, 5]]]]) = some s ∧
      received 0 s.loop.trace = [1, 2, 3, 4, 5] ∧
      delivered 0 s.loop.trace = [[1, 2], [3, 4]] ∧
      content s.loop.heap (s.loop.conns 0).recvbuf = [5] ∧
      frames pairLength [1, 2, 3, 4, 5] = ([[1, 2], [3, 4]], [5])) ∧
    ∃ s s', straddling toSecondRead = some s ∧
      s.step pairs (.recv [[.data [4, 5]]]) = some s' ∧ Excused s'.loop 0 := by
  have applied {labels : List (Label Unit)} {s : Sys Unit Unit} (ran : straddling labels = some s)
      (made : 0 < s.loop.nconns) := segmentation_independent pairs (fun _ _ _ _ _ _ _ => nofun) 0
    pairLength pairLength_stable pairs_behaves 0 () [0, 0, 0, 0] (fun _ _ _ => nofun) labels s ran
    made
  constructor
  · obtain ⟨s, ran, made, live, stream, packets, rest⟩ : ∃ s,
        straddling (toSecondRead ++ [.recv [[.data [4, 5]]]]) = some s ∧ 0 < s.loop.nconns ∧
        (s.loop.conns 0).fd ≠ 0 ∧ received 0 s.loop.trace = [1, 2, 3, 4, 5] ∧
        delivered 0 s.loop.trace = [[1, 2], [3, 4]] ∧
        content s.loop.heap (s.loop.conns 0).recvbuf = [5] := computed
    have whole := (applied ran made).1 live
    rw [stream, packets, rest] at whole
    exact ⟨s, ran, stream, packets, rest, Prod.ext whole.1.symm whole.2.1.symm⟩
  obtain ⟨s, ran, made, at_, plain, window, steps⟩ : ∃ s, straddling toSecondRead = some s ∧
      0 < s.loop.nconns ∧ s.pc = .read 0 ∧ (s.loop.conns 0).tls.isNone ∧ 0 < s.loop.recvbuf.len ∧
      (s.step pairs (.recv [[.data [4, 5]]])).isSome = true := computed
  obtain ⟨s', step⟩ := Option.isSome_iff_exists.mp steps
  refine ⟨s, s', ran, step, (applied ran made).2.2.2 at_ (Option.isNone_iff_eq_none.mp plain)
    window ⟨fun x => ?_, fun _ _ => nofun⟩ _ s' (by decide) step⟩
  unfold pairLength
  split <;> omega

end Connaxis
