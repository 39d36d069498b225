import Connaxis.AppClose
import Connaxis.Segmentation

namespace Connaxis

open Memory RingBuffer Sys List

variable {σ π : Type} {e : Env σ π} {r : Ref} {id : UInt64} {P : List Obs → σ → Prop}

/-- The id is that of connection `r` and of no other. -/
def Named (r : Ref) (id : UInt64) (app : AppConn) : Prop := app.ref = r ↔ app.id = id

/-- What the application's state has to do with what was observed, call by call. Until the
first packet of `r` every `ParsePacket` gets all that `r` has received; `OnData` gets what
`ParsePacket` announced. -/
structure Follows (e : Env σ π) (r : Ref) (id : UInt64) (P : List Obs → σ → Prop) : Prop where
  connected : ∀ trace hs app, Named r id app → P trace hs →
    P (trace ++ [.connected app.ref]) (e.handler.onConnected hs app)
  closed : ∀ trace hs app err, Named r id app → P trace hs →
    P (trace ++ [.closed app.ref err]) (e.handler.onClosed hs app err)
  parse : ∀ trace hs app bytes inp, Named r id app → P trace hs →
    (app.ref = r → delivered r trace = [] → inp = received r (trace ++ [.read app.ref bytes])) →
    P (trace ++ [.read app.ref bytes]) (e.handler.parsePacket hs app inp).1
  again : ∀ trace hs app inp, Named r id app → P trace hs →
    (app.ref = r → delivered r trace ≠ []) → P trace (e.handler.parsePacket hs app inp).1
  data : ∀ trace hs app inp next length expect packet, Named r id app →
    e.handler.parsePacket hs app inp = (next, length, expect) → 0 < length → P trace next →
    P (trace ++ [.data app.ref packet (e.handler.onData next app packet).close])
      (e.handler.onData next app packet).state

variable {bytes : Bytes}

variable {hs : σ} {trace : List Obs}

namespace Rx

variable {shared : Slice} {rx rx' : Rx σ π} {inp : Slice} {app : AppConn}

/-- What is known when `ParsePacket` is to be called: it is the first call after a read, or
packets have been delivered. -/
def Due (r : Ref) (P : List Obs → σ → Prop) (app : AppConn) (rx : Rx σ π) (inp : Slice) : Prop :=
  (∃ trace bytes, rx.trace = trace ++ [.read app.ref bytes] ∧ P trace rx.hs ∧
    (app.ref = r → delivered r trace = [] → rx.heap.read inp = received r rx.trace)) ∨
  P rx.trace rx.hs ∧ (app.ref = r → delivered r rx.trace ≠ [])

theorem Due.parsed (follows : Follows e r id P) (named : Named r id app)
    (due : Due r P app rx inp) :
    P rx.trace (e.handler.parsePacket rx.hs app (rx.heap.read inp)).1 := by
  rcases due with ⟨trace, bytes, read, before, whole⟩ | ⟨before, filled⟩
  · rw [read] at whole ⊢
    exact follows.parse trace rx.hs app bytes _ named before whole
  · exact follows.again _ _ _ _ named before filled

/-- While nothing has been delivered, the input is all that was received. -/
theorem Due.whole (due : Due r P app rx inp) (own : app.ref = r)
    (void : delivered r rx.trace = []) : rx.heap.read inp = received r rx.trace := by
  rcases due with ⟨trace, bytes, read, -, whole⟩ | ⟨-, filled⟩
  · refine whole own ?_
    rw [read, delivered_append] at void
    exact (append_eq_nil_iff.mp void).1
  · exact absurd void (filled own)

variable {exit : ParseExit}

theorem deliver_follows (follows : Follows e r id P) (named : Named r id app)
    {length expect : Int} {k : Nat}
    (asked : e.handler.parsePacket hs app bytes = (rx.hs, length, expect)) (positive : 0 < length)
    (before : P rx.trace rx.hs) (done : rx.deliver e app (inp.front k) = some (rx', exit)) :
    P rx'.trace rx'.hs := by
  unfold deliver at done
  dsimp only at done
  have after := follows.data rx.trace hs app bytes rx.hs length expect
    (rx.heap.read (inp.front k)) named asked positive before
  split at done
  · cases done
  · cases done
    exact after
  cases done
  exact after

theorem delivered_own {close : Bool} : delivered r (trace ++ [.data r bytes close]) ≠ [] := by
  rw [delivered_append]
  simp [delivered]

/-- The packet loop keeps what is known of the application, and as long as nothing has been
delivered the connection's own buffer holds all that was received. -/
theorem parseLoop_follows (follows : Follows e r id P) (named : Named r id app) (rounds : Nat)
    (rx : Rx σ π) (inp : Slice) (input : Input e shared rx inp)
    (idle : inp.len = 0 → rx.conn.recvbuf.has = 0) (due : Due r P app rx inp)
    (done : parseLoop e app rounds rx inp = some (rx', exit)) :
    P rx'.trace rx'.hs ∧
      ∀ want, exit = .done want → app.ref = r → delivered r rx'.trace = [] →
        content rx'.heap rx'.conn.recvbuf = received r rx'.trace := by
  induction rounds generalizing rx inp with
  | zero => cases done
  | succ rounds ih =>
    have parsed := due.parsed follows named
    have whole := due.whole
    rcases asked : e.handler.parsePacket rx.hs app (rx.heap.read inp) with ⟨hs, length, expect⟩
    rw [asked] at parsed
    have now : Input e shared { rx with hs := hs } inp := { input with }
    have filled {next : Rx σ π} {exit : ParseExit} (own : app.ref = r) (inside : length ≤ inp.len)
        (given : deliver e { rx with hs := hs } app (inp.front length.toNat) =
          Option.some (next, exit)) : delivered r next.trace ≠ [] := by
      obtain ⟨-, -, -, _, -, trace, -⟩ := deliver_front now (by omega) given
      rw [trace, own]
      exact delivered_own
    cases parseLoop_round asked done with
    | malformed | large | beyond => exact ⟨parsed, nofun⟩
    | refused _ _ positive _ given =>
      exact ⟨deliver_follows follows named asked positive parsed given, nofun⟩
    | last next close positive inside given =>
      have after : P next.trace next.hs := deliver_follows follows named asked positive parsed given
      have told (own : app.ref = r) := filled own inside given
      split
      · exact ⟨after, fun _ _ own void => absurd void (told own)⟩
      · exact ⟨after, fun _ _ own void => absurd void (told own)⟩
    | more next _ _ positive inside given goes further =>
      obtain ⟨-, rest, -⟩ := deliver_front now (by omega) given
      exact ih next _ rest (fun empty => absurd empty goes)
        (.inr ⟨deliver_follows follows named asked positive parsed given,
          fun own => filled own inside given⟩) further
    | partly _ _ _ stored =>
      rw [keepPartial_hs stored]
      cases (keepPartial_partly now stored).2 with
      | refused => exact ⟨parsed, nofun⟩
      | kept _ trace given void =>
        rw [trace]
        refine ⟨parsed, fun want _ own nothing => ?_⟩
        have all := whole own nothing
        by_cases empty : inp.len = 0
        · rw [void empty]
          have bytes : rx.heap.read inp = [] := by
            rw [← length_eq_zero_iff, Heap.read_length _ _ input.live, empty]
          rw [bytes] at all
          change content rx.heap rx.conn.recvbuf = received r rx.trace
          rw [← all]
          exact content_nil _ _ (idle empty)
        rw [given (by omega)]
        exact all

end Rx

variable {Q : UInt64 → List Obs → σ → Prop}

namespace LoopConn

variable {l l' m : LoopConn σ π} {q : Ref}

/-- An open connection of which nothing was delivered has all that it received in its own
buffer. -/
def Whole (l : LoopConn σ π) (r : Ref) : Prop :=
  (l.conns r).fd ≠ 0 → delivered r l.trace = [] →
    content l.heap (l.conns r).recvbuf = received r l.trace

theorem whole_local : Local (fun (l : LoopConn σ π) r => Whole l r) where
  same whole bytes packets kept open_ live void := by
    rw [packets] at void
    rw [bytes, kept]
    exact whole (open_ live) void
  new bytes packets empty _ _ := empty.trans bytes.symm

theorem closeConn_follows (follows : Follows e r id P) (named : Named r id (l.app q))
    (err : Option CloseErr) (before : P l.trace l.hs) :
    P (l.closeConn e q err).trace (l.closeConn e q err).hs := by
  by_cases dead : (l.conns q).fd = 0
  · rw [closeConn_dead err dead]
    exact before
  rw [closeConn_open err dead]
  exact follows.closed l.trace l.hs (l.app q) err named before

theorem Named.of_id (named : Named r id (l.app q)) (same : (l'.conns q).id = (l.conns q).id) :
    Named r id (l'.app q) := by
  unfold Named app at named ⊢
  rw [same]
  exact named

theorem Named.inside {ext : List Obs} (named : Named r id (l.app q))
    (inside : Inside e l l' q ext) : Named r id (l'.app q) :=
  Named.of_id named (congrArg Identity.id inside.works.identity)

variable {c : EngineConn π}

theorem Wrote.follows (wrote : Wrote e l q c l') (follows : Follows e r id P)
    (named : Named r id (l.app q)) (same : c.id = (l.conns q).id) (before : P l.trace l.hs) :
    P l'.trace l'.hs := by
  cases wrote with
  | closed set why =>
    refine closeConn_follows follows (Named.of_id named ?_) _ before
    rw [setConn_self]
    exact same
  | kept => exact before

theorem drained_id {d : EngineConn π} {sum : Int} {err : Option Err}
    (drained : d.drainWrite e.toConnEnv = some (c, sum, err)) : c.id = d.id :=
  congrArg Identity.id (EngineConn.drainWrite_identity drained).1

variable {again : Bool}

theorem respond_follows (follows : Follows e r id P) (named : Named r id (l.app q))
    {wantClose last : Bool} (done : l.respond e q wantClose last = some (l', again))
    (before : P l.trace l.hs) : P l'.trace l'.hs := by
  obtain ⟨c, sum, err, drained, wrote⟩ := respond_wrote done
  exact wrote.follows follows named (drained_id drained) before

/-- A round of reading, for the application and for the bytes not yet delivered. -/
theorem readRound_follows (steady : e.alloc.Steady) (follows : Follows e r id P)
    (named : Named r id (l.app q)) (made : q < l.nconns) (ready : ReadyFor e l q)
    (live : (l.conns q).fd ≠ 0) {readBytes n : Int} {answers : List SysRead}
    (done : l.readRound e q readBytes answers = some (l', n, again)) (before : P l.trace l.hs)
    (whole : q = r → Whole l r) : P l'.trace l'.hs ∧ (q = r → Whole l' r) := by
  have closed (m : LoopConn σ π) (err : Option CloseErr) : q = r → Whole (m.closeConn e q err) r :=
    fun own still => absurd (own ▸ closeConn_fd _) still
  have due {got : LoopConn σ π} {n : Int} {inp : Memory.Slice} {last : Bool}
      (read : l.receive e q readBytes answers = some (got, n, .got inp last)) :
      Rx.Input e l.recvbuf (got.rx q) inp ∧ (inp.len = 0 → (got.conns q).recvbuf.has = 0) ∧
        Rx.Due r P (got.app q) (got.rx q) inp := by
    obtain ⟨-, -, left⟩ := receive_worked steady ready read
    obtain ⟨bytes, trace, input, unparsed, idle⟩ := left inp last rfl
    refine ⟨input, idle, .inl ⟨l.trace, bytes, trace, ?_, fun own void => ?_⟩⟩
    · change P l.trace got.hs
      rw [receive_hs read]
      exact before
    change got.heap.read inp = received r got.trace
    change q = r at own
    subst own
    rw [unparsed, trace, received_append, whole rfl live void]
    congr 1
    rw [received, map_singleton, flatten_singleton]
    exact (if_pos rfl).symm
  cases readRound_ends done with
  | @failed m n err failed =>
    obtain ⟨-, same, -⟩ := receive_worked steady ready failed
    obtain ⟨ext, inside, -⟩ := receive_inside failed
    refine ⟨closeConn_follows follows (Named.inside named inside) _ ?_, closed _ _⟩
    rw [(same err rfl).1, receive_hs failed]
    exact before
  | broken read parsed =>
    obtain ⟨first, inside, -⟩ := receive_inside read
    obtain ⟨input, idle, due⟩ := due read
    have named' := Named.inside named inside
    obtain ⟨after, -⟩ := Rx.parseLoop_follows follows named' _ _ _ input idle due parsed
    obtain ⟨second, work, -⟩ := Rx.parseLoop_parsed _ _ _ _ parsed
    exact ⟨closeConn_follows follows (Named.inside named' (commit_inside work)) _ after, closed _ _⟩
  | @answered got _ _ _ _ _ rx wantClose read parsed responded =>
    obtain ⟨first, inside, -⟩ := receive_inside read
    obtain ⟨input, idle, due⟩ := due read
    have named' := Named.inside named inside
    obtain ⟨after, kept⟩ := Rx.parseLoop_follows follows named' _ _ _ input idle due parsed
    obtain ⟨second, work, -⟩ := Rx.parseLoop_parsed _ _ _ _ parsed
    have both := inside.trans (commit_inside work)
    have conn : (got.commit q rx).conns q = rx.conn := Function.update_self _ _ _
    refine ⟨respond_follows follows (Named.inside named' (commit_inside work)) responded after,
      fun own => ?_⟩
    subst own
    refine whole_local.rests (fun _ void => ?_) (respond_rests responded) (both.nconns_eq ▸ made)
      fun _ => both.fd_eq ▸ live
    rw [conn]
    exact kept wantClose rfl rfl void

theorem processRead_follows (steady : e.alloc.Steady) (follows : Follows e r id P)
    (named : Named r id (l.app q)) (made : q < l.nconns) (ready : ReadyFor e l q)
    (live : (l.conns q).fd ≠ 0) {answers : List (List SysRead)}
    (done : l.processRead e q answers = some l') (before : P l.trace l.hs)
    (whole : q = r → Whole l r) : P l'.trace l'.hs ∧ (q = r → Whole l' r) := by
  refine processRead_rule (Q := fun m => P m.trace m.hs ∧ (q = r → Whole m r))
    (P := fun m => Named r id (m.app q) ∧ q < m.nconns ∧ ReadyFor e m q ∧ (m.conns q).fd ≠ 0 ∧
      P m.trace m.hs ∧ (q = r → Whole m r))
    ?_ ?_ done ⟨named, made, ready, live, before, whole⟩
  · rintro m next _ _ _ - once ⟨named, made, ready, live, before, whole⟩
    obtain ⟨worked, -⟩ := readRound_framed steady made ready once
    have kept := readRound_follows steady follows named made ready live once before whole
    obtain ⟨_, ext, inside, ⟨stop, _⟩ | ⟨_, rfl, _⟩⟩ := readRound_cases once
    · cases stop
    exact ⟨Named.inside named inside, inside.nconns_eq ▸ made,
      worked.readyFor steady inside.recvbuf_eq ready, inside.fd_eq ▸ live, kept⟩
  rintro m next _ _ _ - once ⟨named, made, ready, live, before, whole⟩
  exact readRound_follows steady follows named made ready live once before whole

variable {op : Op π}

theorem Act.whole (steady : e.alloc.Steady) (sound : Sound e l) (act : Act e l op l')
    (whole : Parsing e Whole r l) : Parsing e Whole r l' := by
  refine act.parsing steady whole_local (fun made ready live done before => ?_) sound whole
  have nothing (id : UInt64) : Follows e r id fun _ _ => True :=
    ⟨fun _ _ _ _ _ => trivial, fun _ _ _ _ _ _ => trivial, fun _ _ _ _ _ _ _ _ => trivial,
      fun _ _ _ _ _ _ _ => trivial, fun _ _ _ _ _ _ _ _ _ _ _ _ => trivial⟩
  exact (processRead_follows steady (nothing _) (iff_of_true rfl rfl) made ready live done
    trivial fun _ => before).2 rfl

/-- Every operation of the loop keeps what is known of the application. -/
theorem Act.follows (steady : e.alloc.Steady) (follows : Follows e r id P) (sound : Sound e l)
    (act : Act e l op l') (parsing : Parsing e Whole r l)
    (names : ∀ q, q < l.nconns → Named r id (l.app q)) (before : P l.trace l.hs) :
    P l'.trace l'.hs := by
  obtain ⟨owned, whole⟩ := parsing
  have made {q : Ref} (attached : Attached l q) : q < l.nconns :=
    (SoundBut.slot sound _ q attached.2).2.2.2.2
  cases act with
  | tidy same =>
    rw [same]
    exact before
  | make | age => exact before
  | track q =>
    unfold LoopConn.track
    split <;> exact before
  | close q err attached => exact closeConn_follows follows (names q (made attached)) err before
  | send q attached done =>
    obtain ⟨c, sum, err, drained, wrote⟩ := processSend_wrote done
    exact wrote.follows follows (names q (made attached)) (drained_id drained) before
  | read q answers attached done =>
    exact (processRead_follows steady follows (names q (made attached)) (made attached)
      (owned.rings q (made attached)) attached.1 done before
      fun own => own ▸ whole (own ▸ made attached)).1
  | flush q counted attached done =>
    obtain ⟨c, sum, err, drained, wrote⟩ := flushFd_wrote (sound.found attached) attached.1 done
    exact wrote.follows follows (names q (made attached)) (drained_id drained) before
  | enqueue q owner size attached =>
    exact (enqueueCmd_wrote owner size).follows follows (names q (made attached)) rfl before
  | attach q registered fresh small free greeted =>
    have attached := placed_attached (e := e) fresh registered
    have placed := placed_rests (e := e) (l := l) (r := q) registered
    have known : q < l.nconns := fresh.made
    have named : Named r id ((l.placed e q registered).app q) := by
      refine Named.of_id (names q known) ?_
      simp only [LoopConn.placed, Function.update_self]
    have after : P (l.placed e q registered).trace (l.placed e q registered).hs :=
      follows.connected l.trace l.hs (l.app q) (names q known) before
    cases greeted with
    | refused => exact closeConn_follows follows named _ after
    | waits => exact after
    | read answers done =>
      have owned' := owned.rests placed rfl
      refine (processRead_follows steady follows named known (owned'.rings q known)
        attached.1 done after fun own => ?_).1
      subst own
      exact whole_local.rests (whole known) placed known fun _ => fresh.live
  | drop => exact before

/-- What is known between two operations, for any id that could be `r`'s own. -/
structure Followed (e : Env σ π) (r : Ref) (Q : UInt64 → List Obs → σ → Prop)
    (l : LoopConn σ π) : Prop where
  whole : Parsing e Whole r l
  known : ∀ id, (∀ q, q < l.nconns → Named r id (l.app q)) → Q id l.trace l.hs

theorem Act.followed (steady : e.alloc.Steady) (follows : ∀ id, Follows e r id (Q id))
    (sound : Sound e l) (act : Act e l op l') (before : Followed e r Q l) : Followed e r Q l' := by
  refine ⟨act.whole steady sound before.whole, fun id names => ?_⟩
  have earlier (q : Ref) (made : q < l.nconns) : Named r id (l.app q) := by
    refine Named.of_id (names q (act.made sound made)) ?_
    exact (congrArg Identity.id (act.kept sound made).name).symm
  exact act.follows steady (follows id) sound before.whole earlier (before.known id earlier)

end LoopConn

/-- A connection is announced before it is read. -/
def Orderly (r : Ref) (trace : List Obs) : Prop :=
  ∀ before bytes after, trace = before ++ .read r bytes :: after → .connected r ∈ before

variable {first second : List Obs}

theorem Orderly.front (orderly : Orderly r (first ++ second)) : Orderly r first := by
  intro before bytes after same
  refine orderly before bytes (after ++ second) ?_
  rw [same, append_assoc]
  rfl

theorem Orderly.told (orderly : Orderly r (trace ++ [.read r bytes])) : .connected r ∈ trace :=
  orderly trace bytes [] rfl

/-- The first that is observed of a connection is that it is announced. -/
theorem LoopConn.Conduct.orderly {l : LoopConn σ π} (conduct : Conduct l r) :
    Orderly r l.trace := by
  intro before bytes after same
  have first : ∀ o ∈ (observed r l.trace).head?, o = .connected r := by
    cases conduct with
    | away _ void => simp [void]
    | present _ _ _ told | gone _ _ _ _ told => simp [told]
  rw [same, observed_append] at first
  cases early : observed r before with
  | nil =>
    rw [early] at first
    cases first (.read r bytes) (by simp [observed, Obs.ref])
  | cons o more =>
    rw [early] at first
    have seen := (mem_observed r).mp (early ▸ mem_cons_self)
    exact first o rfl ▸ seen.1

/-- The rule for whole runs. -/
theorem run_follows (steady : e.alloc.Steady) (follows : ∀ id, Follows e r id (Q id)) {idx : Nat}
    {shared : Bytes} (serves : e.alloc.Serves shared.length) {labels : List (Label π)}
    {s : Sys σ π} (start : ∀ id, Q id [] hs)
    (done : Sys.Reached e idx hs shared labels s)
    (made : r < s.loop.nconns)
    (unique : ∀ q, q < s.loop.nconns → q ≠ r → (s.loop.conns q).id ≠ (s.loop.conns r).id) :
    Q (s.loop.conns r).id s.loop.trace s.loop.hs := by
  have all := (Runs.run_invariant_all (I := fun s => Wf e s ∧ LoopConn.Followed e r Q s.loop)
    (fun s a s' step now => ?_) done ⟨boot_wf idx hs shared, ?_⟩).2
  · refine all.known _ fun q known => ?_
    by_cases own : q = r
    · subst own
      exact iff_of_true rfl rfl
    · exact iff_of_false own (unique q known own)
  · have turn := step_turn now.1 step
    exact ⟨turn.wf, (turn.acts.keeps now.1.sound now.2 fun m op m' sound _ act before =>
      act.followed steady follows sound before).2⟩
  · exact ⟨LoopConn.boot_parsing _ _ _ _ serves, fun id _ => start id⟩

end Connaxis
