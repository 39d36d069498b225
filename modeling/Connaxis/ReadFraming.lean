import Connaxis.RecvBuffer
import Connaxis.LoopFrame
import Connaxis.Lib.Framing

namespace Connaxis

open Memory Framing RingBuffer EngineConn Heap Function Option Slice List

variable {σ π : Type} {e : Env σ π}

/-- The packet handler of a connection: `ParsePacket` announces a length that depends on
the bytes alone and expects no more than the limit, and `OnData` never asks to close. -/
structure Behaves (e : Env σ π) (r : Ref) (parse : Bytes → Nat) : Prop where
  length : ∀ hs app bytes, app.ref = r → (e.handler.parsePacket hs app bytes).2.1 = parse bytes
  expect : ∀ hs app bytes, app.ref = r →
    (e.handler.parsePacket hs app bytes).2.2 ≤ e.pktSizeLimit
  stays : ∀ hs app bytes, app.ref = r → (e.handler.onData hs app bytes).close = false

/-- Nothing can be wrong with what is received: the parser announces complete packets only, and
the pool refuses nothing. -/
structure Smooth (e : Env σ π) (parse : Bytes → Nat) : Prop where
  complete : ∀ x, parse x ≤ x.length
  total : ∀ n size, e.alloc.get n size ≠ none

/-- The reasons to close a connection that lie in what is sent to it. -/
def CloseErr.sending : CloseErr → Bool
  | .CLOSE_SEND_ERR | .CLOSE_MEM_ALLOC_FAIL | .CLOSE_BY_SLOW_READER => true
  | _ => false

/-- An answer of the kernel that is no error and no end of the stream. -/
def SysRead.fine : SysRead → Bool
  | .data bytes => bytes ≠ []
  | .fail err => err = .EAGAIN

variable {exit : ParseExit} {parse : Bytes → Nat}

namespace Rx

variable {shared : Slice} {rx rx' : Rx σ π} {inp : Slice}

/-- The bytes to be parsed lie in a buffer of this connection's, and there are others as large. -/
structure Input (e : Env σ π) (shared : Slice) (rx : Rx σ π) (inp : Slice) : Prop where
  valid : Ok rx.heap rx.conn.recvbuf
  live : inp.Live rx.heap
  mine : Mine shared rx.conn.recvbuf inp.base
  served : e.alloc.Serves inp.len

/-- What the packet loop does to the buffers. -/
def Worked (e : Env σ π) (shared : Slice) (rx rx' : Rx σ π) : Prop :=
  RingBuffer.Worked e.alloc shared rx.heap rx'.heap rx.conn.recvbuf rx'.conn.recvbuf

/-- What `keepPartial` does: the rest of the input is kept in the connection's own buffer, or
the pool refuses it a larger one. -/
inductive Partly (e : Env σ π) (rx : Rx σ π) (inp : Slice) : Rx σ π → ParseExit → Prop
  | kept (rx' : Rx σ π) (trace : rx'.trace = rx.trace)
      (bytes : 0 < inp.len → content rx'.heap rx'.conn.recvbuf = rx.heap.read inp)
      (void : inp.len = 0 → rx' = rx) : Partly e rx inp rx' (.done false)
  | refused (err : CloseErr) (refusal : ∃ n size, e.alloc.get n size = none) :
      Partly e rx inp rx (.failed err)

theorem keepPartial_partly (input : Input e shared rx inp) {expect : Int}
    (done : rx.keepPartial e inp expect = (rx', exit)) :
    Worked e shared rx rx' ∧ Partly e rx inp rx' exit := by
  unfold keepPartial at done
  by_cases filled : inp.len > 0
  · rw [if_pos filled] at done
    split at done
    · rcases took : rx.heap.alloc e.alloc expect.toNat with _ | ⟨fresh, buf⟩
      · rw [took] at done
        cases done
        exact ⟨.refl input.valid, .refused _ (alloc_none took)⟩
      rw [took] at done
      dsimp only at done
      have updated : RingBuffer.Worked e.alloc shared rx.heap _ rx.conn.recvbuf _ :=
        Worked.update (r := rx.conn.recvbuf) took
      rcases wrote : (rx.conn.recvbuf.update e.alloc fresh buf).2.write e.alloc
          (rx.conn.recvbuf.update e.alloc fresh buf).1 inp inp.len true with ⟨h, ring, n⟩
      obtain ⟨written, bytes⟩ := write_worked shared input.served updated.ok.toStorage ⟨rfl, rfl⟩
        (updated.kept inp input.live) filled wrote
      rw [wrote] at done
      cases done
      refine ⟨updated.trans written, .kept _ rfl (fun _ => ?_) fun void => by omega⟩
      rw [bytes]
      change (fresh.put e.alloc _).read inp = _
      rw [put_read, alloc_read took input.live.1]
    have emptied : RingBuffer.Worked e.alloc shared rx.heap rx.heap rx.conn.recvbuf _ :=
      Worked.truncate input.valid
    rcases wrote : rx.conn.recvbuf.truncate.write e.alloc rx.heap inp inp.len true with ⟨h, ring, n⟩
    obtain ⟨written, bytes⟩ := write_worked shared input.served emptied.ok.toStorage ⟨rfl, rfl⟩
      input.live filled wrote
    rw [wrote] at done
    cases done
    exact ⟨emptied.trans written, .kept _ rfl (fun _ => bytes) fun void => by omega⟩
  rw [if_neg filled] at done
  cases done
  exact ⟨.refl input.valid, .kept _ rfl (fun more => absurd more filled) fun _ => rfl⟩

/-- A packet at the front of the input is delivered: the handler may write into it, and the
rest of the input stays. -/
theorem deliver_front {app : AppConn} {k : Nat} (input : Input e shared rx inp)
    (within : k ≤ inp.len) (done : rx.deliver e app (inp.front k) = some (rx', exit)) :
    Worked e shared rx rx' ∧ Input e shared rx' (inp.tail k) ∧
      rx'.heap.read (inp.tail k) = (rx.heap.read inp).drop k ∧
      ∃ close, close = (e.handler.onData rx.hs app ((rx.heap.read inp).take k)).close ∧
        rx'.trace = rx.trace ++ [.data app.ref ((rx.heap.read inp).take k) close] ∧
        (∀ want, exit = .done want → want = close) ∧
        (∀ err, exit = .failed err → err.sending = true) := by
  have packet := read_front rx.heap inp k within
  have bound := input.live.2
  have stored (c : EngineConn π) (hs : σ) (owners : Nat) (trace : List Obs) (bytes : Bytes)
      (same : c.recvbuf = rx.conn.recvbuf) :
      Worked e shared rx ⟨rx.heap.store (inp.front k) (bytes.take k), c, hs, owners, trace⟩ ∧
      Input e shared ⟨rx.heap.store (inp.front k) (bytes.take k), c, hs, owners, trace⟩
        (inp.tail k) ∧
      (rx.heap.store (inp.front k) (bytes.take k)).read (inp.tail k) =
        (rx.heap.read inp).drop k := by
    have few := length_take_le k bytes
    have worked : Worked e shared rx
        ⟨rx.heap.store (inp.front k) (bytes.take k), c, hs, owners, trace⟩ := by
      unfold Worked
      rw [same]
      refine .store input.valid input.mine ?_
      rw [front_off, front_base]
      omega
    refine ⟨worked, ⟨worked.ok, worked.kept _ (input.live.tail k within), ?_,
      input.served.mono (Nat.sub_le _ _)⟩, ?_⟩
    · rw [same]
      exact input.mine
    · rw [store_read_behind _ _ _ _ input.live few, read_tail]
  unfold deliver at done
  dsimp only [front_len] at done
  rw [packet] at done
  split at done
  · cases done
  · rename_i emitted
    cases done
    obtain ⟨worked, rest, bytes⟩ := stored _ _ _ _ _ (emitOutput_identity emitted).2
    refine ⟨worked, rest, bytes, _, rfl, rfl, nofun, fun err same => ?_⟩
    rw [← ParseExit.failed.inj same]
    split <;> rfl
  rename_i emitted
  cases done
  obtain ⟨worked, rest, bytes⟩ := stored _ _ _ _ _ (emitOutput_identity emitted).2
  refine ⟨worked, rest, bytes, _, rfl, rfl, fun want same => ?_, nofun⟩
  exact (ParseExit.done.inj same).symm

/-- The packets handed out are the first ones of the greedy parse; if nothing failed they
are all of them, and the connection's own buffer holds what is left. Only sending fails, if
nothing else can. -/
def Greedy (e : Env σ π) (parse : Bytes → Nat) (r : Ref) (unparsed : Bytes) (rx rx' : Rx σ π)
    (exit : ParseExit) : Prop :=
  ∃ packets : List Bytes, rx'.trace = rx.trace ++ packets.map (.data r · false) ∧
    packets <+: (frames parse unparsed).1 ∧
    (∀ want, exit = .done want → want = false ∧ packets = (frames parse unparsed).1 ∧
      content rx'.heap rx'.conn.recvbuf = (frames parse unparsed).2) ∧
    (Smooth e parse → ∀ err, exit = .failed err → err.sending = true)

variable {unparsed : Bytes}

theorem Greedy.failed {r : Ref} {err : CloseErr} (same : rx'.trace = rx.trace)
    (blame : Smooth e parse → err.sending = true) :
    Greedy e parse r unparsed rx rx' (.failed err) := by
  refine ⟨[], ?_, nil_prefix, nofun, fun complete err' is => ?_⟩
  · rw [same]
    exact (append_nil _).symm
  rw [← ParseExit.failed.inj is]
  exact blame complete

/-- One packet more in front. -/
theorem Greedy.cons {r : Ref} {mid : Rx σ π}
    (complete : 0 < parse unparsed ∧ parse unparsed ≤ unparsed.length)
    (first : mid.trace = rx.trace ++ [.data r (unparsed.take (parse unparsed)) false])
    (rest : Greedy e parse r (unparsed.drop (parse unparsed)) mid rx' exit) :
    Greedy e parse r unparsed rx rx' exit := by
  obtain ⟨packets, trace, early, all, blame⟩ := rest
  have step := frames_step parse unparsed complete
  refine ⟨unparsed.take (parse unparsed) :: packets, ?_, ?_, fun want done => ?_, blame⟩
  · rw [trace, first, append_assoc]
    rfl
  · rw [step]
    exact cons_prefix_cons.mpr ⟨rfl, early⟩
  obtain ⟨stays, whole, tail⟩ := all want done
  rw [step, whole]
  exact ⟨stays, rfl, tail⟩

/-- The packet loop works on the connection's own buffers, and with a well-behaved handler
it parses greedily. -/
theorem parseLoop_greedy (app : AppConn) (rounds : Nat) (rx : Rx σ π) (inp : Slice)
    (input : Input e shared rx inp) (done : parseLoop e app rounds rx inp = some (rx', exit)) :
    Worked e shared rx rx' ∧ ∀ parse, Behaves e app.ref parse →
      (inp.len = 0 → rx.conn.recvbuf.has = 0) →
      Greedy e parse app.ref (rx.heap.read inp) rx rx' exit := by
  induction rounds generalizing rx inp with
  | zero => cases done
  | succ rounds ih =>
    have long := read_length rx.heap inp input.live
    rcases parsed : e.handler.parsePacket rx.hs app (rx.heap.read inp) with ⟨hs, length, expect⟩
    have now : Input e shared { rx with hs := hs } inp := { input with }
    have named {parse : Bytes → Nat} (behaves : Behaves e app.ref parse) :
        length = parse (rx.heap.read inp) := by
      have same := behaves.length rx.hs app (rx.heap.read inp) rfl
      rw [parsed] at same
      exact same
    have complete {parse : Bytes → Nat} (behaves : Behaves e app.ref parse)
        (positive : 0 < length) (inside : length ≤ inp.len) :
        parse (rx.heap.read inp) = length.toNat ∧ 0 < parse (rx.heap.read inp) ∧
          parse (rx.heap.read inp) ≤ (rx.heap.read inp).length := by
      have same := named behaves
      omega
    cases parseLoop_round parsed done with
    | malformed negative =>
      refine ⟨.refl input.valid, fun parse behaves _ => absurd negative ?_⟩
      have same := named behaves
      omega
    | large above =>
      refine ⟨.refl input.valid, fun parse behaves _ => absurd above ?_⟩
      have within := behaves.expect rx.hs app (rx.heap.read inp) rfl
      rw [parsed] at within
      exact Int.not_lt.mpr within
    | beyond positive past =>
      refine ⟨.refl input.valid, fun parse behaves _ => .failed rfl fun smooth => ?_⟩
      have same := named behaves
      have short := smooth.complete (rx.heap.read inp)
      omega
    | refused _ err positive inside given =>
      obtain ⟨worked, _, _, close, wish, trace, _, blame⟩ := deliver_front now (by omega) given
      refine ⟨worked, fun parse behaves _ => ?_⟩
      obtain ⟨same, frame⟩ := complete behaves positive inside
      rw [behaves.stays _ _ _ rfl] at wish
      rw [wish, ← same] at trace
      exact .cons frame trace (.failed rfl fun _ => blame err rfl)
    | last next close' positive inside given ends =>
      obtain ⟨worked, rest, bytes, close, wish, trace, want, _⟩ :=
        deliver_front now (by omega) given
      have asks := want close' rfl
      refine ⟨?_, fun parse behaves _ => ?_⟩
      · split
        · exact RingBuffer.Worked.trans worked (.reset _ _)
        · exact worked
      obtain ⟨same, frame⟩ := complete behaves positive inside
      rw [behaves.stays _ _ _ rfl] at wish
      rw [wish, ← same] at trace
      rw [wish] at asks
      rw [asks] at ends
      have ended : (inp.tail length.toNat).len = 0 := by simpa using ends
      have nothing : (rx.heap.read inp).drop (parse (rx.heap.read inp)) = [] := by
        rw [same]
        refine eq_nil_of_length_eq_zero (Eq.trans (congrArg List.length bytes.symm) ?_)
        rw [read_length _ _ rest.live, ended]
      rw [if_pos ended, asks]
      refine .cons frame trace ?_
      rw [nothing]
      refine ⟨[], (append_nil _).symm, nil_prefix, fun want done => ?_, nofun⟩
      rw [frames_nil]
      exact ⟨(ParseExit.done.inj done).symm, rfl, content_nil _ _ rfl⟩
    | more next _ _ positive inside given goes further =>
      obtain ⟨worked, rest, bytes, close, wish, trace, _⟩ :=
        deliver_front now (by omega) given
      obtain ⟨worked', later⟩ := ih next (inp.tail length.toNat) rest further
      refine ⟨RingBuffer.Worked.trans worked worked', fun parse behaves _ => ?_⟩
      obtain ⟨same, frame⟩ := complete behaves positive inside
      rw [behaves.stays _ _ _ rfl] at wish
      rw [wish, ← same] at trace
      refine .cons frame trace ?_
      have greedy := later parse behaves fun void => absurd void goes
      rw [bytes] at greedy
      rw [same]
      exact greedy
    | partly _ _ zero stored =>
      obtain ⟨worked, partly⟩ := keepPartial_partly now stored
      refine ⟨worked, fun parse behaves idle => ?_⟩
      cases partly with
      | refused err refusal =>
        obtain ⟨n, size, refused⟩ := refusal
        exact .failed rfl fun smooth => absurd refused (smooth.total n size)
      | kept _ trace bytes unchanged =>
        have stop : ¬ (0 < parse (rx.heap.read inp) ∧
            parse (rx.heap.read inp) ≤ (rx.heap.read inp).length) := by
          have same := named behaves
          omega
        have rest := frames_stop parse (rx.heap.read inp) stop
        refine ⟨[], trace.trans (append_nil _).symm, nil_prefix, fun want done => ?_,
          nofun⟩
        rw [rest]
        refine ⟨(ParseExit.done.inj done).symm, rfl, ?_⟩
        by_cases filled : 0 < inp.len
        · exact bytes filled
        have void : inp.len = 0 := by omega
        rw [unchanged void, eq_nil_of_length_eq_zero (long.trans void)]
        exact content_nil _ _ (idle void)

end Rx

variable {err : Option Err} {len : Nat} {bytes : Bytes}

variable {A : Allocator UInt8} {lib : TlsLib π} {p : π} {b : TlsBufferConn}
  {state : π × TlsBufferConn}

theorem ATLSConn.readRound_length (done : readRound A lib p b len = (state, some (bytes, err))) :
    bytes.length ≤ len := by
  unfold readRound at done
  dsimp only at done
  split at done
  · cases done
    exact length_take_le _ _
  split at done
  · cases done
    exact Nat.zero_le _
  · cases done
  cases done
  exact Nat.zero_le _

theorem ATLSConn.readLoop_length (answers : List SysRead)
    (done : readLoop A lib p b len answers = some (state, bytes, err)) : bytes.length ≤ len := by
  fun_induction readLoop A lib p b len answers with
  | case1 _ _ _ _ _ round =>
    cases done
    exact readRound_length round
  | case2 => cases done
  | case3 =>
    cases done
    exact Nat.zero_le _
  | case4 _ _ _ _ _ _ _ _ _ ih => exact ih done

variable {c c' : EngineConn π} {answers : List SysRead}

/-- A read fills at most the window it is given. -/
theorem EngineConn.read_length {e : ConnEnv π}
    (done : c.read e len answers = some (c', bytes, err)) : bytes.length ≤ len := by
  unfold read at done
  split at done
  · split at done
    · cases done
    · cases done
      exact Nat.zero_le _
    cases done
    exact length_take_le _ _
  split at done
  · cases done
  rename_i served
  cases done
  unfold ATLSConn.read at served
  split at served
  · cases served
    exact Nat.zero_le _
  split at served
  · cases served
    exact Nat.zero_le _
  split at served
  · dsimp only at served
    split at served <;> cases served <;> exact length_take_le _ _
  split at served
  · split at served
    · cases served
    have shape := (Prod.mk.inj (some.inj served)).2
    unfold ATLSConn.readKernel at shape
    split at shape
    · cases shape
      exact Nat.zero_le _
    · cases shape
      exact Nat.zero_le _
    · cases shape
      exact Nat.zero_le _
    split at shape
    · cases shape
      exact Nat.zero_le _
    cases shape
    exact length_take_le _ _
  split at served
  · split at served
    · cases served
    rename_i looped
    cases served
    exact ATLSConn.readLoop_length _ looped
  · cases served

/-- With room to read into, a plain connection gets bytes or `EAGAIN`. -/
theorem EngineConn.read_fine {e : ConnEnv π} (done : c.read e len answers = some (c', bytes, err))
    (plain : c.tls = none) (room : 0 < len) (fine : ∀ a ∈ answers, a.fine = true) :
    err = some .EAGAIN ∨ err = none ∧ bytes.length ≠ 0 := by
  unfold read at done
  rw [plain] at done
  dsimp only at done
  split at done
  · cases done
  · rename_i answer _
    cases done
    have again : answer = .EAGAIN := of_decide_eq_true (fine _ mem_cons_self)
    exact .inl (congrArg some again)
  rename_i data _
  cases done
  have filled : data ≠ [] := of_decide_eq_true (fine _ mem_cons_self)
  refine .inr ⟨rfl, ?_⟩
  rw [length_take]
  have positive := length_pos_iff.mpr filled
  omega

/-- The bytes a connection has delivered to the loop. -/
def received (r : Ref) (trace : List Obs) : Bytes :=
  (trace.map fun
    | .read c bytes => if c = r then bytes else []
    | _ => []).flatten

/-- The packets that `OnData` got for a connection. -/
def delivered (r : Ref) (trace : List Obs) : List Bytes :=
  trace.filterMap fun
    | .data c bytes _ => if c = r then some bytes else none
    | _ => none

theorem received_append (r : Ref) (first second : List Obs) :
    received r (first ++ second) = received r first ++ received r second := by
  simp only [received, map_append, flatten_append]

theorem delivered_append (r : Ref) (first second : List Obs) :
    delivered r (first ++ second) = delivered r first ++ delivered r second :=
  filterMap_append

variable {ext : List Obs}

/-- Observations of other connections do not count. -/
theorem received_others {r : Ref} (others : ∀ o ∈ ext, o.ref ≠ r) : received r ext = [] := by
  refine flatten_eq_nil_iff.mpr fun bytes member => ?_
  obtain ⟨o, inside, rfl⟩ := mem_map.mp member
  have other := others o inside
  cases o with
  | read c bytes => exact if_neg other
  | _ => rfl

theorem delivered_others {r : Ref} (others : ∀ o ∈ ext, o.ref ≠ r) : delivered r ext = [] := by
  refine filterMap_eq_nil_iff.mpr fun o inside => ?_
  have other := others o inside
  cases o with
  | data c bytes close => exact if_neg other
  | _ => rfl

theorem received_packets (r : Ref) (packets : List Bytes) :
    received r (packets.map (.data r · false)) = [] := by
  refine flatten_eq_nil_iff.mpr fun bytes member => ?_
  simp only [List.map_map, List.mem_map] at member
  obtain ⟨_, _, rfl⟩ := member
  rfl

theorem delivered_packets (r : Ref) (packets : List Bytes) :
    delivered r (packets.map (.data r · false)) = packets := by
  rw [delivered, filterMap_map]
  exact (filterMap_congr fun _ _ => if_pos rfl).trans filterMap_some

namespace LoopConn

variable {l l' m : LoopConn σ π} {r : Ref}

/-- No connection has been read: buffers and rings are as they were, and nothing was
received or delivered. -/
structure Rests (l l' : LoopConn σ π) : Prop where
  heap : l'.heap = l.heap
  window : l'.recvbuf = l.recvbuf
  rings : ∀ q, q < l.nconns → (l'.conns q).recvbuf = (l.conns q).recvbuf
  silent : ∀ q, received q l'.trace = received q l.trace ∧
    delivered q l'.trace = delivered q l.trace

theorem Rests.refl (l : LoopConn σ π) : Rests l l :=
  ⟨rfl, rfl, fun _ _ => rfl, fun _ => ⟨rfl, rfl⟩⟩

theorem Rests.trans (first : Rests l m) (second : Rests m l') (made : l.nconns ≤ m.nconns) :
    Rests l l' :=
  ⟨second.heap.trans first.heap, second.window.trans first.window,
    fun q known => (second.rings q (Nat.lt_of_lt_of_le known made)).trans (first.rings q known),
    fun q => ⟨(second.silent q).1.trans (first.silent q).1,
      (second.silent q).2.trans (first.silent q).2⟩⟩

theorem setConn_rests (same : c.recvbuf = (l.conns r).recvbuf) : Rests l (l.setConn r c) := by
  refine ⟨rfl, rfl, fun q _ => ?_, fun _ => ⟨rfl, rfl⟩⟩
  by_cases own : q = r
  · rw [own, setConn_self, same]
  · rw [setConn_other c q own]

theorem closeConn_rests (err : Option CloseErr) : Rests l (l.closeConn e r err) := by
  by_cases live : (l.conns r).fd = 0
  · rw [closeConn_dead err live]
    exact Rests.refl l
  rw [closeConn_open err live]
  refine ⟨rfl, rfl, fun q _ => ?_, fun q => ⟨?_, ?_⟩⟩
  · dsimp only
    rw [update_apply]
    split
    · rename_i own
      rw [own]
      rfl
    · rfl
  · exact (received_append _ _ _).trans (append_nil _)
  · exact (delivered_append _ _ _).trans (append_nil _)

theorem Wrote.rests (wrote : Wrote e l r c l') (same : c.recvbuf = (l.conns r).recvbuf) :
    Rests l l' := by
  have set := setConn_rests (l := l) same
  cases wrote with
  | closed flushes why =>
    refine Rests.trans ?_ (closeConn_rests _) (Nat.le_refl _)
    exact ⟨set.heap, set.window, set.rings, set.silent⟩
  | kept => exact ⟨set.heap, set.window, set.rings, set.silent⟩

variable {again : Bool}

variable {last : Bool}

/-- The end of a round reads nothing. -/
theorem respond_rests {wantClose : Bool} (done : l.respond e r wantClose last = some (l', again)) :
    Rests l l' := by
  obtain ⟨c, sum, err, drained, wrote⟩ := respond_wrote done
  exact wrote.rests (drainWrite_identity drained).2

/-- The packets delivered so far are the first of the greedy parse of all that was received;
of an open connection they are all of them, and its own buffer holds the unparsed rest. -/
structure Framed (parse : Bytes → Nat) (l : LoopConn σ π) (r : Ref) : Prop where
  early : delivered r l.trace <+: (frames parse (received r l.trace)).1
  whole : (l.conns r).fd ≠ 0 →
    delivered r l.trace = (frames parse (received r l.trace)).1 ∧
      content l.heap (l.conns r).recvbuf = (frames parse (received r l.trace)).2

/-- Something known of a connection from its buffer and its stream alone. -/
structure Local (F : LoopConn σ π → Ref → Prop) : Prop where
  same : ∀ {l l' : LoopConn σ π} {r : Ref}, F l r → received r l'.trace = received r l.trace →
    delivered r l'.trace = delivered r l.trace →
    content l'.heap (l'.conns r).recvbuf = content l.heap (l.conns r).recvbuf →
    ((l'.conns r).fd ≠ 0 → (l.conns r).fd ≠ 0) → F l' r
  new : ∀ {l : LoopConn σ π} {r : Ref}, received r l.trace = [] → delivered r l.trace = [] →
    content l.heap (l.conns r).recvbuf = [] → F l r

theorem Local.rests {F : LoopConn σ π → Ref → Prop} (known : Local F) (held : F l r)
    (rests : Rests l l') (made : r < l.nconns)
    (open_ : (l'.conns r).fd ≠ 0 → (l.conns r).fd ≠ 0) : F l' r := by
  obtain ⟨bytes, packets⟩ := rests.silent r
  refine known.same held bytes packets ?_ open_
  rw [rests.heap, rests.rings r made]

theorem framed_local (parse : Bytes → Nat) :
    Local (fun (l : LoopConn σ π) r => Framed parse l r) where
  same framed bytes packets kept open_ := by
    refine ⟨?_, fun live => ?_⟩
    · rw [bytes, packets]
      exact framed.early
    rw [bytes, packets, kept]
    exact framed.whole (open_ live)
  new bytes packets empty := by
    refine ⟨?_, fun _ => ?_⟩
    · rw [bytes, packets, frames_nil]
    rw [bytes, packets, empty, frames_nil]
    exact ⟨rfl, rfl⟩

/-- The connection can be read into its buffer or the shared one. -/
def ReadyFor (e : Env σ π) (l : LoopConn σ π) (r : Ref) : Prop :=
  Ready e.alloc l.recvbuf l.heap (l.conns r).recvbuf

/-- What reading the connection does to the buffers. -/
def WorkedOn (e : Env σ π) (r : Ref) (l l' : LoopConn σ π) : Prop :=
  RingBuffer.Worked e.alloc l.recvbuf l.heap l'.heap (l.conns r).recvbuf (l'.conns r).recvbuf

theorem WorkedOn.readyFor (worked : WorkedOn e r l l') (steady : e.alloc.Steady)
    (shared : l'.recvbuf = l.recvbuf) (ready : ReadyFor e l r) : ReadyFor e l' r := by
  unfold ReadyFor
  rw [shared]
  exact worked.ready steady ready

variable {readBytes n : Int}

/-- What the first half of a round does to the buffers, and what it leaves to be parsed. -/
theorem receive_worked (steady : e.alloc.Steady) (ready : ReadyFor e l r) {got : Received}
    (done : l.receive e r readBytes answers = some (l', n, got)) :
    WorkedOn e r l l' ∧
      (∀ err, got = .failed err → l'.trace = l.trace ∧
        ((∀ n size, e.alloc.get n size ≠ none) → (l.conns r).tls = none → 0 < l.recvbuf.len →
          ¬ ∀ a ∈ answers, a.fine = true)) ∧
      ∀ inp last, got = .got inp last → ∃ bytes, l'.trace = l.trace ++ [.read r bytes] ∧
        Rx.Input e l.recvbuf (l'.rx r) inp ∧
        l'.heap.read inp = content l.heap (l.conns r).recvbuf ++ bytes ∧
        (inp.len = 0 → (l'.conns r).recvbuf.has = 0) := by
  unfold WorkedOn
  unfold receive at done
  dsimp only at done
  rcases chooseBuf_chosen steady ready with
    ⟨h, ring, buf, chosen, window', unchanged⟩ | ⟨void, m, size, refused⟩
  case inr =>
    rw [void] at done
    cases done
    exact ⟨.refl ready.valid, fun _ _ => ⟨rfl, fun total => absurd refused (total m size)⟩, nofun⟩
  rw [chosen] at done
  dsimp only at done
  split at done
  · cases done
  rename_i c bytes err served
  have kept : c.recvbuf = ring := (read_identity served).2.2.2
  have few := read_length served
  have room := window'.room
  have bound := window'.live.2
  have stored : RingBuffer.Worked e.alloc l.recvbuf h
      (h.store (buf.tail (l.conns r).recvbuf.has) bytes) ring c.recvbuf := by
    rw [kept]
    refine .store window'.worked.ok window'.mine ?_
    rw [tail_off, tail_base]
    omega
  have worked := window'.worked.trans stored
  have conn (l : LoopConn σ π) : (l.setConn r c).conns r = c := setConn_self c
  have answered (plain : (l.conns r).tls = none) (filled : 0 < l.recvbuf.len)
      (fine : ∀ a ∈ answers, a.fine = true) :
      err = .some .EAGAIN ∨ err = none ∧ bytes.length ≠ 0 := by
    have space := window'.space filled
    exact read_fine served plain (by omega) fine
  split at done
  · rename_i hard
    cases done
    rw [conn]
    refine ⟨worked, fun _ _ => ⟨rfl, fun _ plain filled fine => hard ?_⟩, nofun⟩
    exact (answered plain filled fine).elim .inr fun got => .inl got.1
  split at done
  · rename_i nothing
    cases done
    rw [conn]
    refine ⟨worked, fun _ _ => ⟨rfl, fun _ plain filled fine => ?_⟩, nofun⟩
    rcases answered plain filled fine with again | ⟨_, got⟩
    · exact absurd again (of_decide_eq_false nothing.2)
    · exact got nothing.1
  cases done
  rw [touch_books]
  simp only [observe, setConn_self]
  refine ⟨worked, nofun, fun inp last same => ⟨bytes, rfl, ?_⟩⟩
  cases same
  have front := store_read_tail h buf (l.conns r).recvbuf.has bytes window'.live (by omega)
  rw [← read_front _ _ _ room, window'.bytes] at front
  refine ⟨⟨?_, ?_, ?_, window'.served.mono ?_⟩, front, fun void => ?_⟩
  · simp only [rx, setConn_self]
    exact stored.ok
  · exact (stored.kept buf window'.live).front _ (by omega)
  · simp only [rx, setConn_self, kept]
    exact window'.mine
  · rw [front_len]
    omega
  rw [front_len] at void
  rw [kept, unchanged (by omega)]
  omega

/-- A greedy parse of the rest and of what has come in carries the parse of the stream on. -/
theorem Framed.greedy {rx : Rx σ π} (stable : PrefixStable parse) (framed : Framed parse l r)
    (live : (l.conns r).fd ≠ 0) (trace : m.trace = l.trace ++ [.read r bytes])
    (greedy : Rx.Greedy e parse r (content l.heap (l.conns r).recvbuf ++ bytes) (m.rx r) rx exit) :
    delivered r rx.trace <+: (frames parse (received r rx.trace)).1 ∧
      ∀ want, exit = .done want →
        delivered r rx.trace = (frames parse (received r rx.trace)).1 ∧
        content rx.heap rx.conn.recvbuf = (frames parse (received r rx.trace)).2 := by
  obtain ⟨packets, shown, early, all, _⟩ := greedy
  obtain ⟨packed, rest⟩ := framed.whole live
  change rx.trace = m.trace ++ _ at shown
  have one : received r [.read r bytes] = bytes := by
    rw [received, map_singleton, flatten_singleton]
    exact if_pos rfl
  have stream : received r rx.trace = received r l.trace ++ bytes := by
    rw [shown, trace, received_append, received_append, received_packets, one, append_nil]
  have handed : delivered r rx.trace = (frames parse (received r l.trace)).1 ++ packets := by
    rw [shown, trace, delivered_append, delivered_append, delivered_packets, packed]
    exact congrArg (· ++ packets) (append_nil _)
  have whole := frames_append parse stable (received r l.trace) bytes
  rw [← rest] at whole
  rw [stream, handed, whole]
  refine ⟨(prefix_append_right_inj _).mpr early, fun want done => ?_⟩
  obtain ⟨_, complete, tail⟩ := all want done
  exact ⟨by rw [complete], tail⟩

/-- The connection is open, or it was given up because of what was sent to it. -/
def Excused (l : LoopConn σ π) (r : Ref) : Prop :=
  (l.conns r).fd ≠ 0 ∨ ∃ err : CloseErr, err.sending = true ∧ .closed r (some err) ∈ l.trace

theorem closeConn_excused {err : CloseErr} (live : (l.conns r).fd ≠ 0) (why : err.sending = true) :
    Excused (l.closeConn e r (some err)) r := by
  refine .inr ⟨err, why, ?_⟩
  rw [closeConn_open _ live]
  exact mem_append_right _ mem_cons_self

theorem overLimit_sending {err : CloseErr} (beyond : overLimit e c = some err) :
    err.sending = true := by
  unfold overLimit at beyond
  split at beyond <;> split at beyond <;> cases beyond <;> rfl

/-- The end of a round closes no connection that did not ask for it, other than for what is
sent. -/
theorem respond_excused (live : (l.conns r).fd ≠ 0)
    (done : l.respond e r false last = some (l', again)) : Excused l' r := by
  obtain ⟨c, sum, err, drained, ends⟩ := respond_ends done
  have now : ((l.setConn r c).conns r).fd ≠ 0 := by
    rw [setConn_self, (Works.refl.drain drained).fd]
    exact live
  cases ends with
  | closed why cause =>
    rcases cause with ⟨_, rfl⟩ | ⟨asked, _⟩ | ⟨_, _, beyond⟩
    · exact closeConn_excused now rfl
    · cases asked
    · exact closeConn_excused now (overLimit_sending beyond)
  | marked close => cases close
  | waiting =>
    rw [updateWriteFd_books]
    exact .inl now
  | again => exact .inl now

/-- What a round does for the connection it reads: its buffers, and, if the handler behaves
and the greedy parse was up to date, that it is so again. A plain connection whose reads are
fine is not given up for its packets. -/
theorem readRound_framed (steady : e.alloc.Steady) (made : r < l.nconns)
    (ready : ReadyFor e l r) (done : l.readRound e r readBytes answers = some (l', n, again)) :
    WorkedOn e r l l' ∧
      ∀ parse, Behaves e r parse → PrefixStable parse → (l.conns r).fd ≠ 0 →
        Framed parse l r → Framed parse l' r ∧
          (Smooth e parse → (l.conns r).tls = none → 0 < l.recvbuf.len →
            (∀ a ∈ answers, a.fine = true) → Excused l' r) := by
  -- After the parse nothing more is read, whatever the end of the round is.
  have finish {m l' : LoopConn σ π} (known : r < m.nconns) (worked : WorkedOn e r l m)
      (rests : Rests m l') : WorkedOn e r l l' := by
    unfold WorkedOn
    rw [rests.heap, rests.rings r known]
    exact worked
  cases readRound_ends done with
  | @failed got _ err failed =>
    obtain ⟨worked, same, _⟩ := receive_worked steady ready failed
    obtain ⟨ext, inside, _⟩ := receive_inside failed
    have rests : Rests got (got.closeConn e r (some err)) := closeConn_rests _
    obtain ⟨unseen, because⟩ := same err rfl
    refine ⟨finish (inside.nconns_eq ▸ made) worked rests,
      fun parse _ _ _ framed => ⟨⟨?_, fun live => absurd (closeConn_fd _) live⟩,
        fun smooth plain filled fine => absurd fine (because smooth.total plain filled)⟩⟩
    rw [(rests.silent r).1, (rests.silent r).2, unseen]
    exact framed.early
  | @broken got _ inp last rx err read parsed =>
    obtain ⟨received, _, left⟩ := receive_worked steady ready read
    obtain ⟨first, inside, _⟩ := receive_inside read
    obtain ⟨bytes, trace, input, unparsed, idle⟩ := left inp last rfl
    obtain ⟨worked, greedy⟩ := Rx.parseLoop_greedy _ _ _ _ input parsed
    have conn : (got.commit r rx).conns r = rx.conn := update_self _ _ _
    have rests : Rests (got.commit r rx) ((got.commit r rx).closeConn e r (some err)) :=
      closeConn_rests _
    obtain ⟨second, work, _⟩ := Rx.parseLoop_parsed _ _ _ _ parsed
    have whole := inside.trans (commit_inside work)
    refine ⟨finish (inside.nconns_eq ▸ made) ?_ rests,
      fun parse behaves stable live framed =>
        ⟨⟨?_, fun still => absurd (closeConn_fd _) still⟩, fun smooth _ _ _ => ?_⟩⟩
    · unfold WorkedOn
      rw [conn]
      exact received.trans worked
    · rw [(rests.silent r).1, (rests.silent r).2]
      exact (framed.greedy stable live trace (unparsed ▸ greedy parse behaves idle)).1
    obtain ⟨_, _, _, _, blame⟩ := greedy parse behaves idle
    exact closeConn_excused (whole.fd_eq ▸ live) (blame smooth err rfl)
  | @answered got _ _ inp last _ rx wantClose read parsed responded =>
    obtain ⟨received, _, left⟩ := receive_worked steady ready read
    obtain ⟨first, inside, _⟩ := receive_inside read
    obtain ⟨bytes, trace, input, unparsed, idle⟩ := left inp last rfl
    obtain ⟨worked, greedy⟩ := Rx.parseLoop_greedy _ _ _ _ input parsed
    obtain ⟨second, work, _⟩ := Rx.parseLoop_parsed _ _ _ _ parsed
    have whole := inside.trans (commit_inside work)
    have conn : (got.commit r rx).conns r = rx.conn := update_self _ _ _
    have rests := respond_rests responded
    have known : r < (got.commit r rx).nconns := whole.nconns_eq ▸ made
    refine ⟨finish known ?_ rests, fun parse behaves stable live framed => ?_⟩
    · unfold WorkedOn
      rw [conn]
      exact received.trans worked
    obtain ⟨early, all⟩ :=
      framed.greedy stable live trace (unparsed ▸ greedy parse behaves idle)
    have still : ((got.commit r rx).conns r).fd ≠ 0 := whole.fd_eq ▸ live
    refine ⟨(framed_local parse).rests ⟨early, fun _ => ?_⟩ rests known fun _ => still,
      fun _ _ _ _ => ?_⟩
    · rw [conn]
      exact all wantClose rfl
    obtain ⟨_, _, _, stays, _⟩ := greedy parse behaves idle
    rw [(stays wantClose rfl).1] at responded
    exact respond_excused still responded

/-- The same of a whole call of `processRead`. -/
theorem processRead_framed (steady : e.alloc.Steady) (made : r < l.nconns)
    (ready : ReadyFor e l r) {answers : List (List SysRead)}
    (done : l.processRead e r answers = some l') :
    WorkedOn e r l l' ∧
      ∀ parse, Behaves e r parse → PrefixStable parse → (l.conns r).fd ≠ 0 →
        Framed parse l r → Framed parse l' r ∧
          (Smooth e parse → (l.conns r).tls = none → 0 < l.recvbuf.len →
            (∀ round ∈ answers, ∀ a ∈ round, a.fine = true) → Excused l' r) := by
  -- All that is known after some rounds, each of which has asked for another one.
  refine processRead_rule (P := fun m => (∃ ext, Inside e l m r ext) ∧ WorkedOn e r l m ∧
      ∀ parse, Behaves e r parse → PrefixStable parse → (l.conns r).fd ≠ 0 →
        Framed parse l r → Framed parse m r)
    (Q := fun m => WorkedOn e r l m ∧
      ∀ parse, Behaves e r parse → PrefixStable parse → (l.conns r).fd ≠ 0 →
        Framed parse l r → Framed parse m r ∧
          (Smooth e parse → (l.conns r).tls = none → 0 < l.recvbuf.len →
            (∀ round ∈ answers, ∀ a ∈ round, a.fine = true) → Excused m r)) ?_ ?_ done
    ⟨⟨[], .refl e l r⟩, .refl ready.valid, fun _ _ _ _ framed => framed⟩
  · rintro m next _ _ _ - once ⟨⟨ext, inside⟩, worked, framed⟩
    have shared := inside.recvbuf_eq
    obtain ⟨more, later⟩ := readRound_framed steady (inside.nconns_eq ▸ made)
      (worked.readyFor steady shared ready) once
    unfold WorkedOn at more
    rw [shared] at more
    obtain ⟨_, _, further, ⟨stop, _⟩ | ⟨_, rfl, _⟩⟩ := readRound_cases once
    · cases stop
    refine ⟨⟨_, inside.trans further⟩, worked.trans more,
      fun parse behaves stable live before => ?_⟩
    exact (later parse behaves stable (inside.fd_eq ▸ live)
      (framed parse behaves stable live before)).1
  rintro m next _ _ round member once ⟨⟨ext, inside⟩, worked, framed⟩
  have shared := inside.recvbuf_eq
  obtain ⟨more, later⟩ := readRound_framed steady (inside.nconns_eq ▸ made)
    (worked.readyFor steady shared ready) once
  unfold WorkedOn at more
  rw [shared] at more later
  refine ⟨worked.trans more, fun parse behaves stable live before => ?_⟩
  obtain ⟨after, excused⟩ := later parse behaves stable (inside.fd_eq ▸ live)
    (framed parse behaves stable live before)
  refine ⟨after, fun smooth plain filled fine => excused smooth ?_ filled (fine round member)⟩
  have engine : (m.conns r).tls.map ATLSConn.ktls = (l.conns r).tls.map ATLSConn.ktls :=
    congrArg Identity.ktls inside.works.identity
  rw [plain, map_none] at engine
  exact map_eq_none_iff.mp engine

end LoopConn

end Connaxis
