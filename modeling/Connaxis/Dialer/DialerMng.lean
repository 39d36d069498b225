import Connaxis.Pool
import Mathlib.Data.Finset.Insert
import Mathlib.Data.Finset.Erase

namespace Connaxis.Dialer

def TYPE_CONN : Int := 0
def TYPE_CONN_OPENSSL : Int := 1
def TYPE_CONN_TLS : Int := 2

/-- The fields of `DialParam` that the dialer manager itself reads. -/
structure DialParam where
  Addr : Bytes
  Cert : Bytes
  Key : Bytes
  SslType : Int
deriving DecidableEq, Repr

/-- The key a status is kept under. -/
def DialParam.key (para : DialParam) : Bytes := para.Key ++ [95] ++ para.Addr

/-- `dial` knows plain and TLS connections only. -/
def DialParam.supported (para : DialParam) : Bool :=
  para.SslType = TYPE_CONN_TLS ∨ para.SslType = TYPE_CONN

structure DialerStatus where
  except : Int
  alive : Int
  co : Int
  para : DialParam
deriving DecidableEq, Repr

def int32 (n : Int) : Int := n.bmod (2 ^ 32)

theorem int32_int32 (n : Int) : int32 (int32 n) = int32 n := Int.bmod_bmod

theorem int32_add (n k : Int) : int32 (int32 n + k) = int32 (n + k) := Int.bmod_add_bmod

theorem int32_range (n : Int) : -2147483648 ≤ int32 n ∧ int32 n < 2147483648 :=
  ⟨Int.le_bmod (by decide), Int.bmod_lt (by decide)⟩

theorem int32_of_fits {n : Int} (low : -2147483648 ≤ n) (high : n < 2147483648) : int32 n = n :=
  Int.bmod_eq_of_le low high

/-- Whatever wraps around at the top gets smaller. -/
theorem int32_le {n : Int} (low : -2147483648 ≤ n) : int32 n ≤ n := by
  by_cases high : n < 2147483648
  · exact Int.le_of_eq (int32_of_fits low high)
  · have := (int32_range n).2
    omega

theorem int32_eq_iff {n k : Int} (low : -2147483648 ≤ k) :
    int32 n = k ↔ k < 2147483648 ∧ n % 4294967296 = k % 4294967296 := by
  constructor
  · rintro rfl
    exact ⟨(int32_range n).2, Int.bmod_emod.symm⟩
  rintro ⟨high, same⟩
  have both : int32 n = int32 k := by
    unfold int32 Int.bmod
    exact congrArg (fun r : Int => if r < (4294967296 + 1) / 2 then r else r - 4294967296) same
  rw [both, int32_of_fits low high]

/-- The shared data. `heap` holds every status that was ever made: a goroutine that has got
hold of one keeps it when it is deleted from the map. An entry of `dialers` has the id of
the connection and the key of its dialer. -/
structure DialerMng where
  online : Int
  dialers : List (UInt64 × Bytes)
  status : Bytes → Option Nat
  inactive : Finset Bytes
  heap : List DialerStatus

namespace DialerMng

def new : DialerMng := ⟨0, [], fun _ => none, ∅, []⟩

/-- An atomic operation on a status. -/
def atomic (m : DialerMng) (p : Nat) (f : DialerStatus → DialerStatus) : DialerMng :=
  { m with heap := m.heap.modify p f }

def addCo (m : DialerMng) (p : Nat) (n : Int) : DialerMng :=
  m.atomic p fun st => { st with co := int32 (st.co + n) }

def addAlive (m : DialerMng) (p : Nat) (n : Int) : DialerMng :=
  m.atomic p fun st => { st with alive := int32 (st.alive + n) }

def co (m : DialerMng) (p : Nat) : Int := ((m.heap[p]?).map DialerStatus.co).getD 0
def alive (m : DialerMng) (p : Nat) : Int := ((m.heap[p]?).map DialerStatus.alive).getD 0
def except (m : DialerMng) (p : Nat) : Int := ((m.heap[p]?).map DialerStatus.except).getD 0

def store (m : DialerMng) (cid : UInt64) (key : Bytes) : DialerMng :=
  { m with dialers := (cid, key) :: m.dialers.filter fun entry => entry.1 ≠ cid }

def delete (m : DialerMng) (cid : UInt64) : DialerMng :=
  { m with dialers := m.dialers.filter fun entry => entry.1 ≠ cid }

def holds (m : DialerMng) (cid : UInt64) : Bool := m.dialers.any fun entry => entry.1 = cid

/-- The number of dialers with a key. -/
def entries (m : DialerMng) (key : Bytes) : Nat := m.dialers.countP fun entry => entry.2 = key

/-- `updateDialer`. -/
def updateDialer (m : DialerMng) (add : Bool) (key : Bytes) : DialerMng :=
  if add then { m with inactive := m.inactive.erase key }
  else { m with inactive := insert key m.inactive }

/-- The part of `addDialer` under the lock: find the status or make it. Nothing else puts a
status into the map, so this is one step. -/
def findStatus (m : DialerMng) (para : DialParam) (max : Int) : DialerMng × Nat :=
  match m.status para.key with
  | some p => (m, p)
  | none =>
    ({ m with heap := m.heap ++ [⟨int32 max, 0, 0, para⟩],
              status := Function.update m.status para.key (some m.heap.length) },
      m.heap.length)

end DialerMng

/-- The ways out of a dial on which nothing takes the slot back. -/
inductive Exit
  /-- The loop's channel was full. -/
  | refused
  /-- A certificate, but no TLS: `attach` does nothing. -/
  | untried
  /-- The loop closed the connection before it opened it. -/
  | shut
  /-- `OnOpen` found no status. -/
  | orphaned
  /-- The TLS handshake failed, and there was no status. -/
  | unknown
  /-- `co` had wrapped around, and was set to zero. -/
  | wrapped
deriving DecidableEq, Repr

/-- Where a call of `addDialer` stands, and then the connection it has made. `p` is the
status the call has got hold of, `q` the one that a callback has found. -/
inductive Pc
  | start
  | enter
  | add (p : Nat)
  | reset (p : Nat)
  | check (p : Nat) (co : Int)
  | undo (p : Nat)
  | bootup (p : Nat)
  | handshake (p : Nat)
  | failed (p : Nat)
  | failedUndo (p q : Nat)
  | client (p : Nat)
  | queued (p : Nat)
  | onOpen (p : Nat)
  | openOnline (p q : Nat)
  | openAlive (p q : Nat)
  | openStore (p q : Nat)
  | openCo (p q : Nat)
  | opened (p q : Nat)
  | ended
  | kept (p : Nat) (exit : Exit)
deriving DecidableEq, Repr

structure Dial where
  para : DialParam
  max : Int
  cid : Option UInt64
  pc : Pc
deriving DecidableEq, Repr

/-- What the world answers where a call depends on it. -/
inductive Answer
  | go
  | dialed (ok : Bool)
  | shaken (ok : Bool)
  /-- The id of the new connection, and whether the loop took it. -/
  | client (cid : UInt64) (taken : Bool)
  /-- Whether `attachClient` came as far as `Open`. -/
  | attached (ok : Bool)
deriving DecidableEq, Repr

/-- The next atomic step of a call. `none`: the answer does not fit. -/
def Dial.next (d : Dial) (m : DialerMng) : Answer → Option (DialerMng × Dial)
  | .go =>
    match d.pc with
    | .start => some (m, { d with pc := if d.para.key ∈ m.inactive then .ended else .enter })
    | .enter =>
      let (m, p) := m.findStatus d.para d.max
      some (m, { d with pc := .add p })
    | .add p =>
      let m := m.addCo p 1
      some (m, { d with pc := if m.co p ≤ 0 then .reset p else .check p (m.co p) })
    | .reset p =>
      some (m.atomic p fun st => { st with co := 0 }, { d with pc := .kept p .wrapped })
    | .check p co =>
      if m.alive p ≥ m.except p then some (m, { d with pc := .undo p })
      else if co > int32 d.max then some (m, { d with pc := .undo p })
      else some (m, { d with pc := .bootup p })
    | .undo p => some (m.addCo p (-1), { d with pc := .ended })
    | .failed p =>
      match m.status d.para.key with
      | some q => some (m, { d with pc := .failedUndo p q })
      | none => some (m, { d with pc := .kept p .unknown })
    | .failedUndo _ q => some (m.addCo q (-1), { d with pc := .ended })
    | .onOpen p =>
      match m.status d.para.key with
      | some q => some (m, { d with pc := .openOnline p q })
      | none => some (m, { d with pc := .kept p .orphaned })
    | .openOnline p q =>
      some ({ m with online := int32 (m.online + 1) }, { d with pc := .openAlive p q })
    | .openAlive p q => some (m.addAlive q 1, { d with pc := .openStore p q })
    | .openStore p q =>
      match d.cid with
      | none => none
      | some cid => some (m.store cid d.para.key, { d with pc := .openCo p q })
    | .openCo p q => some (m.addCo q (-1), { d with pc := .opened p q })
    | _ => none
  | .dialed ok =>
    match d.pc with
    | .bootup p =>
      if ok then
        if d.para.supported then
          if d.para.Cert = [] then some (m, { d with pc := .client p })
          else if d.para.SslType = TYPE_CONN_TLS then some (m, { d with pc := .handshake p })
          else some (m, { d with pc := .kept p .untried })
        else none
      else some (m, { d with pc := .undo p })
    | _ => none
  | .shaken ok =>
    match d.pc with
    | .handshake p => some (m, { d with pc := if ok then .client p else .failed p })
    | _ => none
  | .client cid taken =>
    match d.pc with
    | .client p =>
      some (m, { d with cid := some cid, pc := if taken then .queued p else .kept p .refused })
    | _ => none
  | .attached ok =>
    match d.pc with
    | .queued p => some (m, { d with pc := if ok then .onOpen p else .kept p .shut })
    | _ => none

/-- Where a call of `OnClose` stands. The status whose `alive` it has lowered, if any, is
remembered at the end. -/
inductive ClosePc
  | online
  | file
  | load
  | alive (q : Nat)
  | delete (q : Option Nat)
  | done (q : Option Nat)
deriving DecidableEq, Repr

structure Closer where
  dial : Nat
  key : Bytes
  cid : UInt64
  pc : ClosePc
deriving DecidableEq, Repr

def Closer.next (c : Closer) (m : DialerMng) : Option (DialerMng × Closer) :=
  match c.pc with
  | .online => some ({ m with online := int32 (m.online - 1) }, { c with pc := .file })
  | .file => some (m, { c with pc := .load })
  | .load =>
    match m.status c.key with
    | some q => some (m, { c with pc := .alive q })
    | none => some (m, { c with pc := .delete none })
  | .alive q => some (m.addAlive q (-1), { c with pc := .delete (some q) })
  | .delete q => some (m.delete c.cid, { c with pc := .done q })
  | .done _ => none

/-- Where the goroutine of `KeepAlive` stands. -/
inductive KeepAlive
  | idle
  | deleting (key : Bytes)
  | visiting (p : Nat)
  | spawning (para : DialParam) (cur max : Int)
deriving DecidableEq, Repr

/-- The manager and everything that runs on it. -/
structure DialSys where
  mng : DialerMng
  dials : List Dial
  closers : List Closer
  keeper : KeepAlive

inductive DialSys.Label
  | addDialer (para : DialParam) (max : Int)
  | dial (i : Nat) (answer : Answer)
  /-- A call of `OnClose`: it returns at once if the dialer is not there. -/
  | onClose (i : Nat)
  | close (j : Nat)
  | updateDialer (add : Bool) (key : Bytes)
  /-- A pass of `KeepAlive` comes to a key. -/
  | tick (key : Bytes)
  | keep
deriving DecidableEq, Repr

namespace DialSys

def boot : DialSys := ⟨.new, [], [], .idle⟩

def start (s : DialSys) (para : DialParam) (max : Int) : DialSys :=
  { s with dials := s.dials ++ [⟨para, max, none, .start⟩] }

def step (s : DialSys) : Label → Option DialSys
  | .addDialer para max => some (s.start para max)
  | .dial i answer =>
    match s.dials[i]? with
    | none => none
    | some d =>
      match d.next s.mng answer with
      | none => none
      | some (mng, d) => some { s with mng := mng, dials := s.dials.set i d }
  | .onClose i =>
    match s.dials[i]? with
    | some ⟨para, _, some cid, _⟩ =>
      if s.mng.holds cid then
        some { s with closers := s.closers ++ [⟨i, para.key, cid, .online⟩] }
      else some s
    | _ => none
  | .close j =>
    match s.closers[j]? with
    | none => none
    | some c =>
      match c.next s.mng with
      | none => none
      | some (mng, c) => some { s with mng := mng, closers := s.closers.set j c }
  | .updateDialer add key => some { s with mng := s.mng.updateDialer add key }
  | .tick key =>
    match s.keeper, s.mng.status key with
    | .idle, some p =>
      some { s with keeper := if key ∈ s.mng.inactive then .deleting key else .visiting p }
    | _, _ => none
  | .keep =>
    match s.keeper with
    | .idle => none
    | .deleting key =>
      some { s with mng := { s.mng with status := Function.update s.mng.status key none },
                    keeper := .idle }
    | .visiting p =>
      match s.mng.heap[p]? with
      | none => none
      | some st => some { s with keeper := .spawning st.para st.alive st.except }
    | .spawning para cur max =>
      if cur < max then
        some { s.start para max with keeper := .spawning para (cur + 1) max }
      else some { s with keeper := .idle }

end DialSys

end Connaxis.Dialer
