import Mathlib.Data.Prod.Lex
import Mathlib.Order.Filter.AtTopBot.Basic
import Connaxis.LoopFrame
import Connaxis.Machine
import Connaxis.PromptConn
import Connaxis.TlsSend

namespace Connaxis

open Memory Filter List WriteQueue Option

variable {A : Allocator UInt8} {most : Nat} (serves : A.Serves most)

namespace TlsBufferConn

variable {b b' : TlsBufferConn}

include serves in
theorem write_granted (valid : RingBuffer.Ok b.heap b.cout) {p : Bytes}
    (within : b.cipher.length + p.length ≤ most) : (b.write A p).2.2 = none := by
  unfold write
  split
  · rfl
  rename_i filled
  have has : b.cipher.length = b.cout.has := RingBuffer.content_length _ _
  have taken := RingBuffer.write_granted (valid.lent p).1 (p := (b.heap.lend p).2)
    (Nat.pos_of_ne_zero filled) (serves.mono (has ▸ within))
  dsimp only at taken ⊢
  rw [if_neg (Int.not_lt.mpr taken)]

end TlsBufferConn

namespace Bio

variable {α π : Type}

/-- A call that puts something on its transport if it takes what it is given. -/
inductive Emits : Bio α → Prop
  | here (record : Bytes) (next : Nat × Option Err → Bio α) (filled : record ≠ []) :
      Emits (.write record next)
  | later (record : Bytes) (next : Nat × Option Err → Bio α)
      (emits : Emits (next (record.length, none))) : Emits (.write record next)

/-- A call that puts at most `n` bytes on its transport if it takes what it is given. -/
inductive Within : Nat → Bio α → Prop
  | done (n : Nat) (result : α) : Within n (.done result)
  | write (n : Nat) (record : Bytes) (next : Nat × Option Err → Bio α)
      (rest : Within n (next (record.length, none))) :
      Within (record.length + n) (.write record next)

variable {bio : Bio (π × Nat × Option Err)}

include serves in
/-- A call that encrypts leaves ciphertext, if the pool has buffers as large as that takes. -/
theorem serve_sends {n size : Nat} (sends : bio.Sends n) (fits : bio.Within size)
    (b : TlsBufferConn) (valid : RingBuffer.Ok b.heap b.cout)
    (enough : b.cipher.length + size ≤ most) :
    ∃ b' p, b.serve A bio = (b', p, n, none) ∧ RingBuffer.Ok b'.heap b'.cout ∧
      b.cipher.length ≤ b'.cipher.length ∧ (bio.Emits → b.cipher.length < b'.cipher.length) := by
  induction sends generalizing b size with
  | done p => exact ⟨b, p, rfl, valid, Nat.le_refl _, fun emits => by cases emits⟩
  | write record next taken refused ih =>
    cases fits with
    | write size _ _ rest =>
    rw [TlsBufferConn.serve]
    have granted := TlsBufferConn.write_granted serves valid (p := record) (by omega)
    rcases wrote : b.write A record with ⟨b₁, k, err⟩
    rw [wrote] at granted
    cases granted
    rcases TlsBufferConn.write_cipher valid record wrote with
      ⟨-, rfl, ok, grown⟩ | ⟨failure, never⟩
    · have length : b₁.cipher.length = b.cipher.length + record.length := by
        rw [grown, length_append]
      obtain ⟨b', p, done, ok', more, emits⟩ := ih rest b₁ ok (by omega)
      refine ⟨b', p, done, ok', by omega, fun writes => ?_⟩
      cases writes with
      | here _ _ filled =>
        have positive := length_pos_iff.mpr filled
        omega
      | later _ _ rest =>
        have further := emits rest
        omega
    · cases never

end Bio

/-- `Write` encrypts all it is given, a record is never empty, and what a chunk is encrypted to
has at most `most` bytes. -/
structure TlsLib.Records {π : Type} (lib : TlsLib π) (most : Nat) : Prop where
  encrypts : lib.Encrypts
  emits : ∀ p src, src ≠ [] → (lib.write p src).Emits
  fits : ∀ p src, src.length ≤ tlsWriteChunkSize → (lib.write p src).Within most

theorem WriteQueue.Ok.peek_nil {wq : WriteQueue} (valid : wq.Ok) (void : wq.peek.length = 0) :
    wq.content = [] := by
  unfold peek at void
  split at void
  · rename_i empty
    exact eq_nil_of_length_eq_zero (valid.bytes_eq ▸ empty)
  rcases valid.tight with nothing | inside
  · rw [content, nothing, drop_nil]
    rfl
  rw [getElem?_eq_getElem inside] at void
  dsimp only at void
  have ok := front_ok valid inside
  rw [if_neg (Nat.not_le.mpr ok.1), WriteEntry.live_length _ ok] at void
  have less := ok.1
  omega

section Rounds

variable {π : Type} {lib : TlsLib π} {x y : FlushState π}

/-- The flush loop's state is in order and the kernel takes every byte. -/
structure FlushState.Open (x : FlushState π) : Prop where
  ring : RingBuffer.Ok x.b.heap x.b.cout
  queue : x.wq.Ok
  full : ∀ n, x.s.answers n = .full

/-- What has to be sent: bytes to encrypt first, then ciphertext. -/
def FlushState.load (x : FlushState π) : Nat ×ₗ Nat :=
  toLex (x.wq.content.length, x.b.cipher.length)

/-- What a round does under such a kernel. -/
inductive Advanced (limit : Bool) (x : FlushState π) :
    Except (FlushState π × Option Err) (FlushState π) → Prop
  | spent (out : limit = true ∧ x.remaining ≤ 0) : Advanced limit x (.error (x, none))
  | idle (sent : x.b.cipher = []) (done : x.wq.content = []) :
      Advanced limit x (.error (x, none))
  | sent (y : FlushState π) (isOpen : y.Open) (less : y.load < x.load)
      (more : x.flushed < y.flushed) : Advanced limit x (.ok y)
  | encrypted (y : FlushState π) (isOpen : y.Open) (less : y.load < x.load)
      (filled : y.b.cipher ≠ []) (budget : y.remaining = x.remaining)
      (same : y.flushed = x.flushed) : Advanced limit x (.ok y)

variable (records : lib.Records most)
include serves records

theorem flushRound_advances (limit : Bool) (isOpen : x.Open) :
    Advanced limit x (ATLSConn.flushRound A lib limit x) := by
  unfold ATLSConn.flushRound
  split
  · rename_i spent
    exact .spent spent
  rename_i budget
  have room (flag : limit = true) : 0 < x.remaining := by
    have left : ¬ x.remaining ≤ 0 := fun low => budget ⟨flag, low⟩
    omega
  split
  · rename_i waits
    obtain ⟨k, front, -, present⟩ := cipherVecs_front isOpen.ring limit x.remaining
    have length : x.b.cipher.length = x.b.cout.has := RingBuffer.content_length _ _
    have offered : 0 < (ATLSConn.cipherVecs x.b limit x.remaining).flatten.length := by
      rw [front, length_take]
      have positive := present room waits
      omega
    have held : (ATLSConn.cipherVecs x.b limit x.remaining).flatten.length ≤ x.b.cout.has := by
      rw [front, length_take]
      omega
    obtain ⟨ok, rest⟩ := RingBuffer.forward_queue isOpen.ring held
    have vecs : ¬ (ATLSConn.cipherVecs x.b limit x.remaining).length = 0 := by
      intro void
      rw [eq_nil_of_length_eq_zero void] at offered
      cases offered
    rw [Socket.writev, if_neg vecs, Socket.write, isOpen.full]
    generalize (ATLSConn.cipherVecs x.b limit x.remaining).flatten = sent at offered held ok rest
    simp only [reduceCtorEq, false_and, if_false]
    rw [if_pos (by omega), Int.toNat_natCast]
    refine .sent _ ⟨ok, isOpen.queue, isOpen.full⟩ ?_ ?_
    · refine Prod.Lex.toLex_lt_toLex.mpr (.inr ⟨rfl, ?_⟩)
      change (RingBuffer.content x.b.heap (x.b.cout.forward sent.length .opRead).1).length < _
      rw [rest, length_drop]
      change x.b.cipher.length - sent.length < x.b.cipher.length
      omega
    dsimp only
    omega
  rename_i drained
  have sent : x.b.cipher = [] := RingBuffer.content_nil _ _ (Nat.eq_zero_of_not_pos drained)
  split
  · rename_i void
    exact .idle sent (isOpen.queue.peek_nil void)
  have limited : 0 < x.chunkLimit limit := by
    unfold FlushState.chunkLimit
    split
    · rename_i both
      exact room both.1
    · decide
  have small : x.chunkLimit limit ≤ tlsWriteChunkSize := by
    unfold FlushState.chunkLimit
    split <;> omega
  generalize x.chunkLimit limit = chunkLimit at limited small
  rw [if_neg (Int.not_le.mpr limited)]
  have positive : 0 < (x.wq.peek.take chunkLimit.toNat).length := by
    rw [length_take]
    omega
  have short : (x.wq.peek.take chunkLimit.toNat).length ≤ tlsWriteChunkSize := by
    rw [length_take]
    omega
  have inside : (x.wq.peek.take chunkLimit.toNat).length ≤ x.wq.content.length := by
    rw [x.wq.chunk_front chunkLimit.toNat, length_append]
    omega
  generalize x.wq.peek.take chunkLimit.toNat = chunk at positive inside short
  obtain ⟨ok, left⟩ := x.wq.consume_ok chunk.length isOpen.queue
  -- the ring is empty by now, so it asks for the records of this chunk only
  obtain ⟨b, p, done, ring, -, emits⟩ := Bio.serve_sends serves (records.encrypts x.p chunk)
    (records.fits x.p chunk short) x.b isOpen.ring (by rw [sent, length_nil, Nat.zero_add])
  rw [done]
  dsimp only
  rw [if_pos positive]
  have filled := emits (records.emits x.p chunk (length_pos_iff.mp positive))
  refine .encrypted _ ⟨ring, ok, isOpen.full⟩ ?_ ?_ rfl rfl
  · refine Prod.Lex.toLex_lt_toLex.mpr (.inl ?_)
    rw [left, length_drop, Int.toNat_natCast]
    omega
  · exact length_pos_iff.mp (Nat.lt_of_le_of_lt (Nat.zero_le _) filled)

/-- The load is smaller unless there was nothing to do or no room to do it. -/
structure Flushed (limit : Bool) (x y : FlushState π) : Prop where
  isOpen : y.Open
  load : y = x ∨ y.load < x.load
  flushed : x.flushed ≤ y.flushed
  progress : (limit = true → 0 < x.remaining) → x.b.cipher ≠ [] ∨ x.wq.content ≠ [] →
    x.flushed < y.flushed

theorem flushLoop_advances (limit : Bool) (isOpen : x.Open) :
    ∃ y, Flushed limit x y ∧ ∀ᶠ rounds in atTop,
      ATLSConn.flushLoop A lib limit rounds x = some (y, none) := by
  generalize loaded : x.load = load
  induction load using WellFoundedLT.induction generalizing x with
  | _ load ih =>
    subst loaded
    have one := flushRound_advances serves records limit isOpen
    have unfolded (rounds : Nat) := ATLSConn.flushLoop.eq_2 A lib limit x rounds
    generalize ATLSConn.flushRound A lib limit x = round at one unfolded
    -- A call that ends with this round.
    have ends {y : FlushState π} (stop : round = .error (y, none)) :
        ∀ᶠ rounds in atTop, ATLSConn.flushLoop A lib limit rounds x = some (y, none) := by
      refine eventually_atTop.mpr ⟨1, fun rounds enough => ?_⟩
      obtain ⟨rest, rfl⟩ := Nat.exists_eq_add_of_le' enough
      rw [unfolded, stop]
    -- A call that goes on from `next`.
    have goes {next y : FlushState π} (step : round = .ok next)
        (later : ∀ᶠ rounds in atTop,
          ATLSConn.flushLoop A lib limit rounds next = some (y, none)) :
        ∀ᶠ rounds in atTop, ATLSConn.flushLoop A lib limit rounds x = some (y, none) := by
      obtain ⟨k, all⟩ := eventually_atTop.mp later
      refine eventually_atTop.mpr ⟨k + 1, fun rounds enough => ?_⟩
      obtain ⟨rest, rfl⟩ := Nat.exists_eq_add_of_le' (Nat.le_trans (Nat.le_add_left 1 k) enough)
      rw [unfolded, step]
      exact all rest (by omega)
    -- What the rest of the call does, seen from here.
    have onward {next y : FlushState π} (less : next.load < x.load)
        (more : x.flushed ≤ next.flushed) (rest : Flushed limit next y)
        (progress : (limit = true → 0 < x.remaining) → x.flushed < y.flushed) :
        Flushed limit x y := by
      refine ⟨rest.isOpen, .inr ?_, more.trans rest.flushed, fun room _ => progress room⟩
      rcases rest.load with rfl | further
      · exact less
      · exact further.trans less
    cases one with
    | spent out =>
      refine ⟨x, ⟨isOpen, .inl rfl, Int.le_refl _, fun room _ => ?_⟩, ends rfl⟩
      have positive := room out.1
      have spent := out.2
      omega
    | idle sent done =>
      refine ⟨x, ⟨isOpen, .inl rfl, Int.le_refl _, fun _ waits => ?_⟩, ends rfl⟩
      rcases waits with cipher | plain
      · exact absurd sent cipher
      · exact absurd done plain
    | sent next nextOpen less more =>
      obtain ⟨y, rest, later⟩ := ih next.load less nextOpen rfl
      refine ⟨y, ?_, goes rfl later⟩
      exact onward less (Int.le_of_lt more) rest fun _ => Int.lt_of_lt_of_le more rest.flushed
    | encrypted next nextOpen less filled budget same =>
      obtain ⟨y, rest, later⟩ := ih next.load less nextOpen rfl
      refine ⟨y, ?_, goes rfl later⟩
      refine onward less (Int.le_of_eq same.symm) rest fun room => ?_
      rw [← same]
      exact rest.progress (fun flag => by rw [budget]; exact room flag) (.inl filled)

end Rounds

/-- The pool has buffers for whatever the library encrypts a chunk to. -/
def ConnEnv.Supplied {π : Type} (e : ConnEnv π) : Prop :=
  ∃ most, e.tls.Records most ∧ e.alloc.Serves most

/-- The ciphertext that waits to be sent. -/
def ATLSConn.waiting {π : Type} (a : ATLSConn π) : Nat :=
  match a.buf with
  | some b => b.cout.has
  | none => 0

namespace EngineConn

variable {π : Type} {e : ConnEnv π} {c c' : EngineConn π} {a : ATLSConn π}

/-- An open TLS connection as the code leaves it: its queue and its ring are in order, and in
userspace mode both the `tls.Conn` and its transport are there. -/
structure Built (c : EngineConn π) (a : ATLSConn π) : Prop where
  tls : c.tls = some a
  live : c.fd ≠ 0
  queue : c.wq.Ok
  ring : ∀ b, a.buf = some b → RingBuffer.Ok b.heap b.cout
  user : a.ktls = false → a.tls.isSome = true ∧ a.buf.isSome = true

/-- The kernel takes every byte, and no ciphertext waits on a connection whose records the
kernel seals. -/
structure Flowing (c : EngineConn π) (a : ATLSConn π) : Prop extends Built c a where
  full : ∀ n, c.sock.answers n = .full
  clean : a.ktls = true → a.waiting = 0

def load (c : EngineConn π) (a : ATLSConn π) : Nat ×ₗ Nat :=
  toLex (c.wq.content.length, a.waiting)

theorem Built.pending (built : Built c a) :
    c.pendingWrite = c.wq.content.length + a.waiting := by
  rw [pendingWrite, built.tls]
  change c.wq.pending + a.waiting = _
  rw [built.queue.pending_eq]

/-- A `FlushN` without an error: some bytes were sent, or there were none. -/
def Sent (c : EngineConn π) (a : ATLSConn π) (c' : EngineConn π) (n : Int) : Prop :=
  ∃ a', Flowing c' a' ∧
    (0 < n ∧ c'.load a' < c.load a ∨ n = 0 ∧ c.pendingWrite = 0 ∧ c'.load a' = c.load a)

theorem flushN_kernel (flowing : Flowing c a) (kernel : a.ktls = true) (maxBytes : Int) :
    ∃ c' n, Sent c a c' n ∧ ∀ rounds,
      c.flushN { e with rounds := rounds } maxBytes = some (c', n, none) := by
  rcases once : flushWriteQueue c.fd c.sock c.wq maxBytes with ⟨s, wq, n, err⟩
  obtain ⟨ok, -, shrinks⟩ := flushWriteQueue_stream c.fd c.sock c.wq maxBytes flowing.queue once
  obtain ⟨fine, sent⟩ := flushWriteQueue_full flowing.live flowing.queue flowing.full once
  have kept : (flushWriteQueue c.fd c.sock c.wq maxBytes).1.answers = c.sock.answers :=
    (answers_flushes _).writeQueue rfl c.fd maxBytes
  rw [once] at kept
  subst fine
  refine ⟨{ c with tls := some a, sock := s, wq := wq }, n, ⟨a, ?_, ?_⟩, fun rounds => ?_⟩
  · exact ⟨⟨rfl, flowing.live, ok, flowing.ring, flowing.user⟩, fun n => kept ▸ flowing.full n,
      flowing.clean⟩
  · rcases sent with filled | ⟨void, rfl, empty⟩
    · refine .inl ⟨filled, Prod.Lex.toLex_lt_toLex.mpr (.inl ?_)⟩
      have less := shrinks filled
      rw [ok.bytes_eq, flowing.queue.bytes_eq] at less
      exact less
    refine .inr ⟨void, ?_, rfl⟩
    rw [flowing.pending, flowing.clean kernel, ← flowing.queue.bytes_eq, empty]
  rw [flushN, flowing.tls]
  dsimp only
  rw [ATLSConn.flushN, if_neg flowing.live, if_pos kernel, once]

theorem flushN_user (supplied : e.Supplied) (flowing : Flowing c a) (user : a.ktls = false)
    (maxBytes : Int) :
    ∃ c' n, Sent c a c' n ∧ ∀ᶠ rounds in atTop,
      c.flushN { e with rounds := rounds } maxBytes = some (c', n, none) := by
  obtain ⟨most, records, serves⟩ := supplied
  obtain ⟨hasTls, hasBuf⟩ := flowing.user user
  obtain ⟨p, conn⟩ := isSome_iff_exists.mp hasTls
  obtain ⟨b, buf⟩ := isSome_iff_exists.mp hasBuf
  have ring := flowing.ring b buf
  have waiting : a.waiting = b.cipher.length := by
    rw [ATLSConn.waiting, buf]
    exact (RingBuffer.content_length _ _).symm
  obtain ⟨y, flushed, looped⟩ := flushLoop_advances serves records
    (x := ⟨p, b, c.sock, c.wq, maxBytes, 0⟩) (maxBytes > 0)
    ⟨ring, flowing.queue, flowing.full⟩
  refine ⟨{ c with tls := some { a with tls := some y.p, buf := some y.b }, sock := y.s,
                   wq := y.wq }, y.flushed, ?_, ?_⟩
  · have isOpen := flushed.isOpen
    have loaded : EngineConn.load { c with
        tls := some { a with tls := some y.p, buf := some y.b }, sock := y.s, wq := y.wq }
        { a with tls := some y.p, buf := some y.b } = y.load := by
      change toLex (_, y.b.cout.has) = toLex (_, y.b.cipher.length)
      rw [TlsBufferConn.cipher, RingBuffer.content_length]
    have before : c.load a = FlushState.load ⟨p, b, c.sock, c.wq, maxBytes, 0⟩ := by
      rw [load, waiting]
      rfl
    refine ⟨{ a with tls := some y.p, buf := some y.b }, ⟨⟨rfl, flowing.live, isOpen.queue,
      fun b' found => ?_, fun _ => ⟨rfl, rfl⟩⟩, isOpen.full, fun kernel => ?_⟩, ?_⟩
    · cases found
      exact isOpen.ring
    · rw [user] at kernel
      cases kernel
    rw [loaded, before]
    have pending := flowing.pending
    by_cases idle : c.pendingWrite = 0
    · refine .inr ?_
      rcases flushed.load with rfl | less
      · exact ⟨rfl, idle, rfl⟩
      rcases Prod.Lex.toLex_lt_toLex.mp less with plain | ⟨-, cipher⟩
      · dsimp only at plain
        omega
      dsimp only at cipher
      omega
    have waits : b.cipher ≠ [] ∨ c.wq.content ≠ [] := by
      by_cases sent : b.cipher = []
      · refine .inr fun void => idle ?_
        rw [pending, void, waiting, sent]
        rfl
      · exact .inl sent
    have more := flushed.progress (fun flag => of_decide_eq_true flag) waits
    refine .inl ⟨more, ?_⟩
    rcases flushed.load with rfl | less
    · exact absurd more (Int.lt_irrefl _)
    · exact less
  refine looped.mono fun rounds done => ?_
  rw [flushN, flowing.tls]
  dsimp only
  rw [ATLSConn.flushN, if_neg flowing.live, user, buf, conn]
  simp only [Bool.false_eq_true, if_false]
  rw [done]

theorem flushN_sent (supplied : e.Supplied) (flowing : Flowing c a) (maxBytes : Int) :
    ∃ c' n, Sent c a c' n ∧ ∀ᶠ rounds in atTop,
      c.flushN { e with rounds := rounds } maxBytes = some (c', n, none) := by
  cases kernel : a.ktls with
  | true =>
    obtain ⟨c', n, sent, done⟩ := flushN_kernel (e := e) flowing kernel maxBytes
    exact ⟨c', n, sent, Eventually.of_forall done⟩
  | false => exact flushN_user supplied flowing kernel maxBytes

/-- `FlushN` called up to `k` times, until it returns an error. -/
def flushAll (e : ConnEnv π) (maxBytes : Int) :
    Nat → EngineConn π → Option (EngineConn π × Option Err)
  | 0, c => some (c, none)
  | k + 1, c =>
    match c.flushN e maxBytes with
    | none => none
    | some (c, _, some err) => some (c, some err)
    | some (c, _, none) => flushAll e maxBytes k c

/-- Repeated calls leave nothing. -/
theorem flushAll_drains (supplied : e.Supplied) (flowing : Flowing c a) (maxBytes : Int) :
    ∃ k c', c'.pendingWrite = 0 ∧ ∀ᶠ rounds in atTop,
      flushAll { e with rounds := rounds } maxBytes k c = some (c', none) := by
  generalize loaded : c.load a = load
  induction load using WellFoundedLT.induction generalizing c a with
  | _ load ih =>
    subst loaded
    obtain ⟨c', n, ⟨a', flows, ⟨-, less⟩ | ⟨-, idle, -⟩⟩, once⟩ :=
      flushN_sent supplied flowing maxBytes
    · obtain ⟨k, final, drained, later⟩ := ih _ less flows rfl
      refine ⟨k + 1, final, drained, (once.and later).mono fun rounds both => ?_⟩
      rw [flushAll, both.1]
      exact both.2
    · exact ⟨0, c, idle, Eventually.of_forall fun _ => rfl⟩

/-- What a drain leaves: a connection with a smaller load, or one with nothing to send. -/
def Drained (c : EngineConn π) (a : ATLSConn π) (c' : EngineConn π) : Prop :=
  ∃ a', Flowing c' a' ∧ (c'.load a' < c.load a ∨ c'.pendingWrite = 0)

theorem Built.pending_congr {a' : ATLSConn π} (built : Built c a) (built' : Built c' a')
    (same : c'.load a' = c.load a) : c'.pendingWrite = c.pendingWrite := by
  obtain ⟨plain, cipher⟩ := Prod.mk.inj (toLex_inj.mp same)
  rw [built.pending, built'.pending, plain, cipher]

theorem drainLoop_drains (supplied : e.Supplied) (flowing : Flowing c a) (plan total : Int) :
    ∃ c' sum k, Drained c a c' ∧ ∀ᶠ rounds in atTop, ∀ fuel, k ≤ fuel →
      drainLoop { e with rounds := rounds } plan fuel c total = some (c', sum, none) := by
  generalize loaded : c.load a = load
  induction load using WellFoundedLT.induction generalizing c a total with
  | _ load ih =>
    subst loaded
    obtain ⟨c₁, n, ⟨a₁, flows, step⟩, once⟩ := flushN_sent supplied flowing plan
    have smaller : c₁.load a₁ < c.load a ∨ c₁.pendingWrite = 0 := by
      rcases step with ⟨-, less⟩ | ⟨-, idle, same⟩
      · exact .inl less
      · exact .inr ((flowing.pending_congr flows.toBuilt same).trans idle)
    by_cases stop : n ≤ 0 ∨ ((if n > 0 then total + n else total) ≥ plan ∧ plan > 0)
    · refine ⟨c₁, (if n > 0 then total + n else total), 1, ⟨a₁, flows, smaller⟩,
        once.mono fun rounds done fuel enough => ?_⟩
      obtain ⟨rest, rfl⟩ := Nat.exists_eq_add_of_le' enough
      rw [drainLoop, done]
      dsimp only
      rw [if_pos stop]
    rcases step with ⟨-, less⟩ | ⟨void, -, -⟩
    · obtain ⟨c', sum, k, ⟨a', flows', ends⟩, later⟩ :=
        ih _ less flows (if n > 0 then total + n else total) rfl
      refine ⟨c', sum, k + 1, ⟨a', flows', ends.imp_left fun further => further.trans less⟩,
        (once.and later).mono fun rounds both fuel enough => ?_⟩
      obtain ⟨rest, rfl⟩ := Nat.exists_eq_add_of_le' (Nat.le_trans (Nat.le_add_left 1 k) enough)
      rw [drainLoop, both.1]
      dsimp only
      rw [if_neg stop]
      exact both.2 rest (by omega)
    · exact absurd (.inl (by omega)) stop

theorem drainWrite_drains (supplied : e.Supplied) (flowing : Flowing c a) :
    ∃ c' sum, Drained c a c' ∧ ∀ᶠ rounds in atTop,
      c.drainWrite { e with rounds := rounds } = some (c', sum, none) := by
  by_cases idle : c.pendingWrite = 0
  · refine ⟨c, 0, ⟨a, flowing, .inr idle⟩, Eventually.of_forall fun rounds => ?_⟩
    rw [drainWrite, if_pos idle]
  obtain ⟨c', sum, k, drained, looped⟩ :=
    drainLoop_drains supplied flowing e.tuning.maxFlushBytesPerEvent 0
  refine ⟨c', sum, drained, (looped.and (eventually_ge_atTop k)).mono fun rounds both => ?_⟩
  rw [drainWrite, if_neg idle]
  exact both.1 _ (by have := both.2; dsimp only; omega)

end EngineConn

namespace LoopConn

variable {σ π : Type} {e : Env σ π} {l : LoopConn σ π} {r : Ref} {a : ATLSConn π}

/-- The loop's work for a connection is over: it is closed, or nothing waits, its descriptor
is not armed for writing and it is not marked to be closed. -/
def Settled (l : LoopConn σ π) (r : Ref) : Prop :=
  (l.conns r).fd = 0 ∨ (l.conns r).pendingWrite = 0 ∧ (l.conns r).fd ∉ l.writeFds ∧
    (l.conns r).fd ∉ l.closeOnDrain

/-- One write event: the connection is settled, or its load is smaller. -/
theorem processSend_settles (supplied : e.toConnEnv.Supplied) (flowing : (l.conns r).Flowing a) :
    ∃ l', (Settled l' r ∨ ∃ a', (l'.conns r).Flowing a' ∧
        (l'.conns r).load a' < (l.conns r).load a) ∧
      ∀ᶠ rounds in atTop, l.processSend { e with rounds := rounds } r = some l' := by
  obtain ⟨c, sum, ⟨a', flows, ends⟩, done⟩ := EngineConn.drainWrite_drains supplied flowing
  have self : (l.setConn r c).conns r = c := setConn_self c
  by_cases due : c.pendingWrite = 0 ∧ c.fd ∈ l.closeOnDrain
  · refine ⟨(l.setConn r c).closeConn e r (some .CLOSE_BY_USER_LAND), .inl (.inl ?_),
      done.mono fun rounds drains => ?_⟩
    · exact closeConn_fd _
    rw [processSend, drains]
    exact if_pos due
  refine ⟨(l.setConn r c).updateWriteFd r, ?_, done.mono fun rounds drains => ?_⟩
  · have conn : ((l.setConn r c).updateWriteFd r).conns r = c := by
      rw [updateWriteFd_books]
      exact self
    rcases ends with less | idle
    · refine .inr ⟨a', ?_, ?_⟩
      · rw [conn]
        exact flows
      rw [conn]
      exact less
    refine .inl (.inr ⟨?_, ?_, ?_⟩)
    · rw [conn]
      exact idle
    · have live : ((l.setConn r c).conns r).fd ≠ 0 := by
        rw [self]
        exact flows.live
      rw [conn, updateWriteFd_armed _ live, self, if_pos rfl, idle]
      exact Nat.lt_irrefl 0
    rw [conn, updateWriteFd_books]
    exact fun marked => due ⟨idle, marked⟩
  rw [processSend, drains]
  exact if_neg due

/-- `k` write events in a row. -/
def sends (e : Env σ π) (r : Ref) : Nat → LoopConn σ π → Option (LoopConn σ π)
  | 0, l => some l
  | k + 1, l =>
    match l.processSend e r with
    | none => none
    | some l => sends e r k l

theorem sends_settle (supplied : e.toConnEnv.Supplied) (flowing : (l.conns r).Flowing a) :
    ∃ k l', Settled l' r ∧
      ∀ᶠ rounds in atTop, sends { e with rounds := rounds } r k l = some l' := by
  generalize loaded : (l.conns r).load a = load
  induction load using WellFoundedLT.induction generalizing l a with
  | _ load ih =>
    subst loaded
    obtain ⟨l₁, settled | ⟨a₁, flows, less⟩, once⟩ := processSend_settles supplied flowing
    · refine ⟨1, l₁, settled, once.mono fun rounds done => ?_⟩
      rw [sends, done]
      rfl
    obtain ⟨k, l', settled, later⟩ := ih _ less flows rfl
    refine ⟨k + 1, l', settled, (once.and later).mono fun rounds both => ?_⟩
    rw [sends, both.1]
    exact both.2

end LoopConn

/-- In kernel mode `FlushN` leaves the ciphertext where it is. -/
theorem EngineConn.flushAll_kernel {π : Type} {e : ConnEnv π} {c c' : EngineConn π}
    {a : ATLSConn π} (tls : c.tls = some a) (kernel : a.ktls = true) {maxBytes : Int} {k : Nat}
    {err : Option Err} (done : c.flushAll e maxBytes k = some (c', err)) : c'.tls = some a := by
  induction k generalizing c with
  | zero =>
    cases done
    exact tls
  | succ k ih =>
    have kept {c₁ : EngineConn π} {n : Int} {err : Option Err}
        (once : c.flushN e maxBytes = some (c₁, n, err)) : c₁.tls = some a := by
      simp only [flushN, tls, ATLSConn.flushN, kernel, if_true] at once
      by_cases shut : c.fd = 0
      · simp only [if_pos shut] at once
        cases once
        rfl
      · simp only [if_neg shut] at once
        cases once
        rfl
    rw [flushAll] at done
    split at done
    · cases done
    · rename_i once
      cases done
      exact kept once
    · rename_i once
      exact ih (kept once) done

/-- While something waits each `FlushN` sends some of it, repeated calls leave nothing, and
write events end with the connection closed or with neither write interest nor `closeOnDrain`
set. -/
structure Drains {σ π : Type} (e : Env σ π) (l : LoopConn σ π) (r : Ref) : Prop where
  sends : ∀ maxBytes, 0 < (l.conns r).pendingWrite → ∃ c n, 0 < n ∧ ∀ᶠ rounds in atTop,
    (l.conns r).flushN { e.toConnEnv with rounds := rounds } maxBytes = some (c, n, none)
  empties : ∀ maxBytes, ∃ k c, c.pendingWrite = 0 ∧ ∀ᶠ rounds in atTop,
    EngineConn.flushAll { e.toConnEnv with rounds := rounds } maxBytes k (l.conns r) =
      some (c, none)
  settles : ∃ k l', l'.Settled r ∧
    ∀ᶠ rounds in atTop, LoopConn.sends { e with rounds := rounds } r k l = some l'

/-- Flushing a TLS connection, whatever its mode, to a kernel that takes every byte: it drains if
and only if no ciphertext waits while the kernel seals the records. -/
theorem flush_drains_pending_iff {σ π : Type} (e : Env σ π) (supplied : e.toConnEnv.Supplied)
    (l : LoopConn σ π) (r : Ref) (a : ATLSConn π) (built : (l.conns r).Built a)
    (full : ∀ n, (l.conns r).sock.answers n = .full) :
    Drains e l r ↔ (a.ktls = true → a.waiting = 0) := by
  refine ⟨fun drains kernel => ?_, fun clean => ?_⟩
  · obtain ⟨k, c, void, often⟩ := drains.empties 0
    obtain ⟨rounds, done⟩ := often.exists
    have kept := EngineConn.flushAll_kernel built.tls kernel done
    rw [EngineConn.pendingWrite, kept] at void
    exact Nat.eq_zero_of_add_eq_zero_left void
  have flowing : (l.conns r).Flowing a := ⟨built, full, clean⟩
  refine ⟨fun maxBytes waits => ?_, EngineConn.flushAll_drains supplied flowing,
    LoopConn.sends_settle supplied flowing⟩
  obtain ⟨c, n, ⟨_, _, ⟨filled, -⟩ | ⟨-, idle, -⟩⟩, done⟩ :=
    EngineConn.flushN_sent supplied flowing maxBytes
  · exact ⟨c, n, filled, done⟩
  · omega

/-- A library that encrypts by framing, and answers what it reads with a record of its own, as
for a `KeyUpdate`. -/
def keyUpdates : TlsLib Unit where
  read _ _ := .write [22, 3, 3] fun _ => .done ((), [7], none)
  write _ src := .write (23 :: src) fun
    | (_, none) => .done ((), src.length, none)
    | (n, some _) => .done ((), n, some (.other 0))
  close _ := .done ()

theorem keyUpdates_records : keyUpdates.Records (tlsWriteChunkSize + 1) where
  encrypts _ _ := .write _ _ (.done ()) fun k _ => .done () k _ nofun
  emits _ _ _ := .here _ _ (cons_ne_nil _ _)
  fits p src short := by
    have room : tlsWriteChunkSize + 1 =
        (23 :: src : Bytes).length + (tlsWriteChunkSize - src.length) := by
      rw [length_cons]
      omega
    rw [room]
    exact .write _ _ _ (.done _ _)

/-- A connection on descriptor 5 with kernel or userspace records, after the handshake. -/
def handshaken (ktls : Bool) (queue : WriteQueue) : EngineConn Unit :=
  { EngineConn.new 5 1 false ⟨[], fun _ => .full, 0⟩
      (some ⟨some (), some ⟨⟨fun _ => [], 1, []⟩, .newRingBuffer, .newRingBuffer⟩, ktls, false,
        [], 0⟩) with
    wq := queue }

/-- A loop that serves it, with its descriptor armed and marked. -/
def serving (c : EngineConn Unit) : LoopConn Unit Unit :=
  { (Sys.boot 0 () [] : Sys Unit Unit).loop with
    conns := fun _ => c
    writeFds := {5}
    closeOnDrain := {5} }

/-- The pool has buckets of 4 bytes to 32 KiB. -/
def Env.keyed : Env Unit Unit :=
  { Env.plain (fun b => (b, false)) 64 with
    alloc := BytesAlloctor.allocator 4 14 fun _ _ => 0, tls := keyUpdates, rounds := 8 }

theorem keyed_supplied : Env.keyed.toConnEnv.Supplied :=
  ⟨_, keyUpdates_records, fun n size within => BytesAlloctor.allocator_serves 4 14 _ n size
    (Nat.le_trans within (by decide))⟩

theorem handshaken_built (ktls : Bool) {queue : WriteQueue} (valid : queue.Ok) :
    ∃ a, (handshaken ktls queue).Built a ∧ a.waiting = 0 := by
  refine ⟨_, ⟨rfl, nofun, valid, fun b found => ?_, fun _ => ⟨rfl, rfl⟩⟩, rfl⟩
  cases found
  exact RingBuffer.new_ok _

/-- Two bytes wait, and one record of them is sent. -/
theorem flush_drains_pending_two_bytes :
    (∃ x, (handshaken false (empty.push ⟨0, [1, 2]⟩ 2)).flushN Env.keyed.toConnEnv 0 =
      some x ∧ x.2 = (3, none) ∧ x.1.sock.accepted = [23, 1, 2]) ∧
    Drains Env.keyed (serving (handshaken false (empty.push ⟨0, [1, 2]⟩ 2))) 0 := by
  refine ⟨Runs.computed, ?_⟩
  have valid := (push_ok empty ⟨0, [1, 2]⟩ 2 empty_ok
    (by decide) (by decide)).1
  obtain ⟨a, built, clean⟩ := handshaken_built false valid
  exact (flush_drains_pending_iff Env.keyed keyed_supplied _ 0 a built fun _ => rfl).mpr
    fun _ => clean

section Stuck

variable {π : Type} {a : ATLSConn π} (e : ConnEnv π) {c : EngineConn π}
  (tls : c.tls = some a) (kernel : a.ktls = true) (live : c.fd ≠ 0) (empty : c.wq.pending = 0)
include tls kernel live empty

/-- In kernel mode `FlushN` looks at the queue only. -/
theorem EngineConn.flushN_stuck (maxBytes : Int) : c.flushN e maxBytes = some (c, 0, none) := by
  cases c
  cases tls
  dsimp only [EngineConn.flushN, ATLSConn.flushN, flushWriteQueue] at live empty ⊢
  rw [if_neg live, if_pos kernel, if_neg live, if_pos empty]

theorem EngineConn.flushAll_stuck (maxBytes : Int) (k : Nat) :
    c.flushAll e maxBytes k = some (c, none) := by
  induction k with
  | zero => rfl
  | succ k ih =>
    rw [EngineConn.flushAll, EngineConn.flushN_stuck e tls kernel live empty]
    exact ih

end Stuck

/-- Kernel records for what is sent, userspace records for what is received: a `Read` makes
the library write a record of its own. It is counted as pending and never sent, however often
`FlushN` is called. -/
theorem key_update_never_sent : ∃ c,
    (handshaken true empty).read Env.keyed.toConnEnv 4 [] = some (c, [7], none) ∧
    c.pendingWrite = 3 ∧ c.sock.accepted = [] ∧
    ∀ maxBytes k, c.flushAll Env.keyed.toConnEnv maxBytes k = some (c, none) := by
  obtain ⟨⟨c, bytes, err⟩, read, answer, pending, unsent, fd, empty, mode⟩ : ∃ x,
      (handshaken true empty).read Env.keyed.toConnEnv 4 [] = some x ∧
      x.2 = ([7], none) ∧ x.1.pendingWrite = 3 ∧ x.1.sock.accepted = [] ∧ x.1.fd = 5 ∧
      x.1.wq.pending = 0 ∧ x.1.tls.map ATLSConn.ktls = some true := Runs.computed
  obtain ⟨a, tls, kernel⟩ := map_eq_some_iff.mp mode
  have live : c.fd ≠ 0 := by
    rw [fd]
    decide
  dsimp only at answer
  rw [answer] at read
  refine ⟨c, read, pending, unsent, fun maxBytes k => ?_⟩
  exact EngineConn.flushAll_stuck _ tls kernel live empty maxBytes k

end Connaxis
