import Connaxis.Ktls.Keys

namespace Connaxis.Ktls

def EINVAL : Err := .other 22

/-- Go's `copy(dst[:], src)`: what `src` is too short for stays as it is. -/
def copyTo {n : Nat} (dst : FixedBytes n) (src : Bytes) : FixedBytes n :=
  Vector.ofFn fun i => src.getD i dst[i]

/-- A source of the right length is copied in full. -/
theorem copyTo_full {n : Nat} (dst : FixedBytes n) {src : Bytes} (full : src.length = n) :
    (copyTo dst src).toList = src := by
  unfold copyTo
  apply List.ext_getElem
  · rw [Vector.length_toList, full]
  intro i _ inside
  rw [Vector.getElem_toList, Vector.getElem_ofFn, ← List.getElem_eq_getD]

def zeros (n : Nat) : FixedBytes n := Vector.replicate n 0

/-- `binary.BigEndian.PutUint64`, of which `fillRecSeq` and `fillIVFromSeq` are two names. -/
def seqBytes (seq : UInt64) : FixedBytes 8 :=
  ⟨(BigEndian.encode 8 seq.toNat).toArray, BigEndian.encode_length 8 _⟩

def Gcm.cipherType : Gcm → UInt16
  | aes128 => 51
  | aes256 => 52

/-- `tls12CryptoInfoAESGCM128` and `tls12CryptoInfoAESGCM256`, told apart by `cipher`. -/
structure CryptoInfo where
  cipher : Gcm
  version : UInt16
  cipherType : UInt16
  iv : FixedBytes 8
  key : FixedBytes cipher.keyLen
  salt : FixedBytes 4
  recSeq : FixedBytes 8
deriving DecidableEq

namespace CryptoInfo

/-- What is prepared for one direction of a TLS 1.2 connection. -/
def tls12 (cipher : Gcm) (key iv : Bytes) (seq : UInt64) : CryptoInfo where
  cipher := cipher
  version := VersionTLS12
  cipherType := cipher.cipherType
  iv := zeros 8
  key := copyTo (zeros _) key
  salt := copyTo (zeros 4) iv
  recSeq := seqBytes seq

def fillIVFromSeq (info : CryptoInfo) (seq : UInt64) : CryptoInfo :=
  { info with iv := seqBytes seq }

def splitIV (info : CryptoInfo) (iv : Bytes) : CryptoInfo :=
  { info with
    salt := if iv.length ≥ 4 then copyTo info.salt (iv.take 4) else info.salt
    iv := if iv.length ≥ 12 then copyTo info.iv ((iv.drop 4).take 8) else info.iv }

def splitIVAlt (info : CryptoInfo) (iv : Bytes) : CryptoInfo :=
  if iv.length ≥ 12 then
    { info with
      iv := copyTo info.iv (iv.take 8)
      salt := copyTo info.salt ((iv.drop 8).take 4) }
  else info

/-- What is prepared for one direction of a TLS 1.3 connection. -/
def tls13 (cipher : Gcm) (key iv : Bytes) (seq : FixedBytes 8) : CryptoInfo :=
  splitIV ⟨cipher, VersionTLS13, cipher.cipherType, zeros 8, copyTo (zeros _) key, zeros 4, seq⟩ iv

end CryptoInfo

/-- `ktlsTX` and `ktlsRX`. -/
inductive Way
  | tx
  | rx
deriving DecidableEq, Repr

/-- What the kernel has been told about TLS on a socket. `answers` fixes what it says to
each `setsockopt`, numbered by `calls`; an answer without an error has taken effect. -/
structure KernelTls where
  ulp : Bool
  tx : Option CryptoInfo
  rx : Option CryptoInfo
  answers : Nat → Option Err
  calls : Nat

namespace KernelTls

def untouched (answers : Nat → Option Err) : KernelTls := ⟨false, none, none, answers, 0⟩

def call (s : KernelTls) (effect : KernelTls → KernelTls) : KernelTls × Option Err :=
  let answered := { s with calls := s.calls + 1 }
  match s.answers s.calls with
  | none => (effect answered, none)
  | some err => (answered, some err)

def install (way : Way) (info : CryptoInfo) (s : KernelTls) : KernelTls :=
  match way with
  | .tx => { s with tx := some info }
  | .rx => { s with rx := some info }

/-- The option `TCP_ULP`. -/
def attachULP (s : KernelTls) : KernelTls × Option Err := s.call fun s => { s with ulp := true }

def setsockopt (s : KernelTls) (way : Way) (info : CryptoInfo) : KernelTls × Option Err :=
  s.call (install way info)

/-- One direction, with the second layout for kernels that call the first one invalid. -/
def offer (s : KernelTls) (way : Way) (info alt : CryptoInfo) : KernelTls × Option Err :=
  match s.setsockopt way info with
  | (s, none) => (s, none)
  | (s, some err) => if err = EINVAL then s.setsockopt way alt else (s, some err)

/-- What `enableKTLS` and `enableKTLS13` have in common. Each direction comes with the two
layouts that are tried. -/
def switchOn (s : KernelTls) (enableRX : Bool) (cipher : Option Gcm) (unsupported : KtlsErr)
    (tx rx : Gcm → CryptoInfo × CryptoInfo) : KernelTls × Option KtlsErr :=
  match s.attachULP with
  | (s, some err) => (s, some (.sys err))
  | (s, none) =>
    match cipher with
    | none => (s, some unsupported)
    | some cipher =>
      match s.offer .tx (tx cipher).1 (tx cipher).2 with
      | (s, some err) => (s, some (.sys err))
      | (s, none) =>
        if enableRX then
          match s.offer .rx (rx cipher).1 (rx cipher).2 with
          | (s, some err) => (s, some (.sys err))
          | (s, none) => (s, none)
        else (s, none)

/-- What reaches the network of a record that userspace writes. -/
def transmit (s : KernelTls) (encrypt : CryptoInfo → Bytes → Bytes) (record : Bytes) : Bytes :=
  match s.tx with
  | none => record
  | some info => encrypt info record

end KernelTls

/-- The halves of the key set: `txKey`, `txIV`, `rxKey`, `rxIV`. -/
def TlsKeys.halves (keys : TlsKeys) (isClient : Bool) : (Bytes × Bytes) × (Bytes × Bytes) :=
  if isClient then ((keys.clientKey, keys.clientIV), (keys.serverKey, keys.serverIV))
  else ((keys.serverKey, keys.serverIV), (keys.clientKey, keys.clientIV))

/-- The two layouts of one direction in TLS 1.2. -/
def layouts12 (half : Bytes × Bytes) (seq : UInt64) (cipher : Gcm) : CryptoInfo × CryptoInfo :=
  let info := CryptoInfo.tls12 cipher half.1 half.2 seq
  (info, info.fillIVFromSeq seq)

/-- The two layouts of one direction in TLS 1.3. -/
def layouts13 (half : Bytes × Bytes) (seq : FixedBytes 8) (cipher : Gcm) :
    CryptoInfo × CryptoInfo :=
  let info := CryptoInfo.tls13 cipher half.1 half.2 seq
  (info, info.splitIVAlt half.2)

def enableKTLS (enableRX : Bool) (s : KernelTls) (isClient : Bool) (suite : UInt16)
    (keys : TlsKeys) (inSeq outSeq : UInt64) : KernelTls × Option KtlsErr :=
  let (tx, rx) := keys.halves isClient
  s.switchOn enableRX (Gcm.of12 suite) unsupported12 (layouts12 tx outSeq) (layouts12 rx inSeq)

def enableKTLS13 (enableRX : Bool) (s : KernelTls) (isClient : Bool) (suite : UInt16)
    (keys : TlsKeys) (inSeq outSeq : FixedBytes 8) : KernelTls × Option KtlsErr :=
  let (tx, rx) := keys.halves isClient
  s.switchOn enableRX (Gcm.of13 suite) unsupported13 (layouts13 tx outSeq) (layouts13 rx inSeq)

namespace KernelTls

/-- The kernel accepts one of the two layouts offered from call `n` on. -/
def Accepts (answers : Nat → Option Err) (n : Nat) : Prop :=
  answers n = none ∨ answers n = some EINVAL ∧ answers (n + 1) = none

/-- How many calls the offer takes. -/
def cost (answers : Nat → Option Err) (n : Nat) : Nat := if answers n = some EINVAL then 2 else 1

instance (answers : Nat → Option Err) (n : Nat) : Decidable (Accepts answers n) :=
  inferInstanceAs (Decidable (_ ∨ _))

/-- The two ends of an offer. -/
theorem offer_cases (s : KernelTls) (way : Way) (info alt : CryptoInfo) :
    Accepts s.answers s.calls ∧ (∃ taken, (taken = info ∨ taken = alt) ∧
        s.offer way info alt =
          (install way taken { s with calls := s.calls + cost s.answers s.calls }, none)) ∨
      ¬ Accepts s.answers s.calls ∧ ∃ err,
        s.offer way info alt =
          ({ s with calls := s.calls + cost s.answers s.calls }, some err) := by
  unfold offer setsockopt call Accepts cost
  cases first : s.answers s.calls with
  | none => exact .inl ⟨.inl rfl, info, .inl rfl, by simp only [reduceCtorEq, ↓reduceIte]⟩
  | some err =>
    by_cases invalid : err = EINVAL
    · subst invalid
      cases second : s.answers (s.calls + 1) with
      | none => exact .inl ⟨.inr ⟨rfl, rfl⟩, alt, .inr rfl, by simp [second]⟩
      | some err =>
        refine .inr ⟨?_, err, by simp [second]⟩
        rintro (void | ⟨_, void⟩)
        · cases void
        · cases void
    refine .inr ⟨?_, err, by simp [invalid]⟩
    rintro (void | ⟨same, _⟩)
    · cases void
    · exact invalid (Option.some.inj same)

/-- The kernel accepts the keys for sending and then refuses those for receiving. -/
def HalfEnabled (enableRX : Bool) (cipher : Option Gcm) (answers : Nat → Option Err) : Prop :=
  enableRX = true ∧ cipher.isSome = true ∧ answers 0 = none ∧ Accepts answers 1 ∧
    ¬ Accepts answers (1 + cost answers 1)

/-- An attempt that fails leaves neither direction behind, so that the records which
userspace goes on to write are left as they are. -/
def AllOrNothing (result : KernelTls × Option KtlsErr) : Prop :=
  result.2 ≠ none → result.1.tx = none ∧ result.1.rx = none ∧
    ∀ encrypt record, result.1.transmit encrypt record = record

section

variable (answers : Nat → Option Err) (enableRX : Bool) (cipher : Option Gcm)
  (unsupported : KtlsErr) (tx rx : Gcm → CryptoInfo × CryptoInfo)

/-- The three ends of an attempt: nothing was installed, only the sending half was, or all
that was asked for. -/
theorem switchOn_cases :
    (∃ s err, (untouched answers).switchOn enableRX cipher unsupported tx rx = (s, some err) ∧
      s.tx = none ∧ s.rx = none ∧ ¬ HalfEnabled enableRX cipher answers) ∨
    (∃ s err, (untouched answers).switchOn enableRX cipher unsupported tx rx = (s, some err) ∧
      s.tx ≠ none ∧ HalfEnabled enableRX cipher answers) ∨
    (∃ s gcm, (untouched answers).switchOn enableRX cipher unsupported tx rx = (s, none) ∧
      cipher = some gcm ∧ (s.tx = some (tx gcm).1 ∨ s.tx = some (tx gcm).2) ∧
      (enableRX = true → s.rx = some (rx gcm).1 ∨ s.rx = some (rx gcm).2) ∧
      ¬ HalfEnabled enableRX cipher answers) := by
  unfold switchOn
  cases attached : answers 0 with
  | some err =>
    have refused : (untouched answers).attachULP =
        ({ untouched answers with calls := 1 }, some err) := by
      simp only [attachULP, call, untouched, attached]
    rw [refused]
    exact .inl ⟨_, _, rfl, rfl, rfl, fun half => nomatch attached.symm.trans half.2.2.1⟩
  | none =>
    have ready : (untouched answers).attachULP =
        ({ untouched answers with calls := 1, ulp := true }, none) := by
      simp only [attachULP, call, untouched, attached]
    rw [ready]
    dsimp only
    cases cipher with
    | none => exact .inl ⟨_, _, rfl, rfl, rfl, fun half => nomatch half.2.1⟩
    | some gcm =>
      dsimp only
      rcases offer_cases { untouched answers with calls := 1, ulp := true } .tx
        (tx gcm).1 (tx gcm).2 with ⟨sends, taken, which, offered⟩ | ⟨refused, err, offered⟩
      · rw [offered]
        dsimp only [install]
        have kept : some taken = some (tx gcm).1 ∨ some taken = some (tx gcm).2 :=
          which.imp (congrArg some) (congrArg some)
        cases enableRX with
        | false =>
          exact .inr (.inr ⟨_, gcm, rfl, rfl, kept, nofun, fun half => nomatch half.1⟩)
        | true =>
          rcases offer_cases (install .tx taken { untouched answers with
              calls := 1 + cost answers 1
              ulp := true }) .rx (rx gcm).1 (rx gcm).2
            with ⟨receives, other, which, offered⟩ | ⟨refused, err, offered⟩
          · dsimp only [install, untouched] at offered
            rw [if_pos rfl]
            dsimp only [untouched]
            rw [offered]
            exact .inr (.inr ⟨_, gcm, rfl, rfl, kept,
              fun _ => which.imp (congrArg some) (congrArg some),
              fun half => half.2.2.2.2 receives⟩)
          dsimp only [install, untouched] at offered
          rw [if_pos rfl]
          dsimp only [untouched]
          rw [offered]
          exact .inr (.inl ⟨_, _, rfl, nofun, rfl, rfl, attached, sends, refused⟩)
      rw [offered]
      exact .inl ⟨_, _, rfl, rfl, rfl, fun half => refused half.2.2.2.1⟩

/-- An attempt fails without a trace unless it fails in the middle. -/
theorem switchOn_clean :
    AllOrNothing ((untouched answers).switchOn enableRX cipher unsupported tx rx) ↔
      ¬ HalfEnabled enableRX cipher answers := by
  rcases switchOn_cases answers enableRX cipher unsupported tx rx with
    ⟨s, err, out, sends, receives, whole⟩ | ⟨s, err, out, sends, half⟩ |
    ⟨s, gcm, out, _, _, _, whole⟩
  · rw [out]
    refine iff_of_true (fun _ => ⟨sends, receives, fun encrypt record => ?_⟩) whole
    rw [transmit, sends]
  · rw [out]
    exact iff_of_false (fun clean => sends (clean nofun).1) (fun whole => whole half)
  rw [out]
  exact iff_of_true (fun failed => absurd rfl failed) whole

end

end KernelTls

open KernelTls

section

variable {answers : Nat → Option Err} {enableRX isClient : Bool} {suite : UInt16}
  {keys : TlsKeys} {s : KernelTls}

variable {inSeq outSeq : UInt64}

/-- What the kernel holds once it has said yes to TLS 1.2. -/
theorem enableKTLS_installed
    (enabled : enableKTLS enableRX (untouched answers) isClient suite keys inSeq outSeq =
      (s, none)) :
    ∃ cipher, Gcm.of12 suite = some cipher ∧
      (s.tx = some (layouts12 (keys.halves isClient).1 outSeq cipher).1 ∨
        s.tx = some (layouts12 (keys.halves isClient).1 outSeq cipher).2) ∧
      (enableRX = true → s.rx = some (layouts12 (keys.halves isClient).2 inSeq cipher).1 ∨
        s.rx = some (layouts12 (keys.halves isClient).2 inSeq cipher).2) := by
  change (untouched answers).switchOn _ _ _ _ _ = _ at enabled
  rcases switchOn_cases answers enableRX (Gcm.of12 suite) unsupported12
    (layouts12 (keys.halves isClient).1 outSeq) (layouts12 (keys.halves isClient).2 inSeq) with
    ⟨_, _, out, _⟩ | ⟨_, _, out, _⟩ | ⟨_, cipher, out, known, sends, receives, _⟩
  · cases enabled.symm.trans out
  · cases enabled.symm.trans out
  cases enabled.symm.trans out
  exact ⟨cipher, known, sends, receives⟩

/-- Where the kernel receives, it counts from the number it was given. -/
theorem enableKTLS_rx
    (enabled : enableKTLS true (untouched answers) isClient suite keys inSeq outSeq = (s, none)) :
    ∃ info, s.rx = some info ∧ info.recSeq = seqBytes inSeq := by
  obtain ⟨cipher, _, _, receives⟩ := enableKTLS_installed enabled
  rcases receives rfl with first | second
  · exact ⟨_, first, rfl⟩
  · exact ⟨_, second, rfl⟩

theorem enableKTLS13_rx {inSeq outSeq : FixedBytes 8}
    (enabled : enableKTLS13 true (untouched answers) isClient suite keys inSeq outSeq =
      (s, none)) : ∃ info, s.rx = some info ∧ info.recSeq = inSeq := by
  change (untouched answers).switchOn _ _ _ _ _ = _ at enabled
  rcases switchOn_cases answers true (Gcm.of13 suite) unsupported13
    (layouts13 (keys.halves isClient).1 outSeq) (layouts13 (keys.halves isClient).2 inSeq) with
    ⟨_, _, out, _⟩ | ⟨_, _, out, _⟩ | ⟨_, gcm, out, _, _, receives, _⟩
  · cases enabled.symm.trans out
  · cases enabled.symm.trans out
  cases enabled.symm.trans out
  rcases receives rfl with first | second
  · exact ⟨_, first, rfl⟩
  refine ⟨_, second, ?_⟩
  unfold layouts13 CryptoInfo.splitIVAlt
  dsimp only
  split <;> rfl

/-- The key and the salt of one direction, with nothing cut off and nothing filled up. -/
def CryptoInfo.Carries (info : CryptoInfo) (half : Bytes × Bytes) : Prop :=
  info.key.toList = half.1 ∧ info.salt.toList = half.2

theorem layouts12_carries {half : Bytes × Bytes} {cipher : Gcm} (seq : UInt64)
    (key : half.1.length = cipher.keyLen) (salt : half.2.length = 4) :
    (layouts12 half seq cipher).1.Carries half ∧ (layouts12 half seq cipher).2.Carries half :=
  have whole : (layouts12 half seq cipher).1.Carries half :=
    ⟨copyTo_full _ key, copyTo_full _ salt⟩
  ⟨whole, whole⟩

/-- The kernel works with the keys that the handshake has derived, each in its direction. -/
theorem enableKTLS_derived {C : Crypto} {masterSecret clientRandom serverRandom : Bytes}
    (derived : C.deriveTLS12Keys masterSecret clientRandom serverRandom suite = .ok keys)
    (enabled : enableKTLS enableRX (untouched answers) isClient suite keys inSeq outSeq =
      (s, none)) :
    (∃ info, s.tx = some info ∧ info.Carries (keys.halves isClient).1) ∧
      (enableRX = true → ∃ info, s.rx = some info ∧ info.Carries (keys.halves isClient).2) := by
  obtain ⟨cipher, known, sends, receives⟩ := enableKTLS_installed enabled
  obtain ⟨clientKey, serverKey, clientIV, serverIV⟩ := C.deriveTLS12Keys_lengths known derived
  have lengths : ((keys.halves isClient).1.1.length = cipher.keyLen ∧
      (keys.halves isClient).1.2.length = 4) ∧
      (keys.halves isClient).2.1.length = cipher.keyLen ∧
      (keys.halves isClient).2.2.length = 4 := by
    cases isClient with
    | false => exact ⟨⟨serverKey, serverIV⟩, clientKey, clientIV⟩
    | true => exact ⟨⟨clientKey, clientIV⟩, serverKey, serverIV⟩
  obtain ⟨⟨txKey, txIV⟩, rxKey, rxIV⟩ := lengths
  constructor
  · have whole := layouts12_carries outSeq txKey txIV
    rcases sends with first | second
    · exact ⟨_, first, whole.1⟩
    · exact ⟨_, second, whole.2⟩
  intro on
  have whole := layouts12_carries inSeq rxKey rxIV
  rcases receives on with first | second
  · exact ⟨_, first, whole.1⟩
  · exact ⟨_, second, whole.2⟩

end

/-- Where both ends have handed the keys of one handshake to their kernels, each kernel
receives with what the other sends with. -/
theorem ktls_ends_agree (C : Crypto) (masterSecret clientRandom serverRandom : Bytes)
    (suite : UInt16) (keys : TlsKeys) (answers answers' : Nat → Option Err)
    (inSeq outSeq inSeq' outSeq' : UInt64) (client server : KernelTls)
    (derived : C.deriveTLS12Keys masterSecret clientRandom serverRandom suite = .ok keys)
    (there : enableKTLS true (untouched answers) true suite keys inSeq outSeq = (client, none))
    (here : enableKTLS true (untouched answers') false suite keys inSeq' outSeq' = (server, none)) :
    (∃ tx rx, client.tx = some tx ∧ server.rx = some rx ∧
      tx.Carries (keys.clientKey, keys.clientIV) ∧ rx.Carries (keys.clientKey, keys.clientIV)) ∧
    ∃ tx rx, server.tx = some tx ∧ client.rx = some rx ∧
      tx.Carries (keys.serverKey, keys.serverIV) ∧ rx.Carries (keys.serverKey, keys.serverIV) := by
  obtain ⟨⟨tx, sends, up⟩, receives⟩ := enableKTLS_derived derived there
  obtain ⟨⟨tx', sends', down'⟩, receives'⟩ := enableKTLS_derived derived here
  obtain ⟨rx, gets, down⟩ := receives rfl
  obtain ⟨rx', gets', up'⟩ := receives' rfl
  exact ⟨⟨tx, rx', sends, gets', up, up'⟩, ⟨tx', rx, sends', gets, down', down⟩⟩

/-- Every byte of a code depends on all of the key and the message. -/
def mixing : Crypto where
  hmac h key message :=
    List.ofFn fun i : Fin h.size => (key ++ message).foldl (fun sum b => sum * 3 + b) (.ofNat i)
  hmac_length _ _ _ := List.length_ofFn
  hkdfExpand _ _ _ _ := none

theorem ktls_ends_agree_aes128 : ∃ keys client server,
    enableKTLS true (untouched fun _ => none) true TLS_RSA_WITH_AES_128_GCM_SHA256 keys 1 1 =
      (client, none) ∧
    enableKTLS true (untouched fun _ => none) false TLS_RSA_WITH_AES_128_GCM_SHA256 keys 1 1 =
      (server, none) ∧
    ∃ tx rx, client.tx = some tx ∧ server.rx = some rx ∧
      tx.Carries (keys.clientKey, keys.clientIV) ∧ rx.Carries (keys.clientKey, keys.clientIV) :=
  ⟨_, _, _, rfl, rfl, (ktls_ends_agree mixing [1] [2] [3] TLS_RSA_WITH_AES_128_GCM_SHA256 _
    (fun _ => none) (fun _ => none) 1 1 1 1 _ _ rfl rfl rfl).1⟩

/-- Enabling kernel TLS is all or nothing exactly when the kernel does not stop between the
two directions. -/
theorem enable_all_or_nothing (answers : Nat → Option Err) (enableRX isClient : Bool)
    (suite : UInt16) (keys : TlsKeys) (inSeq outSeq : UInt64) (inSeq13 outSeq13 : FixedBytes 8) :
    (AllOrNothing (enableKTLS enableRX (untouched answers) isClient suite keys inSeq outSeq) ↔
      ¬ HalfEnabled enableRX (Gcm.of12 suite) answers) ∧
    (AllOrNothing
        (enableKTLS13 enableRX (untouched answers) isClient suite keys inSeq13 outSeq13) ↔
      ¬ HalfEnabled enableRX (Gcm.of13 suite) answers) :=
  ⟨switchOn_clean answers enableRX (Gcm.of12 suite) unsupported12 _ _,
    switchOn_clean answers enableRX (Gcm.of13 suite) unsupported13 _ _⟩

/-- A kernel that knows `TLS_TX` and not `TLS_RX`. -/
def sendsOnly : Nat → Option Err
  | 2 => some (.other 92)
  | _ => none

/-- The keys for sending stay in the kernel although both calls report a failure. -/
theorem rx_refused_tx_stays :
    (∃ s, enableKTLS true (untouched sendsOnly) false TLS_RSA_WITH_AES_128_GCM_SHA256
        ⟨[1], [2], [3], [4]⟩ 1 1 = (s, some (.sys (.other 92))) ∧ s.tx.isSome = true) ∧
      ∃ s, enableKTLS13 true (untouched sendsOnly) false TLS_AES_128_GCM_SHA256
        ⟨[1], [2], [3], [4]⟩ (zeros 8) (zeros 8) = (s, some (.sys (.other 92))) ∧
        s.tx.isSome = true :=
  ⟨⟨_, rfl, rfl⟩, ⟨_, rfl, rfl⟩⟩

end Connaxis.Ktls
