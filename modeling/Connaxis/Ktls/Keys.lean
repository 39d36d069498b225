import Connaxis.Lib.BigEndian
import Connaxis.Socket

namespace Connaxis.Ktls

open List

def VersionTLS12 : UInt16 := 0x0303
def VersionTLS13 : UInt16 := 0x0304

def TLS_RSA_WITH_AES_128_GCM_SHA256 : UInt16 := 0x009c
def TLS_RSA_WITH_AES_256_GCM_SHA384 : UInt16 := 0x009d
def TLS_AES_128_GCM_SHA256 : UInt16 := 0x1301
def TLS_AES_256_GCM_SHA384 : UInt16 := 0x1302
def TLS_ECDHE_ECDSA_WITH_AES_128_GCM_SHA256 : UInt16 := 0xc02b
def TLS_ECDHE_ECDSA_WITH_AES_256_GCM_SHA384 : UInt16 := 0xc02c
def TLS_ECDHE_RSA_WITH_AES_128_GCM_SHA256 : UInt16 := 0xc02f
def TLS_ECDHE_RSA_WITH_AES_256_GCM_SHA384 : UInt16 := 0xc030

def isKTLSCipher (suite : UInt16) : Bool :=
  suite ∈ [TLS_ECDHE_RSA_WITH_AES_128_GCM_SHA256, TLS_ECDHE_RSA_WITH_AES_256_GCM_SHA384,
    TLS_ECDHE_ECDSA_WITH_AES_128_GCM_SHA256, TLS_ECDHE_ECDSA_WITH_AES_256_GCM_SHA384,
    TLS_RSA_WITH_AES_128_GCM_SHA256, TLS_RSA_WITH_AES_256_GCM_SHA384,
    TLS_AES_128_GCM_SHA256, TLS_AES_256_GCM_SHA384]

/-- The ciphers the kernel takes over. -/
inductive Gcm
  | aes128
  | aes256
deriving DecidableEq, Repr

inductive Hash
  | sha256
  | sha384
deriving DecidableEq, Repr

def Hash.size : Hash → Nat
  | .sha256 => 32
  | .sha384 => 48

namespace Gcm

def keyLen : Gcm → Nat
  | aes128 => 16
  | aes256 => 32

def hash : Gcm → Hash
  | aes128 => .sha256
  | aes256 => .sha384

/-- The cases of the TLS 1.2 suites. -/
def of12 (suite : UInt16) : Option Gcm :=
  if suite ∈ [TLS_ECDHE_RSA_WITH_AES_128_GCM_SHA256, TLS_ECDHE_ECDSA_WITH_AES_128_GCM_SHA256,
      TLS_RSA_WITH_AES_128_GCM_SHA256] then some aes128
  else if suite ∈ [TLS_ECDHE_RSA_WITH_AES_256_GCM_SHA384,
      TLS_ECDHE_ECDSA_WITH_AES_256_GCM_SHA384, TLS_RSA_WITH_AES_256_GCM_SHA384] then some aes256
  else none

/-- The cases of the TLS 1.3 suites. -/
def of13 (suite : UInt16) : Option Gcm :=
  if suite = TLS_AES_128_GCM_SHA256 then some aes128
  else if suite = TLS_AES_256_GCM_SHA384 then some aes256
  else none

end Gcm

inductive KtlsErr
  | sys (err : Err)
  | text (message : String)
deriving DecidableEq, Repr

def unsupported12 : KtlsErr := .text "unsupported cipher suite for ktls"
def unsupported13 : KtlsErr := .text "unsupported tls1.3 cipher suite for ktls"

/-- `tls12Keys` and `tls13Keys`, without the hash that nothing reads. -/
structure TlsKeys where
  clientKey : Bytes
  serverKey : Bytes
  clientIV : Bytes
  serverIV : Bytes
deriving DecidableEq, Repr

/-- The primitives of the standard library. -/
structure Crypto where
  hmac : Hash → Bytes → Bytes → Bytes
  hmac_length : ∀ h key message, (hmac h key message).length = h.size
  hkdfExpand : Hash → Bytes → Bytes → Nat → Option Bytes

namespace Crypto

variable (C : Crypto)

/-- The loop of `pHash`; `missing` bytes of the result are still to be filled. -/
def pHashLoop (h : Hash) (secret seed : Bytes) : Nat → Bytes → Nat → Bytes
  | 0, _, _ => []
  | rounds + 1, a, missing =>
    if missing = 0 then []
    else
      let a := C.hmac h secret a
      let sum := (C.hmac h secret (a ++ seed)).take missing
      sum ++ pHashLoop h secret seed rounds a (missing - sum.length)

def pHash (secret seed : Bytes) (length : Nat) (h : Hash) : Bytes :=
  C.pHashLoop h secret seed length seed length

/-- Every round brings at least one byte, so one round a byte is enough. -/
theorem pHashLoop_length (h : Hash) (secret seed : Bytes) (rounds : Nat) (a : Bytes)
    (missing : Nat) (enough : missing ≤ rounds) :
    (C.pHashLoop h secret seed rounds a missing).length = missing := by
  induction rounds generalizing a missing with
  | zero =>
    rw [Nat.le_zero.mp enough]
    rfl
  | succ rounds ih =>
    rw [pHashLoop]
    split
    · rename_i void
      rw [void]
      rfl
    have size : 0 < h.size := by cases h <;> decide
    rw [length_append, ih _ _ (by rw [length_take, C.hmac_length]; omega),
      length_take, C.hmac_length]
    omega

theorem pHash_length (secret seed : Bytes) (length : Nat) (h : Hash) :
    (C.pHash secret seed length h).length = length :=
  C.pHashLoop_length h secret seed length seed length (Nat.le_refl _)

def ascii (str : String) : Bytes := str.toList.map fun c => UInt8.ofNat c.toNat

def tls12PRF (secret : Bytes) (label : String) (seed : Bytes) (length : Nat) (h : Hash) : Bytes :=
  C.pHash secret (ascii label ++ seed) length h

def deriveTLS12Keys (masterSecret clientRandom serverRandom : Bytes) (suite : UInt16) :
    Except KtlsErr TlsKeys :=
  match Gcm.of12 suite with
  | none => .error unsupported12
  | some cipher =>
    let keyLen := cipher.keyLen
    let ivLen := 4
    let seed := serverRandom ++ clientRandom
    let keyBlock :=
      C.tls12PRF masterSecret "key expansion" seed (2 * keyLen + 2 * ivLen) cipher.hash
    .ok {
      clientKey := keyBlock.take keyLen
      serverKey := (keyBlock.drop keyLen).take keyLen
      clientIV := (keyBlock.drop (2 * keyLen)).take ivLen
      serverIV := (keyBlock.drop (2 * keyLen + ivLen)).take ivLen }

/-- An error of the library leaves a nil slice. -/
def hkdfExpandLabel (secret : Bytes) (h : Hash) (label : String) (context : Bytes)
    (length : Nat) : Bytes :=
  let fullLabel := ascii "tls13 " ++ ascii label
  let info := BigEndian.encode 2 length ++ [UInt8.ofNat fullLabel.length] ++ fullLabel ++
    [UInt8.ofNat context.length] ++ context
  (C.hkdfExpand h secret info length).getD []

def deriveTLS13Keys (clientSecret serverSecret : Bytes) (suite : UInt16) :
    Except KtlsErr TlsKeys :=
  match Gcm.of13 suite with
  | none => .error unsupported13
  | some cipher =>
    let ivLen := 12
    .ok {
      clientKey := C.hkdfExpandLabel clientSecret cipher.hash "key" [] cipher.keyLen
      clientIV := C.hkdfExpandLabel clientSecret cipher.hash "iv" [] ivLen
      serverKey := C.hkdfExpandLabel serverSecret cipher.hash "key" [] cipher.keyLen
      serverIV := C.hkdfExpandLabel serverSecret cipher.hash "iv" [] ivLen }

/-- The TLS 1.2 keys fill the fields that the kernel reads them from. -/
theorem deriveTLS12Keys_lengths {masterSecret clientRandom serverRandom : Bytes} {suite : UInt16}
    {keys : TlsKeys} {cipher : Gcm} (known : Gcm.of12 suite = some cipher)
    (derived : C.deriveTLS12Keys masterSecret clientRandom serverRandom suite = .ok keys) :
    keys.clientKey.length = cipher.keyLen ∧ keys.serverKey.length = cipher.keyLen ∧
      keys.clientIV.length = 4 ∧ keys.serverIV.length = 4 := by
  unfold deriveTLS12Keys at derived
  rw [known] at derived
  cases derived
  simp only [tls12PRF, length_take, length_drop, pHash_length]
  omega

end Crypto

/-- The secrets the handshake has logged. -/
structure KeyLogWriter where
  masterSecret : Bytes
  clientRandom : Bytes
  clientTrafficSecret : Bytes
  serverTrafficSecret : Bytes
deriving DecidableEq, Repr

namespace KeyLogWriter

def secrets (w : KeyLogWriter) : Option (Bytes × Bytes) :=
  if w.masterSecret.length = 0 then none else some (w.clientRandom, w.masterSecret)

def trafficSecrets (w : KeyLogWriter) : Option (Bytes × Bytes) :=
  if w.clientTrafficSecret.length = 0 ∨ w.serverTrafficSecret.length = 0 then none
  else some (w.clientTrafficSecret, w.serverTrafficSecret)

end KeyLogWriter

end Connaxis.Ktls
