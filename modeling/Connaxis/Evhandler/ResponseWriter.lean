import Connaxis.WebSocket.HandshakeStable
import Mathlib.Data.Finmap

/-!
# The pooled response writer

`ResponseWriter` of `evhandler/response.go`, as `serve` of `evhandler/evioHttp.go` takes it from
the pool, resets it, hands it to the handler and puts it back. `buf` is left out: `Bytes` empties
it before it writes to it.
-/

namespace Connaxis.Evhandler.Pooled

open List

open WebSocket (stringToBytes canonicalizeBytes canonicalizeLoop canonicalByte)

/-- The bytes of a header field name. -/
def validHeaderFieldByte (c : UInt8) : Bool :=
  48 ≤ c && c ≤ 57 || 65 ≤ c && c ≤ 90 || 97 ≤ c && c ≤ 122 ||
    (stringToBytes "!#$%&'*+-.^_`|~").contains c

/-- `http.CanonicalHeaderKey`: a name with any other byte in it is left as it is. -/
def canonicalHeaderKey (k : Bytes) : Bytes :=
  if k.all validHeaderFieldByte then canonicalizeBytes k else k

/-- `http.Header`. -/
abbrev Header := Finmap fun _ : Bytes => List Bytes

namespace Header

def get (h : Header) (k : Bytes) : Bytes := ((h.lookup (canonicalHeaderKey k)).getD []).headD []

def set (h : Header) (k v : Bytes) : Header := h.insert (canonicalHeaderKey k) [v]

def add (h : Header) (k v : Bytes) : Header :=
  h.insert (canonicalHeaderKey k) ((h.lookup (canonicalHeaderKey k)).getD [] ++ [v])

def del (h : Header) (k : Bytes) : Header := h.erase (canonicalHeaderKey k)

/-- `for k := range h { h.Del(k) }`, the keys coming in the given order. A key that has been
deleted before the loop comes to it is passed over. -/
def delEach (h : Header) : List Bytes → Header
  | [] => h
  | k :: keys => delEach (if k ∈ h then h.del k else h) keys

end Header

/-- The order in which one `range` goes through the keys of a map. -/
structure Ranging where
  order : Finset Bytes → List Bytes
  mem_order : ∀ keys k, k ∈ order keys ↔ k ∈ keys

noncomputable instance : Inhabited Ranging := ⟨⟨Finset.toList, fun _ _ => Finset.mem_toList⟩⟩

structure ResponseWriter where
  code : Int
  header : Header
  body : Bytes
  wroteHeader : Bool
  deferred : Bool

/-- What `Bytes` returns: the status line, the header lines in the order of the range, the body. -/
structure Output where
  status : Bytes
  lines : List Bytes
  body : Bytes

def contentLength : Bytes := stringToBytes "Content-Length"

def joinValues : List Bytes → Bytes
  | [v] => v
  | v => (stringToBytes ", ").intercalate v

def headerLine (k : Bytes) (v : List Bytes) : Bytes := k ++ stringToBytes ": " ++ joinValues v

namespace ResponseWriter

def init : ResponseWriter := ⟨200, ∅, [], false, false⟩

def reset (w : ResponseWriter) (keys : Ranging) : ResponseWriter where
  code := 200
  header := w.header.delEach (keys.order w.header.keys)
  body := []
  wroteHeader := false
  deferred := false

def writeHeader (w : ResponseWriter) (code : Int) : ResponseWriter :=
  if w.wroteHeader then w else { w with code, wroteHeader := true }

def write (w : ResponseWriter) (buf : Bytes) : ResponseWriter :=
  let w := if w.wroteHeader then w else w.writeHeader w.code
  { w with body := w.body ++ buf }

/-- The header that `Bytes` leaves behind. -/
def withLength (w : ResponseWriter) : ResponseWriter :=
  if w.header.get contentLength = [] then
    { w with header := w.header.set contentLength (stringToBytes (toString w.body.length)) }
  else w

def bytes (statusText : Int → Bytes) (w : ResponseWriter) (keys : Ranging) : Output where
  status := stringToBytes "HTTP/1.1 " ++ stringToBytes (toString w.code) ++ stringToBytes " " ++
    statusText w.code ++ stringToBytes "\r\n"
  lines := (keys.order w.withLength.header.keys).map fun k =>
    headerLine k ((w.withLength.header.lookup k).getD [])
  body := w.body

end ResponseWriter

/-- What a handler does to the writer. -/
inductive Call
  | set (k v : Bytes)
  | add (k v : Bytes)
  | del (k : Bytes)
  /-- `w.Header()[k] = v` -/
  | assign (k : Bytes) (v : List Bytes)
  | writeHeader (code : Int)
  | write (buf : Bytes)
  | defer

def Call.run (w : ResponseWriter) : Call → ResponseWriter
  | set k v => { w with header := w.header.set k v }
  | add k v => { w with header := w.header.add k v }
  | del k => { w with header := w.header.del k }
  | assign k v => { w with header := w.header.insert k v }
  | writeHeader code => w.writeHeader code
  | write buf => w.write buf
  | defer => { w with deferred := true }

/-- A request that is served: the handler makes its calls and returns or panics. -/
structure Request where
  keys : Ranging
  calls : List Call
  panics : Bool

/-- The writer as the handler leaves it. -/
def handled (w : ResponseWriter) (keys : Ranging) (calls : List Call) : ResponseWriter :=
  calls.foldl Call.run (w.reset keys)

/-- The writer that `serve` puts back. `Bytes` is not called after a panic or `Defer`. -/
def serve (w : ResponseWriter) (r : Request) : ResponseWriter :=
  let w := handled w r.keys r.calls
  if r.panics || w.deferred then w else w.withLength

def served (history : List Request) : ResponseWriter := history.foldl serve .init

/-- The same status line, the same set of header lines and the same body. -/
structure Output.Same (o o' : Output) : Prop where
  status : o.status = o'.status
  lines : ∀ line, line ∈ o.lines ↔ line ∈ o'.lines
  body : o.body = o'.body

/-! ### Keys in canonical form -/

theorem canonicalizeLoop_valid (upper : Bool) (k : Bytes) :
    (canonicalizeLoop upper k).all validHeaderFieldByte = k.all validHeaderFieldByte := by
  have byte : ∀ (upper : Bool) (c : UInt8),
      validHeaderFieldByte (canonicalByte upper c) = validHeaderFieldByte c := by
    rintro upper ⟨⟨n⟩⟩
    revert upper n
    decide +kernel
  induction k generalizing upper with
  | nil => rfl
  | cons c k ih =>
    rw [canonicalizeLoop, all_cons, all_cons, ih]
    exact congrArg (· && _) (byte upper c)

theorem canonicalHeaderKey_again (k : Bytes) :
    canonicalHeaderKey (canonicalHeaderKey k) = canonicalHeaderKey k := by
  by_cases valid : k.all validHeaderFieldByte = true
  · have form : canonicalHeaderKey k = canonicalizeBytes k := if_pos valid
    rw [form, canonicalHeaderKey, canonicalizeBytes, canonicalizeLoop_valid, if_pos valid]
    exact WebSocket.canonicalizeLoop_again true k
  have form : canonicalHeaderKey k = k := if_neg valid
  rw [form, form]

theorem contentLength_canonical : canonicalHeaderKey contentLength = contentLength := by
  decide +kernel

/-- No call of `Set`, `Add` or `Del` reaches a key that is not in canonical form. -/
theorem ne_canonicalHeaderKey {j : Bytes} (stray : canonicalHeaderKey j ≠ j) (k : Bytes) :
    j ≠ canonicalHeaderKey k := by
  intro same
  apply stray
  rw [same, canonicalHeaderKey_again]

/-! ### What Reset leaves -/

variable {keys : Ranging}

section Writer

variable {h : Header} {w : ResponseWriter} {j : Bytes}

theorem mem_delEach (stray : canonicalHeaderKey j ≠ j) (keys : List Bytes) (member : j ∈ h) :
    j ∈ h.delEach keys := by
  induction keys generalizing h with
  | nil => exact member
  | cons k keys ih =>
    apply ih
    split
    · exact Finmap.mem_erase.mpr ⟨ne_canonicalHeaderKey stray k, member⟩
    · exact member

theorem of_mem_delEach {keys : List Bytes} (left : j ∈ h.delEach keys) :
    j ∈ h ∧ (canonicalHeaderKey j = j → j ∉ keys) := by
  induction keys generalizing h with
  | nil => exact ⟨left, fun _ => not_mem_nil⟩
  | cons k keys ih =>
    obtain ⟨kept, later⟩ := ih left
    split at kept
    · obtain ⟨other, member⟩ := Finmap.mem_erase.mp kept
      refine ⟨member, fun canonical visited => ?_⟩
      rcases mem_cons.mp visited with rfl | visited
      · exact other canonical.symm
      · exact later canonical visited
    rename_i absent
    refine ⟨kept, fun canonical visited => ?_⟩
    rcases mem_cons.mp visited with rfl | visited
    · exact absent kept
    · exact later canonical visited

/-- `Reset` forgets the keys in canonical form and keeps every other one. -/
theorem mem_reset : j ∈ (w.reset keys).header ↔ canonicalHeaderKey j ≠ j ∧ j ∈ w.header := by
  constructor
  · intro left
    obtain ⟨member, missed⟩ := of_mem_delEach left
    refine ⟨fun canonical => missed canonical ?_, member⟩
    exact (keys.mem_order _ j).mpr (Finmap.mem_keys.mpr member)
  rintro ⟨stray, member⟩
  exact mem_delEach stray _ member

theorem mem_withLength_stray (stray : canonicalHeaderKey j ≠ j) :
    j ∈ w.withLength.header ↔ j ∈ w.header := by
  rw [ResponseWriter.withLength]
  split
  · exact Finmap.mem_insert.trans (or_iff_right (ne_canonicalHeaderKey stray _))
  · rfl

theorem mem_run_stray (stray : canonicalHeaderKey j ≠ j) (call : Call) :
    j ∈ (call.run w).header ↔ j ∈ w.header ∨ ∃ v, call = .assign j v := by
  have apart := ne_canonicalHeaderKey stray
  cases call with
  | set k v => simp [Call.run, Header.set, apart k]
  | add k v => simp [Call.run, Header.add, apart k]
  | del k => simp [Call.run, Header.del, apart k]
  | assign k v => simp [Call.run, Finmap.mem_insert, or_comm, eq_comm]
  | writeHeader code =>
    simp only [Call.run, ResponseWriter.writeHeader]
    split <;> simp
  | write buf =>
    simp only [Call.run, ResponseWriter.write, ResponseWriter.writeHeader]
    split <;> simp_all
  | defer => simp [Call.run]

end Writer

/-- What a fold has in the end it had at the start or got from one of the steps. -/
theorem foldl_gains {α β : Type} {step : α → β → α} {gives : β → Prop} (has : α → Prop)
    (each : ∀ s b, has (step s b) ↔ has s ∨ gives b) (s : α) (bs : List β) :
    has (bs.foldl step s) ↔ has s ∨ ∃ b ∈ bs, gives b := by
  induction bs generalizing s with
  | nil => simp
  | cons b bs ih => simp [ih, each, or_assoc]

/-- The requests that assign to a key in the header map. -/
def Request.Assigns (r : Request) (k : Bytes) : Prop := ∃ v, .assign k v ∈ r.calls

theorem mem_serve_stray {j : Bytes} (stray : canonicalHeaderKey j ≠ j) (w : ResponseWriter)
    (r : Request) : j ∈ (serve w r).header ↔ j ∈ w.header ∨ r.Assigns j := by
  have left : j ∈ (handled w r.keys r.calls).header ↔ j ∈ w.header ∨ r.Assigns j := by
    refine (foldl_gains (fun w : ResponseWriter => j ∈ w.header)
      (fun w call => mem_run_stray stray call) _ r.calls).trans ?_
    rw [mem_reset, and_iff_right stray]
    refine or_congr_right ⟨?_, ?_⟩
    · rintro ⟨_, made, v, rfl⟩
      exact ⟨v, made⟩
    rintro ⟨v, made⟩
    exact ⟨_, made, v, rfl⟩
  rw [serve]
  split
  · exact left
  · exact (mem_withLength_stray stray).trans left

/-- A key that is not in canonical form stays from the first request that assigns to it. -/
theorem mem_served_stray {j : Bytes} (stray : canonicalHeaderKey j ≠ j) (history : List Request) :
    j ∈ (served history).header ↔ ∃ r ∈ history, r.Assigns j := by
  refine (foldl_gains (fun w : ResponseWriter => j ∈ w.header)
    (mem_serve_stray stray) _ history).trans ?_
  exact or_iff_right Finmap.notMem_empty

/-! ### What the next response shows -/

/-- No handler assigned to a key that is not in canonical form. -/
def Plain (history : List Request) : Prop :=
  ∀ r ∈ history, ∀ k, r.Assigns k → canonicalHeaderKey k = k

variable {history : List Request}

theorem reset_served (plain : Plain history) (keys : Ranging) :
    (served history).reset keys = .init := by
  have empty : ((served history).reset keys).header = ∅ := by
    apply Finmap.ext_lookup
    intro j
    rw [Finmap.lookup_empty, Finmap.lookup_eq_none]
    rw [mem_reset]
    rintro ⟨stray, left⟩
    obtain ⟨r, member, assigns⟩ := (mem_served_stray stray history).mp left
    exact stray (plain r member j assigns)
  exact congrArg (ResponseWriter.mk 200 · [] false false) empty

theorem handled_fresh (keys : Ranging) : handled (served []) keys [] = .init :=
  reset_served (forall_mem_nil _) keys

variable {statusText : Int → Bytes} {line : Bytes}

theorem mem_lines {w : ResponseWriter} :
    line ∈ (w.bytes statusText keys).lines ↔ ∃ k ∈ w.withLength.header,
      headerLine k ((w.withLength.header.lookup k).getD []) = line := by
  simp [ResponseWriter.bytes, keys.mem_order, Finmap.mem_keys]

/-- The only line of a fresh writer. -/
theorem fresh_line (shown : line ∈ (ResponseWriter.init.bytes statusText keys).lines) :
    line = stringToBytes "Content-Length: 0" := by
  obtain ⟨k, member, rfl⟩ := mem_lines.mp shown
  have header : ResponseWriter.init.withLength.header =
      Finmap.insert contentLength [stringToBytes "0"] ∅ := by
    exact congrArg (Finmap.insert · [stringToBytes "0"] ∅) contentLength_canonical
  rw [header, Finmap.mem_insert] at member
  rcases member with rfl | absurd
  · decide +kernel
  · exact (Finmap.notMem_empty absurd).elim

variable {k : Bytes}

/-- The colon shows where the key of a line ends. -/
theorem contentLength_of_line {v : List Bytes}
    (same : headerLine k v = stringToBytes "Content-Length: 0") : k = contentLength := by
  have colon : ∀ n < 17, (stringToBytes "Content-Length: 0")[n]? = some 58 → n = 14 := by
    decide +kernel
  have long : k.length < 17 := by
    have length := congrArg length same
    simp only [headerLine, length_append, show (stringToBytes ": ").length = 2 from rfl,
      show (stringToBytes "Content-Length: 0").length = 17 from rfl] at length
    omega
  have here : k.length = 14 := by
    apply colon _ long
    rw [← same, headerLine, append_assoc, getElem?_append_right (Nat.le_refl _)]
    simp [stringToBytes]
  calc k = (headerLine k v).take k.length := by simp [headerLine, append_assoc]
    _ = contentLength := by
      rw [same, here]
      decide +kernel

/-- A key that is not in canonical form shows in the next response, whatever its handler does. -/
theorem not_same_of_stray {range range' : Ranging} (stray : canonicalHeaderKey k ≠ k)
    (assigned : ∃ r ∈ history, r.Assigns k) :
    ¬ ((handled (served history) keys []).bytes statusText range).Same
      (ResponseWriter.init.bytes statusText range') := by
  intro same
  have shown : k ∈ (handled (served history) keys []).withLength.header := by
    rw [mem_withLength_stray stray]
    exact mem_reset.mpr ⟨stray, (mem_served_stray stray history).mpr assigned⟩
  have line := fresh_line ((same.lines _).mp (mem_lines.mpr ⟨k, shown, rfl⟩))
  apply stray
  rw [contentLength_of_line line, contentLength_canonical]

/-- A history shows in no later response if and only if no handler in it assigned to a key that is
not in canonical form. -/
theorem responses_separate_iff (statusText : Int → Bytes) (history : List Request) :
    (∀ other, Plain other → ∀ calls keys keys' range range',
      ((handled (served history) keys calls).bytes statusText range).Same
        ((handled (served other) keys' calls).bytes statusText range')) ↔ Plain history := by
  constructor
  · intro separate r member k assigns
    by_contra stray
    have same := separate [] (List.forall_mem_nil _) [] default default default default
    rw [handled_fresh] at same
    exact not_same_of_stray stray ⟨r, member, assigns⟩ same
  intro plain other plain' calls keys keys' range range'
  rw [handled, handled, reset_served plain, reset_served plain']
  exact ⟨rfl, fun line => mem_lines.trans mem_lines.symm, rfl⟩

/-- One handler assigns to `x-user`; the next response, whose handler does nothing, shows it. -/
theorem response_shows_earlier_key :
    ¬ ((handled (served
        [⟨default, [.assign (stringToBytes "x-user") [stringToBytes "ann"]], false⟩])
        default []).bytes (fun _ => []) default).Same
      ((handled (served []) default []).bytes (fun _ => []) default) := by
  rw [handled_fresh]
  apply not_same_of_stray (k := stringToBytes "x-user") (by decide +kernel)
  exact ⟨_, List.mem_singleton_self _, _, List.mem_singleton_self _⟩

end Connaxis.Evhandler.Pooled
