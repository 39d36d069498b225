import Connaxis.WriteQueue

namespace Connaxis

/-- The errors the loop and its connections tell apart. -/
inductive Err
  | EAGAIN
  | EBADF
  | ENOMEM
  /-- The kernel's EIO. -/
  | ioError
  /-- `io.EOF`, or the "eof" of a read that returns nothing. -/
  | eof
  /-- `errWouldBlock` of the in-memory TLS transport. -/
  | wouldBlock
  | other (code : Nat)
deriving DecidableEq, Repr

/-- The kernel's answer to one `read`; no bytes stand for the end of the stream. -/
inductive SysRead
  | data (bytes : Bytes)
  | fail (err : Err)
deriving DecidableEq, Repr

/-- The kernel's answer to one `write` or `writev`. -/
inductive SysWrite
  | full
  | short (n : Nat)
  | fail (err : Err)
deriving DecidableEq, Repr

/-- The sending half of a socket. `accepted` is everything the kernel has taken so
far; `answers` fixes what it says to each call, numbered by `calls`. -/
structure Socket where
  accepted : Bytes
  answers : Nat → SysWrite
  calls : Nat

namespace Socket

/-- The result is the count and the error of the system call: -1 on failure. -/
def write (s : Socket) (b : Bytes) : Socket × Int × Option Err :=
  match s.answers s.calls with
  | .full => (⟨s.accepted ++ b, s.answers, s.calls + 1⟩, b.length, none)
  | .short n => (⟨s.accepted ++ b.take n, s.answers, s.calls + 1⟩, (b.take n).length, none)
  | .fail err => (⟨s.accepted, s.answers, s.calls + 1⟩, -1, some err)

def writev (s : Socket) (iovecs : List Bytes) : Socket × Int × Option Err :=
  if iovecs.length = 0 then (s, 0, none) else s.write iovecs.flatten

end Socket

def maxWritevIovecs : Nat := 64

namespace WriteQueue

/-- The windows `flushWriteQueue` hands to the kernel: at most `room` of them, and
at most `remaining` bytes in all when `maxBytes` is positive. -/
def iovecs (maxBytes : Int) : List WriteEntry → Nat → Int → List Bytes
  | [], _, _ => []
  | _ :: _, 0, _ => []
  | item :: items, room + 1, remaining =>
    if item.off ≥ item.size then iovecs maxBytes items (room + 1) remaining
    else if maxBytes > 0 then
      if remaining ≤ 0 then []
      else
        let b := if (item.live.length : Int) > remaining then item.live.take remaining.toNat
          else item.live
        b :: iovecs maxBytes items room (remaining - b.length)
    else item.live :: iovecs maxBytes items room remaining

end WriteQueue

def flushWriteQueue (fd : Nat) (s : Socket) (wq : WriteQueue) (maxBytes : Int) :
    Socket × WriteQueue × Int × Option Err :=
  if fd = 0 then (s, wq, 0, some .EBADF)
  else if wq.pending = 0 then (s, wq, 0, none)
  else
    let vecs := WriteQueue.iovecs maxBytes (wq.items.drop wq.head) maxWritevIovecs maxBytes
    if vecs.length = 0 then (s, wq, 0, none)
    else
      let (s, n, err) := s.writev vecs
      let n := if err = some .EAGAIN ∧ n < 0 then 0 else n
      if n ≤ 0 then (s, wq, n, err) else (s, wq.consume n, n, err)

end Connaxis
