import Connaxis.WebSocket.Handshake
import Connaxis.Lib.Runs

namespace Connaxis.Evhandler

open Function

open WebSocket (stringToBytes)

structure HTTPHandlerOptions where
  Workers : Int
  QueueSize : Int
deriving DecidableEq, Repr

/-- What a dispatcher is made with: the number of its workers and the length of each queue. -/
structure HttpHandlerDispatcher where
  workers : Nat
  queueSize : Nat
deriving DecidableEq, Repr

/-- `NewHTTPHandlerDispatcher`; `procs` is `GOMAXPROCS`. -/
def newHTTPHandlerDispatcher (opts : HTTPHandlerOptions) (procs : Int) : HttpHandlerDispatcher :=
  let workers := if opts.Workers ≤ 0 then procs else opts.Workers
  let workers := if workers < 1 then 1 else workers
  let queueSize := if opts.QueueSize ≤ 0 then 1024 else opts.QueueSize
  ⟨workers.toNat, queueSize.toNat⟩

/-- What a handler has written. It starts with a status line, so it is never empty. -/
structure Response where
  bytes : Bytes
  filled : bytes ≠ []
deriving DecidableEq

/-- `httpErrorResponse(http.StatusInternalServerError)`. -/
def internalServerError : Response where
  bytes := stringToBytes ("HTTP/1.1 500 Internal Server Error\r\n" ++
    "Content-Type: text/plain\r\n" ++ "Connection: close\r\n" ++
    "Content-Length: 22\r\n\r\n" ++ "Internal Server Error\n")
  filled := by simp [stringToBytes]

/-- The connections: their ids, and the loops with their command channels. -/
structure Conns where
  id : Nat → UInt64
  loop : Nat → Nat
  chanSize : Nat → Nat

inductive HttpCmd
  /-- The response to a request, by its number. -/
  | data (c : Nat) (k : Nat) (response : Response)
  | close (c : Nat)
  /-- A command that some other goroutine has added. -/
  | other
deriving DecidableEq

/-- The dispatcher at work. Requests are numbered as they are dispatched, whatever connection
they are on; a job is the number of its request. `accepted` are the responses whose commands
`AddCmd` took before their connection was closed. -/
structure HttpSys where
  requests : List Nat
  queues : Nat → List Nat
  serving : Nat → Option Nat
  chans : Nat → List HttpCmd
  closed : Nat → Bool
  accepted : List (Nat × Nat × Response)
  delivered : List (Nat × Nat × Response)

inductive HttpSys.Label
  /-- The loop of a connection calls `DispatchHTTP`. -/
  | dispatch (c : Nat)
  /-- A worker takes a job from its queue. -/
  | take (w : Nat)
  /-- `ServeHTTP` returns with a response or panics, and `AddCmd` gets a buffer or does not. -/
  | serve (w : Nat) (outcome : Option Response) (alloc : Bool)
  /-- Another goroutine adds a command. -/
  | push (l : Nat)
  /-- A loop consumes a command. -/
  | consume (l : Nat)
  /-- The connection is closed for another reason. -/
  | hangup (c : Nat)
deriving DecidableEq

namespace HttpSys

def boot : HttpSys := ⟨[], fun _ => [], fun _ => none, fun _ => [], fun _ => false, [], []⟩

variable (d : HttpHandlerDispatcher) (conns : Conns)

/-- The worker of a connection. -/
def worker (c : Nat) : Nat := (conns.id c).toNat % d.workers

/-- `AddCmd`, once the command has been made. -/
def addCmd (s : HttpSys) (c : Nat) (cmd : HttpCmd) : Option HttpSys :=
  let l := conns.loop c
  if (s.chans l).length < conns.chanSize l then
    some { s with chans := update s.chans l (s.chans l ++ [cmd]) }
  else none

/-- `DispatchHTTP`. -/
def dispatchHTTP (s : HttpSys) (c : Nat) : HttpSys :=
  let k := s.requests.length
  let w := worker d conns c
  let s := { s with requests := s.requests ++ [c] }
  if (s.queues w).length < d.queueSize then
    { s with queues := update s.queues w (s.queues w ++ [k]) }
  else (addCmd conns s c (.close c)).getD s

/-- The end of `serve`: the response of the handler, or that of the recovery. -/
def serve (s : HttpSys) (c k : Nat) (outcome : Option Response) (alloc : Bool) : HttpSys :=
  let response := outcome.getD internalServerError
  match if alloc then addCmd conns s c (.data c k response) else none with
  | some s => if s.closed c then s else { s with accepted := s.accepted ++ [(c, k, response)] }
  | none => s

/-- `consumeCmd`, as far as these connections go. -/
def consumeCmd (s : HttpSys) : HttpCmd → HttpSys
  | .data c k response =>
    if s.closed c then s else { s with delivered := s.delivered ++ [(c, k, response)] }
  | .close c => { s with closed := update s.closed c true }
  | .other => s

def step (s : HttpSys) : Label → Option HttpSys
  | .dispatch c => if s.closed c then none else some (dispatchHTTP d conns s c)
  | .take w =>
    match s.serving w, s.queues w with
    | none, k :: rest =>
      some { s with queues := update s.queues w rest,
                    serving := update s.serving w (some k) }
    | _, _ => none
  | .serve w outcome alloc =>
    match s.serving w with
    | none => none
    | some k =>
      match s.requests[k]? with
      | none => none
      | some c =>
        some (serve conns { s with serving := update s.serving w none } c k outcome
          alloc)
  | .push l =>
    if (s.chans l).length < conns.chanSize l then
      some { s with chans := update s.chans l (s.chans l ++ [.other]) }
    else none
  | .consume l =>
    match s.chans l with
    | [] => none
    | cmd :: rest => some (consumeCmd { s with chans := update s.chans l rest } cmd)
  | .hangup c => some { s with closed := update s.closed c true }

/-- The requests of a connection, in the order in which they were dispatched. -/
def requestsOf (s : HttpSys) (c : Nat) : List Nat :=
  (List.range s.requests.length).filter fun k => s.requests[k]? = some c

/-- The requests whose responses were accepted, in the order of the responses. -/
def acceptedOf (s : HttpSys) (c : Nat) : List Nat :=
  (s.accepted.filter fun entry => entry.1 = c).map fun entry => entry.2.1

/-- The requests whose responses the connection has got. -/
def deliveredOf (s : HttpSys) (c : Nat) : List Nat :=
  (s.delivered.filter fun entry => entry.1 = c).map fun entry => entry.2.1

end HttpSys

end Connaxis.Evhandler
