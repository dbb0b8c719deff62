import TwinForest.Service.Worker

/-!
# The host of the parse service

Requests wait in a queue and are answered in the order in which they were sent. A caller gets a
ticket for each request and may wait for the reply later, for as long as the time limit allows. The
host stops when the parser crashes or when it is closed; requests still in the queue are then never
answered, and replies that were given before can still be had. A call of the parser that is under way
comes to its end before the host closes.

How far the worker gets while a caller waits is not up to the host. It is an input here: a pace for
each of the coming waits. Where no pace is given, the worker gets as far as it can.

`Service` holds the fixed parts of a host and `Host` the changing ones.
-/

namespace TwinForest

structure Service.Config where
  /-- How long a caller waits for each reply. -/
  timeout : Duration
  threadName : String

def Service.Config.standard : Service.Config :=
  ⟨Duration.ofMillis 5000, "difftini-parser"⟩

structure Service (σ : Type u) where
  parse : CodeParser σ
  supply : Nat → Handle
  timeout : Duration

/-- What a caller holds for a request that it has sent. -/
abbrev Ticket := Nat

structure Host (σ : Type u) where
  worker : Option (Worker σ)
  queue : List (Ticket × Request)
  replies : Std.HashMap Ticket Reply
  sent : Nat
  /-- How many steps the worker makes during each of the coming waits. -/
  pace : List Nat

namespace Host

variable {σ : Type u}

def new (state : σ) : Host σ :=
  ⟨some (Worker.new state), [], ∅, 0, []⟩

/-- Starts a host. The name of its thread must not hold a null byte. -/
def spawn (config : Service.Config) (state : σ) : Except Fault (Host σ) :=
  let bytes := config.threadName.toUTF8.toList
  match bytes.findIdx? (· == 0) with
  | some position => .error (.nullInName position bytes)
  | none => .ok (new state)

/-- The host without its worker. The requests that wait are never answered. -/
def stop (h : Host σ) : Host σ :=
  { h with worker := none, queue := [] }

/-- One step of the worker: it answers the first request in the queue, unless its parser has not
returned yet. -/
def step (svc : Service σ) (h : Host σ) : Host σ :=
  match h.worker, h.queue with
  | some worker, (ticket, request) :: queue =>
    match worker.handle svc.parse svc.supply request with
    | .replied reply worker =>
      { h with worker := some worker, queue, replies := h.replies.insert ticket reply }
    | .unfinished => h
    | .crashed => h.stop
  | _, _ => h

/-- The host after it is closed. The worker ends the request that it is in, or takes one more if it is
between two requests, and stops. In the latter case it might as well stop at once, which is `stop`. -/
def close (svc : Service σ) (h : Host σ) : Host σ :=
  (h.step svc).stop

def advance (svc : Service σ) : Nat → Host σ → Host σ
  | 0, h => h
  | n + 1, h => advance svc n (h.step svc)

def settle (svc : Service σ) (h : Host σ) : Host σ :=
  h.advance svc h.queue.length

def send (h : Host σ) (request : Request) : Except ServiceError Ticket × Host σ :=
  if h.worker.isSome then
    (.ok h.sent, { h with queue := h.queue ++ [(h.sent, request)], sent := h.sent + 1 })
  else (.error .disconnected, h)

/-- The host after the worker's steps during one wait. -/
def elapse (svc : Service σ) (h : Host σ) : Host σ :=
  match h.pace with
  | [] => h.settle svc
  | steps :: pace => { h with pace }.advance svc steps

def wait (svc : Service σ) (h : Host σ) (ticket : Ticket) :
    Except ServiceError Reply × Host σ :=
  let h := h.elapse svc
  match h.replies[ticket]? with
  | some reply => (.ok reply, h)
  | none => (.error (if h.worker.isSome then .timeout svc.timeout else .disconnected), h)

end Host

end TwinForest
