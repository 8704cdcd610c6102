/-
The whole system: pod managers, the scheduler, and a connection between each pod manager and the
scheduler. A pod manager connects, asks for its memory limit (`retrieve_mem_info`, with its retries)
and then serves its hook libraries; the scheduler serves each connection with a thread of its own
and sends the quotas from its daemon. Pod managers are named by their connection.

A connection keeps the order of what is sent, in either direction, and delivers whole messages.
`prepare_request` counts: the request for the memory limit has id 0, and the request for quota that
the pod manager knows as its `n`th has id `n + 1` on the wire. Every process has its own clock.
-/
import Gemini.Comm.Framing
import Gemini.PodManager.Launch
import Gemini.Scheduler.Delivery

namespace Gemini.System

open Gemini.Lib

/-! ## States -/

/-- A request on its way to the scheduler. -/
inductive Request where
  | memLimit (reqId : ℕ)
  | quota (reqId : ℕ) (overuse burst : ℚ)
deriving DecidableEq, Repr

/-- A response on its way to a pod manager. -/
inductive Response where
  | memLimit (reqId : ℕ) (used total : UInt64)
  | quota (reqId : ℕ) (quota : ℚ)
deriving DecidableEq, Repr

/-- Where a pod manager stands. -/
inductive Phase where
  /-- in `retrieve_mem_info`, with `attempts` requests sent -/
  | asking (attempts : ℕ)
  /-- its threads run -/
  | serving
  /-- the process has ended -/
  | exited
deriving DecidableEq, Repr

/-- A pod manager, and the messages on its connection that are sent and not received. -/
structure Pod where
  name : String
  phase : Phase
  gpuMemUsed : UInt64
  gpuMemLimit : UInt64
  manager : PodManager.State
  up : List Request
  down : List Response

structure State where
  pods : ℕ → Option Pod
  sched : Scheduler.State

def State.init : State := ⟨fun _ => none, .init⟩

/-! ## The pod managers -/

/-- What a step of a pod manager sends to the scheduler. -/
def sent (m : PodManager.State) : PodManager.Event → List Request
  | .forward =>
    match m.sender, m.requestQueue with
    | .waiting _, r :: _ => [.quota (r.reqId + 1) r.overuse r.burst]
    | _, _ => []
  | _ => []

/-- The body of the loop of `scheduler_thread_recv_func`, for a response to a request for quota. It
does not know what was asked; that the request leaves `inFlight` is for the record. -/
def insertResponse (m : PodManager.State) (reqId : ℕ) (quota : ℚ) : PodManager.State :=
  { m with
    inFlight := m.inFlight.eraseP fun r => r.reqId = reqId
    responseMap := insertNew reqId quota m.responseMap
    threads := fun u => (m.threads u).wakeRsp }

/-- The same for a late response to `retrieve_mem_info`. No thread looks for the entry that it
leaves behind. -/
def rouse (m : PodManager.State) : PodManager.State := { m with threads := fun u => (m.threads u).wakeRsp }

namespace Pod

variable (p : Pod)

/-- An attempt of `retrieve_mem_info`, the first or after a `recv` that has timed out. -/
def ask : Option Pod :=
  match p.phase with
  | .asking attempts =>
    if attempts < Comm.netOpMaxAttempt then some { p with phase := .asking (attempts + 1), up := p.up ++ [.memLimit 0] }
    else none
  | _ => none

/-- `recv` returns in `retrieve_mem_info`. The process aborts if the bytes in use are not 0. It has
no result for a response of another type. -/
def learn : Option Pod :=
  match p.phase, p.down with
  | .asking (_ + 1), .memLimit _ used total :: rest =>
    some { p with
      phase := if used = 0 then .serving else .exited
      gpuMemUsed := used, gpuMemLimit := total, down := rest }
  | _, _ => none

/-- The process ends, after its last attempt or whenever else. -/
def exit : Option Pod := if p.phase = .exited then none else some { p with phase := .exited }

/-- A step of its threads, other than the one that takes the responses of the scheduler. -/
def act (e : PodManager.Event) : Option Pod :=
  if p.phase = .serving then
    match e with
    | .reply _ _ => none
    | e => (p.manager.step e).map fun m => { p with manager := m, up := p.up ++ sent p.manager e }
  else none

/-- `recv` returns in `scheduler_thread_recv_func`. It has no result for a response of another type
than its id says. -/
def receive : Option Pod :=
  if p.phase = .serving then
    match p.down with
    | .quota (reqId + 1) quota :: rest => some { p with manager := insertResponse p.manager reqId quota, down := rest }
    | .memLimit 0 _ _ :: rest => some { p with manager := rouse p.manager, down := rest }
    | _ => none
  else none

end Pod

/-! ## The system -/

inductive Event where
  /-- a pod manager connects, and the scheduler's `accept` returns `socket` -/
  | connect (name : String) (socket : ℕ)
  /-- an attempt of `retrieve_mem_info` -/
  | ask (conn : ℕ)
  /-- `retrieve_mem_info` receives its response -/
  | learn (conn : ℕ)
  /-- the pod manager ends -/
  | exit (conn : ℕ)
  /-- a thread of the pod manager makes a step -/
  | act (conn : ℕ) (e : PodManager.Event)
  /-- `scheduler_thread_recv_func` receives a response -/
  | receive (conn : ℕ)
  /-- the scheduler's thread of the connection receives a request and handles it, up to the lock -/
  | serve (conn now : ℕ)
  /-- another step of the scheduler -/
  | schedule (e : Scheduler.Event)

namespace State

variable (cfg : Scheduler.Config) (s : State)

def setPod (conn : ℕ) (p : Pod) : State := { s with pods := Function.update s.pods conn (some p) }

/-- A step of one pod manager. -/
def change (conn : ℕ) (f : Pod → Option Pod) : Option State := do
  let p ← s.pods conn
  let p ← f p
  return s.setPod conn p

/-- `send`: the message goes to whoever has the other end of the connection. -/
def transmit (receiver : Option ℕ) (r : Response) : State :=
  match receiver with
  | none => s
  | some conn =>
    match s.pods conn with
    | none => s
    | some p => s.setPod conn { p with down := p.down ++ [r] }

def connect (name : String) (socket : ℕ) : Option State :=
  (s.sched.accept socket).map fun sched =>
    { sched := sched, pods := Function.update s.pods s.sched.nextConn (some ⟨name, .asking 0, 0, 0, .init, [], []⟩) }

/-- `recv` and `handle_message`. -/
def serve (conn now : ℕ) : Option State :=
  match s.pods conn with
  | none => none
  | some p =>
    match p.up with
    | [] => none
    | .quota reqId overuse burst :: rest =>
      (s.sched.request cfg conn p.name reqId overuse burst now).map fun sched =>
        { sched := sched, pods := Function.update s.pods conn (some { p with up := rest }) }
    | .memLimit reqId :: rest =>
      match s.sched.handlers conn with
      | some ⟨socket, none⟩ =>
        match s.sched.clients p.name with
        | none => some (s.setPod conn { p with up := rest })
        | some inf =>
          some ((s.setPod conn { p with up := rest }).transmit (s.sched.descriptors socket)
            (.memLimit reqId 0 inf.gpuMemLimit))
      | _ => none

/-- The daemon sends a quota. -/
def sendQuota : Option State :=
  match s.sched.daemon with
  | .granted selected quota =>
    s.sched.send.map fun sched =>
      { s with sched := sched }.transmit (s.sched.descriptors selected.socket) (.quota selected.reqId.toNat quota)
  | _ => none

/-- The scheduler finds a connection closed by its peer. -/
def hangUp (conn : ℕ) : Option State := do
  let p ← s.pods conn
  if p.phase = .exited then (s.sched.hangUp conn).map fun sched => { s with sched := sched } else none

/-- The steps of the scheduler that are not the receipt of a message. -/
def schedule : Scheduler.Event → Option State
  | .accept _ => none
  | .request .. => none
  | .hangUp conn => s.hangUp conn
  | .send => s.sendQuota
  | e => (s.sched.step cfg e).map fun sched => { s with sched := sched }

def step : Event → Option State
  | .connect name socket => s.connect name socket
  | .ask conn => s.change conn Pod.ask
  | .learn conn => s.change conn Pod.learn
  | .exit conn => s.change conn Pod.exit
  | .act conn e => s.change conn fun p => p.act e
  | .receive conn => s.change conn Pod.receive
  | .serve conn now => s.serve cfg conn now
  | .schedule e => s.schedule cfg e

/-- The scheduler closes a connection only when no request of it waits for its response. -/
def ClosesIdle (s : State) : Event → Prop
  | .schedule e => s.sched.ClosesIdle e
  | _ => True

end State

end Gemini.System
