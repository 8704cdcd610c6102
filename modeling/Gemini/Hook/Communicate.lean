/-
`communicate`, called by any number of threads. Every call stores its new connection in
`sockfd[device]` before it takes `comm_mutex`, and `send` and `recv` read `sockfd[device]` anew, so that
a call may replace the connection of another that is under way.

Calls of `send` and `recv` that fail otherwise than by the timeout of the socket, or in part, and
connections that are not established are not modelled here.
-/
import Gemini.Comm.Framing
import Gemini.Lib.Simulation

namespace Gemini.Hook.Communicate

open Gemini.Lib Gemini.Comm

/-- A call of `communicate`, with its arguments. Calls are numbered. -/
structure Call where
  number : ℕ
  device : ℕ
  sbuf : List UInt8
  socketTimeout : ℕ
deriving DecidableEq, Repr

/-- A response, and the call whose request it answers. -/
structure Answer where
  call : Call
  rbuf : List UInt8
deriving DecidableEq, Repr

/-- A connection: its `SO_RCVTIMEO`, where 0 is never, the requests that the pod manager has not answered,
and the responses that nobody has read. -/
structure Conn where
  rcvTimeo : ℕ
  up : List Call
  down : List Answer
deriving DecidableEq, Repr

def Conn.fresh : Conn := ⟨0, [], []⟩

/-- The calls whose responses are still to be read. -/
def Conn.owed (conn : Conn) : List Call := conn.down.map Answer.call ++ conn.up

/-- Where the thread that has `comm_mutex` stands. -/
inductive Phase where
  | locked
  /-- `setsockopt` is done; an attempt begins -/
  | sending (attempt : ℕ)
  /-- the request is on the connection `fd` -/
  | sent (attempt fd : ℕ)
  /-- in `recv` on the connection `fd` -/
  | receiving (attempt sent fd : ℕ)
deriving DecidableEq, Repr

structure Holder where
  thread : ℕ
  call : Call
  phase : Phase
deriving DecidableEq, Repr

/-- The attempts that a call has made, and what it has returned: a response that it has read from the
connection, or an error. -/
structure Return where
  call : Call
  attempts : ℕ
  outcome : Option (ℕ × Answer)
deriving DecidableEq, Repr

/-- `sockfd`, the connections by descriptor, the threads at `pthread_mutex_lock`, `comm_mutex`, the
number of calls, what has been returned, and on which connections which calls have timed out. -/
structure State where
  sockfd : ℕ → ℕ
  conns : ℕ → Option Conn
  waiting : ℕ → Option Call
  holder : Option Holder
  calls : ℕ
  returned : List Return
  timedOut : List (Call × ℕ)

def State.init : State := ⟨fun _ => 0, fun _ => none, fun _ => none, none, 0, [], []⟩

inductive Event where
  /-- a thread calls `communicate`, and its connection gets the descriptor `fd` -/
  | establish (thread device : ℕ) (sbuf : List UInt8) (socketTimeout fd : ℕ)
  | lock (thread : ℕ)
  | setsockopt
  | send
  | recv
  /-- `recv` returns a response -/
  | received
  /-- `recv` returns -1, as nothing has come in time -/
  | timeOut
  /-- the pod manager answers the next request of the connection -/
  | answer (fd : ℕ) (rbuf : List UInt8)
deriving DecidableEq, Repr

namespace State

variable (s : State)

def setConn (fd : ℕ) (conn : Conn) : State := { s with conns := Function.update s.conns fd (some conn) }

/-- The end of `communicate`. -/
def unlock (r : Return) : State := { s with holder := none, returned := r :: s.returned }

def establish (thread device : ℕ) (sbuf : List UInt8) (socketTimeout fd : ℕ) : Option State :=
  if s.waiting thread = none ∧ s.holder.map Holder.thread ≠ some thread ∧ s.conns fd = none then
    some { s.setConn fd .fresh with
      sockfd := Function.update s.sockfd device fd
      waiting := Function.update s.waiting thread (some ⟨s.calls, device, sbuf, socketTimeout⟩)
      calls := s.calls + 1 }
  else none

def lock (thread : ℕ) : Option State :=
  match s.waiting thread, s.holder with
  | some call, none =>
    some { s with waiting := Function.update s.waiting thread none, holder := some ⟨thread, call, .locked⟩ }
  | _, _ => none

def setsockopt : Option State :=
  match s.holder with
  | some ⟨thread, call, .locked⟩ =>
    (s.conns (s.sockfd call.device)).map fun conn =>
      { s.setConn (s.sockfd call.device) { conn with rcvTimeo := call.socketTimeout } with
        holder := some ⟨thread, call, .sending 1⟩ }
  | _ => none

def send : Option State :=
  match s.holder with
  | some ⟨thread, call, .sending attempt⟩ =>
    (s.conns (s.sockfd call.device)).map fun conn =>
      { s.setConn (s.sockfd call.device) { conn with up := conn.up ++ [call] } with
        holder := some ⟨thread, call, .sent attempt (s.sockfd call.device)⟩ }
  | _ => none

def recv : Option State :=
  match s.holder with
  | some ⟨thread, call, .sent attempt fd⟩ =>
    some { s with holder := some ⟨thread, call, .receiving attempt fd (s.sockfd call.device)⟩ }
  | _ => none

def received : Option State :=
  match s.holder with
  | some ⟨_, call, .receiving attempt _ fd⟩ =>
    match s.conns fd with
    | some ⟨rcvTimeo, up, a :: down⟩ =>
      some ((s.setConn fd ⟨rcvTimeo, up, down⟩).unlock ⟨call, attempt, some (fd, a)⟩)
    | _ => none
  | _ => none

/-- The attempt has failed: `multiple_attempt` makes another one, or gives up. -/
def timeOut : Option State :=
  match s.holder with
  | some ⟨thread, call, .receiving attempt _ fd⟩ =>
    match s.conns fd with
    | some ⟨_ + 1, _, []⟩ =>
      let s := { s with timedOut := (call, fd) :: s.timedOut }
      some (if attempt < netOpMaxAttempt then { s with holder := some ⟨thread, call, .sending (attempt + 1)⟩ }
        else s.unlock ⟨call, attempt, none⟩)
    | _ => none
  | _ => none

def answer (fd : ℕ) (rbuf : List UInt8) : Option State :=
  match s.conns fd with
  | some ⟨rcvTimeo, call :: up, down⟩ => some (s.setConn fd ⟨rcvTimeo, up, down ++ [⟨call, rbuf⟩]⟩)
  | _ => none

def step : Event → Option State
  | .establish thread device sbuf socketTimeout fd => s.establish thread device sbuf socketTimeout fd
  | .lock thread => s.lock thread
  | .setsockopt => s.setsockopt
  | .send => s.send
  | .recv => s.recv
  | .received => s.received
  | .timeOut => s.timeOut
  | .answer fd rbuf => s.answer fd rbuf

/-- The thread is in this call. -/
def InCall (thread : ℕ) (call : Call) : Prop :=
  s.waiting thread = some call ∨ ∃ phase, s.holder = some ⟨thread, call, phase⟩

/-- The thread that has the mutex has sent its request and stands before `recv`. -/
def between (device : ℕ) : Bool :=
  match s.holder with
  | some ⟨_, call, .sent ..⟩ => call.device = device
  | _ => false

/-- No thread replaces the connection of another between its `send` and its `recv`. -/
def Clear (s : State) : Event → Prop
  | .establish _ device .. => s.between device = false
  | _ => True

instance (e : Event) : Decidable (Clear s e) :=
  match e with
  | .establish .. => inferInstanceAs (Decidable (_ = _))
  | .lock _ | .setsockopt | .send | .recv | .received | .timeOut | .answer .. => .isTrue trivial

/-- A step of a call that is under way, or of the pod manager. -/
def Ordinary : State → Event → Prop
  | _, .establish .. | _, .timeOut => False
  | _, _ => True

variable {s s' : State} {thread device socketTimeout fd : ℕ} {sbuf : List UInt8}

/-! ## What each event can do -/

theorem establish_some (hs : s.establish thread device sbuf socketTimeout fd = some s') :
    s.waiting thread = none ∧ (∀ h, s.holder = some h → h.thread ≠ thread) ∧ s.conns fd = none ∧
    s' = { s.setConn fd .fresh with
      sockfd := Function.update s.sockfd device fd
      waiting := Function.update s.waiting thread (some ⟨s.calls, device, sbuf, socketTimeout⟩)
      calls := s.calls + 1 } := by
  unfold establish at hs
  split at hs
  · rename_i h
    obtain ⟨hw, hh, hc⟩ := h
    cases hs
    refine ⟨hw, ?_, hc, rfl⟩
    rintro h hholder rfl
    exact hh (by rw [hholder]; rfl)
  · cases hs

theorem lock_some (hs : s.lock thread = some s') : ∃ call, s.waiting thread = some call ∧ s.holder = none ∧
    s' = { s with waiting := Function.update s.waiting thread none, holder := some ⟨thread, call, .locked⟩ } := by
  unfold lock at hs
  split at hs
  · rename_i call hw hh
    cases hs
    exact ⟨call, hw, hh, rfl⟩
  · cases hs

theorem setsockopt_some (hs : s.setsockopt = some s') : ∃ thread call conn, s.holder = some ⟨thread, call, .locked⟩ ∧
    s.conns (s.sockfd call.device) = some conn ∧
    s' = { s.setConn (s.sockfd call.device) { conn with rcvTimeo := call.socketTimeout } with
      holder := some ⟨thread, call, .sending 1⟩ } := by
  unfold setsockopt at hs
  split at hs
  · rename_i thread call hh
    obtain ⟨conn, hc, rfl⟩ := Option.map_eq_some_iff.1 hs
    exact ⟨thread, call, conn, hh, hc, rfl⟩
  · cases hs

theorem send_some (hs : s.send = some s') :
    ∃ thread call attempt conn, s.holder = some ⟨thread, call, .sending attempt⟩ ∧
    s.conns (s.sockfd call.device) = some conn ∧
    s' = { s.setConn (s.sockfd call.device) { conn with up := conn.up ++ [call] } with
      holder := some ⟨thread, call, .sent attempt (s.sockfd call.device)⟩ } := by
  unfold send at hs
  split at hs
  · rename_i thread call attempt hh
    obtain ⟨conn, hc, rfl⟩ := Option.map_eq_some_iff.1 hs
    exact ⟨thread, call, attempt, conn, hh, hc, rfl⟩
  · cases hs

theorem recv_some (hs : s.recv = some s') : ∃ thread call attempt fd, s.holder = some ⟨thread, call, .sent attempt fd⟩ ∧
    s' = { s with holder := some ⟨thread, call, .receiving attempt fd (s.sockfd call.device)⟩ } := by
  unfold recv at hs
  split at hs
  · rename_i thread call attempt fd hh
    cases hs
    exact ⟨thread, call, attempt, fd, hh, rfl⟩
  · cases hs

theorem received_some (hs : s.received = some s') : ∃ thread call attempt sent fd rcvTimeo up a down,
    s.holder = some ⟨thread, call, .receiving attempt sent fd⟩ ∧ s.conns fd = some ⟨rcvTimeo, up, a :: down⟩ ∧
    s' = (s.setConn fd ⟨rcvTimeo, up, down⟩).unlock ⟨call, attempt, some (fd, a)⟩ := by
  unfold received at hs
  split at hs
  · rename_i thread call attempt sent fd hh
    split at hs
    · rename_i rcvTimeo up a down hc
      cases hs
      exact ⟨thread, call, attempt, sent, fd, rcvTimeo, up, a, down, hh, hc, rfl⟩
    · cases hs
  · cases hs

theorem timeOut_some (hs : s.timeOut = some s') : ∃ thread call attempt sent fd conn,
    s.holder = some ⟨thread, call, .receiving attempt sent fd⟩ ∧ s.conns fd = some conn ∧ conn.rcvTimeo ≠ 0 ∧
    ((attempt < netOpMaxAttempt ∧
        s' = { s with timedOut := (call, fd) :: s.timedOut, holder := some ⟨thread, call, .sending (attempt + 1)⟩ }) ∨
      (netOpMaxAttempt ≤ attempt ∧
        s' = State.unlock { s with timedOut := (call, fd) :: s.timedOut } ⟨call, attempt, none⟩)) := by
  unfold timeOut at hs
  split at hs
  · rename_i thread call attempt sent fd hh
    split at hs
    · rename_i n up hc
      cases hs
      refine ⟨thread, call, attempt, sent, fd, _, hh, hc, Nat.succ_ne_zero n, ?_⟩
      split
      · rename_i hlt
        exact .inl ⟨hlt, rfl⟩
      · rename_i hlt
        exact .inr ⟨not_lt.1 hlt, rfl⟩
    · cases hs
  · cases hs

theorem answer_some {rbuf : List UInt8} (hs : s.answer fd rbuf = some s') : ∃ rcvTimeo call up down,
    s.conns fd = some ⟨rcvTimeo, call :: up, down⟩ ∧ s' = s.setConn fd ⟨rcvTimeo, up, down ++ [⟨call, rbuf⟩]⟩ := by
  unfold answer at hs
  split at hs
  · rename_i rcvTimeo call up down hc
    cases hs
    exact ⟨rcvTimeo, call, up, down, hc, rfl⟩
  · cases hs

end State

end Gemini.Hook.Communicate
