/-
The scheduler process as a transition system: the threads that serve the pod managers
(`pod_client_func` with `handle_message`), the daemon that grants tokens (`schedule_daemon_func`)
and the thread that reloads the configuration.

One event is one block of a thread between two points at which another thread can act: a critical
section of `candidate_mutex`, or a stretch of code without the mutex. The daemon holds the mutex
from the selection to the record, so nothing is enqueued in between. A signal wakes the daemon only
if it is blocked; it may also wake up by itself. Clock readings are nanoseconds of
`CLOCK_MONOTONIC`. Descriptors are numbers that the operating system reuses after `close`;
connections are ghosts that are never reused.
-/
import Gemini.Scheduler.Select
import Gemini.Scheduler.Timeline

namespace Gemini.Scheduler

open Gemini.Lib

/-! ## Clocks -/

/-- `struct timespec`. -/
structure Timespec where
  tvSec : ℤ
  tvNsec : ℤ
deriving DecidableEq, Repr

namespace Timespec

/-- The reading of a clock that shows `ns` nanoseconds. -/
def ofNs (ns : ℕ) : Timespec := ⟨ns / 10 ^ 9, ns % 10 ^ 9⟩

def toNs (ts : Timespec) : ℤ := ts.tvSec * 10 ^ 9 + ts.tvNsec

@[simp] theorem toNs_ofNs (ns : ℕ) : (ofNs ns).toNs = ns := by simp only [toNs, ofNs]; omega

end Timespec

/-- `get_timespec_after`, from the reading `now` of the clock. -/
def getTimespecAfter (now : Timespec) (ms : ℚ) : Timespec :=
  let sec := ms / 1000
  let tvNsec := ⌊(now.tvNsec : ℚ) + (sec - ⌊sec⌋) * 10 ^ 9⌋
  ⟨now.tvSec + ⌊sec⌋ + tvNsec / 10 ^ 9, tvNsec % 10 ^ 9⟩

/-- A duration in milliseconds as the timer counts it, in whole nanoseconds. -/
def wholeNs (ms : ℚ) : ℤ := ⌊ms * 10 ^ 6⌋

theorem toNs_getTimespecAfter (now : Timespec) (ms : ℚ) :
    (getTimespecAfter now ms).toNs = now.toNs + wholeNs ms := by
  have h : ⌊(now.tvNsec : ℚ) + (ms / 1000 - ⌊ms / 1000⌋) * 10 ^ 9⌋ = now.tvNsec + wholeNs ms -
    ⌊ms / 1000⌋ * 10 ^ 9 := by
    rw [wholeNs, show (now.tvNsec : ℚ) + (ms / 1000 - ⌊ms / 1000⌋) * 10 ^ 9 =
      ms * 10 ^ 6 + ((now.tvNsec - ⌊ms / 1000⌋ * 10 ^ 9 : ℤ) : ℚ) by push_cast; ring, Int.floor_add_intCast]
    ring
  unfold getTimespecAfter Timespec.toNs
  simp only [h]
  omega

/-- The command line. -/
structure Config where
  windowSize : ℚ
  quota : ℚ
  minQuota : ℚ
  progressStart : ℕ
deriving DecidableEq, Repr

/-- The options that are not given: a window of ten seconds, quotas of 250 ms and at least 100 ms. -/
def defaultConfig : Config := ⟨10000, 250, 100, 0⟩

/-- A window of 10 ms, and quotas of 4 ms and at least 1 ms. -/
def tenMs : Config := ⟨10, 4, 1, 0⟩

/-- `ms_since_start`: whole microseconds since `PROGRESS_START`, in milliseconds. -/
def msSinceStart (cfg : Config) (now : ℕ) : ℚ := ((now - cfg.progressStart) / 1000 : ℕ) / 1000

theorem msSinceStart_mono (cfg : Config) {a b : ℕ} (h : a ≤ b) : msSinceStart cfg a ≤ msSinceStart cfg b := by
  unfold msSinceStart
  have : (a - cfg.progressStart) / 1000 ≤ (b - cfg.progressStart) / 1000 :=
    Nat.div_le_div_right (Nat.sub_le_sub_right h _)
  have : (((a - cfg.progressStart) / 1000 : ℕ) : ℚ) ≤ ((b - cfg.progressStart) / 1000 : ℕ) := by exact_mod_cast this
  linarith

/-! ## States -/

/-- Where `schedule_daemon_func` stands. `woken` is a pending wake-up. -/
inductive Daemon where
  /-- at the top of its loop, without the mutex -/
  | top
  /-- blocked on `candidate_cond`: there are no candidates -/
  | waiting (woken : Bool)
  /-- blocked in `select_candidate`: all candidates are at their limit -/
  | sleeping (wakeUp : Timespec) (woken : Bool)
  /-- `select_candidate` has returned; the mutex is held -/
  | chosen (selected : Candidate)
  /-- the token is recorded and the mutex released -/
  | granted (selected : Candidate) (quota : ℚ)
  /-- the quota is sent -/
  | sent (selected : Candidate) (quota : ℚ)
  /-- the deadline of the token is computed -/
  | armed (selected : Candidate) (deadline : Timespec)
  /-- blocked until the token's deadline -/
  | holding (selected : Candidate) (deadline : Timespec) (woken : Bool)
deriving DecidableEq, Repr

/-- `pthread_cond_signal(&candidate_cond)`. -/
def Daemon.signal : Daemon → Daemon
  | .waiting _ => .waiting true
  | .sleeping wakeUp _ => .sleeping wakeUp true
  | .holding selected deadline _ => .holding selected deadline true
  | d => d

/-- The daemon does not hold the mutex. -/
def Daemon.unlocked : Daemon → Bool
  | .chosen _ => false
  | _ => true

/-- A `pod_client_func` thread: its descriptor, and the request it is about to enqueue. -/
structure Handler where
  socket : ℕ
  pending : Option (String × ℤ)
deriving DecidableEq, Repr

/-- A quota response on the wire: the request it answers and the connection that receives it. -/
structure Answer where
  request : Candidate
  quota : ℚ
  receiver : Option ℕ
deriving DecidableEq, Repr

/-- The last token granted (a ghost), and whether its holder has enqueued a request since. -/
structure Grant where
  name : String
  recordedAt : ℕ
  quota : ℚ
  returned : Bool
deriving DecidableEq, Repr

/-- The scheduler. `descriptors` is the operating system's table of open sockets. -/
structure State where
  clients : ClientInfoMap
  timeline : Timeline
  candidates : List Candidate
  daemon : Daemon
  descriptors : ℕ → Option ℕ
  handlers : ℕ → Option Handler
  nextConn : ℕ
  answers : List Answer
  grant : Option Grant
  clock : ℕ

def State.init : State :=
  ⟨fun _ => none, .init, [], .top, fun _ => none, fun _ => none, 0, [], none, 0⟩

/-! ## Events -/

inductive Event where
  /-- a pod manager connects and `accept` returns `socket` -/
  | accept (socket : ℕ)
  /-- `handle_message` on a REQ_QUOTA, up to the lock -/
  | request (conn : ℕ) (name : String) (reqId : ℤ) (overuse burst : ℚ) (now : ℕ)
  /-- the critical section of `handle_message` -/
  | enqueue (conn : ℕ) (now : ℕ)
  /-- `recv` has returned no more: `pod_client_func` closes its socket -/
  | hangUp (conn : ℕ)
  /-- one line of `read_resource_config` -/
  | configure (name : String) (minf maxf : ℚ) (gpuMemLimit : UInt64)
  /-- the daemon takes the mutex, or wakes up in `select_candidate`, and makes a turn of its loop -/
  | select (now : ℕ) (ts : List ContainerTimestamp) (order : List ValidCandidate)
  /-- `get_quota`, `Record` and the unlock -/
  | record (now : ℕ)
  | send
  /-- `get_timespec_after(quota)` -/
  | arm (now : ℕ)
  /-- the lock and the timed wait -/
  | block
  /-- the daemon wakes up from a wait other than that of `select_candidate` -/
  | wake (now : ℕ) (timedOut : Bool)

namespace State

variable (cfg : Config) (s : State)

def accept (socket : ℕ) : Option State :=
  if s.descriptors socket = none then
    some { s with
      descriptors := Function.update s.descriptors socket (some s.nextConn)
      handlers := Function.update s.handlers s.nextConn (some ⟨socket, none⟩)
      nextConn := s.nextConn + 1 }
  else none

/-- `handle_message` for REQ_QUOTA: unknown clients are ignored. -/
def request (conn : ℕ) (name : String) (reqId : ℤ) (overuse burst : ℚ) (now : ℕ) : Option State :=
  match s.handlers conn with
  | some ⟨socket, none⟩ =>
    if s.clock ≤ now then
      match s.clients name with
      | none => some { s with clock := now }
      | some inf => some { s with
          clients := Function.update s.clients name (some (inf.setBurst burst))
          timeline := s.timeline.updateReturnTime name overuse (msSinceStart cfg now)
          handlers := Function.update s.handlers conn (some ⟨socket, some (name, reqId)⟩)
          clock := now }
    else none
  | _ => none

def enqueue (conn : ℕ) (now : ℕ) : Option State :=
  match s.handlers conn with
  | some ⟨socket, some (name, reqId)⟩ =>
    if s.clock ≤ now ∧ s.daemon.unlocked = true then
      some { s with
        candidates := s.candidates ++ [⟨socket, name, reqId, msSinceStart cfg now, conn⟩]
        daemon := s.daemon.signal
        handlers := Function.update s.handlers conn (some ⟨socket, none⟩)
        grant := s.grant.map fun g => if g.name = name then { g with returned := true } else g
        clock := now }
    else none
  | _ => none

def hangUp (conn : ℕ) : Option State :=
  match s.handlers conn with
  | some ⟨socket, none⟩ =>
    some { s with
      descriptors := Function.update s.descriptors socket none
      handlers := Function.update s.handlers conn none }
  | _ => none

def configure (name : String) (minf maxf : ℚ) (gpuMemLimit : UInt64) : Option State :=
  some { s with
    clients := Function.update s.clients name
      (some (.new cfg.quota cfg.minQuota (maxf * cfg.windowSize) minf maxf gpuMemLimit)) }

/-- A turn of the loop of `select_candidate`, with the mutex held. -/
def turn (now : ℕ) (ts : List ContainerTimestamp) (order : List ValidCandidate) : Option State :=
  let timeline := s.timeline.prune (msSinceStart cfg now - cfg.windowSize) (msSinceStart cfg now)
  match selectPass cfg.windowSize s.clients s.timeline.historyList s.candidates (msSinceStart cfg now) ts order with
  | some (.selected c rest) =>
    some { s with timeline := timeline, candidates := rest, daemon := .chosen c, clock := now }
  | some (.sleep ms) =>
    some { s with timeline := timeline, daemon := .sleeping (getTimespecAfter (.ofNs now) ms) false, clock := now }
  | none => none

def select (now : ℕ) (ts : List ContainerTimestamp) (order : List ValidCandidate) : Option State :=
  if s.clock ≤ now then
    match s.daemon with
    | .top =>
      if s.candidates = [] then some { s with daemon := .waiting false, clock := now }
      else s.turn cfg now ts order
    | .sleeping _ _ => s.turn cfg now ts order
    | _ => none
  else none

def record (now : ℕ) : Option State :=
  match s.daemon with
  | .chosen selected =>
    if s.clock ≤ now then
      (s.clients selected.name).map fun inf =>
        { s with
          clients := Function.update s.clients selected.name (some inf.getQuota)
          timeline := s.timeline.record selected.name inf.getQuota.quota (msSinceStart cfg now)
          daemon := .granted selected inf.getQuota.quota
          grant := some ⟨selected.name, now, inf.getQuota.quota, false⟩
          clock := now }
    else none
  | _ => none

def send : Option State :=
  match s.daemon with
  | .granted selected quota =>
    some { s with
      daemon := .sent selected quota
      answers := s.answers ++ [⟨selected, quota, s.descriptors selected.socket⟩] }
  | _ => none

def arm (now : ℕ) : Option State :=
  match s.daemon with
  | .sent selected quota =>
    if s.clock ≤ now then
      some { s with daemon := .armed selected (getTimespecAfter (.ofNs now) quota), clock := now }
    else none
  | _ => none

def block : Option State :=
  match s.daemon with
  | .armed selected deadline => some { s with daemon := .holding selected deadline false }
  | _ => none

def wake (now : ℕ) (timedOut : Bool) : Option State :=
  if s.clock ≤ now then
    match s.daemon with
    | .waiting _ => if timedOut then none else some { s with daemon := .top, clock := now }
    | .holding selected deadline _ =>
      if timedOut then
        if deadline.toNs ≤ now then some { s with daemon := .top, clock := now } else none
      -- check if the selected one comes back
      else if s.candidates.any fun c => c.name = selected.name then some { s with daemon := .top, clock := now }
      else some { s with daemon := .holding selected deadline false, clock := now }
    | _ => none
  else none

/-- One event. -/
def step : Event → Option State
  | .accept socket => s.accept socket
  | .request conn name reqId overuse burst now => s.request cfg conn name reqId overuse burst now
  | .enqueue conn now => s.enqueue cfg conn now
  | .hangUp conn => s.hangUp conn
  | .configure name minf maxf gpuMemLimit => s.configure cfg name minf maxf gpuMemLimit
  | .select now ts order => s.select cfg now ts order
  | .record now => s.record cfg now
  | .send => s.send
  | .arm now => s.arm now
  | .block => s.block
  | .wake now timedOut => s.wake now timedOut

/-! ## What each event can do -/

section

variable {cfg : Config} {s s' : State}

theorem accept_some {socket : ℕ} (h : s.accept socket = some s') : s.descriptors socket = none ∧
    s' = { s with
      descriptors := Function.update s.descriptors socket (some s.nextConn)
      handlers := Function.update s.handlers s.nextConn (some ⟨socket, none⟩)
      nextConn := s.nextConn + 1 } := by
  unfold accept at h
  split at h
  · rename_i hn; cases h; exact ⟨hn, rfl⟩
  · cases h

/-- A request of an unknown client only takes time; any other reports its overuse and its burst. -/
theorem request_some {conn : ℕ} {name : String} {reqId : ℤ} {overuse burst : ℚ} {now : ℕ}
    (h : s.request cfg conn name reqId overuse burst now = some s') : s.clock ≤ now ∧
    ∃ socket, s.handlers conn = some ⟨socket, none⟩ ∧
      ((s.clients name = none ∧ s' = { s with clock := now }) ∨
       ∃ inf, s.clients name = some inf ∧ s' = { s with
          clients := Function.update s.clients name (some (inf.setBurst burst))
          timeline := s.timeline.updateReturnTime name overuse (msSinceStart cfg now)
          handlers := Function.update s.handlers conn (some ⟨socket, some (name, reqId)⟩)
          clock := now }) := by
  unfold request at h
  split at h
  · rename_i socket hh
    split at h
    · rename_i hc
      refine ⟨hc, socket, hh, ?_⟩
      split at h
      · rename_i hn; cases h; exact .inl ⟨hn, rfl⟩
      · rename_i inf hi; cases h; exact .inr ⟨inf, hi, rfl⟩
    · cases h
  · cases h

theorem enqueue_some {conn now : ℕ} (h : s.enqueue cfg conn now = some s') :
    s.clock ≤ now ∧ s.daemon.unlocked = true ∧ ∃ socket name reqId,
      s.handlers conn = some ⟨socket, some (name, reqId)⟩ ∧ s' = { s with
        candidates := s.candidates ++ [⟨socket, name, reqId, msSinceStart cfg now, conn⟩]
        daemon := s.daemon.signal
        handlers := Function.update s.handlers conn (some ⟨socket, none⟩)
        grant := s.grant.map fun g => if g.name = name then { g with returned := true } else g
        clock := now } := by
  unfold enqueue at h
  split at h
  · rename_i socket name reqId hh
    split at h
    · rename_i hc; cases h; exact ⟨hc.1, hc.2, socket, name, reqId, hh, rfl⟩
    · cases h
  · cases h

theorem hangUp_some {conn : ℕ} (h : s.hangUp conn = some s') :
    ∃ socket, s.handlers conn = some ⟨socket, none⟩ ∧ s' = { s with
      descriptors := Function.update s.descriptors socket none
      handlers := Function.update s.handlers conn none } := by
  unfold hangUp at h
  split at h
  · rename_i socket hh; cases h; exact ⟨socket, hh, rfl⟩
  · cases h

/-- A turn finds the daemon at the top of its loop or asleep in `select_candidate`. -/
theorem select_some {now : ℕ} {ts : List ContainerTimestamp} {order : List ValidCandidate}
    (h : s.select cfg now ts order = some s') :
    s.clock ≤ now ∧ (s.daemon = .top ∨ ∃ w b, s.daemon = .sleeping w b) ∧
    ((s.candidates = [] ∧ s' = { s with daemon := .waiting false, clock := now }) ∨
     (∃ c rest,
        selectPass cfg.windowSize s.clients s.timeline.historyList s.candidates (msSinceStart cfg now) ts order =
          some (.selected c rest) ∧ s' = { s with
          timeline := s.timeline.prune (msSinceStart cfg now - cfg.windowSize) (msSinceStart cfg now)
          candidates := rest, daemon := .chosen c, clock := now }) ∨
     ∃ ms, s' = { s with
          timeline := s.timeline.prune (msSinceStart cfg now - cfg.windowSize) (msSinceStart cfg now)
          daemon := .sleeping (getTimespecAfter (.ofNs now) ms) false, clock := now }) := by
  have hturn : s.turn cfg now ts order = some s' →
      (∃ c rest,
        selectPass cfg.windowSize s.clients s.timeline.historyList s.candidates (msSinceStart cfg now) ts order =
          some (.selected c rest) ∧ s' = { s with
          timeline := s.timeline.prune (msSinceStart cfg now - cfg.windowSize) (msSinceStart cfg now)
          candidates := rest, daemon := .chosen c, clock := now }) ∨
      ∃ ms, s' = { s with
          timeline := s.timeline.prune (msSinceStart cfg now - cfg.windowSize) (msSinceStart cfg now)
          daemon := .sleeping (getTimespecAfter (.ofNs now) ms) false, clock := now } := by
    intro h
    unfold turn at h
    simp only at h
    split at h
    · rename_i c rest hp; cases h; exact .inl ⟨c, rest, hp, rfl⟩
    · rename_i ms _; cases h; exact .inr ⟨ms, rfl⟩
    · cases h
  unfold select at h
  split at h
  · rename_i hc
    split at h
    · rename_i hd
      split at h
      · rename_i hn; cases h; exact ⟨hc, .inl hd, .inl ⟨hn, rfl⟩⟩
      · exact ⟨hc, .inl hd, .inr (hturn h)⟩
    · rename_i w b hd; exact ⟨hc, .inr ⟨w, b, hd⟩, .inr (hturn h)⟩
    · cases h
  · cases h

theorem record_some {now : ℕ} (h : s.record cfg now = some s') :
    s.clock ≤ now ∧ ∃ selected inf, s.daemon = .chosen selected ∧ s.clients selected.name = some inf ∧ s' = { s with
      clients := Function.update s.clients selected.name (some inf.getQuota)
      timeline := s.timeline.record selected.name inf.getQuota.quota (msSinceStart cfg now)
      daemon := .granted selected inf.getQuota.quota
      grant := some ⟨selected.name, now, inf.getQuota.quota, false⟩
      clock := now } := by
  unfold record at h
  split at h
  · rename_i selected hd
    split at h
    · rename_i hc
      obtain ⟨inf, hi, rfl⟩ := Option.map_eq_some_iff.1 h
      exact ⟨hc, selected, inf, hd, hi, rfl⟩
    · cases h
  · cases h

theorem send_some (h : s.send = some s') : ∃ selected quota, s.daemon = .granted selected quota ∧ s' = { s with
    daemon := .sent selected quota
    answers := s.answers ++ [⟨selected, quota, s.descriptors selected.socket⟩] } := by
  unfold send at h
  split at h
  · rename_i selected quota hd; cases h; exact ⟨selected, quota, hd, rfl⟩
  · cases h

theorem arm_some {now : ℕ} (h : s.arm now = some s') : s.clock ≤ now ∧ ∃ selected quota,
    s.daemon = .sent selected quota ∧
    s' = { s with daemon := .armed selected (getTimespecAfter (.ofNs now) quota), clock := now } := by
  unfold arm at h
  split at h
  · rename_i selected quota hd
    split at h
    · rename_i hc; cases h; exact ⟨hc, selected, quota, hd, rfl⟩
    · cases h
  · cases h

theorem block_some (h : s.block = some s') : ∃ selected deadline, s.daemon = .armed selected deadline ∧
    s' = { s with daemon := .holding selected deadline false } := by
  unfold block at h
  split at h
  · rename_i selected deadline hd; cases h; exact ⟨selected, deadline, hd, rfl⟩
  · cases h

/-- A wake-up leads back to the top of the loop, out of the wait for a token only after its
deadline or with a request of its holder queued; with none queued the wait goes on. -/
theorem wake_some {now : ℕ} {timedOut : Bool} (h : s.wake now timedOut = some s') : s.clock ≤ now ∧
    ((∃ b, s.daemon = .waiting b ∧ s' = { s with daemon := .top, clock := now }) ∨
     ∃ selected deadline b, s.daemon = .holding selected deadline b ∧
      ((deadline.toNs ≤ now ∧ s' = { s with daemon := .top, clock := now }) ∨
       ((∃ c ∈ s.candidates, c.name = selected.name) ∧ s' = { s with daemon := .top, clock := now }) ∨
       ((∀ c ∈ s.candidates, c.name ≠ selected.name) ∧
         s' = { s with daemon := .holding selected deadline false, clock := now }))) := by
  unfold wake at h
  split at h
  · rename_i hc
    refine ⟨hc, ?_⟩
    split at h
    · rename_i b hd
      split at h
      · cases h
      · cases h; exact .inl ⟨b, hd, rfl⟩
    · rename_i selected deadline b hd
      refine .inr ⟨selected, deadline, b, hd, ?_⟩
      split at h
      · split at h
        · rename_i hle; cases h; exact .inl ⟨hle, rfl⟩
        · cases h
      · split at h
        · rename_i hany; cases h; exact .inr (.inl ⟨by simpa using hany, rfl⟩)
        · rename_i hany; cases h; exact .inr (.inr ⟨by simpa using hany, rfl⟩)
    · cases h
  · cases h

/-- What changes of the threads that serve connections leaves those still to be accepted without one. -/
theorem fresh_update (h : ∀ conn, s.nextConn ≤ conn → s.handlers conn = none) {conn : ℕ} {handler : Handler}
    (hh : s.handlers conn = some handler) (v : Option Handler) :
    ∀ k, s.nextConn ≤ k → Function.update s.handlers conn v k = none := by
  intro k hk
  have hne : k ≠ conn := by
    rintro rfl
    rw [h k hk] at hh
    cases hh
  rw [Function.update_of_ne hne, h k hk]

/-! ## Known clients -/

/-- What is queued, or about to be, is of clients that `client_info_map` has. -/
structure Known (s : State) : Prop where
  queued : ∀ c ∈ s.candidates, ∃ inf, s.clients c.name = some inf
  pending : ∀ conn socket name reqId, s.handlers conn = some ⟨socket, some (name, reqId)⟩ →
    ∃ inf, s.clients name = some inf

theorem known_init : Known init := ⟨by simp [init], by simp [init]⟩

/-- Clients are updated and added, never removed. -/
theorem known_update {name k : String} {inf : ClientInfo} (h : ∃ inf, s.clients k = some inf) :
    ∃ i, Function.update s.clients name (some inf) k = some i := by
  by_cases hk : k = name
  · exact ⟨inf, by rw [hk, Function.update_self]⟩
  · rwa [Function.update_of_ne hk]

/-- A handler that is changed and has nothing to enqueue leaves no more to enqueue than before. -/
theorem Known.pending_update (h : s.Known) {conn : ℕ} {handler : Option Handler} (hh : ∀ x ∈ handler, x.pending = none)
    {k socket : ℕ} {name : String} {reqId : ℤ}
    (hk : Function.update s.handlers conn handler k = some ⟨socket, some (name, reqId)⟩) :
    ∃ inf, s.clients name = some inf := by
  by_cases hkc : k = conn
  · rw [hkc, Function.update_self] at hk
    cases hh _ hk
  · rw [Function.update_of_ne hkc] at hk
    exact h.pending k socket name reqId hk

theorem Known.request (h : s.Known) {conn : ℕ} {name : String} {reqId : ℤ} {overuse burst : ℚ} {now : ℕ}
    (hs : s.request cfg conn name reqId overuse burst now = some s') : s'.Known := by
  obtain ⟨-, socket, -, ⟨-, rfl⟩ | ⟨inf, hi, rfl⟩⟩ := request_some hs
  · exact ⟨h.queued, h.pending⟩
  · refine ⟨fun c hc => known_update (h.queued c hc), fun k so n r hk => known_update ?_⟩
    by_cases hkc : k = conn
    · simp [hkc] at hk
      exact ⟨inf, hk.2.1 ▸ hi⟩
    · exact h.pending k so n r (by simpa [Function.update_of_ne hkc] using hk)

theorem Known.enqueue (h : s.Known) {conn now : ℕ} (hs : s.enqueue cfg conn now = some s') : s'.Known := by
  obtain ⟨-, -, socket, name, reqId, hh, rfl⟩ := enqueue_some hs
  refine ⟨fun c hc => ?_, fun k so n r hk => h.pending_update (by simp) hk⟩
  rcases List.mem_append.1 hc with hc | hc
  · exact h.queued c hc
  · rw [List.mem_singleton.1 hc]; exact h.pending conn socket name reqId hh

theorem Known.select (h : s.Known) {now : ℕ} {ts : List ContainerTimestamp} {order : List ValidCandidate}
    (hs : s.select cfg now ts order = some s') : s'.Known := by
  obtain ⟨-, -, ⟨-, rfl⟩ | ⟨c, rest, hp, rfl⟩ | ⟨ms, rfl⟩⟩ := select_some hs
  · exact ⟨h.queued, h.pending⟩
  · obtain ⟨i, -, rfl⟩ := selectPass_mem hp
    exact ⟨fun d hd => h.queued d (List.mem_of_mem_eraseIdx hd), h.pending⟩
  · exact ⟨h.queued, h.pending⟩

theorem Known.step (h : s.Known) {e : Event} (hs : s.step cfg e = some s') : s'.Known := by
  cases e with
  | accept socket =>
    obtain ⟨-, rfl⟩ := accept_some hs
    exact ⟨h.queued, fun k so n r hk => h.pending_update (by simp) hk⟩
  | request conn name reqId overuse burst now => exact h.request hs
  | enqueue conn now => exact h.enqueue hs
  | hangUp conn =>
    obtain ⟨socket, -, rfl⟩ := hangUp_some hs
    exact ⟨h.queued, fun k so n r hk => h.pending_update (by simp) hk⟩
  | configure name minf maxf mem =>
    cases hs
    exact ⟨fun c hc => known_update (h.queued c hc), fun k so n r hk => known_update (h.pending k so n r hk)⟩
  | select now ts order => exact h.select hs
  | record now =>
    obtain ⟨-, selected, inf, -, -, rfl⟩ := record_some hs
    exact ⟨fun c hc => known_update (h.queued c hc), fun k so n r hk => known_update (h.pending k so n r hk)⟩
  | send => obtain ⟨selected, quota, -, rfl⟩ := send_some hs; exact ⟨h.queued, h.pending⟩
  | arm now => obtain ⟨-, selected, quota, -, rfl⟩ := arm_some hs; exact ⟨h.queued, h.pending⟩
  | block => obtain ⟨selected, deadline, -, rfl⟩ := block_some hs; exact ⟨h.queued, h.pending⟩
  | wake now timedOut =>
    obtain ⟨-, ⟨b, -, rfl⟩ | ⟨selected, deadline, b, -, ⟨-, rfl⟩ | ⟨-, rfl⟩ | ⟨-, rfl⟩⟩⟩ := wake_some hs <;>
      exact ⟨h.queued, h.pending⟩

/-! ## What is configured -/

/-- A client that a step leaves or updates, and one that it configures. -/
theorem clients_step {e : Event} {name : String} {inf : ClientInfo} (hs : s.step cfg e = some s')
    (hi : s'.clients name = some inf) :
    (∃ old, s.clients name = some old ∧ old.settings = inf.settings) ∨
      ∃ minf maxf gpuMemLimit, e = .configure name minf maxf gpuMemLimit ∧
        inf.settings = (minf, maxf, gpuMemLimit) := by
  have hsame : s'.clients = s.clients → ∃ old, s.clients name = some old ∧ old.settings = inf.settings :=
    fun h => ⟨inf, h ▸ hi, rfl⟩
  have hupdate : ∀ {k : String} {old new : ClientInfo}, s.clients k = some old →
      s'.clients = Function.update s.clients k (some new) → new.settings = old.settings →
      ∃ old, s.clients name = some old ∧ old.settings = inf.settings := by
    intro k old new hk hc hl
    rw [hc] at hi
    by_cases hn : name = k
    · subst hn
      rw [Function.update_self] at hi
      cases hi
      exact ⟨old, hk, hl.symm⟩
    · rw [Function.update_of_ne hn] at hi
      exact ⟨inf, hi, rfl⟩
  cases e with
  | accept socket => obtain ⟨-, rfl⟩ := accept_some hs; exact .inl (hsame rfl)
  | request c n reqId overuse burst now =>
    obtain ⟨-, socket, -, ⟨-, rfl⟩ | ⟨old, ho, rfl⟩⟩ := request_some hs
    · exact .inl (hsame rfl)
    · exact .inl (hupdate ho rfl rfl)
  | enqueue c now => obtain ⟨-, -, _, _, _, -, rfl⟩ := enqueue_some hs; exact .inl (hsame rfl)
  | hangUp c => obtain ⟨_, -, rfl⟩ := hangUp_some hs; exact .inl (hsame rfl)
  | configure n minf maxf gpuMemLimit =>
    cases hs
    by_cases hn : name = n
    · subst hn
      simp only [Function.update_self, Option.some.injEq] at hi
      subst hi
      exact .inr ⟨minf, maxf, gpuMemLimit, rfl, rfl⟩
    · simp only [Function.update_of_ne hn] at hi
      exact .inl ⟨inf, hi, rfl⟩
  | select now ts order =>
    obtain ⟨-, -, ⟨-, rfl⟩ | ⟨_, _, -, rfl⟩ | ⟨_, rfl⟩⟩ := select_some hs <;> exact .inl (hsame rfl)
  | record now =>
    obtain ⟨-, selected, old, -, ho, rfl⟩ := record_some hs
    exact .inl (hupdate ho rfl old.settings_getQuota)
  | send => obtain ⟨_, _, -, rfl⟩ := send_some hs; exact .inl (hsame rfl)
  | arm now => obtain ⟨-, _, _, -, rfl⟩ := arm_some hs; exact .inl (hsame rfl)
  | block => obtain ⟨_, _, -, rfl⟩ := block_some hs; exact .inl (hsame rfl)
  | wake now timedOut =>
    obtain ⟨-, ⟨_, -, rfl⟩ | ⟨_, _, _, -, ⟨-, rfl⟩ | ⟨-, rfl⟩ | ⟨-, rfl⟩⟩⟩ := wake_some hs <;>
      exact .inl (hsame rfl)

end

end State

end Gemini.Scheduler
