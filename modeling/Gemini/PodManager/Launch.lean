/-
The pod manager as a transition system: a thread for each hook library (`hook_thread_func` with
`hook_kernel_launch`), and the two threads that forward requests to the scheduler and take its
responses. Every section under a mutex and every stretch of code without one is a step of its own.
A thread blocked on a condition variable may also wake up by itself. A hook thread is named by its
socket. The scheduler answers the requests it holds in any order.
-/
import Gemini.Chrono
import Gemini.Lib.Assoc

namespace Gemini.PodManager

open Gemini.Lib

/-! ## States -/

/-- Where a hook thread stands in `hook_kernel_launch`. -/
inductive HookThread where
  /-- there is no connection -/
  | closed
  /-- in `recv` -/
  | idle
  /-- at the top of the loop that waits for the quota state -/
  | check (overuse burst : ℚ)
  /-- blocked on `quota_state_cond` -/
  | waitState (overuse burst : ℚ) (woken : Bool)
  /-- before the update of `pod_overuse_ms` -/
  | merge (overuse burst : ℚ)
  /-- before the update of `client_burst_map` -/
  | stat (burst : ℚ)
  /-- before the test whether the quota suffices -/
  | decide (burst : ℚ)
  /-- before `quota_state = 1` -/
  | set
  /-- before the maximum over `client_burst_map` -/
  | estimate
  /-- before the push on `request_queue` -/
  | enqueue (maxBurst : ℚ)
  /-- at the top of the loop that waits for the response -/
  | await (reqId : ℕ)
  /-- blocked on `rsp_map_cond` -/
  | waitRsp (reqId : ℕ) (woken : Bool)
  /-- before `quota_state = 0`; the ghost `setter` says that it has made a request -/
  | finish (elapsed : ℚ) (setter : Bool)
  /-- before the return -/
  | ret (elapsed : ℚ)
deriving DecidableEq, Repr

namespace HookThread

/-- `pthread_cond_broadcast(&quota_state_cond)`. -/
def wakeState : HookThread → HookThread
  | .waitState overuse burst _ => .waitState overuse burst true
  | h => h

/-- The thread is not in `hook_kernel_launch`, or at its first step. -/
def outside : HookThread → Bool
  | .closed => true
  | .idle => true
  | .check _ _ => true
  | _ => false

/-- `pthread_cond_broadcast(&rsp_map_cond)`. -/
def wakeRsp : HookThread → HookThread
  | .waitRsp reqId _ => .waitRsp reqId true
  | h => h

end HookThread

/-- Where `scheduler_thread_send_func` stands. -/
inductive Sender where
  /-- at the top of its loop -/
  | top
  /-- blocked on `req_queue_cond` -/
  | waiting (woken : Bool)
deriving DecidableEq, Repr

/-- `pthread_cond_signal(&req_queue_cond)`. -/
def Sender.signal : Sender → Sender
  | .top => .top
  | .waiting _ => .waiting true

/-- A REQ_QUOTA. -/
structure Request where
  reqId : ℕ
  overuse : ℚ
  burst : ℚ
deriving DecidableEq, Repr

/-- The pod manager; `inFlight` are the requests the scheduler holds, and `returned` what
`hook_kernel_launch` has returned. -/
structure State where
  threads : ℕ → HookThread
  sender : Sender
  quotaState : ℤ
  podOveruseMs : ℚ
  clientBurstMap : List (ℕ × ℚ)
  podQuota : ℚ
  quotaUpdatedTp : ℤ
  reqCnt : ℕ
  requestQueue : List Request
  inFlight : List Request
  responseMap : List (ℕ × ℚ)
  returned : List (ℕ × ℚ)
  clock : ℤ

def State.init : State := ⟨fun _ => .closed, .top, 0, 0, [], 0, 0, 0, [], [], [], [], 0⟩

/-- The largest burst of a client. -/
def maxBurst (m : List (ℕ × ℚ)) : ℚ := m.foldl (fun b e => max e.2 b) 0

/-! ## Steps -/

inductive Event where
  /-- `accept` returns `t` -/
  | accept (t : ℕ)
  /-- `recv` has returned no more -/
  | hangUp (t : ℕ)
  /-- a REQ_QUOTA of the hook library -/
  | request (t : ℕ) (overuse burst : ℚ)
  /-- the next step of `hook_kernel_launch` -/
  | advance (t : ℕ) (now : ℤ)
  /-- the next step of `scheduler_thread_send_func` -/
  | forward
  /-- a response of the scheduler, up to the end of the loop of `scheduler_thread_recv_func` -/
  | reply (reqId : ℕ) (quota : ℚ)
deriving DecidableEq, Repr

namespace State

variable (s : State)

def goto (t : ℕ) (h : HookThread) : State := { s with threads := Function.update s.threads t h }

def accept (t : ℕ) : Option State :=
  if s.threads t = .closed then
    some { s.goto t .idle with clientBurstMap := insertNew t 0 s.clientBurstMap }
  else none

def hangUp (t : ℕ) : Option State :=
  if s.threads t = .idle then
    some { s.goto t .closed with clientBurstMap := eraseKey t s.clientBurstMap }
  else none

def request (t : ℕ) (overuse burst : ℚ) : Option State :=
  if s.threads t = .idle then some (s.goto t (.check overuse burst)) else none

/-- `hook_kernel_launch`, step by step. -/
def launch (t : ℕ) (now : ℤ) : Option State :=
  match s.threads t with
  | .closed => none
  | .idle => none
  -- wait if someone else is working with quota
  | .check overuse burst =>
    some (if s.quotaState = 0 then s.goto t (.merge overuse burst) else s.goto t (.waitState overuse burst false))
  | .waitState overuse burst _ => some (s.goto t (.check overuse burst))
  | .merge overuse burst => some { s.goto t (.stat burst) with podOveruseMs := max overuse s.podOveruseMs }
  | .stat burst => some { s.goto t (.decide burst) with clientBurstMap := assign t burst s.clientBurstMap }
  | .decide burst =>
    let elapsedTime := toMs (since s.quotaUpdatedTp now)
    some (if s.podQuota < elapsedTime + burst then s.goto t .set else s.goto t (.finish elapsedTime false))
  | .set => some { s.goto t .estimate with quotaState := 1 }
  | .estimate => some (s.goto t (.enqueue (maxBurst s.clientBurstMap)))
  | .enqueue burst =>
    some { s.goto t (.await s.reqCnt) with
      requestQueue := s.requestQueue ++ [⟨s.reqCnt, s.podOveruseMs, burst⟩]
      reqCnt := s.reqCnt + 1
      sender := s.sender.signal }
  | .await reqId => some (s.goto t (.waitRsp reqId false))
  | .waitRsp reqId _ =>
    match s.responseMap.lookup reqId with
    | some quota =>
      some { s.goto t (.finish 0 true) with
        podQuota := quota
        quotaUpdatedTp := now
        podOveruseMs := 0
        responseMap := eraseKey reqId s.responseMap }
    | none => some (s.goto t (.await reqId))
  | .finish elapsed _ =>
    some { s with
      quotaState := 0
      threads := Function.update (fun u => (s.threads u).wakeState) t (.ret elapsed) }
  | .ret elapsed => some { s.goto t .idle with returned := s.returned ++ [(t, s.podQuota - elapsed)] }

def advance (t : ℕ) (now : ℤ) : Option State :=
  if s.clock ≤ now then (s.launch t now).map fun s' => { s' with clock := now } else none

def forward : Option State :=
  match s.sender with
  | .top => some { s with sender := .waiting false }
  | .waiting _ =>
    match s.requestQueue with
    | [] => some { s with sender := .top }
    | r :: rest => some { s with sender := .top, requestQueue := rest, inFlight := s.inFlight ++ [r] }

def reply (reqId : ℕ) (quota : ℚ) : Option State :=
  if s.inFlight.any (fun r => r.reqId = reqId) then
    some { s with
      inFlight := s.inFlight.eraseP fun r => r.reqId = reqId
      responseMap := insertNew reqId quota s.responseMap
      threads := fun u => (s.threads u).wakeRsp }
  else none

def step : Event → Option State
  | .accept t => s.accept t
  | .hangUp t => s.hangUp t
  | .request t overuse burst => s.request t overuse burst
  | .advance t now => s.advance t now
  | .forward => s.forward
  | .reply reqId quota => s.reply reqId quota

/-- Thread `t` makes `n` steps, and then `es` follow. -/
def steps (t n : ℕ) (es : List Event) : List Event := List.replicate n (.advance t 0) ++ es

/-! ## What a step of a hook thread can do -/

section

variable {s s' : State} {t : ℕ} {now : ℤ}

/-- A step of a hook thread outside of `hook_kernel_launch`: it is started, ends, or receives a
request. -/
structure Around (t : ℕ) (s s' : State) : Prop where
  before : (s.threads t).outside = true
  after : ∃ h m, h.outside = true ∧ s' = { s.goto t h with clientBurstMap := m }

theorem accept_some (hs : s.accept t = some s') : Around t s s' := by
  unfold accept at hs
  split at hs
  · rename_i ht; cases hs
    exact ⟨by rw [ht]; rfl, .idle, _, rfl, rfl⟩
  · cases hs

theorem hangUp_some (hs : s.hangUp t = some s') : Around t s s' := by
  unfold hangUp at hs
  split at hs
  · rename_i ht; cases hs
    exact ⟨by rw [ht]; rfl, .closed, _, rfl, rfl⟩
  · cases hs

theorem request_some {overuse burst : ℚ} (hs : s.request t overuse burst = some s') : Around t s s' := by
  unfold request at hs
  split at hs
  · rename_i ht; cases hs
    exact ⟨by rw [ht]; rfl, .check overuse burst, _, rfl, rfl⟩
  · cases hs

/-- Time passes, and then the thread makes its step. -/
theorem advance_some (hs : s.advance t now = some s') :
    ∃ s₁, s.launch t now = some s₁ ∧ s' = { s₁ with clock := now } := by
  unfold advance at hs
  split at hs
  · obtain ⟨s₁, hs₁, rfl⟩ := Option.map_eq_some_iff.1 hs
    exact ⟨s₁, hs₁, rfl⟩
  · cases hs

/-- `pod_overuse_ms` after a step of a thread that stands at `h`: it is merged with a report, and
cleared when a response is taken. -/
def overuseAfter (s : State) : HookThread → ℚ
  | .merge overuse _ => max overuse s.podOveruseMs
  | .waitRsp reqId _ => if s.responseMap.lookup reqId = none then s.podOveruseMs else 0
  | _ => s.podOveruseMs

/-- What a step of `hook_kernel_launch` on thread `t` does to the other threads, to the requests, to
the responses and to the overuse of the pod. -/
structure Launched (t : ℕ) (s s' : State) : Prop where
  /-- another thread is left alone, or woken up when the quota state is reset -/
  threads : ∀ u ≠ t, s'.threads u = s.threads u ∨ s'.threads u = (s.threads u).wakeState
  /-- the thread blocks on `rsp_map_cond` from the top of its loop -/
  blocks : ∀ reqId woken, s'.threads t = .waitRsp reqId woken → s.threads t = .await reqId ∧
    s'.responseMap = s.responseMap
  /-- a response is taken by the thread that waits for it -/
  responses : s'.responseMap = s.responseMap ∨ ∃ reqId, s'.responseMap = eraseKey reqId s.responseMap
  /-- a request is queued together with the signal to the sender -/
  requests : (s'.requestQueue = s.requestQueue ∧ s'.sender = s.sender) ∨
    ∃ burst, s.threads t = .enqueue burst ∧
      s'.requestQueue = s.requestQueue ++ [⟨s.reqCnt, s.podOveruseMs, burst⟩] ∧ s'.sender = s.sender.signal
  overuse : s'.podOveruseMs = s.overuseAfter (s.threads t)

/-- A step that only moves the thread on, and not into the wait for its response. -/
theorem Launched.of_goto {h : HookThread} (ht : s'.threads = Function.update s.threads t h)
    (hw : ∀ reqId woken, h ≠ .waitRsp reqId woken) (hm : s'.responseMap = s.responseMap)
    (hq : s'.requestQueue = s.requestQueue) (hsd : s'.sender = s.sender)
    (ho : s'.podOveruseMs = s.overuseAfter (s.threads t)) : Launched t s s' := by
  refine ⟨fun u hu => .inl ?_, fun reqId woken hr => ?_, .inl hm, .inl ⟨hq, hsd⟩, ho⟩
  · rw [ht, Function.update_of_ne hu]
  · rw [ht, Function.update_self] at hr
    exact absurd hr (hw reqId woken)

theorem launch_some (hs : s.launch t now = some s') : Launched t s s' := by
  unfold launch at hs
  cases ht : s.threads t with
  | closed => rw [ht] at hs; cases hs
  | idle => rw [ht] at hs; cases hs
  | check overuse burst =>
    simp only [ht] at hs; cases hs
    split <;> exact .of_goto rfl nofun rfl rfl rfl (by rw [ht]; rfl)
  | waitState overuse burst woken =>
    simp only [ht] at hs; cases hs
    exact .of_goto rfl nofun rfl rfl rfl (by rw [ht]; rfl)
  | merge overuse burst =>
    simp only [ht] at hs; cases hs
    exact .of_goto rfl nofun rfl rfl rfl (by rw [ht]; rfl)
  | stat burst =>
    simp only [ht] at hs; cases hs
    exact .of_goto rfl nofun rfl rfl rfl (by rw [ht]; rfl)
  | decide burst =>
    simp only [ht] at hs; cases hs
    split <;> exact .of_goto rfl nofun rfl rfl rfl (by rw [ht]; rfl)
  | set =>
    simp only [ht] at hs; cases hs
    exact .of_goto rfl nofun rfl rfl rfl (by rw [ht]; rfl)
  | estimate =>
    simp only [ht] at hs; cases hs
    exact .of_goto rfl nofun rfl rfl rfl (by rw [ht]; rfl)
  | enqueue burst =>
    simp only [ht] at hs; cases hs
    have hq : Launched t s (s.goto t (.await s.reqCnt)) := .of_goto rfl nofun rfl rfl rfl (by rw [ht]; rfl)
    exact ⟨hq.threads, hq.blocks, hq.responses, .inr ⟨burst, ht, rfl, rfl⟩, hq.overuse⟩
  | await reqId =>
    simp only [ht] at hs; cases hs
    refine ⟨fun u hu => .inl (Function.update_of_ne hu ..), fun r woken hr => ?_, .inl rfl, .inl ⟨rfl, rfl⟩,
      by rw [ht]; rfl⟩
    simp only [goto, Function.update_self, HookThread.waitRsp.injEq] at hr
    exact ⟨by rw [ht, hr.1], rfl⟩
  | waitRsp reqId woken =>
    simp only [ht] at hs
    cases hl : s.responseMap.lookup reqId with
    | none =>
      simp only [hl] at hs; cases hs
      exact .of_goto rfl nofun rfl rfl rfl (by simp [ht, overuseAfter, hl, goto])
    | some quota =>
      simp only [hl] at hs; cases hs
      refine ⟨fun u hu => .inl (Function.update_of_ne hu ..), fun r w hr => ?_, .inr ⟨reqId, rfl⟩, .inl ⟨rfl, rfl⟩, ?_⟩
      · simp [goto] at hr
      · simp [ht, overuseAfter, hl]
  | finish elapsed setter =>
    simp only [ht] at hs; cases hs
    refine ⟨fun u hu => .inr ?_, fun r woken hr => ?_, .inl rfl, .inl ⟨rfl, rfl⟩,
      by rw [ht]; rfl⟩
    · simp only [Function.update_of_ne hu]
    · simp at hr
  | ret elapsed =>
    simp only [ht] at hs; cases hs
    exact .of_goto rfl nofun rfl rfl rfl (by rw [ht]; rfl)

end

end State

end Gemini.PodManager
