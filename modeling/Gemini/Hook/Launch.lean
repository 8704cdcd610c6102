/-
The hook library of one process as a transition system: `cuLaunchKernel_prehook`, one launch at a
time under `expiration_status_mutex`, the calls of other threads that synchronise with a device
(`host_sync_call`), and the overuse tracking thread (`wait_cuda_kernels`). Every section under a
mutex of a predictor or of the tracking and every stretch of code without one is a step of its own.
A thread blocked on a condition variable may also wake up by itself. `steady_clock` and
`CLOCK_MONOTONIC` are one clock, which does not go back.
-/
import Gemini.Prediction.Predictor

namespace Gemini.Hook

open Gemini.Prediction

/-! ## Functions without side effects -/

/-- The devices that the arrays of predictors cover. -/
abbrev Device := Fin 2

/-- `SCHD_OVERHEAD`, in milliseconds. -/
def schdOverhead : ℚ := 2

/-- `us_since`: the seconds and the nanoseconds of the two times are subtracted apart. -/
def usSince (start now : ℤ) : ℤ :=
  (now / 1000000000 - start / 1000000000) * 1000000 + (now % 1000000000 - start % 1000000000).tdiv 1000

def estimateFullBurst (measuredBurst measuredWindow : ℚ) : ℚ :=
  if measuredBurst < 1 / 1000000000 then 0
  -- the application may be in the middle of a burst
  else if measuredWindow < schdOverhead then measuredBurst * 2
  else measuredBurst

/-- What `get_token_from_scheduler` returns for the quota in the response: the read is commented out. -/
def newQuota (_quota : ℚ) : ℚ := 6000

/-- The time at which `wait_cuda_kernels` takes the token for expired. -/
def expiration (quotaTime : ℚ) (now : ℤ) : ℤ := now + ⌊max quotaTime 0 * 1000000⌋

/-! ## States -/

/-- Where the launch that holds `expiration_status_mutex` stands. -/
inductive Launcher where
  /-- in `initialize`, with the request for the first of these devices sent -/
  | firstTokens (devices : List Device)
  /-- the mutex is free -/
  | free
  /-- before the test of `ongoing_unmerged` -/
  | locked
  /-- before `us_since` -/
  | timing
  /-- before `predict_unmerged`; `us_since` has read the clock at `time` -/
  | predicting (time : ℤ)
  /-- before `predict_merged` of the burst -/
  | estimating
  /-- before `predict_merged` of the window -/
  | estimatingWindow (measuredBurst : ℚ)
  /-- before the test of `overuse_trk_cmpl` -/
  | tracking (nextBurst : ℚ)
  /-- blocked on `overuse_trk_cmpl_cond` -/
  | waitCmpl (nextBurst : ℚ) (woken : Bool)
  /-- before `interrupt` of the window -/
  | interrupting (nextBurst : ℚ)
  /-- in `get_token_from_scheduler`, with the request sent -/
  | requesting (nextBurst : ℚ)
  /-- before `overuse_trk_cmpl = false` -/
  | notifying
  /-- before `record_start` of the burst -/
  | starting
deriving DecidableEq, Repr

namespace Launcher

/-- `pthread_once` keeps every call waiting. -/
def initializing : Launcher → Bool
  | .firstTokens _ => true
  | _ => false

/-- `pthread_cond_broadcast(&overuse_trk_cmpl_cond)`. -/
def wakeCmpl : Launcher → Launcher
  | .waitCmpl nextBurst _ => .waitCmpl nextBurst true
  | l => l

end Launcher

/-- Where `wait_cuda_kernels` stands. -/
inductive Tracker where
  /-- at the top of its loop -/
  | top
  /-- blocked on `overuse_trk_strt_cond` -/
  | waitStrt (woken : Bool)
  /-- before the read of `quota_time` -/
  | arming
  /-- blocked on `overuse_trk_intr_cond` -/
  | waitIntr (expires : ℤ) (woken : Bool)
  /-- in `cudaEventSynchronize` -/
  | synchronizing
  /-- in `host_sync_call`, before `record_start` of the window -/
  | syncing
  /-- before the update of `overuse` -/
  | measuring
  /-- before `overuse_trk_cmpl = true` -/
  | completing
deriving DecidableEq, Repr

namespace Tracker

/-- `pthread_cond_signal(&overuse_trk_strt_cond)`. -/
def signalStrt : Tracker → Tracker
  | .waitStrt _ => .waitStrt true
  | t => t

/-- `pthread_cond_signal(&overuse_trk_intr_cond)`. -/
def signalIntr : Tracker → Tracker
  | .waitIntr expires _ => .waitIntr expires true
  | t => t

end Tracker

/-- A response to a REQ_QUOTA: when it came, and the quota it carries. -/
structure Token where
  time : ℤ
  quota : ℚ
deriving DecidableEq, Repr

/-- A launch that began a burst without a request: when `us_since` read the clock, the predicted
burst, and the last token of the device. -/
structure LetThrough where
  device : Device
  time : ℤ
  burst : ℚ
  token : Option Token
deriving DecidableEq, Repr

/-- The hook library. `device` is that of the launch that holds the mutex; `arrived` are the
launches that wait for it, and `syncing` the threads in the middle of `host_sync_call`. What the
tokens carried and which launches were let through is remembered for the statements only. -/
structure State where
  launcher : Launcher
  device : Device
  arrived : Device → ℕ
  syncing : Device → ℕ
  tracker : Tracker
  trackerDevice : Device
  burst : Device → Predictor
  window : Device → Predictor
  quotaTime : Device → ℚ
  overuse : Device → ℚ
  requestStart : ℤ
  overuseTrkCmpl : Bool
  clock : ℤ
  token : Device → Option Token
  letThrough : List LetThrough

/-- In `initialize`, before the first tokens of these devices. -/
def State.init (devices : List Device) : State where
  launcher := .firstTokens devices
  device := 0
  arrived := fun _ => 0
  syncing := fun _ => 0
  tracker := .top
  trackerDevice := 0
  burst := fun _ => .new schdOverhead
  window := fun _ => .new 0
  quotaTime := fun _ => 0
  overuse := fun _ => 0
  requestStart := 0
  overuseTrkCmpl := true
  clock := 0
  token := fun _ => none
  letThrough := []

/-! ## Steps -/

inductive Event where
  /-- a launch, up to the lock of `expiration_status_mutex` -/
  | arrive (d : Device) (now : ℤ)
  /-- one of the launches that wait gets the mutex -/
  | lock (d : Device)
  /-- the next step of the launch that holds it -/
  | launch (now : ℤ)
  /-- the pod manager's response to a REQ_QUOTA, and the reading of the clock that follows -/
  | reply (quota : ℚ) (now : ℤ)
  /-- `record_stop` in `host_sync_call` -/
  | hostSync (d : Device) (now : ℤ)
  /-- `record_start` in `host_sync_call` -/
  | hostSynced (d : Device) (now : ℤ)
  /-- the next step of `wait_cuda_kernels`; `d` is its current device, and `elapsedMs` the time
  between the two events it measures -/
  | track (d : Device) (now : ℤ) (elapsedMs : ℚ)
deriving DecidableEq, Repr

namespace State

variable (s : State)

def goto (l : Launcher) : State := { s with launcher := l }

def modifyBurst (d : Device) (f : Predictor → Predictor) : State :=
  { s with burst := Function.update s.burst d (f (s.burst d)) }

def modifyWindow (d : Device) (f : Predictor → Predictor) : State :=
  { s with window := Function.update s.window d (f (s.window d)) }

def arrive (d : Device) (now : ℤ) : Option State :=
  if s.launcher.initializing then none
  else some { s.modifyWindow d (.recordStop now) with arrived := Function.update s.arrived d (s.arrived d + 1) }

def lock (d : Device) : Option State :=
  if s.launcher = .free ∧ 0 < s.arrived d then
    some { s.goto .locked with device := d, arrived := Function.update s.arrived d (s.arrived d - 1) }
  else none

/-- `cuLaunchKernel_prehook` under the mutex, step by step, but for the response to its request. -/
def launch (now : ℤ) : Option State :=
  match s.launcher with
  | .firstTokens devices => if devices = [] then some (s.goto .free) else none
  | .free => none
  -- allow the kernel to launch if kernel burst already begins
  | .locked => some (s.goto (if (s.burst s.device).ongoingUnmerged then .starting else .timing))
  | .timing => some (s.goto (.predicting now))
  | .predicting time =>
    let burst := ((s.burst s.device).predictUnmerged now).1
    let s' := s.modifyBurst s.device fun p => (p.predictUnmerged now).2
    some (if s.quotaTime s.device ≤ usSince s.requestStart time / 1000 + burst then s'.goto .estimating
      else { s'.goto .starting with letThrough := ⟨s.device, time, burst, s.token s.device⟩ :: s.letThrough })
  | .estimating =>
    some ((s.modifyBurst s.device fun p => (p.predictMerged now).2).goto
      (.estimatingWindow ((s.burst s.device).predictMerged now).1))
  | .estimatingWindow measuredBurst =>
    some ((s.modifyWindow s.device fun p => (p.predictMerged now).2).goto
      (.tracking (estimateFullBurst measuredBurst ((s.window s.device).predictMerged now).1)))
  | .tracking nextBurst =>
    some (if s.overuseTrkCmpl then s.goto (.interrupting nextBurst)
      else { s.goto (.waitCmpl nextBurst false) with tracker := s.tracker.signalIntr })
  | .waitCmpl nextBurst _ => some (s.goto (.interrupting nextBurst))
  | .interrupting nextBurst => some ((s.modifyWindow s.device .interrupt).goto (.requesting nextBurst))
  | .requesting _ => none
  | .notifying => some { s.goto .starting with overuseTrkCmpl := false, tracker := s.tracker.signalStrt }
  | .starting => some ((s.modifyBurst s.device (.recordStart now)).goto .free)

def setToken (d : Device) (t : Token) : State := { s with token := Function.update s.token d (some t) }

/-- The quota that `get_token_from_scheduler` has returned is in force from `now` on. -/
def setQuota (quota : ℚ) (now : ℤ) : State :=
  { (s.modifyBurst s.device (.setUpperbound (quota - 1))).goto .notifying with
    requestStart := now
    quotaTime := Function.update s.quotaTime s.device quota }

/-- `get_token_from_scheduler` returns. `initialize` ignores what it returns. -/
def reply (quota : ℚ) (now : ℤ) : Option State :=
  match s.launcher with
  | .firstTokens (d :: devices) => some ((s.setToken d ⟨now, quota⟩).goto (.firstTokens devices))
  | .requesting _ => some ((s.setToken s.device ⟨now, quota⟩).setQuota (newQuota quota) now)
  | _ => none

def hostSync (d : Device) (now : ℤ) : Option State :=
  if s.launcher.initializing then none
  else some { s.modifyBurst d (.recordStop now) with syncing := Function.update s.syncing d (s.syncing d + 1) }

def hostSynced (d : Device) (now : ℤ) : Option State :=
  if 0 < s.syncing d then
    some { s.modifyWindow d (.recordStart now) with syncing := Function.update s.syncing d (s.syncing d - 1) }
  else none

/-- `wait_cuda_kernels`, step by step. -/
def track (d : Device) (now : ℤ) (elapsedMs : ℚ) : Option State :=
  match s.tracker with
  | .top => some { s with tracker := .waitStrt false, trackerDevice := d }
  | .waitStrt _ => some { s with tracker := .arming }
  | .arming => some { s with tracker := .waitIntr (expiration (s.quotaTime s.trackerDevice) now) false }
  | .waitIntr _ _ => some { s with tracker := .synchronizing }
  | .synchronizing => some { s.modifyBurst s.trackerDevice (.recordStop now) with tracker := .syncing }
  | .syncing => some { s.modifyWindow s.trackerDevice (.recordStart now) with tracker := .measuring }
  | .measuring =>
    some { s with
      tracker := .completing
      overuse := Function.update s.overuse s.trackerDevice (max 0 (elapsedMs - s.quotaTime s.trackerDevice)) }
  | .completing => some { s with tracker := .top, overuseTrkCmpl := true, launcher := s.launcher.wakeCmpl }

/-- The clock does not go back. -/
def tick (now : ℤ) (s' : Option State) : Option State :=
  if s.clock ≤ now ∧ now ≤ TimePoint.max then s'.map fun t => { t with clock := now } else none

def step : Event → Option State
  | .arrive d now => s.tick now (s.arrive d now)
  | .lock d => s.lock d
  | .launch now => s.tick now (s.launch now)
  | .reply quota now => s.tick now (s.reply quota now)
  | .hostSync d now => s.tick now (s.hostSync d now)
  | .hostSynced d now => s.tick now (s.hostSynced d now)
  | .track d now elapsedMs => s.tick now (s.track d now elapsedMs)

variable {s} {s' : State} {now : ℤ}

theorem tick_some {o : Option State} (h : s.tick now o = some s') :
    s.clock ≤ now ∧ now ≤ TimePoint.max ∧ ∃ t, o = some t ∧ s' = { t with clock := now } := by
  unfold tick at h
  split at h
  · rename_i hc
    obtain ⟨t, ht, rfl⟩ := Option.map_eq_some_iff.1 h
    exact ⟨hc.1, hc.2, t, ht, rfl⟩
  · cases h

end State

end Gemini.Hook
