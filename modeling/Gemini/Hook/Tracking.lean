/-
The handshake between the launches and the overuse tracking thread. A launch that has received a
token clears `overuse_trk_cmpl` and signals `overuse_trk_strt_cond`; the tracking thread sets it
again at the end of its iteration, and the next launch that needs a token waits for that. The
thread blocks on the condition without a look at the flag: a signal that comes while it is between
two iterations, or has not begun the first, is lost. The flag then stays cleared, and the next
launch that needs a token waits for a thread that waits for a launch.

As long as no launch signals a thread that is between two iterations, the flag is set whenever the
thread is there, and no launch waits for it.
-/
import Gemini.Lib.Run
import Gemini.Hook.Launch

namespace Gemini.Hook

open Gemini.Lib

/-- Between two iterations, with no wake-up pending. -/
def Tracker.resting : Tracker → Bool
  | .top => true
  | .waitStrt woken => !woken
  | _ => false

namespace State

variable {s s' : State} {e : Event} {now : ℤ}

/-- A launch is blocked on `overuse_trk_cmpl_cond` and the tracking thread on
`overuse_trk_strt_cond`, and neither has a wake-up pending. -/
def Deadlocked (s : State) : Prop :=
  (∃ nextBurst, s.launcher = .waitCmpl nextBurst false) ∧ s.tracker = .waitStrt false

/-- A launch signals `overuse_trk_strt_cond` only when the tracking thread is not at the top of its loop. -/
def SignalsInTime (s : State) : Event → Prop
  | .launch _ => s.launcher = .notifying → s.tracker ≠ .top
  | _ => True

/-! ## The invariant -/

/-- A thread between two iterations has completed the last one, and no launch waits for it. -/
structure TrackingInv (s : State) : Prop where
  completed : s.tracker.resting = true → s.overuseTrkCmpl = true
  awaited : ∀ nextBurst, s.launcher = .waitCmpl nextBurst false → s.tracker.resting = false

theorem trackingInv_init (devices : List Device) : TrackingInv (init devices) := ⟨fun _ => rfl, nofun⟩

/-- What a step has to keep that leaves the tracking thread and the flag alone. -/
theorem TrackingInv.of_launcher (hinv : TrackingInv s) (ht : s'.tracker = s.tracker)
    (hc : s'.overuseTrkCmpl = s.overuseTrkCmpl)
    (hl : ∀ nextBurst, s'.launcher = .waitCmpl nextBurst false → s.launcher = .waitCmpl nextBurst false) :
    TrackingInv s' := by
  constructor
  · rw [ht, hc]
    exact hinv.completed
  · intro nextBurst h
    rw [ht]
    exact hinv.awaited nextBurst (hl nextBurst h)

/-- The clock reading is not part of the invariant. -/
theorem TrackingInv.of_tick {o : Option State} (h : ∀ t, o = some t → TrackingInv t)
    (hs : s.tick now o = some s') : TrackingInv s' := by
  obtain ⟨-, -, t, ht, rfl⟩ := tick_some hs
  exact (h t ht).of_launcher rfl rfl fun _ => id

theorem resting_signalIntr (t : Tracker) : t.signalIntr.resting = t.resting := by cases t <;> rfl

/-- After the signal a thread is resting only if it was at the top of its loop. -/
theorem resting_signalStrt {t : Tracker} (h : t ≠ .top) : t.signalStrt.resting = false := by
  cases t <;> first | rfl | exact absurd rfl h

theorem trackingInv_launch (hinv : TrackingInv s) (htime : s.SignalsInTime (.launch now))
    (hs : s.launch now = some s') : TrackingInv s' := by
  unfold launch at hs
  cases hl : s.launcher with
  | firstTokens devices =>
    simp only [hl] at hs
    split at hs
    · cases hs; exact hinv.of_launcher rfl rfl nofun
    · cases hs
  | free => simp only [hl] at hs; cases hs
  | locked =>
    simp only [hl] at hs; cases hs
    split <;> exact hinv.of_launcher rfl rfl nofun
  | timing =>
    simp only [hl] at hs; cases hs
    exact hinv.of_launcher rfl rfl nofun
  | predicting time =>
    simp only [hl] at hs; cases hs
    split <;> exact hinv.of_launcher rfl rfl nofun
  | estimating =>
    simp only [hl] at hs; cases hs
    exact hinv.of_launcher rfl rfl nofun
  | estimatingWindow measuredBurst =>
    simp only [hl] at hs; cases hs
    exact hinv.of_launcher rfl rfl nofun
  | tracking nextBurst =>
    simp only [hl] at hs; cases hs
    split
    · exact hinv.of_launcher rfl rfl nofun
    · rename_i hcmpl
      -- the flag is cleared, so the thread is in an iteration
      have hrest : s.tracker.signalIntr.resting = false := by
        rw [resting_signalIntr, Bool.eq_false_iff]
        exact fun h => hcmpl (hinv.completed h)
      constructor
      · intro h
        rw [show (_ : Bool) = false from hrest] at h; cases h
      · intro _ _
        exact hrest
  | waitCmpl nextBurst woken =>
    simp only [hl] at hs; cases hs
    exact hinv.of_launcher rfl rfl nofun
  | interrupting nextBurst =>
    simp only [hl] at hs; cases hs
    exact hinv.of_launcher rfl rfl nofun
  | requesting nextBurst => simp only [hl] at hs; cases hs
  | notifying =>
    simp only [hl] at hs; cases hs
    have hrest : s.tracker.signalStrt.resting = false := resting_signalStrt (htime hl)
    constructor
    · intro h
      rw [show (_ : Bool) = false from hrest] at h; cases h
    · intro _ _
      exact hrest
  | starting =>
    simp only [hl] at hs; cases hs
    exact hinv.of_launcher rfl rfl nofun

theorem trackingInv_track (hinv : TrackingInv s) {d : Device} {elapsedMs : ℚ}
    (hs : s.track d now elapsedMs = some s') : TrackingInv s' := by
  unfold track at hs
  cases ht : s.tracker with
  | top =>
    simp only [ht] at hs; cases hs
    have hrest : s.tracker.resting = true := by rw [ht]; rfl
    constructor
    · exact fun _ => hinv.completed hrest
    · intro nextBurst h
      rw [hinv.awaited nextBurst h] at hrest; cases hrest
  | completing =>
    simp only [ht] at hs; cases hs
    constructor
    · exact fun _ => rfl
    · -- the broadcast leaves no launch blocked
      intro nextBurst h
      revert h
      show s.launcher.wakeCmpl = .waitCmpl nextBurst false → _
      cases s.launcher <;> simp [Launcher.wakeCmpl]
  | waitStrt woken => simp only [ht] at hs; cases hs; exact ⟨nofun, fun _ _ => rfl⟩
  | arming => simp only [ht] at hs; cases hs; exact ⟨nofun, fun _ _ => rfl⟩
  | waitIntr expires woken => simp only [ht] at hs; cases hs; exact ⟨nofun, fun _ _ => rfl⟩
  | synchronizing => simp only [ht] at hs; cases hs; exact ⟨nofun, fun _ _ => rfl⟩
  | syncing => simp only [ht] at hs; cases hs; exact ⟨nofun, fun _ _ => rfl⟩
  | measuring => simp only [ht] at hs; cases hs; exact ⟨nofun, fun _ _ => rfl⟩

theorem trackingInv_step (hinv : TrackingInv s) (htime : s.SignalsInTime e) (hs : s.step e = some s') :
    TrackingInv s' := by
  cases e with
  | arrive d now =>
    refine TrackingInv.of_tick (fun t ht => ?_) hs
    unfold arrive at ht
    split at ht
    · cases ht
    · cases ht; exact hinv.of_launcher rfl rfl fun _ => id
  | lock d =>
    simp only [step, lock] at hs
    split at hs
    · cases hs; exact hinv.of_launcher rfl rfl nofun
    · cases hs
  | launch now => exact TrackingInv.of_tick (fun t => trackingInv_launch hinv htime) hs
  | reply quota now =>
    refine TrackingInv.of_tick (fun t ht => ?_) hs
    unfold reply at ht
    split at ht
    · cases ht; exact hinv.of_launcher rfl rfl nofun
    · cases ht; exact hinv.of_launcher rfl rfl nofun
    · cases ht
  | hostSync d now =>
    refine TrackingInv.of_tick (fun t ht => ?_) hs
    unfold hostSync at ht
    split at ht
    · cases ht
    · cases ht; exact hinv.of_launcher rfl rfl fun _ => id
  | hostSynced d now =>
    refine TrackingInv.of_tick (fun t ht => ?_) hs
    unfold hostSynced at ht
    split at ht
    · cases ht; exact hinv.of_launcher rfl rfl fun _ => id
    · cases ht
  | track d now elapsedMs => exact TrackingInv.of_tick (fun t => trackingInv_track hinv) hs

/-! ## Runs -/

/-- In every run in which no launch signals a thread that is at the top of its loop, the launches
and the tracking thread never wait for each other. -/
theorem not_deadlocked_of_run {devices : List Device} {es : List Event}
    (hrun : RunWhere step SignalsInTime (init devices) es s) : ¬ s.Deadlocked := by
  have hinv : TrackingInv s := hrun.invariant (fun _ _ _ => trackingInv_step) (trackingInv_init devices)
  rintro ⟨⟨nextBurst, hl⟩, ht⟩
  have := hinv.awaited nextBurst hl
  rw [ht] at this
  cases this

instance (s : State) (e : Event) : Decidable (s.SignalsInTime e) :=
  match e with
  | .launch _ => inferInstanceAs (Decidable (s.launcher = .notifying → s.tracker ≠ .top))
  | .arrive .. | .lock .. | .reply .. | .hostSync .. | .hostSynced .. | .track .. => .isTrue trivial

/-- The first token of a device, a launch that gets a token of its own, and the end of its burst. -/
def firstLaunch (d : Device) : List Event :=
  [.reply 250 0, .launch 0, .arrive d 0, .lock d, .launch 0, .launch 0, .launch 0,
  .launch 0, .launch 0, .launch 0, .launch 0, .reply 250 0, .launch 0, .launch 0, .hostSync d 0]

/-- A launch 7 s later, up to its wait for the tracking thread. -/
def secondLaunch (d : Device) : List Event := [.arrive d 7000000000, .lock d, .launch 7000000000, .launch 7000000000,
  .launch 7000000000, .launch 7000000000, .launch 7000000000, .launch 7000000000]

/-- The tracking thread blocks before the first launch signals it, and the second launch waits for
it to complete its iteration. -/
theorem not_deadlocked_of_early_tracker : ∃ s, RunWhere step SignalsInTime (init [0])
    (.track 0 0 0 :: (firstLaunch 0 ++ .track 0 0 0 :: secondLaunch 0)) s ∧
    s.launcher = .waitCmpl 0 false ∧ s.tracker = .arming ∧ ¬ s.Deadlocked := by
  have hrun : ∃ s, RunWhere step SignalsInTime (init [0])
      (.track 0 0 0 :: (firstLaunch 0 ++ .track 0 0 0 :: secondLaunch 0)) s ∧
      s.launcher = .waitCmpl 0 false ∧ s.tracker = .arming := exists_runWhere (by decide +kernel)
  obtain ⟨s, hrun, hl, ht⟩ := hrun
  exact ⟨s, hrun, hl, ht, not_deadlocked_of_run hrun⟩

/-- The first launch signals a tracking thread that has not blocked yet. -/
theorem deadlocked_of_late_tracker :
    ∃ s, Run step (init [0]) (firstLaunch 0 ++ .track 0 0 0 :: secondLaunch 0) s ∧ s.Deadlocked := by
  have hrun : ∃ s, Run step (init [0]) (firstLaunch 0 ++ .track 0 0 0 :: secondLaunch 0) s ∧
      s.launcher = .waitCmpl 0 false ∧ s.tracker = .waitStrt false := exists_runWhere (by decide +kernel)
  obtain ⟨s, hrun, hl, ht⟩ := hrun
  exact ⟨s, hrun, ⟨0, hl⟩, ht⟩

end State

end Gemini.Hook
