/-
Who holds the token. After a grant the daemon waits until the quota has elapsed or the holder has
come back, and it takes any queued request with the holder's name for its return. A request that
was queued before the grant is taken for it too, at the first wake-up that any client causes.

As long as no wake-up mistakes such a request for the return, a token is recorded only when the one
before it has elapsed, in whole nanoseconds of the timer, or its holder has sent a request since.
-/
import Gemini.Lib.Run
import Gemini.Scheduler.Daemon

namespace Gemini.Scheduler

open Gemini.Lib

namespace Grant

/-- The instant at which the quota has elapsed. -/
def elapsesAt (g : Grant) : ℤ := g.recordedAt + wholeNs g.quota

/-- The quota has elapsed, or the holder has sent a request since the grant. -/
def Over (g : Grant) (now : ℕ) : Prop := g.elapsesAt ≤ now ∨ g.returned = true

theorem Over.mono {g : Grant} {a b : ℕ} (h : g.Over a) (hab : a ≤ b) : g.Over b :=
  h.imp_left fun h => h.trans (by exact_mod_cast hab)

/-- What an enqueued request of `name` does to the last grant. -/
def seen (name : String) (g : Grant) : Grant := if g.name = name then { g with returned := true } else g

@[simp] theorem seen_name (name : String) (g : Grant) : (g.seen name).name = g.name := by unfold seen; split <;> rfl
@[simp] theorem seen_quota (name : String) (g : Grant) : (g.seen name).quota = g.quota := by unfold seen; split <;> rfl
@[simp] theorem seen_recordedAt (name : String) (g : Grant) : (g.seen name).recordedAt = g.recordedAt := by
  unfold seen; split <;> rfl
@[simp] theorem seen_elapsesAt (name : String) (g : Grant) : (g.seen name).elapsesAt = g.elapsesAt := by
  simp [elapsesAt]

theorem seen_returned (g : Grant) : (g.seen g.name).returned = true := by simp [seen]

theorem returned_seen {name : String} {g : Grant} (h : g.returned = true) : (g.seen name).returned = true := by
  unfold seen; split <;> simp [h]

theorem Over.seen {name : String} {g : Grant} {now : ℕ} (h : g.Over now) : (g.seen name).Over now := by
  rcases h with h | h
  · exact .inl (by simpa using h)
  · exact .inr (returned_seen h)

/-- A request of the holder that arrived after the grant was recorded. -/
def CameBack (cfg : Config) (g : Grant) (c : Candidate) : Prop :=
  c.name = g.name ∧ msSinceStart cfg g.recordedAt < c.arrivedTime

theorem cameBack_seen {cfg : Config} {name : String} {g : Grant} {c : Candidate} :
    (g.seen name).CameBack cfg c ↔ g.CameBack cfg c := by simp [CameBack]

end Grant

namespace State

variable {cfg : Config} {s s' : State} {e : Event}

/-- A token recorded at `now` follows one that is over. -/
def Exclusive (s : State) (now : ℕ) : Prop := ∀ g ∈ s.grant, g.Over now

/-- A wake-up before the deadline that finds a request of the holder finds one from after the grant. -/
def ReturnIsFresh (cfg : Config) (s : State) : Event → Prop
  | .wake now false => match s.daemon with
    | .holding selected deadline _ => (now : ℤ) < deadline.toNs → (∃ c ∈ s.candidates, c.name = selected.name) →
        ∀ g ∈ s.grant, ∃ c ∈ s.candidates, g.CameBack cfg c
    | _ => True
  | _ => True

/-! ## The invariant -/

/-- What the daemon's place in its loop says about the last grant. -/
def Guards (grant : Option Grant) (clock : ℕ) : Daemon → Prop
  | .granted selected quota => ∃ g, grant = some g ∧ g.name = selected.name ∧ g.quota = quota ∧ g.recordedAt ≤ clock
  | .sent selected quota => ∃ g, grant = some g ∧ g.name = selected.name ∧ g.quota = quota ∧ g.recordedAt ≤ clock
  | .armed selected deadline => ∃ g, grant = some g ∧ g.name = selected.name ∧ g.elapsesAt ≤ deadline.toNs
  | .holding selected deadline _ => ∃ g, grant = some g ∧ g.name = selected.name ∧ g.elapsesAt ≤ deadline.toNs
  | _ => ∀ g ∈ grant, g.Over clock

structure ExclusiveInv (cfg : Config) (s : State) : Prop where
  guards : Guards s.grant s.clock s.daemon
  arrived : ∀ c ∈ s.candidates, c.arrivedTime ≤ msSinceStart cfg s.clock
  returned : ∀ g ∈ s.grant, ∀ c ∈ s.candidates, g.CameBack cfg c → g.returned = true

theorem guards_signal {grant : Option Grant} {clock : ℕ} {d : Daemon} (h : Guards grant clock d) :
    Guards grant clock d.signal := by cases d <;> exact h

theorem guards_mono {grant : Option Grant} {a b : ℕ} (hab : a ≤ b) {d : Daemon} (h : Guards grant a d) :
    Guards grant b d := by
  cases d with
  | granted selected quota => obtain ⟨g, h1, h2, h3, h4⟩ := h; exact ⟨g, h1, h2, h3, h4.trans hab⟩
  | sent selected quota => obtain ⟨g, h1, h2, h3, h4⟩ := h; exact ⟨g, h1, h2, h3, h4.trans hab⟩
  | armed selected deadline => exact h
  | holding selected deadline b => exact h
  | _ => exact fun g hg => (h g hg).mono hab

theorem guards_seen {grant : Option Grant} {clock : ℕ} (name : String) {d : Daemon} (h : Guards grant clock d) :
    Guards (grant.map (Grant.seen name)) clock d := by
  have hover : (∀ g ∈ grant, g.Over clock) → ∀ g ∈ grant.map (Grant.seen name), g.Over clock := by
    intro h g hg
    obtain ⟨g', hg', rfl⟩ := Option.mem_map.1 hg
    exact (h g' hg').seen
  cases d with
  | granted selected quota =>
    obtain ⟨g, rfl, h2, h3, h4⟩ := h
    exact ⟨_, rfl, by simpa using h2, by simpa using h3, by simpa using h4⟩
  | sent selected quota =>
    obtain ⟨g, rfl, h2, h3, h4⟩ := h
    exact ⟨_, rfl, by simpa using h2, by simpa using h3, by simpa using h4⟩
  | armed selected deadline =>
    obtain ⟨g, rfl, h2, h3⟩ := h
    exact ⟨_, rfl, by simpa using h2, by simpa using h3⟩
  | holding selected deadline b =>
    obtain ⟨g, rfl, h2, h3⟩ := h
    exact ⟨_, rfl, by simpa using h2, by simpa using h3⟩
  | _ => exact hover h

theorem exclusiveInv_init (cfg : Config) : ExclusiveInv cfg init :=
  ⟨by simp [Guards, init], by simp [init], by simp [init]⟩

/-- What a step that grants nothing and enqueues nothing has to keep. -/
theorem ExclusiveInv.of_frame (hinv : ExclusiveInv cfg s) (hg : s'.grant = s.grant) (hclock : s.clock ≤ s'.clock)
    (hc : s'.candidates ⊆ s.candidates) (hguards : Guards s.grant s'.clock s'.daemon) : ExclusiveInv cfg s' := by
  refine ⟨hg ▸ hguards, fun c h => (hinv.arrived c (hc h)).trans (msSinceStart_mono cfg hclock), ?_⟩
  rw [hg]
  exact fun g h c hcand => hinv.returned g h c (hc hcand)

theorem exclusiveInv_enqueue (hinv : ExclusiveInv cfg s) {conn now : ℕ} (hs : s.enqueue cfg conn now = some s') :
    ExclusiveInv cfg s' := by
  obtain ⟨hnow, -, socket, name, reqId, -, rfl⟩ := enqueue_some hs
  refine ⟨guards_seen name (guards_mono hnow (guards_signal hinv.guards)), fun c hc => ?_, fun g hg c hc hb => ?_⟩
  · rcases List.mem_append.1 hc with hc | hc
    · exact (hinv.arrived c hc).trans (msSinceStart_mono cfg hnow)
    · rw [List.mem_singleton.1 hc]
  · obtain ⟨g₀, hg₀, rfl⟩ := Option.mem_map.1 hg
    have hb : g₀.CameBack cfg c := Grant.cameBack_seen.1 hb
    rcases List.mem_append.1 hc with hc | hc
    · exact Grant.returned_seen (hinv.returned g₀ hg₀ c hc hb)
    · have : name = g₀.name := by rw [← hb.1, List.mem_singleton.1 hc]
      rw [this]
      exact g₀.seen_returned

theorem exclusiveInv_select (hinv : ExclusiveInv cfg s) {now : ℕ} {ts : List ContainerTimestamp}
    {order : List ValidCandidate} (hs : s.select cfg now ts order = some s') : ExclusiveInv cfg s' := by
  obtain ⟨hnow, hd, hs⟩ := select_some hs
  have hover : ∀ g ∈ s.grant, g.Over now := by
    have := guards_mono hnow hinv.guards
    rcases hd with hd | ⟨w, b, hd⟩ <;> rw [hd] at this <;> exact this
  rcases hs with ⟨-, rfl⟩ | ⟨c, rest, hp, rfl⟩ | ⟨ms, rfl⟩
  · exact hinv.of_frame rfl hnow (List.Subset.refl _) hover
  · obtain ⟨i, -, rfl⟩ := selectPass_mem hp
    exact hinv.of_frame rfl hnow (List.eraseIdx_subset ..) hover
  · exact hinv.of_frame rfl hnow (List.Subset.refl _) hover

/-- Nothing that is queued when a token is recorded arrived after it. -/
theorem exclusiveInv_record (hinv : ExclusiveInv cfg s) {now : ℕ} (hs : s.record cfg now = some s') :
    ExclusiveInv cfg s' := by
  obtain ⟨hnow, selected, inf, -, -, rfl⟩ := record_some hs
  refine ⟨⟨_, rfl, rfl, rfl, le_rfl⟩, fun c hc => (hinv.arrived c hc).trans (msSinceStart_mono cfg hnow), ?_⟩
  rintro g hg c hc ⟨-, hlt⟩
  cases hg
  exact absurd ((hinv.arrived c hc).trans (msSinceStart_mono cfg hnow)) (not_le.2 hlt)

theorem exclusiveInv_arm (hinv : ExclusiveInv cfg s) {now : ℕ} (hs : s.arm now = some s') : ExclusiveInv cfg s' := by
  obtain ⟨hnow, selected, quota, hd, rfl⟩ := arm_some hs
  have := hinv.guards
  rw [hd] at this
  obtain ⟨g, hg, hn, hq, hr⟩ := this
  refine hinv.of_frame rfl hnow (List.Subset.refl _) ⟨g, hg, hn, ?_⟩
  have : (g.recordedAt : ℤ) ≤ now := by exact_mod_cast hr.trans hnow
  rw [toNs_getTimespecAfter, Timespec.toNs_ofNs, Grant.elapsesAt, hq]
  linarith

theorem exclusiveInv_wake (hinv : ExclusiveInv cfg s) {now : ℕ} {timedOut : Bool}
    (hfresh : s.ReturnIsFresh cfg (.wake now timedOut)) (hs : s.wake now timedOut = some s') :
    ExclusiveInv cfg s' := by
  obtain ⟨hnow, hs'⟩ := wake_some hs
  have hguards := guards_mono hnow hinv.guards
  rcases hs' with ⟨b, hd, rfl⟩ | ⟨selected, deadline, b, hd, hs'⟩
  · rw [hd] at hguards
    exact hinv.of_frame rfl hnow (List.Subset.refl _) hguards
  · rw [hd] at hguards
    rcases hs' with ⟨hle, rfl⟩ | ⟨hany, rfl⟩ | ⟨-, rfl⟩
    · obtain ⟨g, hg, -, hel⟩ := hguards
      refine hinv.of_frame rfl hnow (List.Subset.refl _) fun g' hg' => .inl ?_
      rw [hg] at hg'; cases hg'
      exact hel.trans hle
    · refine hinv.of_frame rfl hnow (List.Subset.refl _) ?_
      intro g hg
      obtain ⟨g', hg', -, hel⟩ := hguards
      rw [hg'] at hg; cases hg
      rcases le_or_gt deadline.toNs now with hle | hlt
      · exact .inl (hel.trans hle)
      · -- the deadline has not passed, so this is the wake-up the condition speaks of
        cases timedOut with
        | true =>
          unfold wake at hs
          rw [if_pos hnow, hd] at hs
          simp [not_le.2 hlt] at hs
        | false =>
          simp only [ReturnIsFresh, hd] at hfresh
          obtain ⟨c, hc, hback⟩ := hfresh hlt hany g hg'
          exact .inr (hinv.returned g hg' c hc hback)
    · exact hinv.of_frame rfl hnow (List.Subset.refl _) hguards

theorem exclusiveInv_step (hinv : ExclusiveInv cfg s) (hfresh : s.ReturnIsFresh cfg e) (hs : s.step cfg e = some s') :
    ExclusiveInv cfg s' := by
  cases e with
  | accept socket =>
    obtain ⟨-, rfl⟩ := accept_some hs
    exact hinv.of_frame rfl le_rfl (List.Subset.refl _) hinv.guards
  | request conn name reqId overuse burst now =>
    obtain ⟨hnow, socket, -, ⟨-, rfl⟩ | ⟨inf, -, rfl⟩⟩ := request_some hs <;>
      exact hinv.of_frame rfl hnow (List.Subset.refl _) (guards_mono hnow hinv.guards)
  | enqueue conn now => exact exclusiveInv_enqueue hinv hs
  | hangUp conn =>
    obtain ⟨socket, -, rfl⟩ := hangUp_some hs
    exact hinv.of_frame rfl le_rfl (List.Subset.refl _) hinv.guards
  | configure name minf maxf gpuMemLimit =>
    cases hs
    exact hinv.of_frame rfl le_rfl (List.Subset.refl _) hinv.guards
  | select now ts order => exact exclusiveInv_select hinv hs
  | record now => exact exclusiveInv_record hinv hs
  | send =>
    obtain ⟨selected, quota, hd, rfl⟩ := send_some hs
    exact hinv.of_frame rfl le_rfl (List.Subset.refl _) (by have := hinv.guards; rw [hd] at this; exact this)
  | arm now => exact exclusiveInv_arm hinv hs
  | block =>
    obtain ⟨selected, deadline, hd, rfl⟩ := block_some hs
    exact hinv.of_frame rfl le_rfl (List.Subset.refl _) (by have := hinv.guards; rw [hd] at this; exact this)
  | wake now timedOut => exact exclusiveInv_wake hinv hfresh hs

/-! ## Exclusive tokens over runs -/

/-- In every run in which no wake-up takes an old request for the holder's return, a token is
recorded only when the one before it is over. -/
theorem exclusive_of_run {es : List Event} (hrun : RunWhere (step cfg) (ReturnIsFresh cfg) init es s) {now : ℕ}
    (hs : s.record cfg now = some s') : s.Exclusive now := by
  have hinv : ExclusiveInv cfg s := hrun.invariant (fun _ _ _ => exclusiveInv_step) (exclusiveInv_init cfg)
  obtain ⟨hnow, selected, inf, hd, -, -⟩ := record_some hs
  have := guards_mono hnow hinv.guards
  rw [hd] at this
  exact this

instance (cfg : Config) (g : Grant) (c : Candidate) : Decidable (g.CameBack cfg c) := by
  unfold Grant.CameBack; infer_instance

instance (cfg : Config) (s : State) (e : Event) : Decidable (s.ReturnIsFresh cfg e) :=
  match e with
  | .wake _ false => by unfold ReturnIsFresh; cases s.daemon <;> infer_instance
  | .wake _ true => .isTrue trivial
  | .accept .. | .request .. | .enqueue .. | .hangUp .. | .configure .. | .select .. | .record .. | .send .. | .arm ..
  | .block .. => .isTrue trivial

/-! ## Two requests of one client -/

def twoClients : List Event := [.configure "a" (1 / 2) 1 0, .configure "b" (1 / 2) 1 0, .accept 4, .accept 5]

/-- A request for a token, queued at once. -/
def ask (conn : ℕ) (name : String) (reqId : ℤ) (now : ℕ) : List Event :=
  [.request conn name reqId 0 0 now, .enqueue conn now]

/-- The front candidate is granted a token at 2 ms. -/
def grantFront : List Event := [.select 2000000 [] [], .record 2000000, .send, .arm 2000000, .block]

/-- `a` comes back at 3 ms and is selected again at 4 ms. -/
def returnInTime : List Event := twoClients ++ ask 0 "a" 0 1000000 ++ grantFront ++ ask 0 "a" 1 3000000 ++
  [.wake 3000000 false, .select 4000000 [⟨"a", -2⟩, ⟨"a", 3⟩] [⟨1, 3, 1, 3, 0⟩]]

theorem exclusive_of_return : ∃ s, RunWhere (step defaultConfig) (ReturnIsFresh defaultConfig) init returnInTime s ∧
    s.grant.isSome = true ∧ ∃ s', s.record defaultConfig 4000000 = some s' ∧ s.Exclusive 4000000 := by
  have hrun : ∃ s, RunWhere (step defaultConfig) (ReturnIsFresh defaultConfig) init returnInTime s ∧
      s.grant.isSome = true ∧ (s.record defaultConfig 4000000).isSome = true := exists_runWhere (by decide +kernel)
  obtain ⟨s, hrun, hg, hr⟩ := hrun
  obtain ⟨s', hs'⟩ := Option.isSome_iff_exists.1 hr
  exact ⟨s, hrun, hg, s', hs', exclusive_of_run hrun hs'⟩

/-- `a` has two requests queued when its token is recorded, and a request of `b` wakes the daemon
at 3 ms: it takes the second request of `a` for its return and selects `b`. -/
def secondRequest : List Event := twoClients ++ ask 0 "a" 0 1000000 ++ ask 0 "a" 1 1000000 ++ grantFront ++
  ask 1 "b" 0 3000000 ++ [.wake 3000000 false, .select 3000000 [⟨"a", -2⟩, ⟨"a", 252⟩] [⟨3 / 2, 3, 0, 3, 1⟩]]

theorem not_exclusive_of_second_request : ∃ s, Run (step defaultConfig) init secondRequest s ∧
    ∃ s', s.record defaultConfig 3000000 = some s' ∧ ¬ s.Exclusive 3000000 := by
  have hrun : ∃ s, Run (step defaultConfig) init secondRequest s ∧
      s.grant = some ⟨"a", 2000000, 250, false⟩ ∧ (s.record defaultConfig 3000000).isSome = true :=
    exists_runWhere (by decide +kernel)
  obtain ⟨s, hrun, hg, hr⟩ := hrun
  obtain ⟨s', hs'⟩ := Option.isSome_iff_exists.1 hr
  refine ⟨s, hrun, s', hs', fun h => ?_⟩
  have : Grant.Over ⟨"a", 2000000, 250, false⟩ 3000000 := h _ hg
  revert this
  unfold Grant.Over
  decide +kernel

end State

end Gemini.Scheduler
