/-
The devices of one process. Both predictors, `quota_time` and `overuse` are kept for each device, and
what happens to them depends on the inputs of the device alone; but `request_start` is the time of the
last token of any device. So a device decides as it would alone as long as the last token of the process
is its own, or the decision does not hang on it.
-/
import Gemini.Lib.Ghost
import Gemini.Hook.Launch

namespace Gemini.Hook.Isolation

open Gemini.Lib Gemini.Prediction

/-! ## One device -/

/-- What happens to a device, with every reading of the clock. -/
inductive Input where
  /-- a call on `burst_predictor` that is not the test of a launch -/
  | burst (c : Call)
  /-- a call on `window_predictor` -/
  | window (c : Call)
  /-- a launch tests `ongoing_unmerged` -/
  | test
  /-- a launch compares; `us_since` has read the clock at `time` -/
  | compare (time now : ℤ)
  /-- a token -/
  | reply (quota : ℚ) (now : ℤ)
  /-- the overuse is measured -/
  | measure (elapsedMs : ℚ)
deriving DecidableEq, Repr

/-- The variables of a device. -/
structure DeviceState where
  burst : Predictor
  window : Predictor
  quotaTime : ℚ
  overuse : ℚ
deriving DecidableEq, Repr

namespace DeviceState

def init : DeviceState := ⟨.new schdOverhead, .new 0, 0, 0⟩

def step (v : DeviceState) : Input → DeviceState
  | .burst c => { v with burst := v.burst.call c }
  | .window c => { v with window := v.window.call c }
  | .test => v
  | .compare _ now => { v with burst := v.burst.call (.predictUnmerged now) }
  | .reply quota _ => { v with burst := v.burst.setUpperbound (newQuota quota - 1), quotaTime := newQuota quota }
  | .measure elapsedMs => { v with overuse := max 0 (elapsedMs - v.quotaTime) }

/-- A new token is requested, as this kernel burst may cause overuse. -/
def asks (v : DeviceState) (requestStart time now : ℤ) : Bool :=
  decide (v.quotaTime ≤ usSince requestStart time / 1000 + (v.burst.predictUnmerged now).1)

/-- The decision that is made at an input, with the time of the last token. -/
def decides (v : DeviceState) (requestStart : ℤ) : Input → List Bool
  | .test => if v.burst.ongoingUnmerged then [false] else []
  | .compare time now => [v.asks requestStart time now]
  | _ => []

end DeviceState

/-- A process that has one device only, with the decisions it has made. -/
structure Solo where
  view : DeviceState
  requestStart : ℤ
  decisions : List Bool
deriving DecidableEq, Repr

namespace Solo

def init : Solo := ⟨.init, 0, []⟩

def step (p : Solo) (i : Input) : Solo where
  view := p.view.step i
  requestStart := match i with
    | .reply _ now => now
    | _ => p.requestStart
  decisions := p.decisions ++ p.view.decides p.requestStart i

theorem step_decisions (p : Solo) (i : Input) :
    (p.step i).decisions = p.decisions ++ p.view.decides p.requestStart i := rfl

def run (is : List Input) : Solo := is.foldl step init

theorem run_append (is js : List Input) : run (is ++ js) = js.foldl step (run is) := List.foldl_append

end Solo

/-! ## The process -/

/-- The input of a step, and its device. Waiting for the end of the tracking is none. -/
def input (s : State) : Event → Option (Device × Input)
  | .arrive d now => some (d, .window (.recordStop now))
  | .lock _ => none
  | .launch now =>
    match s.launcher with
    | .locked => some (s.device, .test)
    | .predicting time => some (s.device, .compare time now)
    | .estimating => some (s.device, .burst (.predictMerged now))
    | .estimatingWindow _ => some (s.device, .window (.predictMerged now))
    | .interrupting _ => some (s.device, .window .interrupt)
    | .starting => some (s.device, .burst (.recordStart now))
    | _ => none
  | .reply quota now =>
    match s.launcher with
    | .requesting _ => some (s.device, .reply quota now)
    | _ => none
  | .hostSync d now => some (d, .burst (.recordStop now))
  | .hostSynced d now => some (d, .window (.recordStart now))
  | .track _ now elapsedMs =>
    match s.tracker with
    | .synchronizing => some (s.trackerDevice, .burst (.recordStop now))
    | .syncing => some (s.trackerDevice, .window (.recordStart now))
    | .measuring => some (s.trackerDevice, .measure elapsedMs)
    | _ => none

/-- The variables of a device in the process. -/
def view (s : State) (d : Device) : DeviceState := ⟨s.burst d, s.window d, s.quotaTime d, s.overuse d⟩

/-- Those of a list that are of device `d`. -/
def of {α : Type} (d : Device) : Option (Device × α) → List α
  | some (c, a) => if c = d then [a] else []
  | none => []

/-- What `cuLaunchKernel_prehook` decides at an input. -/
def decision (s : State) (d : Device) (is : List Input) : List Bool := is.flatMap ((view s d).decides s.requestStart)

/-- The inputs of a device and the decisions on its launches. -/
structure Record where
  inputs : List Input
  decisions : List Bool
deriving DecidableEq, Repr

def note (s : State) (e : Event) (r : Device → Record) (d : Device) : Record where
  inputs := (r d).inputs ++ of d (input s e)
  decisions := (r d).decisions ++ decision s d (of d (input s e))

/-- The hook library, with what it has recorded of every device. -/
abbrev System := State × (Device → Record)

def System.init (devices : List Device) : System := (.init devices, fun _ => ⟨[], []⟩)

abbrev step : System → Event → Option System := withHistory State.step note

/-! ## The variables of a device follow its inputs -/

section

variable {s s' : State} {now : ℤ} {d : Device}

theorem view_modifyBurst (s : State) (c : Device) (f : Predictor → Predictor) (d : Device) :
    view (s.modifyBurst c f) d = if c = d then { view s d with burst := f (s.burst d) } else view s d := by
  by_cases h : c = d
  · subst h
    simp [view, State.modifyBurst]
  · simp [view, State.modifyBurst, h, Function.update_of_ne (Ne.symm h)]

theorem view_modifyWindow (s : State) (c : Device) (f : Predictor → Predictor) (d : Device) :
    view (s.modifyWindow c f) d = if c = d then { view s d with window := f (s.window d) } else view s d := by
  by_cases h : c = d
  · subst h
    simp [view, State.modifyWindow]
  · simp [view, State.modifyWindow, h, Function.update_of_ne (Ne.symm h)]

/-- The variables of the device after the inputs of a step. -/
theorem foldl_of (c : Device) (i : Input) (v : DeviceState) :
    (of d (some (c, i))).foldl DeviceState.step v = if c = d then v.step i else v := by
  by_cases h : c = d <;> simp [of, h]

theorem view_launch (hs : s.launch now = some s') :
    view s' d = (of d (input s (.launch now))).foldl DeviceState.step (view s d) := by
  unfold State.launch at hs
  cases hl : s.launcher with
  | firstTokens devices =>
    simp only [hl] at hs
    split at hs
    · cases hs
      simp only [input, hl]
      rfl
    · cases hs
  | free => simp only [hl] at hs; cases hs
  | locked =>
    simp only [hl] at hs; cases hs
    simp only [input, hl, foldl_of, DeviceState.step, ite_self]
    split <;> rfl
  | predicting time =>
    simp only [hl] at hs; cases hs
    have hview := view_modifyBurst s s.device (fun p => (p.predictUnmerged now).2) d
    simp only [input, hl, foldl_of]
    split <;> exact hview
  | estimating =>
    simp only [hl] at hs; cases hs
    simp only [input, hl, foldl_of]
    exact view_modifyBurst s s.device (fun p => (p.predictMerged now).2) d
  | estimatingWindow measuredBurst =>
    simp only [hl] at hs; cases hs
    simp only [input, hl, foldl_of]
    exact view_modifyWindow s s.device (fun p => (p.predictMerged now).2) d
  | tracking nextBurst =>
    simp only [hl] at hs; cases hs
    simp only [input, hl]
    split <;> rfl
  | interrupting nextBurst =>
    simp only [hl] at hs; cases hs
    simp only [input, hl, foldl_of]
    exact view_modifyWindow s s.device .interrupt d
  | requesting nextBurst => simp only [hl] at hs; cases hs
  | starting =>
    simp only [hl] at hs; cases hs
    simp only [input, hl, foldl_of]
    exact view_modifyBurst s s.device (.recordStart now) d
  | timing | waitCmpl nextBurst woken | notifying =>
    simp only [hl] at hs; cases hs
    simp only [input, hl]
    rfl

theorem view_reply {quota : ℚ} (hs : s.reply quota now = some s') :
    view s' d = (of d (input s (.reply quota now))).foldl DeviceState.step (view s d) := by
  unfold State.reply at hs
  cases hl : s.launcher with
  | firstTokens devices =>
    cases devices with
    | nil => simp only [hl] at hs; cases hs
    | cons c devices =>
      simp only [hl] at hs; cases hs
      simp only [input, hl]
      rfl
  | requesting nextBurst =>
    simp only [hl] at hs; cases hs
    simp only [input, hl, foldl_of]
    by_cases h : s.device = d
    · subst h
      simp [view, State.setQuota, State.setToken, State.modifyBurst, State.goto, DeviceState.step]
    · simp [view, State.setQuota, State.setToken, State.modifyBurst, State.goto, h, Function.update_of_ne (Ne.symm h)]
  | _ => simp only [hl] at hs; cases hs

theorem view_track {c : Device} {elapsedMs : ℚ} (hs : s.track c now elapsedMs = some s') :
    view s' d = (of d (input s (.track c now elapsedMs))).foldl DeviceState.step (view s d) := by
  unfold State.track at hs
  cases ht : s.tracker with
  | synchronizing =>
    simp only [ht] at hs; cases hs
    simp only [input, ht, foldl_of]
    exact view_modifyBurst s s.trackerDevice (.recordStop now) d
  | syncing =>
    simp only [ht] at hs; cases hs
    simp only [input, ht, foldl_of]
    exact view_modifyWindow s s.trackerDevice (.recordStart now) d
  | measuring =>
    simp only [ht] at hs; cases hs
    simp only [input, ht, foldl_of]
    by_cases h : s.trackerDevice = d
    · subst h
      simp [view, DeviceState.step]
    · simp [view, h, Function.update_of_ne (Ne.symm h)]
  | top | waitStrt woken | arming | waitIntr expires woken | completing =>
    simp only [ht] at hs; cases hs
    simp only [input, ht]
    rfl

/-- A step does to the variables of a device what its input there says, and nothing else. -/
theorem view_step {e : Event} (hs : s.step e = some s') :
    view s' d = (of d (input s e)).foldl DeviceState.step (view s d) := by
  cases e with
  | lock c =>
    simp only [State.step, State.lock] at hs
    split at hs
    · cases hs; rfl
    · cases hs
  | launch now =>
    obtain ⟨-, -, t, ht, rfl⟩ := State.tick_some hs
    have h := view_launch (d := d) ht
    exact h
  | reply quota now =>
    obtain ⟨-, -, t, ht, rfl⟩ := State.tick_some hs
    have h := view_reply (d := d) ht
    exact h
  | track c now elapsedMs =>
    obtain ⟨-, -, t, ht, rfl⟩ := State.tick_some hs
    have h := view_track (d := d) ht
    exact h
  | arrive c now =>
    obtain ⟨-, -, t, ht, rfl⟩ := State.tick_some hs
    unfold State.arrive at ht
    split at ht
    · cases ht
    · cases ht
      rw [input, foldl_of]
      exact view_modifyWindow s c (.recordStop now) d
  | hostSync c now =>
    obtain ⟨-, -, t, ht, rfl⟩ := State.tick_some hs
    unfold State.hostSync at ht
    split at ht
    · cases ht
    · cases ht
      rw [input, foldl_of]
      exact view_modifyBurst s c (.recordStop now) d
  | hostSynced c now =>
    obtain ⟨-, -, t, ht, rfl⟩ := State.tick_some hs
    unfold State.hostSynced at ht
    split at ht
    · cases ht
      rw [input, foldl_of]
      exact view_modifyWindow s c (.recordStart now) d
    · cases ht

end

/-! ## Isolation -/

/-- The time of the last token of a device, or 0. -/
def ownStart (is : List Input) : ℤ := (Solo.run is).requestStart

/-- No decision on device `d` is another one with the last token of the process than with its own. -/
def Undisturbed (d : Device) (q : System) (e : Event) : Prop :=
  ∀ i ∈ of d (input q.1 e), (view q.1 d).decides q.1.requestStart i = (view q.1 d).decides (ownStart (q.2 d).inputs) i

instance (d : Device) (q : System) (e : Event) : Decidable (Undisturbed d q e) :=
  inferInstanceAs (Decidable (∀ i ∈ _, _))

/-- A device is as it would be alone. -/
structure Alone (d : Device) (q : System) : Prop where
  view : view q.1 d = (Solo.run (q.2 d).inputs).view
  decisions : (q.2 d).decisions = (Solo.run (q.2 d).inputs).decisions

theorem alone_init (d : Device) (devices : List Device) : Alone d (System.init devices) := ⟨rfl, rfl⟩

section

variable {d : Device} {q q' : System} {e : Event}

theorem of_eq_nil_or {α : Type} (d : Device) (o : Option (Device × α)) : of d o = [] ∨ ∃ a, of d o = [a] := by
  cases o with
  | none => exact .inl rfl
  | some p =>
    obtain ⟨c, a⟩ := p
    by_cases h : c = d
    · exact .inr ⟨a, if_pos h⟩
    · exact .inl (if_neg h)

/-- What a step records of a device. -/
theorem step_some (hs : step q e = some q') :
    view q'.1 d = (of d (input q.1 e)).foldl DeviceState.step (view q.1 d) ∧
    (q'.2 d).inputs = (q.2 d).inputs ++ of d (input q.1 e) ∧
    (q'.2 d).decisions = (q.2 d).decisions ++ decision q.1 d (of d (input q.1 e)) := by
  obtain ⟨hstep, hnote⟩ := withHistory_some hs
  rw [hnote]
  exact ⟨view_step hstep, rfl, rfl⟩

/-- The variables stay those of the device alone, whatever it decides. -/
theorem view_alone (h : view q.1 d = (Solo.run (q.2 d).inputs).view) (hs : step q e = some q') :
    view q'.1 d = (Solo.run (q'.2 d).inputs).view := by
  obtain ⟨hview, hinputs, -⟩ := step_some (d := d) hs
  rw [hview, hinputs, Solo.run_append, h]
  rcases of_eq_nil_or d (input q.1 e) with hof | ⟨i, hof⟩ <;> rw [hof] <;> rfl

/-- A step that is not disturbed, and only one, decides as the device alone. -/
theorem decisions_alone (h : Alone d q) (hs : step q e = some q') :
    (q'.2 d).decisions = (Solo.run (q'.2 d).inputs).decisions ↔ Undisturbed d q e := by
  obtain ⟨-, hinputs, hdecisions⟩ := step_some (d := d) hs
  unfold Undisturbed
  rw [hdecisions, hinputs, Solo.run_append, h.decisions]
  rcases of_eq_nil_or d (input q.1 e) with hof | ⟨i, hof⟩
  · rw [hof]
    simp [decision]
  · rw [hof, List.foldl_cons, List.foldl_nil, Solo.step_decisions, List.append_cancel_left_eq, decision,
      List.flatMap_singleton, ← h.view]
    simp [ownStart]

theorem alone_step (h : Alone d q) (hu : Undisturbed d q e) (hs : step q e = some q') : Alone d q' :=
  ⟨view_alone h.view hs, (decisions_alone h hs).2 hu⟩

/-- A decision more on either side. -/
theorem length_decisions (h : Alone d q) (hs : step q e = some q') :
    (q'.2 d).decisions.length = (Solo.run (q'.2 d).inputs).decisions.length := by
  obtain ⟨-, hinputs, hdecisions⟩ := step_some (d := d) hs
  rw [hdecisions, hinputs, Solo.run_append, h.decisions]
  rcases of_eq_nil_or d (input q.1 e) with hof | ⟨i, hof⟩
  · rw [hof]
    simp [decision]
  · rw [hof, List.foldl_cons, List.foldl_nil, Solo.step_decisions, decision, List.flatMap_singleton, ← h.view,
      List.length_append, List.length_append]
    cases i <;> simp [DeviceState.decides]

theorem foldl_step_decisions (is : List Input) (p : Solo) :
    ∃ ds, (is.foldl Solo.step p).decisions = p.decisions ++ ds := by
  induction is generalizing p with
  | nil => exact ⟨[], (List.append_nil _).symm⟩
  | cons i is ih =>
    obtain ⟨ds, hds⟩ := ih (p.step i)
    rw [List.foldl_cons, hds]
    exact ⟨_, List.append_assoc ..⟩

/-- Nothing that is recorded is lost. -/
theorem record_of_run {es : List Event} (hrun : Run step q es q') :
    ∃ is ds, (q'.2 d).inputs = (q.2 d).inputs ++ is ∧ (q'.2 d).decisions = (q.2 d).decisions ++ ds := by
  induction hrun with
  | nil q => exact ⟨[], [], (List.append_nil _).symm, (List.append_nil _).symm⟩
  | cons _ hs _ ih =>
    obtain ⟨is, ds, hi, hd⟩ := ih
    obtain ⟨-, hinputs, hdecisions⟩ := step_some (d := d) hs
    rw [hi, hd, hinputs, hdecisions]
    exact ⟨_, _, List.append_assoc .., List.append_assoc ..⟩

/-- A device of which no decision is disturbed, and only one, has made the decisions it makes alone. -/
theorem decisions_iff_of_run (h : Alone d q) {es : List Event} (hrun : Run step q es q') :
    (q'.2 d).decisions = (Solo.run (q'.2 d).inputs).decisions ↔ RunWhere step (Undisturbed d) q es q' := by
  induction hrun with
  | nil q => exact iff_of_true h.decisions (.nil q)
  | @cons q q₁ q' e es _ hs hrun ih =>
    constructor
    · intro heq
      -- the decisions of the first step are those of the device alone
      obtain ⟨is, ds, hi, hd⟩ := record_of_run (d := d) hrun
      obtain ⟨ds', hds'⟩ := foldl_step_decisions is (Solo.run (q₁.2 d).inputs)
      rw [hi, hd, Solo.run_append, hds'] at heq
      have hu : Undisturbed d q e := (decisions_alone h hs).1 (List.append_inj_left heq (length_decisions h hs))
      refine .cons hu hs ((ih (alone_step h hu hs)).1 ?_)
      rw [hi, hd, Solo.run_append, hds']
      exact heq
    · rintro (_ | ⟨hu, hs', hrun'⟩)
      cases hs.symm.trans hs'
      exact (ih (alone_step h hu hs)).2 hrun'

end

/-- Two runs with the same inputs of a device, in neither of which a decision on it is disturbed, make
the same decisions on it, whatever happens to other devices. -/
theorem decisions_eq_of_inputs {d : Device} {devices₁ devices₂ : List Device} {es₁ es₂ : List Event} {q₁ q₂ : System}
    (hrun₁ : RunWhere step (Undisturbed d) (System.init devices₁) es₁ q₁)
    (hrun₂ : RunWhere step (Undisturbed d) (System.init devices₂) es₂ q₂)
    (hinputs : (q₁.2 d).inputs = (q₂.2 d).inputs) : (q₁.2 d).decisions = (q₂.2 d).decisions := by
  have halone {devices : List Device} {es : List Event} {q : System}
      (hrun : RunWhere step (Undisturbed d) (System.init devices) es q) : Alone d q :=
    hrun.invariant (fun _ _ _ h hu hs => alone_step h hu hs) (alone_init d devices)
  calc (q₁.2 d).decisions = (Solo.run (q₁.2 d).inputs).decisions := (halone hrun₁).decisions
    _ = (Solo.run (q₂.2 d).inputs).decisions := by rw [hinputs]
    _ = (q₂.2 d).decisions := (halone hrun₂).decisions.symm

/-- The first tokens of two devices, and a launch on `d` with a token of its own, whose burst ends after a
millisecond. The overuse tracking thread runs on the other one. -/
def firstBurst (d c : Device) : List Event :=
  [.reply 0 0, .reply 0 0, .launch 0, .track c 0 0, .arrive d 0, .lock d, .launch 0, .launch 0, .launch 0, .launch 0,
    .launch 0, .launch 0, .launch 0, .reply 0 0, .launch 0, .launch 0, .track c 0 0, .track c 0 0, .hostSync d 1000000]

/-- A launch on `c`, with a token after three seconds. -/
def otherToken (c : Device) : List Event :=
  [.arrive c 3000000000, .lock c, .launch 3000000000, .launch 3000000000, .launch 3000000000, .launch 3000000000,
    .launch 3000000000, .launch 3000000000, .track c 3000000000 0, .track c 3000000000 0, .track c 3000000000 0,
    .track c 3000000000 0, .track c 3000000000 0, .launch 3000000000, .launch 3000000000, .reply 0 3000000000,
    .launch 3000000000, .launch 3000000000]

/-- A launch on `d` up to its comparison. -/
def launchAt (d : Device) (now : ℤ) : List Event := [.arrive d now, .lock d, .launch now, .launch now, .launch now]

/-- The inputs of the first device, with and without the launch on the other one. -/
def inputsUntil (now : ℤ) : List Input :=
  [.window (.recordStop 0), .test, .compare 0 0, .burst (.predictMerged 0), .window (.predictMerged 0),
    .window .interrupt,
    .reply 0 0, .burst (.recordStart 0), .burst (.recordStop 1000000), .window (.recordStop now), .test,
      .compare now now]

/-- Four seconds after its token, and one after that of device 1, device 0 does not ask again. -/
theorem decisions_eq_in_time : ∃ q₁ q₂,
    RunWhere step (Undisturbed 0) (System.init [0, 1]) (firstBurst 0 1 ++ launchAt 0 4000000000) q₁ ∧
    RunWhere step (Undisturbed 0) (System.init [0, 1]) (firstBurst 0 1 ++ otherToken 1 ++ launchAt 0 4000000000) q₂ ∧
    (q₁.2 0).decisions = [true, false] ∧ (q₁.2 0).decisions = (q₂.2 0).decisions := by
  obtain ⟨q₁, hrun₁, hin₁, hd⟩ : ∃ q₁,
      RunWhere step (Undisturbed 0) (System.init [0, 1]) (firstBurst 0 1 ++ launchAt 0 4000000000) q₁ ∧
      (q₁.2 0).inputs = inputsUntil 4000000000 ∧ (q₁.2 0).decisions = [true, false] :=
      exists_runWhere (by decide +kernel)
  obtain ⟨q₂, hrun₂, hin₂⟩ : ∃ q₂, RunWhere step (Undisturbed 0) (System.init [0, 1])
      (firstBurst 0 1 ++ otherToken 1 ++ launchAt 0 4000000000) q₂ ∧ (q₂.2 0).inputs = inputsUntil 4000000000 :=
    exists_runWhere (by decide +kernel)
  exact ⟨q₁, q₂, hrun₁, hrun₂, hd, decisions_eq_of_inputs hrun₁ hrun₂ (hin₁.trans hin₂.symm)⟩

/-- Seven seconds after its token device 0 asks again, but not if device 1 has got one in between. -/
theorem decisions_ne_of_other_token : ∃ q₁ q₂,
    Run step (System.init [0, 1]) (firstBurst 0 1 ++ launchAt 0 7000000000) q₁ ∧
    Run step (System.init [0, 1]) (firstBurst 0 1 ++ otherToken 1 ++ launchAt 0 7000000000) q₂ ∧
    (q₁.2 0).inputs = (q₂.2 0).inputs ∧ (q₁.2 0).decisions = [true, true] ∧ (q₂.2 0).decisions = [true, false] := by
  obtain ⟨q₁, hrun₁, hin₁, hd₁⟩ : ∃ q₁, Run step (System.init [0, 1]) (firstBurst 0 1 ++ launchAt 0 7000000000) q₁ ∧
      (q₁.2 0).inputs = inputsUntil 7000000000 ∧ (q₁.2 0).decisions = [true, true] :=
      exists_runWhere (by decide +kernel)
  obtain ⟨q₂, hrun₂, hin₂, hd₂⟩ : ∃ q₂,
      Run step (System.init [0, 1]) (firstBurst 0 1 ++ otherToken 1 ++ launchAt 0 7000000000) q₂ ∧
      (q₂.2 0).inputs = inputsUntil 7000000000 ∧ (q₂.2 0).decisions = [true, false] :=
      exists_runWhere (by decide +kernel)
  exact ⟨q₁, q₂, hrun₁, hrun₂, hin₁.trans hin₂.symm, hd₁, hd₂⟩

end Gemini.Hook.Isolation
