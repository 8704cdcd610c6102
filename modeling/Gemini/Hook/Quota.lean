/-
Whether the quota of a token is enforced. `get_token_from_scheduler` returns 6000 whatever the
response carries, so a burst is let through as long as less than 6000 ms of the token are used up by
the time since it came and by the predicted burst. Both are whole microseconds, and the time is cut
off by less than one: they stay below 6000 ms by at least a nanosecond. Hence every token is
enforced if and only if every response carries more than 5999.999999 ms.

No step looks at the quota of a response, so from a run with some quotas comes one with others.
-/
import Gemini.Lib.Run
import Gemini.Hook.Launch

namespace Gemini.Hook

open Gemini.Prediction Gemini.Lib

/-! ## Statement -/

/-- The time since the last token plus the predicted burst is less than the quota it carries. -/
def LetThrough.Within (l : LetThrough) : Prop :=
  ∃ t ∈ l.token, ((l.time - t.time : ℤ) : ℚ) / 1000000 + l.burst < t.quota

def State.QuotaEnforced (s : State) : Prop := ∀ l ∈ s.letThrough, l.Within

instance (l : LetThrough) : Decidable l.Within := by unfold LetThrough.Within; infer_instance

instance (s : State) : Decidable s.QuotaEnforced := by unfold State.QuotaEnforced; infer_instance

namespace Event

def device : Event → Option Device
  | .arrive d _ => some d
  | .lock d => some d
  | .hostSync d _ => some d
  | .hostSynced d _ => some d
  | .track d _ _ => some d
  | _ => none

def quota : Event → Option ℚ
  | .reply quota _ => some quota
  | _ => none

/-- An event on one device, where a response carries a quota in `Q`. -/
def On (d : Device) (Q : ℚ → Prop) (e : Event) : Prop := (∀ d' ∈ e.device, d' = d) ∧ ∀ q ∈ e.quota, Q q

instance (d : Device) (Q : ℚ → Prop) [DecidablePred Q] (e : Event) : Decidable (e.On d Q) := by
  unfold On; infer_instance

end Event

/-- A run of one hook library on one device, from the start of `initialize`. -/
abbrev RunOn (d : Device) (Q : ℚ → Prop) (es : List Event) (s : State) : Prop :=
  RunWhere State.step (fun _ e => e.On d Q) (.init [d]) es s

/-! ## Elapsed times -/

/-- The remainder that `us_since` cuts off is less than a microsecond. -/
theorem lt_usSince (start now : ℤ) : now - start ≤ 1000 * usSince start now + 999 := by
  have h1 := Int.mul_tdiv_add_tmod (now % 1000000000 - start % 1000000000) 1000
  have h2 := Int.tmod_lt_of_pos (now % 1000000000 - start % 1000000000) (show (0 : ℤ) < 1000 by norm_num)
  have h3 := Int.emod_add_mul_ediv now 1000000000
  have h4 := Int.emod_add_mul_ediv start 1000000000
  unfold usSince
  omega

theorem usSince_nonneg {start now : ℤ} (h : start ≤ now) : 0 ≤ usSince start now := by
  have := lt_usSince start now
  omega

theorem toMs_whole {d : ℤ} (h : 0 ≤ d) : ∃ n : ℕ, toMs d = n / 1000 := by
  obtain ⟨n, hn⟩ := Int.eq_ofNat_of_zero_le (Int.tdiv_nonneg h (show (0 : ℤ) ≤ 1000 by norm_num))
  exact ⟨n, by rw [toMs, hn]; rfl⟩

/-- The largest sum of a time since a token and a prediction that lets a launch through. -/
def maxSum : ℚ := 5999999999 / 1000000

theorem sum_le_maxSum {start now : ℤ} {n : ℕ} (h : (usSince start now : ℚ) / 1000 + n / 1000 < 6000) :
    ((now - start : ℤ) : ℚ) / 1000000 + n / 1000 ≤ maxSum := by
  have hus : usSince start now + n < 6000000 := by
    have : ((usSince start now + n : ℤ) : ℚ) < 6000000 := by push_cast; linarith
    exact_mod_cast this
  have hns : now - start + 1000 * n ≤ 5999999999 := by
    have := lt_usSince start now
    omega
  have : ((now - start + 1000 * n : ℤ) : ℚ) ≤ 5999999999 := by exact_mod_cast hns
  push_cast at this ⊢
  unfold maxSum
  linarith

/-! ## What a predictor holds -/

/-- The running period began before the clock, and the recorded ones are whole microseconds long. -/
structure Sound (clock : ℤ) (p : Predictor) : Prop where
  begun : p.ongoingUnmerged = true → 0 ≤ p.periodBegin ∧ p.periodBegin ≤ clock
  whole : ∀ r ∈ p.normalRecords.records, ∃ n : ℕ, r.2 = n / 1000

namespace Sound

variable {clock now : ℤ} {p : Predictor}

theorem new (clock : ℤ) (thres : ℚ) : Sound clock (.new thres) :=
  ⟨fun h => by simp [Predictor.ongoingUnmerged, Predictor.new] at h, fun r hr => by cases hr⟩

theorem mono (h : Sound clock p) (hle : clock ≤ now) : Sound now p :=
  ⟨fun hon => ⟨(h.begun hon).1, (h.begun hon).2.trans hle⟩, h.whole⟩

theorem recordStop (h : Sound now p) (h0 : 0 ≤ now) (hmax : now ≤ TimePoint.max) :
    Sound now (p.recordStop now) := by
  unfold Predictor.recordStop
  split
  · rename_i hon
    obtain ⟨h1, h2⟩ := h.begun hon
    refine ⟨fun h => by simp [Predictor.ongoingUnmerged] at h, fun r hr => ?_⟩
    rcases List.mem_append.1 hr with hr | hr
    · exact h.whole r ((List.rdropWhile_prefix _ _).subset hr)
    · obtain rfl := List.mem_singleton.1 hr
      rw [since_eq h1 (h2.trans hmax) h0 hmax]
      exact toMs_whole (by omega)
  · exact ⟨fun h => by simp [Predictor.ongoingUnmerged] at h, h.whole⟩

theorem recordStart (h : Sound now p) (h0 : 0 ≤ now) : Sound now (p.recordStart now) := by
  unfold Predictor.recordStart
  split
  · exact h
  · dsimp only
    split <;> exact ⟨fun _ => ⟨h0, le_rfl⟩, h.whole⟩

theorem predictUnmerged (h : Sound clock p) (now : ℤ) : Sound clock (p.predictUnmerged now).2 :=
  ⟨h.begun, fun r hr => h.whole r ((List.dropWhile_sublist _).subset hr)⟩

theorem predictMerged (h : Sound clock p) (now : ℤ) : Sound clock (p.predictMerged now).2 := ⟨h.begun, h.whole⟩

theorem setUpperbound (h : Sound clock p) (bound : ℚ) : Sound clock (p.setUpperbound bound) := ⟨h.begun, h.whole⟩

theorem prediction_whole (h : Sound clock p) (now : ℤ) : ∃ n : ℕ, (p.predictUnmerged now).1 = n / 1000 := by
  have hk := (h.predictUnmerged now).whole
  unfold Predictor.predictUnmerged at hk ⊢
  dsimp only at hk ⊢
  unfold RecordKeeper.getMax
  split
  · exact ⟨0, by simp⟩
  · rename_i r rs hr
    exact hk r (by rw [hr]; exact List.mem_cons_self ..)

end Sound

/-! ## The invariant -/

/-- The launch is on the device, and `initialize` has set no quota. -/
def Placed (d : Device) (s : State) : Prop :=
  match s.launcher with
  | .firstTokens devices => (∀ d' ∈ devices, d' = d) ∧ s.quotaTime d = 0
  | .free => True
  | .predicting time => s.device = d ∧ s.requestStart ≤ time
  | _ => s.device = d

/-- Until the first token of a launch the quota is zero; then it is 6000 and `request_start` the time
of the last token. -/
structure Inv (d : Device) (s : State) : Prop where
  clock : 0 ≤ s.clock ∧ s.clock ≤ TimePoint.max
  requestStart : 0 ≤ s.requestStart ∧ s.requestStart ≤ s.clock
  sound : Sound s.clock (s.burst d)
  placed : Placed d s
  token : s.quotaTime d = 0 ∨
    s.quotaTime d = 6000 ∧ ∃ t ∈ s.token d, t.time = s.requestStart ∧ maxSum < t.quota
  enforced : s.QuotaEnforced

variable {d d' : Device} {s s' : State} {now : ℤ}

theorem inv_init (d : Device) : Inv d (.init [d]) := by
  refine ⟨⟨le_rfl, by norm_num [State.init, TimePoint.max]⟩, ⟨le_rfl, le_rfl⟩, .new _ _, ?_, .inl rfl, nofun⟩
  exact ⟨fun d' hd => List.mem_singleton.1 hd, rfl⟩

/-- Time passes. -/
theorem Inv.tick (h : Inv d s) (hnow : s.clock ≤ now) (hmax : now ≤ TimePoint.max) : Inv d { s with clock := now } :=
  ⟨⟨h.clock.1.trans hnow, hmax⟩, ⟨h.requestStart.1, h.requestStart.2.trans hnow⟩, h.sound.mono hnow, h.placed, h.token,
    h.enforced⟩

/-- A launch is let through only after a token, and then within its quota. -/
theorem within_of_let_through (h : Inv d s) {time : ℤ} (htime : s.requestStart ≤ time)
    (hlt : ¬ s.quotaTime d ≤ usSince s.requestStart time / 1000 + ((s.burst d).predictUnmerged now).1) :
    LetThrough.Within ⟨d, time, ((s.burst d).predictUnmerged now).1, s.token d⟩ := by
  obtain ⟨n, hn⟩ := h.sound.prediction_whole now
  rw [hn] at hlt
  rcases h.token with h0 | ⟨h6, t, ht, hstart, hq⟩
  · rw [h0] at hlt
    have : (0 : ℚ) ≤ usSince s.requestStart time := by exact_mod_cast usSince_nonneg htime
    exact absurd (by positivity) hlt
  · rw [h6, not_le] at hlt
    refine ⟨t, ht, ?_⟩
    rw [hstart]
    show _ / _ + ((s.burst d).predictUnmerged now).1 < _
    rw [hn]
    exact (sum_le_maxSum hlt).trans_lt hq

theorem inv_launch (h : Inv d { s with clock := now }) (hs : s.launch now = some s') :
    Inv d { s' with clock := now } := by
  have hp := h.placed
  unfold Placed at hp
  unfold State.launch at hs
  split at hs <;> rename_i hl <;> simp only [hl] at hp
  · -- in `initialize`
    split at hs
    · cases hs; exact { h with placed := trivial }
    · cases hs
  · cases hs
  · -- locked
    cases hs
    refine { h with placed := ?_ }
    cases hon : (s.burst s.device).ongoingUnmerged <;> simpa [State.goto, Placed, hon] using hp
  · -- timing
    cases hs; exact { h with placed := ⟨hp, h.requestStart.2⟩ }
  · -- predicting
    obtain ⟨rfl, htime⟩ := hp
    have hsound : Sound now ((s.modifyBurst s.device fun p => (p.predictUnmerged now).2).burst s.device) := by
      simpa [State.modifyBurst] using h.sound.predictUnmerged now
    cases hs
    split
    · exact ⟨h.clock, h.requestStart, hsound, rfl, h.token, h.enforced⟩
    · rename_i hlt
      refine ⟨h.clock, h.requestStart, hsound, rfl, h.token, fun l hmem => ?_⟩
      rcases List.mem_cons.1 hmem with rfl | hmem
      · exact within_of_let_through h htime hlt
      · exact h.enforced l hmem
  · -- estimating
    cases hs
    subst hp
    exact ⟨h.clock, h.requestStart, by simpa [State.modifyBurst, State.goto] using h.sound.predictMerged now, rfl,
      h.token, h.enforced⟩
  · cases hs; exact { h with placed := hp }
  · -- tracking
    cases hs
    split <;> exact { h with placed := hp }
  · cases hs; exact { h with placed := hp }
  · cases hs; exact { h with placed := hp }
  · cases hs
  · cases hs; exact { h with placed := hp }
  · -- starting
    cases hs
    subst hp
    exact ⟨h.clock, h.requestStart, by simpa [State.modifyBurst, State.goto] using h.sound.recordStart h.clock.1,
      trivial, h.token, h.enforced⟩

theorem inv_reply {quota : ℚ} (hq : maxSum < quota) (h : Inv d { s with clock := now })
    (hs : s.reply quota now = some s') : Inv d { s' with clock := now } := by
  have hp := h.placed
  unfold Placed at hp
  unfold State.reply at hs
  split at hs <;> rename_i hl
  · simp only [hl] at hp
    cases hs
    exact { h with
      placed := ⟨fun d' hd => hp.1 d' (List.mem_cons_of_mem _ hd), hp.2⟩
      token := .inl hp.2 }
  · simp only [hl] at hp
    cases hs
    subst hp
    refine ⟨h.clock, ⟨h.clock.1, le_rfl⟩, ?_, rfl, .inr ⟨?_, ⟨now, quota⟩, ?_, rfl, hq⟩, h.enforced⟩
    · simpa [State.setQuota, State.modifyBurst, State.setToken, State.goto] using h.sound.setUpperbound
        (newQuota quota - 1)
    · simp [State.setQuota, State.setToken, newQuota]
    · simp [State.setQuota, State.modifyBurst, State.setToken, State.goto]
  · cases hs

/-- A synchronisation with a device ends its burst. -/
theorem sound_modifyBurst_recordStop (h : Inv d { s with clock := now }) (d' : Device) :
    Sound now ((s.modifyBurst d' (.recordStop now)).burst d) := by
  unfold State.modifyBurst
  by_cases hd : d = d'
  · subst hd
    simpa using h.sound.recordStop h.clock.1 h.clock.2
  · simpa [Function.update_of_ne hd] using h.sound

theorem placed_wakeCmpl (h : Placed d s) {b : Bool} {t : Tracker} :
    Placed d { s with tracker := t, overuseTrkCmpl := b, launcher := s.launcher.wakeCmpl } := by
  unfold Placed at h ⊢
  cases hl : s.launcher <;> rw [hl] at h <;> exact h

theorem inv_track {elapsedMs : ℚ} (h : Inv d { s with clock := now }) (hs : s.track d' now elapsedMs = some s') :
    Inv d { s' with clock := now } := by
  unfold State.track at hs
  split at hs <;> cases hs
  · exact { h with }
  · exact { h with }
  · exact { h with }
  · exact { h with }
  · exact { h with sound := sound_modifyBurst_recordStop h s.trackerDevice }
  · exact { h with }
  · exact { h with }
  · exact { h with placed := placed_wakeCmpl h.placed }

theorem inv_step {e : Event} (h : Inv d s) (he : e.On d (maxSum < ·)) (hs : s.step e = some s') : Inv d s' := by
  cases e with
  | arrive d' now =>
    obtain ⟨h1, h2, t, ht, rfl⟩ := State.tick_some hs
    unfold State.arrive at ht
    split at ht <;> cases ht
    exact { h.tick h1 h2 with }
  | lock d' =>
    obtain rfl : d' = d := he.1 d' rfl
    have ht : s.lock d' = some s' := hs
    unfold State.lock at ht
    split at ht <;> cases ht
    exact { h with placed := rfl }
  | launch now =>
    obtain ⟨h1, h2, t, ht, rfl⟩ := State.tick_some hs
    exact inv_launch (h.tick h1 h2) ht
  | reply quota now =>
    obtain ⟨h1, h2, t, ht, rfl⟩ := State.tick_some hs
    exact inv_reply (he.2 quota rfl) (h.tick h1 h2) ht
  | hostSync d' now =>
    obtain ⟨h1, h2, t, ht, rfl⟩ := State.tick_some hs
    unfold State.hostSync at ht
    split at ht <;> cases ht
    exact { h.tick h1 h2 with sound := sound_modifyBurst_recordStop (h.tick h1 h2) d' }
  | hostSynced d' now =>
    obtain ⟨h1, h2, t, ht, rfl⟩ := State.tick_some hs
    unfold State.hostSynced at ht
    split at ht <;> cases ht
    exact { h.tick h1 h2 with }
  | track d' now elapsedMs =>
    obtain ⟨h1, h2, t, ht, rfl⟩ := State.tick_some hs
    exact inv_track (h.tick h1 h2) ht

/-! ## The quota of a response makes no difference -/

/-- The token of a response that carries another quota. -/
def Token.withQuota (q : ℚ) (t : Token) : Token := { t with quota := q }

def LetThrough.withQuota (q : ℚ) (l : LetThrough) : LetThrough := { l with token := l.token.map (.withQuota q) }

def State.withQuota (q : ℚ) (s : State) : State :=
  { s with token := fun d => (s.token d).map (.withQuota q), letThrough := s.letThrough.map (.withQuota q) }

def Event.withQuota (q : ℚ) : Event → Event
  | .reply _ now => .reply q now
  | e => e

theorem setToken_withQuota (q : ℚ) (s : State) (d : Device) (t : Token) :
    (s.withQuota q).setToken d (t.withQuota q) = (s.setToken d t).withQuota q := by
  unfold State.setToken State.withQuota
  congr 1
  funext d'
  by_cases hd : d' = d
  · subst hd; simp
  · simp [Function.update_of_ne hd]

theorem launch_withQuota (q : ℚ) (s : State) (now : ℤ) :
    (s.withQuota q).launch now = (s.launch now).map (.withQuota q) := by
  unfold State.launch
  have hl : (s.withQuota q).launcher = s.launcher := rfl
  rw [hl]
  split
  · split <;> rfl
  · rfl
  · rfl
  · rfl
  · -- predicting
    dsimp only [Option.map_some]
    rw [apply_ite (State.withQuota q)]
    rfl
  · rfl
  · rfl
  · -- tracking
    rw [Option.map_some, apply_ite (State.withQuota q)]
    rfl
  all_goals rfl

theorem reply_withQuota (q quota : ℚ) (s : State) (now : ℤ) :
    (s.withQuota q).reply q now = (s.reply quota now).map (.withQuota q) := by
  unfold State.reply
  have hl : (s.withQuota q).launcher = s.launcher := rfl
  rw [hl]
  split
  · rename_i d' devices _
    exact congrArg (fun t => some (t.goto (.firstTokens devices))) (setToken_withQuota q s d' ⟨now, quota⟩)
  · exact congrArg (fun t : State => some (t.setQuota (newQuota quota) now))
      (setToken_withQuota q s s.device ⟨now, quota⟩)
  · rfl

theorem tick_withQuota (q : ℚ) (s : State) (now : ℤ) (o : Option State) :
    (s.withQuota q).tick now (o.map (.withQuota q)) = (s.tick now o).map (.withQuota q) := by
  unfold State.tick
  have hc : (s.withQuota q).clock = s.clock := rfl
  rw [hc]
  split
  · cases o <;> rfl
  · rfl

/-- No step looks at it. -/
theorem step_withQuota (q : ℚ) (s : State) (e : Event) :
    (s.withQuota q).step (e.withQuota q) = (s.step e).map (.withQuota q) := by
  cases e with
  | arrive d now =>
    have h : (s.withQuota q).arrive d now = (s.arrive d now).map (.withQuota q) := by
      unfold State.arrive
      rw [apply_ite (Option.map _)]
      rfl
    exact (congrArg _ h).trans (tick_withQuota q s now _)
  | lock d =>
    show (s.withQuota q).lock d = (s.lock d).map _
    unfold State.lock
    rw [apply_ite (Option.map _)]
    rfl
  | launch now => exact (congrArg _ (launch_withQuota q s now)).trans (tick_withQuota q s now _)
  | reply quota now => exact (congrArg _ (reply_withQuota q quota s now)).trans (tick_withQuota q s now _)
  | hostSync d now =>
    have h : (s.withQuota q).hostSync d now = (s.hostSync d now).map (.withQuota q) := by
      unfold State.hostSync
      rw [apply_ite (Option.map _)]
      rfl
    exact (congrArg _ h).trans (tick_withQuota q s now _)
  | hostSynced d now =>
    have h : (s.withQuota q).hostSynced d now = (s.hostSynced d now).map (.withQuota q) := by
      unfold State.hostSynced
      rw [apply_ite (Option.map _)]
      rfl
    exact (congrArg _ h).trans (tick_withQuota q s now _)
  | track d now elapsedMs =>
    have h : (s.withQuota q).track d now elapsedMs = (s.track d now elapsedMs).map (.withQuota q) := by
      unfold State.track
      have ht : (s.withQuota q).tracker = s.tracker := rfl
      rw [ht]
      split <;> rfl
    exact (congrArg _ h).trans (tick_withQuota q s now _)

theorem on_withQuota {Q : ℚ → Prop} {q : ℚ} (hq : Q q) {e : Event} (h : e.On d fun _ => True) :
    (e.withQuota q).On d Q := by
  cases e with
  | reply quota now => exact ⟨h.1, fun q' hq' => Option.some.inj hq' ▸ hq⟩
  | _ => exact ⟨h.1, nofun⟩

theorem run_withQuota {Q : ℚ → Prop} {q : ℚ} (hq : Q q) {es : List Event}
    (h : RunOn d (fun _ => True) es s) : RunOn d Q (es.map (.withQuota q)) (s.withQuota q) :=
  h.map (f := .withQuota q) (fun s e s' hs => by rw [step_withQuota, hs]; rfl) (fun _ _ => on_withQuota hq)

/-! ## Enforcement -/

/-- With responses that carry more, every token is enforced. -/
theorem enforced_of_run {es : List Event} (hrun : RunOn d (maxSum < ·) es s) : s.QuotaEnforced :=
  (hrun.invariant (P := Inv d) (fun _ _ _ h he hs => inv_step h he hs) (inv_init d)).enforced

/-- A burst of no length right after the first token, and the next launch `ns` nanoseconds later. -/
def twoLaunches (d : Device) (quota : ℚ) (ns : ℤ) : List Event :=
  [.reply quota 0, .launch 0, .arrive d 0, .lock d, .launch 0, .launch 0, .launch 0, .launch 0, .launch 0, .launch 0,
    .launch 0, .reply quota 0, .launch 0, .launch 0, .hostSync d 0, .arrive d ns, .lock d, .launch ns, .launch ns,
    .launch ns]

theorem exists_maxSum (d : Device) : ∃ s, RunOn d (fun _ => True) (twoLaunches d 0 5999999999) s ∧
    s.letThrough = [⟨d, 5999999999, 0, some ⟨0, 0⟩⟩] := by
  have h : ∀ d, (execWhere State.step (fun _ e => e.On d fun _ => True) (.init [d]) (twoLaunches d 0 5999999999)).any
    (fun s => decide (s.letThrough = [⟨d, 5999999999, 0, some ⟨0, 0⟩⟩])) = true := by decide +kernel
  exact exists_runWhere (h d)

/-- The tokens of every run are enforced exactly if every response carries more than what lets a
launch through. -/
theorem quotaEnforced_iff (d : Device) (Q : ℚ → Prop) :
    (∀ es s, RunOn d Q es s → s.QuotaEnforced) ↔ ∀ q, Q q → maxSum < q := by
  constructor
  · intro h q hq
    obtain ⟨s, hrun, hl⟩ := exists_maxSum d
    have henf := h _ _ (run_withQuota hq hrun)
    have hmem : ⟨d, 5999999999, 0, some ⟨0, q⟩⟩ ∈ (s.withQuota q).letThrough := by
      simp [State.withQuota, hl, LetThrough.withQuota, Token.withQuota]
    obtain ⟨t, ht, hlt⟩ := henf _ hmem
    obtain rfl := Option.some.inj ht
    norm_num [maxSum] at hlt ⊢
    exact hlt
  · intro h es s hrun
    exact enforced_of_run (hrun.mono fun s e he => ⟨he.1, fun q hq => h q (he.2 q hq)⟩)

/-- A token of 250 ms comes at 1 s, a burst of 100 ms ends at 1.1 s, and the launch at 1.3 s is let through. -/
theorem not_quotaEnforced_of_short_quota : ¬ ∀ es s, RunOn 0 (fun _ => True) es s → s.QuotaEnforced := by
  have hrun : ∃ s, RunOn 0 (fun _ => True)
      [.reply 250 0, .launch 0, .arrive 0 1000000000, .lock 0, .launch 1000000000, .launch 1000000000,
        .launch 1000000000, .launch 1000000000, .launch 1000000000, .launch 1000000000, .launch 1000000000,
        .reply 250 1000000000, .launch 1000000000, .launch 1000000000, .hostSync 0 1100000000,
        .hostSynced 0 1100000000, .arrive 0 1300000000, .lock 0, .launch 1300000000, .launch 1300000000,
        .launch 1300000000] s ∧ ¬ s.QuotaEnforced := exists_runWhere (by decide +kernel)
  obtain ⟨s, hrun, hs⟩ := hrun
  exact fun h => hs (h _ _ hrun)

end Gemini.Hook
