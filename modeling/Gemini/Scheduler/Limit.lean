/-
The limit of a client. Whenever `select_candidate` returns a candidate, the GPU time recorded for
its client in the trailing window stays below LIMIT times the window. The sweep decides it on the
tokens it sees, and the quick exit does not look at the limit at all.

It holds in every run whose overuse reports find their token, at every turn that takes the quick
exit with a limit above zero, or sweeps tokens none of which ends exactly at the window start.
-/
import Gemini.Scheduler.Daemon

namespace Gemini.Scheduler

open Gemini.Lib

/-- The command line gives durations. -/
structure Config.Durations (cfg : Config) : Prop where
  windowSize : 0 ≤ cfg.windowSize
  quota : 0 ≤ cfg.quota
  minQuota : 0 ≤ cfg.minQuota

/-- Quotas are not negative. -/
structure ClientInfo.Durations (inf : ClientInfo) : Prop where
  baseQuota : 0 ≤ inf.baseQuota
  minQuota : 0 ≤ inf.minQuota
  maxQuota : 0 ≤ inf.maxQuota

theorem ClientInfo.getQuota_durations {inf : ClientInfo} (h : inf.Durations) :
    inf.getQuota.Durations ∧ 0 ≤ inf.getQuota.quota := by
  unfold getQuota
  split
  · exact ⟨⟨h.baseQuota, h.minQuota, h.maxQuota⟩, h.baseQuota⟩
  · exact ⟨⟨h.baseQuota, h.minQuota, h.maxQuota⟩, le_min (h.minQuota.trans (le_max_right _ _)) h.maxQuota⟩

/-- A client without tokens in the window has no share of it. -/
theorem fairShare_of_absent {w : ℚ} {hs : List History} {c : String} (h : ∀ g ∈ prune w hs, g.name ≠ c) :
    fairShare hs c w = 0 := by
  rw [← fairShare_prune le_rfl]
  refine le_antisymm (not_lt.1 fun hpos => ?_) (share_nonneg ..)
  obtain ⟨x, hx, hk, -⟩ := exists_of_share_pos hpos
  obtain ⟨g, hg, rfl⟩ := List.mem_map.1 hx
  exact h g hg hk

namespace State

variable {cfg : Config} {s s' : State} {e : Event}

/-- The fair share of a candidate's client in the window that ends at `now` is below its limit. -/
def UnderLimit (cfg : Config) (s : State) (c : Candidate) (now : ℕ) : Prop :=
  ∃ inf, s.clients c.name = some inf ∧
    fairShare s.timeline.full c.name (msSinceStart cfg now - cfg.windowSize) <
      ((inf.maxFrac * effectiveWindow cfg.windowSize (msSinceStart cfg now) : ℚ) : ℝ)

/-- Configurations are those that the README admits, overuse is a duration, and the clock has moved
when a token is recorded. -/
def Admitted (cfg : Config) : Event → Prop
  | .configure _ minf maxf _ => 0 ≤ minf ∧ minf ≤ maxf ∧ maxf ≤ 1
  | .request _ _ _ overuse _ _ => 0 ≤ overuse
  | .record now => 0 < msSinceStart cfg now
  | _ => True

/-- Overuse reports find the token they are about. -/
def ReportsFind (cfg : Config) (s : State) : Event → Prop
  | .request _ name _ overuse _ now =>
      s.timeline.ReportFinds cfg.windowSize (.updateReturnTime name overuse (msSinceStart cfg now))
  | _ => True

/-- A turn at `now` takes the quick exit with a limit above zero, or sweeps tokens none of which ends
exactly at the window start. -/
def TurnClear (cfg : Config) (s : State) (now : ℕ) : Prop :=
  ∀ front ∈ s.candidates.head?,
    if ∀ h ∈ s.timeline.window cfg.windowSize (msSinceStart cfg now), h.name ≠ front.name then
      ∀ inf ∈ s.clients front.name, 0 < inf.maxFrac * effectiveWindow cfg.windowSize (msSinceStart cfg now)
    else ∀ h ∈ s.timeline.window cfg.windowSize (msSinceStart cfg now), h.end ≠ msSinceStart cfg now - cfg.windowSize

/-! ## The invariant -/

structure LimitInv (cfg : Config) (s : State) : Prop where
  timeline : s.timeline.Inv cfg.windowSize
  clock : s.timeline.clock ≤ msSinceStart cfg s.clock
  clients : ∀ name, ∀ inf ∈ s.clients name, inf.Durations
  queued : ∀ c ∈ s.candidates, ∃ inf, s.clients c.name = some inf
  pending : ∀ conn socket name reqId, s.handlers conn = some ⟨socket, some (name, reqId)⟩ →
    ∃ inf, s.clients name = some inf

theorem limitInv_init (cfg : Config) : LimitInv cfg init := by
  refine ⟨Timeline.inv_init _, ?_, by simp [init], by simp [init], by simp [init]⟩
  simp [init, Timeline.init, msSinceStart]

theorem durations_update (hcl : ∀ name, ∀ inf ∈ s.clients name, inf.Durations) {name : String} {inf : ClientInfo}
    (h : inf.Durations) : ∀ k, ∀ i ∈ Function.update s.clients name (some inf) k, i.Durations := by
  rw [Function.forall_update_iff s.clients fun _ o => ∀ i ∈ o, i.Durations]
  exact ⟨by rintro _ ⟨⟩; exact h, fun k _ => hcl k⟩

/-- The last reading of the time line's clock is not ahead of the next reading. -/
theorem LimitInv.clock_le (hinv : LimitInv cfg s) {now : ℕ} (hnow : s.clock ≤ now) :
    s.timeline.clock ≤ msSinceStart cfg now :=
  hinv.clock.trans (msSinceStart_mono cfg hnow)

theorem LimitInv.known (hinv : LimitInv cfg s) : s.Known := ⟨hinv.queued, hinv.pending⟩

/-- What a step that leaves the clients and the time line alone has to keep. -/
theorem LimitInv.of_frame (hinv : LimitInv cfg s) (hk : s'.Known) (ht : s'.timeline = s.timeline)
    (hclock : s.clock ≤ s'.clock) (hcl : s'.clients = s.clients) : LimitInv cfg s' := by
  refine ⟨ht ▸ hinv.timeline, ?_, hcl ▸ hinv.clients, hk.queued, hk.pending⟩
  rw [ht]
  exact hinv.clock_le hclock

theorem limitInv_request (hinv : LimitInv cfg s) {conn : ℕ} {name : String} {reqId : ℤ} {overuse burst : ℚ} {now : ℕ}
    (ho : 0 ≤ overuse)
    (hfind : s.timeline.ReportFinds cfg.windowSize (.updateReturnTime name overuse (msSinceStart cfg now)))
    (hs : s.request cfg conn name reqId overuse burst now = some s') : LimitInv cfg s' := by
  have hk := hinv.known.request hs
  obtain ⟨hnow, socket, -, ⟨-, rfl⟩ | ⟨inf, hi, rfl⟩⟩ := request_some hs
  · exact hinv.of_frame hk rfl hnow rfl
  · have hd := hinv.clients name inf hi
    exact ⟨Timeline.inv_updateReturnTime hinv.timeline (hinv.clock_le hnow) ho hfind, le_rfl,
      durations_update hinv.clients ⟨hd.baseQuota, hd.minQuota, hd.maxQuota⟩, hk.queued, hk.pending⟩

theorem limitInv_select (hinv : LimitInv cfg s) {now : ℕ} {ts : List ContainerTimestamp}
    {order : List ValidCandidate} (hs : s.select cfg now ts order = some s') : LimitInv cfg s' := by
  have hk := hinv.known.select hs
  obtain ⟨hnow, -, ⟨-, rfl⟩ | ⟨c, rest, -, rfl⟩ | ⟨ms, rfl⟩⟩ := select_some hs
  · exact hinv.of_frame hk rfl hnow rfl
  · exact ⟨Timeline.inv_prune hinv.timeline (hinv.clock_le hnow), le_rfl, hinv.clients, hk.queued, hk.pending⟩
  · exact ⟨Timeline.inv_prune hinv.timeline (hinv.clock_le hnow), le_rfl, hinv.clients, hk.queued, hk.pending⟩

theorem limitInv_step (hcfg : cfg.Durations) (hinv : LimitInv cfg s) (ha : Admitted cfg e)
    (hf : s.ReportsFind cfg e) (hs : s.step cfg e = some s') : LimitInv cfg s' := by
  have hk := hinv.known.step hs
  cases e with
  | accept socket => obtain ⟨-, rfl⟩ := accept_some hs; exact hinv.of_frame hk rfl le_rfl rfl
  | request conn name reqId overuse burst now => exact limitInv_request hinv ha hf hs
  | enqueue conn now =>
    obtain ⟨hnow, -, socket, name, reqId, -, rfl⟩ := enqueue_some hs
    exact hinv.of_frame hk rfl hnow rfl
  | hangUp conn => obtain ⟨socket, -, rfl⟩ := hangUp_some hs; exact hinv.of_frame hk rfl le_rfl rfl
  | configure name minf maxf mem =>
    cases hs
    exact ⟨hinv.timeline, hinv.clock, durations_update hinv.clients
      ⟨hcfg.quota, hcfg.minQuota, mul_nonneg (ha.1.trans ha.2.1) hcfg.windowSize⟩, hk.queued, hk.pending⟩
  | select now ts order => exact limitInv_select hinv hs
  | record now =>
    obtain ⟨hnow, selected, inf, -, hi, rfl⟩ := record_some hs
    obtain ⟨hd, hq⟩ := ClientInfo.getQuota_durations (hinv.clients _ inf hi)
    exact ⟨Timeline.inv_record hinv.timeline ha (hinv.clock_le hnow) hq, le_rfl, durations_update hinv.clients hd,
      hk.queued, hk.pending⟩
  | send => obtain ⟨selected, quota, -, rfl⟩ := send_some hs; exact hinv.of_frame hk rfl le_rfl rfl
  | arm now => obtain ⟨hnow, selected, quota, -, rfl⟩ := arm_some hs; exact hinv.of_frame hk rfl hnow rfl
  | block => obtain ⟨selected, deadline, -, rfl⟩ := block_some hs; exact hinv.of_frame hk rfl le_rfl rfl
  | wake now timedOut =>
    obtain ⟨hnow, ⟨b, -, rfl⟩ | ⟨selected, deadline, b, -, ⟨-, rfl⟩ | ⟨-, rfl⟩ | ⟨-, rfl⟩⟩⟩ := wake_some hs <;>
      exact hinv.of_frame hk rfl hnow rfl

/-! ## Limits over runs -/

/-- A clear turn selects a candidate below its limit. -/
theorem underLimit_of_inv (hinv : LimitInv cfg s) {now : ℕ} (hclear : s.TurnClear cfg now)
    {ts : List ContainerTimestamp} {order : List ValidCandidate} (hs : s.select cfg now ts order = some s')
    {c : Candidate} (hc : s'.daemon = .chosen c) : s'.UnderLimit cfg c now := by
  obtain ⟨hnow, -, ⟨-, rfl⟩ | ⟨d, rest, hp, rfl⟩ | ⟨ms, rfl⟩⟩ := select_some hs
  · cases hc
  · cases hc
    have hfull : (s.timeline.prune (msSinceStart cfg now - cfg.windowSize) (msSinceStart cfg now)).full =
        s.timeline.full := by simp [Timeline.prune, Timeline.full]
    unfold UnderLimit
    simp only [hfull]
    rcases selectPass_selected hp with ⟨hcs, hq⟩ | ⟨usage, inf, i, hu, hts, hi, -, hinf, hlt, hhist⟩
    · -- the quick exit: no share at all
      have hhead : c ∈ s.candidates.head? := by rw [hcs]; rfl
      have h := hclear c hhead
      rw [if_pos (show ∀ h ∈ s.timeline.window cfg.windowSize (msSinceStart cfg now), h.name ≠ c.name from hq)] at h
      obtain ⟨inf, hinf⟩ := hinv.queued c (List.mem_of_mem_head? hhead)
      refine ⟨inf, hinf, ?_⟩
      rw [← Timeline.fairShare_window hinv.timeline (hinv.clock_le hnow), Timeline.window, fairShare_prune le_rfl,
        fairShare_of_absent hq]
      exact_mod_cast h inf hinf
    · -- the sweep: its usage is at least the share
      obtain ⟨front, hfront⟩ : ∃ front, front ∈ s.candidates.head? := by
        cases hcs : s.candidates with
        | nil => rw [hcs] at hi; cases hi
        | cons f fs => exact ⟨f, rfl⟩
      have h := hclear front hfront
      obtain ⟨g, hg, hgn⟩ := hhist front hfront
      rw [if_neg (fun hall => hall g hg hgn)] at h
      have hshare := Timeline.fairShare_le_of_inv hinv.timeline (hinv.clock_le hnow) h hts hu c.name
      exact ⟨inf, hinf, hshare.trans_lt (by exact_mod_cast hlt)⟩
  · cases hc

/-- In every run whose overuse reports all find their token, every clear turn that selects takes a
candidate whose client is below its limit. -/
theorem underLimit_of_run (hcfg : cfg.Durations) {es : List Event}
    (hrun : RunWhere (step cfg) (fun s e => Admitted cfg e ∧ s.ReportsFind cfg e) init es s) {now : ℕ}
    (hclear : s.TurnClear cfg now) {ts : List ContainerTimestamp} {order : List ValidCandidate}
    (hs : s.select cfg now ts order = some s') {c : Candidate} (hc : s'.daemon = .chosen c) : s'.UnderLimit cfg c now :=
  underLimit_of_inv (hrun.invariant (fun _ _ _ hi hg hs => limitInv_step hcfg hi hg.1 hg.2 hs) (limitInv_init cfg))
    hclear hs hc

instance (cfg : Config) (e : Event) : Decidable (Admitted cfg e) :=
  match e with
  | .configure _ minf maxf _ => inferInstanceAs (Decidable (0 ≤ minf ∧ minf ≤ maxf ∧ maxf ≤ 1))
  | .request _ _ _ overuse _ _ => inferInstanceAs (Decidable (0 ≤ overuse))
  | .record now => inferInstanceAs (Decidable (0 < msSinceStart cfg now))
  | .accept .. | .enqueue .. | .hangUp .. | .select .. | .send .. | .arm .. | .block .. | .wake .. => .isTrue trivial

instance (cfg : Config) (s : State) (e : Event) : Decidable (s.ReportsFind cfg e) :=
  match e with
  | .request _ name _ overuse _ now =>
    inferInstanceAs (Decidable
      (s.timeline.ReportFinds cfg.windowSize (.updateReturnTime name overuse (msSinceStart cfg now))))
  | .accept .. | .enqueue .. | .hangUp .. | .configure .. | .select .. | .record .. | .send .. | .arm .. | .block ..
  | .wake .. => .isTrue trivial

instance (cfg : Config) (s : State) (now : ℕ) : Decidable (s.TurnClear cfg now) := by
  unfold TurnClear; infer_instance

/-! ## A turn at the end of a token -/

theorem tenMs_durations : tenMs.Durations := ⟨by decide +kernel, by decide +kernel, by decide +kernel⟩

/-- A token granted at once and held to its end. -/
def useToken (conn : ℕ) (name : String) (start deadline : ℕ) : List Event :=
  [.request conn name 0 0 0 start, .enqueue conn start, .select start [] [], .record start, .send, .arm start, .block,
    .wake deadline true]

/-- `a` holds its token from 1 to 5, `c` its own from 6 to 12, with 2 ms of overuse. -/
def twoTokens : List Event :=
  [.configure "a" (1 / 2) (1 / 2) 0, .configure "c" (1 / 2) (1 / 2) 0, .accept 4, .accept 5] ++
    useToken 0 "a" 1000000 5000000 ++ useToken 1 "c" 6000000 10000000 ++
    [.request 1 "c" 1 2 0 13000000, .enqueue 1 13000000]

/-- At 17.5, with 4.5 ms in the window, `c` may run again. -/
theorem underLimit_of_two_tokens : ∃ s s', RunWhere (step tenMs)
      (fun s e => Admitted tenMs e ∧ s.ReportsFind tenMs e) init twoTokens s ∧ s.TurnClear tenMs 17500000 ∧
    s.select tenMs 17500000 [⟨"c", -6⟩, ⟨"c", 12⟩] [⟨1 / 2, 1 / 2, 9 / 2, 13, 0⟩] = some s' ∧
    s'.daemon = .chosen ⟨5, "c", 1, 13, 1⟩ ∧ s'.UnderLimit tenMs ⟨5, "c", 1, 13, 1⟩ 17500000 := by
  have hrun : ∃ s, RunWhere (step tenMs) (fun s e => Admitted tenMs e ∧ s.ReportsFind tenMs e) init twoTokens s ∧
      s.TurnClear tenMs 17500000 ∧
      (s.select tenMs 17500000 [⟨"c", -6⟩, ⟨"c", 12⟩] [⟨1 / 2, 1 / 2, 9 / 2, 13, 0⟩]).map State.daemon =
        some (.chosen ⟨5, "c", 1, 13, 1⟩) := exists_runWhere (by decide +kernel)
  obtain ⟨s, hrun, hclear, hs⟩ := hrun
  obtain ⟨s', hs, hd⟩ := Option.map_eq_some_iff.1 hs
  exact ⟨s, s', hrun, hclear, hs, hd, underLimit_of_run tenMs_durations hrun hclear hs hd⟩

/-- At 15 the token of `a` ends exactly at the window start, and its two stamps count beside `c` as
two more tokens: the sweep gives `c` 2 of its 6 ms, and `c` is selected with more than its 5. -/
theorem overLimit_at_token_end : ∃ s s' c, RunWhere (step tenMs)
      (fun s e => Admitted tenMs e ∧ s.ReportsFind tenMs e) init twoTokens s ∧
    s.select tenMs 15000000 [⟨"a", -1⟩, ⟨"a", 5⟩, ⟨"c", -6⟩, ⟨"c", 12⟩] [⟨3, 3, 2, 13, 0⟩] = some s' ∧
    s'.daemon = .chosen c ∧ ¬ s'.UnderLimit tenMs c 15000000 := by
  have hrun : ∃ s, RunWhere (step tenMs) (fun s e => Admitted tenMs e ∧ s.ReportsFind tenMs e) init twoTokens s ∧
      (s.select tenMs 15000000 [⟨"a", -1⟩, ⟨"a", 5⟩, ⟨"c", -6⟩, ⟨"c", 12⟩] [⟨3, 3, 2, 13, 0⟩]).map
        (fun s' => (s'.daemon, s'.timeline.full, (s'.clients "c").map ClientInfo.maxFrac)) =
        some (.chosen ⟨5, "c", 1, 13, 1⟩, [⟨"a", 1, 5⟩, ⟨"c", 6, 12⟩], some (1 / 2)) :=
    exists_runWhere (by decide +kernel)
  obtain ⟨s, hrun, hs⟩ := hrun
  obtain ⟨s', hs, hd⟩ := Option.map_eq_some_iff.1 hs
  simp only [Prod.mk.injEq, Option.map_eq_some_iff] at hd
  obtain ⟨hd, hfull, inf, hinf, hmax⟩ := hd
  refine ⟨s, s', _, hrun, hs, hd, ?_⟩
  rintro ⟨inf', hinf', hlt⟩
  rw [hinf] at hinf'; cases hinf'
  -- from 5.5 on the sweep is exact and gives `c` all of its token
  have hshare : fairShare s'.timeline.full "c" (11 / 2) = 6 := by
    rw [hfull, ← fairShare_prune le_rfl]
    have hsort : StdSort tsComp (timestampVector (prune (11 / 2) [⟨"a", 1, 5⟩, ⟨"c", 6, 12⟩]))
        [⟨"c", -6⟩, ⟨"c", 12⟩] := by decide +kernel
    obtain ⟨u, hu, h⟩ := usageOf_eq_fairShare (w := 11 / 2) (by decide +kernel) (by decide +kernel)
      (by decide +kernel) hsort
    have huc : (usageOf (11 / 2) [⟨"c", -6⟩, ⟨"c", 12⟩]).map (fun u => u "c") = some 6 := by decide +kernel
    rw [hu] at huc
    have huc : u "c" = 6 := Option.some.inj huc
    rw [← h, huc]
    norm_num
  have hanti : fairShare s'.timeline.full "c" (11 / 2) ≤
      fairShare s'.timeline.full "c" (msSinceStart tenMs 15000000 - tenMs.windowSize) :=
    share_antitone _ _ (by exact_mod_cast (by decide +kernel))
  have hlim : inf.maxFrac * effectiveWindow tenMs.windowSize (msSinceStart tenMs 15000000) = 5 := by
    rw [hmax]; decide +kernel
  rw [hlim] at hlt
  rw [hshare] at hanti
  norm_num at hlt
  linarith

end State

end Gemini.Scheduler
