/-
Overuse reports. Every hook thread merges its client's overuse into `pod_overuse_ms`, a request for
quota carries the maximum so far, and the thread that takes the response clears it. A report that
is merged while another thread waits for its response is cleared with the rest, although the
request on its way does not carry it.

As long as nothing positive has been merged since the last request was queued when a response is
taken, every report is still part of `pod_overuse_ms` or was covered by a later request. What has
been reported and what has been queued is a history variable.
-/
import Gemini.Lib.Ghost
import Gemini.PodManager.Launch

namespace Gemini.PodManager

open Gemini.Lib

/-- The requests that have been queued, oldest first, and the reports that have been merged, each
with the number of requests queued before it. -/
structure Reports where
  queued : List Request
  merged : List (ℚ × ℕ)
deriving DecidableEq, Repr

/-- The response that the thread takes if it is there. -/
def HookThread.taking : HookThread → Option ℕ
  | .waitRsp reqId _ => some reqId
  | _ => none

namespace State

def noteReports (s : State) : Event → Reports → Reports
  | .advance t _, r => match s.threads t with
    | .merge overuse _ => { r with merged := (overuse, r.queued.length) :: r.merged }
    | .enqueue burst => { r with queued := r.queued ++ [⟨s.reqCnt, s.podOveruseMs, burst⟩] }
    | _ => r
  | _, r => r

/-- The pod manager, with the history of its reports. -/
def stepReports : State × Reports → Event → Option (State × Reports) := withHistory step noteReports

def initReports : State × Reports := (init, ⟨[], []⟩)

variable {p q : State × Reports} {e : Event} {es : List Event}

/-- Every report is part of the overuse of the pod, or of a request that was queued after it. -/
def NoReportLost (p : State × Reports) : Prop :=
  ∀ v ∈ p.2.merged, v.1 ≤ p.1.podOveruseMs ∨ ∃ r ∈ p.2.queued.drop v.2, v.1 ≤ r.overuse

/-- When a response is taken, nothing positive has been merged since the last request was queued. -/
def ClearsReported (p : State × Reports) : Event → Prop
  | .advance t _ => ∀ reqId ∈ (p.1.threads t).taking, p.1.responseMap.lookup reqId ≠ none →
      ∀ v ∈ p.2.merged, v.2 = p.2.queued.length → v.1 ≤ 0
  | _ => True

/-! ## The invariant -/

/-- A report that no request has followed is part of the overuse of the pod, and any other of a
request that did. -/
structure ReportsInv (p : State × Reports) : Prop where
  nonneg : 0 ≤ p.1.podOveruseMs
  past : ∀ v ∈ p.2.merged, v.2 ≤ p.2.queued.length
  fresh : ∀ v ∈ p.2.merged, v.2 = p.2.queued.length → v.1 ≤ p.1.podOveruseMs
  covered : ∀ v ∈ p.2.merged, v.2 ≠ p.2.queued.length → ∃ r ∈ p.2.queued.drop v.2, v.1 ≤ r.overuse

theorem reportsInv_init : ReportsInv initReports := ⟨le_rfl, nofun, nofun, nofun⟩

/-- What a step has to keep that neither reports nor queues anything. -/
theorem ReportsInv.of_overuse (hinv : ReportsInv p) (hr : q.2 = p.2) (h0 : 0 ≤ q.1.podOveruseMs)
    (hf : ∀ v ∈ p.2.merged, v.2 = p.2.queued.length → v.1 ≤ q.1.podOveruseMs) : ReportsInv q := by
  refine ⟨h0, ?_, ?_, ?_⟩
  · rw [hr]; exact hinv.past
  · rw [hr]; exact hf
  · rw [hr]; exact hinv.covered

/-- A report is merged. -/
theorem ReportsInv.merge (hinv : ReportsInv p) {overuse : ℚ}
    (hr : q.2 = { p.2 with merged := (overuse, p.2.queued.length) :: p.2.merged })
    (ho : q.1.podOveruseMs = max overuse p.1.podOveruseMs) : ReportsInv q := by
  refine ⟨ho ▸ hinv.nonneg.trans (le_max_right _ _), fun v hv => ?_, fun v hv hl => ?_, fun v hv hl => ?_⟩
  · rw [hr] at hv ⊢
    rcases List.mem_cons.1 hv with rfl | hv
    · exact le_rfl
    · exact hinv.past v hv
  · rw [hr] at hv hl
    rcases List.mem_cons.1 hv with rfl | hv
    · exact ho ▸ le_max_left _ _
    · exact ho ▸ (hinv.fresh v hv hl).trans (le_max_right _ _)
  · rw [hr] at hv hl ⊢
    rcases List.mem_cons.1 hv with rfl | hv
    · exact absurd rfl hl
    · exact hinv.covered v hv hl

/-- A request that carries the overuse of the pod covers all that no request has followed yet. -/
theorem ReportsInv.enqueue (hinv : ReportsInv p) {r : Request}
    (hr : q.2 = { p.2 with queued := p.2.queued ++ [r] }) (hov : r.overuse = p.1.podOveruseMs)
    (ho : q.1.podOveruseMs = p.1.podOveruseMs) : ReportsInv q := by
  have hlen : (p.2.queued ++ [r]).length = p.2.queued.length + 1 := by simp
  refine ⟨ho ▸ hinv.nonneg, fun v hv => ?_, fun v hv hl => ?_, fun v hv _ => ?_⟩
  · rw [hr] at hv ⊢
    have := hinv.past v hv
    simp only [hlen]
    omega
  · rw [hr] at hv hl
    have := hinv.past v hv
    simp only [hlen] at hl
    omega
  · rw [hr] at hv ⊢
    simp only
    rw [List.drop_append_of_le_length (hinv.past v hv)]
    by_cases hl : v.2 = p.2.queued.length
    · exact ⟨r, by simp, hov ▸ hinv.fresh v hv hl⟩
    · obtain ⟨r', hr', h⟩ := hinv.covered v hv hl
      exact ⟨r', List.mem_append_left _ hr', h⟩

theorem reportsInv_advance (hinv : ReportsInv p) {t : ℕ} {now : ℤ} (hclear : ClearsReported p (.advance t now))
    (hs : p.1.launch t now = some q.1) (hr : q.2 = p.1.noteReports (.advance t now) p.2) : ReportsInv q := by
  have ho := (launch_some hs).overuse
  simp only [noteReports] at hr
  unfold overuseAfter at ho
  cases ht : p.1.threads t <;> rw [ht] at hr ho
  case merge overuse burst => exact hinv.merge hr ho
  case enqueue burst => exact hinv.enqueue hr rfl ho
  case waitRsp reqId woken =>
    simp only at ho
    split at ho
    · exact hinv.of_overuse hr (ho ▸ hinv.nonneg) (ho ▸ hinv.fresh)
    · rename_i hl
      -- the overuse is cleared: nothing in it may be left uncovered
      refine hinv.of_overuse hr ho.ge fun v hv hlast => ?_
      rw [ho]
      exact hclear reqId (by rw [ht]; rfl) hl v hv hlast
  all_goals exact hinv.of_overuse hr (ho ▸ hinv.nonneg) (ho ▸ hinv.fresh)

theorem reportsInv_step (hinv : ReportsInv p) (hclear : ClearsReported p e) (hs : stepReports p e = some q) :
    ReportsInv q := by
  obtain ⟨hs, hr⟩ := withHistory_some hs
  -- only a step of `hook_kernel_launch` touches the overuse of the pod
  have hquiet : q.2 = p.2 → q.1.podOveruseMs = p.1.podOveruseMs → ReportsInv q := by
    intro hr ho
    exact hinv.of_overuse hr (ho ▸ hinv.nonneg) (ho ▸ hinv.fresh)
  have haround : ∀ {t}, q.2 = p.2 → Around t p.1 q.1 → ReportsInv q := by
    rintro t hr ⟨-, h, m, -, hq⟩
    exact hquiet hr (by rw [hq]; rfl)
  cases e with
  | accept t => exact haround hr (accept_some hs)
  | hangUp t => exact haround hr (hangUp_some hs)
  | request t overuse burst => exact haround hr (request_some hs)
  | advance t now =>
    obtain ⟨s₁, hs₁, hq⟩ := advance_some hs
    have hinv₁ : ReportsInv (s₁, q.2) := reportsInv_advance hinv hclear hs₁ hr
    exact hinv₁.of_overuse rfl (hq ▸ hinv₁.nonneg) (hq ▸ hinv₁.fresh)
  | forward =>
    simp only [step, forward] at hs
    split at hs
    · exact hquiet hr (by rw [← Option.some.inj hs])
    · split at hs <;> exact hquiet hr (by rw [← Option.some.inj hs])
  | reply reqId quota =>
    simp only [step, reply] at hs
    split at hs
    · exact hquiet hr (by rw [← Option.some.inj hs])
    · cases hs

/-! ## Reports over runs -/

/-- Every run of the pod manager has a history of its reports. -/
theorem exists_reports {s t : State} (hrun : Run step s es t) (r : Reports) : ∃ r', Run stepReports (s, r) es (t, r') :=
  hrun.recorded noteReports r

/-- In every run in which a response is taken only when nothing positive has been merged since the
last request was queued, no report is lost. -/
theorem noReportLost_of_run (hrun : RunWhere stepReports ClearsReported initReports es p) : NoReportLost p := by
  have hinv : ReportsInv p := hrun.invariant (fun _ _ _ => reportsInv_step) reportsInv_init
  intro v hv
  by_cases hl : v.2 = p.2.queued.length
  · exact .inl (hinv.fresh v hv hl)
  · exact .inr (hinv.covered v hv hl)

/-- A response that is taken when something positive has been merged since the last request loses
that report there and then. -/
theorem reportLost_of_clear (h : ¬ ClearsReported p e) (hs : stepReports p e = some q) : ¬ NoReportLost q := by
  obtain ⟨hs, hr⟩ := withHistory_some hs
  cases e with
  | advance t now =>
    unfold ClearsReported at h
    push Not at h
    obtain ⟨reqId, ht, hl, v, hv, hlast, hpos⟩ := h
    obtain ⟨woken, ht⟩ : ∃ woken, p.1.threads t = .waitRsp reqId woken := by
      cases hst : p.1.threads t <;> rw [hst] at ht <;> cases ht
      exact ⟨_, rfl⟩
    obtain ⟨s₁, hs₁, hq⟩ := advance_some hs
    have ho := (launch_some hs₁).overuse
    simp only [overuseAfter, ht, if_neg hl] at ho
    simp only [noteReports, ht] at hr
    intro hlost
    rcases hlost v (hr ▸ hv) with hle | ⟨r, hmem, -⟩
    · rw [hq] at hle
      exact (hle.trans ho.le).not_gt hpos
    · rw [hr, hlast, List.drop_length] at hmem
      cases hmem
  | accept t => exact absurd trivial h
  | hangUp t => exact absurd trivial h
  | request t overuse burst => exact absurd trivial h
  | forward => exact absurd trivial h
  | reply reqId quota => exact absurd trivial h

instance (p : State × Reports) (e : Event) : Decidable (ClearsReported p e) :=
  match e with
  | .advance t _ => inferInstanceAs (Decidable (∀ reqId ∈ (p.1.threads t).taking, p.1.responseMap.lookup reqId ≠ none →
      ∀ v ∈ p.2.merged, v.2 = p.2.queued.length → v.1 ≤ 0))
  | .accept .. | .hangUp .. | .request .. | .forward | .reply .. => .isTrue trivial

/-- An overuse of 3 ms goes to the scheduler with the request that follows it. -/
theorem noReportLost_of_one_thread : ∃ p, RunWhere stepReports ClearsReported initReports
    (.accept 0 :: .forward :: .request 0 3 5 :: steps 0 8 (.forward :: .reply 0 250 :: steps 0 3 [])) p ∧
    p.2 = ⟨[⟨0, 3, 5⟩], [(3, 0)]⟩ ∧ p.1.podOveruseMs = 0 ∧ NoReportLost p := by
  have hrun : ∃ p, RunWhere stepReports ClearsReported initReports
      (.accept 0 :: .forward :: .request 0 3 5 :: steps 0 8 (.forward :: .reply 0 250 :: steps 0 3 [])) p ∧
      p.2 = ⟨[⟨0, 3, 5⟩], [(3, 0)]⟩ ∧ p.1.podOveruseMs = 0 := exists_runWhere (by decide +kernel)
  obtain ⟨p, hrun, hr, ho⟩ := hrun
  exact ⟨p, hrun, hr, ho, noReportLost_of_run hrun⟩

/-- Thread 1 finds the quota state free, thread 0 queues its request, and thread 1 merges an overuse
of 3 ms before thread 0 takes the response and clears it. -/
def mergeWhileWaiting : List Event := .accept 0 :: .accept 1 :: .forward :: .request 1 3 0 :: steps 1 1
  (.request 0 0 5 :: steps 0 8 (.forward :: steps 1 1 (.reply 0 250 :: steps 0 1 [])))

theorem not_noReportLost_of_merge_while_waiting :
    ∃ p, Run stepReports initReports mergeWhileWaiting p ∧ ¬ NoReportLost p := by
  have hrun : ∃ p, Run stepReports initReports mergeWhileWaiting p ∧
      p.2 = ⟨[⟨0, 0, 5⟩], [(3, 1), (0, 0)]⟩ ∧ p.1.podOveruseMs = 0 := exists_runWhere (by decide +kernel)
  obtain ⟨p, hrun, hr, ho⟩ := hrun
  refine ⟨p, hrun, fun h => ?_⟩
  rcases h (3, 1) (by rw [hr]; simp) with h | ⟨r, hmem, -⟩
  · rw [ho] at h; norm_num at h
  · rw [hr] at hmem; simp at hmem

end State

end Gemini.PodManager
