/-
No GPU time is created or lost. At an instant at which tokens are held their rates add up to one, so
wherever the sweep is exact the usages that it computes add up to the time, after the window start,
at which some token is held.
-/
import Gemini.Scheduler.Timeline

namespace Gemini.Scheduler

open Gemini.Lib MeasureTheory

/-- The instants at which a token is held. -/
def heldTime (hs : List History) : Set ℝ := {t | ∃ h ∈ hs, (h.start : ℝ) ≤ t ∧ t < (h.end : ℝ)}

theorem heldTime_eq (hs : List History) : heldTime hs = busy (spans hs) := by
  ext t
  simp [heldTime, busy, spans, Span.Covers]

namespace Timeline

variable {windowSize : ℚ} {s : Timeline}

/-- In every run whose overuse reports all find their token, at every evaluation with clear stamps:
the usages add up to the time after the window start at which a token of the full history is held. -/
theorem usage_total_of_run {ops : List TimelineOp}
    (hrun : RunWhere (step windowSize) (fun s op => s.Admissible op ∧ s.ReportFinds windowSize op) init ops s)
    {now : ℚ} (hnow : s.clock ≤ now) (hclear : s.StampsClear windowSize now) {ts : List ContainerTimestamp}
    (hts : StdSort tsComp (timestampVector (s.window windowSize now)) ts) {names : Finset String}
    (hnames : ∀ h ∈ s.full, h.name ∈ names) : ∃ u, usageOf (now - windowSize) ts = some u ∧
      ((∑ c ∈ names, u c : ℚ) : ℝ) = volume.real (Set.Ioi ((now - windowSize : ℚ) : ℝ) ∩ heldTime s.full) := by
  have hinv := hrun.invariant (fun _ _ _ hi hg hs => inv_step hi hg.1 hg.2 hs) (inv_init windowSize)
  obtain ⟨u, hu, hshare⟩ := usageExact_of_inv hinv hnow hclear ts hts
  refine ⟨u, hu, ?_⟩
  have hkeys : ∀ x ∈ spans s.full, x.key ∈ names := by
    intro x hx
    obtain ⟨h, hh, rfl⟩ := List.mem_map.1 hx
    exact hnames h hh
  rw [heldTime_eq, ← sum_share hkeys, Rat.cast_sum]
  exact Finset.sum_congr rfl fun c _ => hshare c

/-- Two tokens that overlap from 6 to 8, one of them from before the window. -/
theorem usage_total_of_overlap : ∃ s : Timeline,
    RunWhere (step 10) (fun s op => s.Admissible op ∧ s.ReportFinds 10 op) init [.record "a" 7 1, .record "b" 6 6] s ∧
    ∃ u, usageOf (13 - 10) [⟨"a", -1⟩, ⟨"b", -6⟩, ⟨"a", 8⟩, ⟨"b", 12⟩] = some u ∧ u "a" = 4 ∧ u "b" = 5 ∧
      ((∑ c ∈ {"a", "b"}, u c : ℚ) : ℝ) = volume.real (Set.Ioi ((13 - 10 : ℚ) : ℝ) ∩ heldTime s.full) := by
  have hrun : RunWhere (step 10) (fun s op => s.Admissible op ∧ s.ReportFinds 10 op) init
      [.record "a" 7 1, .record "b" 6 6]
      ⟨[⟨"a", 1, 8⟩, ⟨"b", 6, 12⟩], [⟨⟨"a", 1, 8⟩, true⟩, ⟨⟨"b", 6, 12⟩, true⟩], 6⟩ :=
    runWhere_of_exec (by decide +kernel)
  have hclear : StampsClear 10 ⟨[⟨"a", 1, 8⟩, ⟨"b", 6, 12⟩], [⟨⟨"a", 1, 8⟩, true⟩, ⟨⟨"b", 6, 12⟩, true⟩], 6⟩ 13 := by
    unfold StampsClear; decide +kernel
  have hnames : ∀ h ∈ full ⟨[⟨"a", 1, 8⟩, ⟨"b", 6, 12⟩], [⟨⟨"a", 1, 8⟩, true⟩, ⟨⟨"b", 6, 12⟩, true⟩], 6⟩,
      h.name ∈ ({"a", "b"} : Finset String) := by decide +kernel
  have hvalues : (usageOf (13 - 10) [⟨"a", -1⟩, ⟨"b", -6⟩, ⟨"a", 8⟩, ⟨"b", 12⟩]).map (fun u => (u "a", u "b")) =
    some (4, 5) := by
    decide +kernel
  obtain ⟨u, hu, htotal⟩ := usage_total_of_run hrun (by norm_num) hclear
    (show StdSort tsComp _ [⟨"a", -1⟩, ⟨"b", -6⟩, ⟨"a", 8⟩, ⟨"b", 12⟩] by decide +kernel) hnames
  rw [hu] at hvalues
  obtain ⟨ha, hb⟩ := Prod.mk.inj (Option.some.inj hvalues)
  exact ⟨_, hrun, u, hu, ha, hb, htotal⟩

end Timeline

end Gemini.Scheduler
