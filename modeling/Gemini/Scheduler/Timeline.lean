/-
Runs of the time line: tokens are recorded, return times reported and the list pruned by passes of
`select_candidate`, in any order under a clock that never goes back. Beside `history_list` stands
`full_history`, which the source keeps under `_DEBUG` and never prunes; each of its entries
remembers here whether it is still in `history_list`.

At every evaluation the usage map gives each client its fair share over the whole history, unless
one of three things happened: a token ends exactly at the window start, a zero-length token stands
alone at its instant, or an overuse report came for a client whose newest token was already pruned.
-/
import Gemini.Lib.Run
import Gemini.Scheduler.Sweep

namespace Gemini.Scheduler

open Gemini.Lib

/-- An entry of `full_history`, with the ghost mark that it is still in `history_list`. -/
structure Tracked extends History where
  listed : Bool
deriving DecidableEq, Repr

/-- `history_list`, `full_history` and the last reading of the clock. -/
structure Timeline where
  historyList : List History
  fullHistory : List Tracked
  clock : ℚ
deriving DecidableEq, Repr

/-- What happens to the time line. -/
inductive TimelineOp where
  | record (name : String) (quota now : ℚ)
  | updateReturnTime (name : String) (overuse now : ℚ)
  | pass (now : ℚ)
deriving DecidableEq, Repr

namespace Timeline

def init : Timeline := ⟨[], [], 0⟩

/-- Everything ever recorded. -/
def full (s : Timeline) : List History := s.fullHistory.map Tracked.toHistory

/-- The newest entry of a client. -/
def newest (s : Timeline) (name : String) : Option Tracked := s.fullHistory.reverse.find? fun x => x.name = name

def record (name : String) (quota now : ℚ) (s : Timeline) : Timeline :=
  ⟨Scheduler.record name quota now s.historyList, s.fullHistory ++ [⟨⟨name, now, now + quota⟩, true⟩], now⟩

def updateReturnTime (name : String) (overuse now : ℚ) (s : Timeline) : Timeline :=
  ⟨Scheduler.updateReturnTime name overuse now s.historyList,
    updateLast (fun x => x.name) name (fun x => ⟨x.toHistory.returned overuse now, x.listed⟩) s.fullHistory, now⟩

/-- The pruning of one pass. -/
def prune (windowStart now : ℚ) (s : Timeline) : Timeline :=
  ⟨Scheduler.prune windowStart s.historyList,
    s.fullHistory.map fun x => { x with listed := x.listed && !beyondWindow windowStart x.toHistory }, now⟩

/-- One event on the time line, for a window of `windowSize` milliseconds. -/
def step (windowSize : ℚ) (s : Timeline) : TimelineOp → Option Timeline
  | .record name quota now => some (s.record name quota now)
  | .updateReturnTime name overuse now => some (s.updateReturnTime name overuse now)
  | .pass now => some (s.prune (now - windowSize) now)

/-- The clock is positive and does not go back; quotas and overuse are not negative. -/
def Admissible (s : Timeline) : TimelineOp → Prop
  | .record _ quota now => 0 < now ∧ s.clock ≤ now ∧ 0 ≤ quota
  | .updateReturnTime _ overuse now => 0 < now ∧ s.clock ≤ now ∧ 0 ≤ overuse
  | .pass now => 0 < now ∧ s.clock ≤ now

/-- An overuse report finds the token it is about: the newest token of the client is still in
`history_list`, or no token of the client is and the report leaves it outside the window. -/
def ReportFinds (windowSize : ℚ) (s : Timeline) : TimelineOp → Prop
  | .updateReturnTime name overuse now => ∀ x ∈ s.newest name, x.listed = true ∨
      ((∀ h ∈ s.historyList, h.name ≠ name) ∧ x.end + overuse ≤ now - windowSize)
  | _ => True

instance (s : Timeline) (op : TimelineOp) : Decidable (s.Admissible op) := by
  cases op <;> unfold Admissible <;> infer_instance

instance (windowSize : ℚ) (s : Timeline) (op : TimelineOp) : Decidable (s.ReportFinds windowSize op) := by
  cases op <;> unfold ReportFinds <;> infer_instance

/-- The tokens an evaluation at `now` sweeps. -/
def window (windowSize now : ℚ) (s : Timeline) : List History := Scheduler.prune (now - windowSize) s.historyList

/-- The evaluation at `now` gives every client its fair share over the full history, for every
order of equal stamps. -/
def UsageExact (windowSize : ℚ) (s : Timeline) (now : ℚ) : Prop :=
  ∀ ts, StdSort tsComp (timestampVector (s.window windowSize now)) ts →
    ∃ u, usageOf (now - windowSize) ts = some u ∧ ∀ c, (u c : ℝ) = fairShare s.full c (now - windowSize)

/-- No token in the window ends exactly at its start, and no zero-length token stands alone. -/
def StampsClear (windowSize : ℚ) (s : Timeline) (now : ℚ) : Prop :=
  (∀ h ∈ s.window windowSize now, h.end ≠ now - windowSize) ∧ EndsMatched (s.window windowSize now)

/-! ## The invariant -/

/-- What holds of every reachable time line. -/
structure Inv (windowSize : ℚ) (s : Timeline) : Prop where
  listed : s.historyList = (s.fullHistory.filter Tracked.listed).map Tracked.toHistory
  dropped : ∀ x ∈ s.fullHistory, x.listed = false → x.end ≤ s.clock - windowSize
  timed : ∀ x ∈ s.fullHistory, 0 < x.start ∧ x.start ≤ x.end ∧ x.start ≤ s.clock

variable {windowSize : ℚ} {s s' : Timeline} {op : TimelineOp}

theorem inv_init (windowSize : ℚ) : Inv windowSize init := ⟨rfl, by simp [init], by simp [init]⟩

/-- Updating the first entry of a client commutes with dropping the unlisted entries when the
entry is listed. -/
theorem updateFirst_listed (name : String) (f : History → History) : ∀ (xs : List Tracked),
    (∀ x, xs.find? (fun x => x.name = name) = some x → x.listed = true) →
      ((updateFirst (fun x => x.name) name (fun x => ⟨f x.toHistory, x.listed⟩) xs).filter Tracked.listed).map
        Tracked.toHistory =
      updateFirst History.name name f ((xs.filter Tracked.listed).map Tracked.toHistory)
  | [], _ => rfl
  | x :: xs, h => by
    by_cases hx : x.name = name
    · have hl : x.listed = true := h x (by simp [hx])
      simp [updateFirst, hx, hl]
    · have ih := updateFirst_listed name f xs fun y hy => h y (by simpa [hx] using hy)
      cases hl : x.listed <;> simp [updateFirst, hx, hl, ih]

/-- Updating a client without listed entries changes no listed entry. -/
theorem updateFirst_unlisted (name : String) (f : History → History) : ∀ (xs : List Tracked),
    (∀ x ∈ xs, x.name = name → x.listed = false) →
      (updateFirst (fun x => x.name) name (fun x => ⟨f x.toHistory, x.listed⟩) xs).filter Tracked.listed =
        xs.filter Tracked.listed
  | [], _ => rfl
  | x :: xs, h => by
    have ih := updateFirst_unlisted name f xs fun y hy => h y (List.mem_cons_of_mem _ hy)
    by_cases hx : x.name = name
    · have hl := h x (List.mem_cons_self ..) hx
      simp [updateFirst, hx, hl]
    · simp [updateFirst, hx, List.filter_cons, ih]

theorem updateFirst_absent {α : Type*} (name : α → String) (c : String) (f : α → α) : ∀ (xs : List α),
    (∀ x ∈ xs, name x ≠ c) → updateFirst name c f xs = xs
  | [], _ => rfl
  | x :: xs, h => by
    simp [updateFirst, h x (List.mem_cons_self ..),
      updateFirst_absent name c f xs fun y hy => h y (List.mem_cons_of_mem _ hy)]

theorem mem_history (hinv : Inv windowSize s) {h : History} (hh : h ∈ s.historyList) :
    ∃ x ∈ s.fullHistory, x.listed = true ∧ x.toHistory = h := by
  rw [hinv.listed] at hh
  obtain ⟨x, hx, rfl⟩ := List.mem_map.1 hh
  obtain ⟨hx, hl⟩ := List.mem_filter.1 hx
  exact ⟨x, hx, hl, rfl⟩

theorem inv_record (hinv : Inv windowSize s) {name : String} {quota now : ℚ} (h0 : 0 < now)
    (hnow : s.clock ≤ now) (hq : 0 ≤ quota) : Inv windowSize (s.record name quota now) := by
  refine ⟨?_, fun x hx hl => ?_, fun x hx => ?_⟩
  · simp [record, Scheduler.record, hinv.listed, List.filter_append]
  · rcases List.mem_append.1 hx with hx | hx
    · have := hinv.dropped x hx hl
      show x.end ≤ now - windowSize
      linarith
    · rw [List.mem_singleton.1 hx] at hl; cases hl
  · rcases List.mem_append.1 hx with hx | hx
    · obtain ⟨h1, h2, h3⟩ := hinv.timed x hx
      exact ⟨h1, h2, h3.trans hnow⟩
    · rw [List.mem_singleton.1 hx]
      exact ⟨h0, by show now ≤ now + quota; linarith, le_rfl⟩

/-- The reports that find their token keep the two lists together. -/
theorem listed_updateReturnTime (hinv : Inv windowSize s) {name : String} {overuse now : ℚ}
    (hfind : s.ReportFinds windowSize (.updateReturnTime name overuse now)) :
    (s.updateReturnTime name overuse now).historyList =
      ((s.updateReturnTime name overuse now).fullHistory.filter Tracked.listed).map Tracked.toHistory := by
  simp only [updateReturnTime, Scheduler.updateReturnTime, updateLast, hinv.listed, List.filter_reverse,
    List.map_reverse, List.reverse_inj]
  by_cases hl : ∀ x, s.newest name = some x → x.listed = true
  · have := updateFirst_listed name (History.returned overuse now) _ hl
    rw [List.filter_reverse, List.map_reverse] at this
    exact this.symm
  · push Not at hl
    obtain ⟨x, hx, hxl⟩ := hl
    obtain ⟨habs, -⟩ := (hfind x hx).resolve_left hxl
    have hun : ∀ y ∈ s.fullHistory, y.name = name → y.listed = false := by
      intro y hy hn
      by_contra hc
      refine habs y.toHistory ?_ hn
      rw [hinv.listed]
      exact List.mem_map.2 ⟨y, List.mem_filter.2 ⟨hy, by simpa using hc⟩, rfl⟩
    rw [updateFirst_unlisted _ _ _ fun y hy => hun y (List.mem_reverse.1 hy), updateFirst_absent]
    · rw [List.filter_reverse, List.map_reverse]
    · intro h hh
      rw [← hinv.listed] at hh
      exact habs h (List.mem_reverse.1 hh)

/-- A changed entry is the newest one of its client. -/
theorem mem_updateReturnTime {name : String} {overuse now : ℚ} {x : Tracked}
    (hx : x ∈ (s.updateReturnTime name overuse now).fullHistory) : x ∈ s.fullHistory ∨
      ∃ y ∈ s.fullHistory, s.newest name = some y ∧ x = ⟨y.toHistory.returned overuse now, y.listed⟩ := by
  have : ∀ {xs : List Tracked}, x ∈ updateFirst (fun x => x.name) name
      (fun x => ⟨x.toHistory.returned overuse now, x.listed⟩) xs → x ∈ xs ∨
        ∃ y ∈ xs, xs.find? (fun x => x.name = name) = some y ∧
          x = ⟨y.toHistory.returned overuse now, y.listed⟩ := by
    intro xs hx
    induction xs with
    | nil => simp [updateFirst] at hx
    | cons y ys ih =>
      unfold updateFirst at hx
      split at hx
      · rename_i hy
        rcases List.mem_cons.1 hx with rfl | hx
        · exact .inr ⟨y, List.mem_cons_self .., by simp [hy], rfl⟩
        · exact .inl (List.mem_cons_of_mem _ hx)
      · rename_i hy
        rcases List.mem_cons.1 hx with rfl | hx
        · exact .inl (List.mem_cons_self ..)
        · rcases ih hx with h | ⟨z, hz, hf, h⟩
          · exact .inl (List.mem_cons_of_mem _ h)
          · exact .inr ⟨z, List.mem_cons_of_mem _ hz, by simpa [hy] using hf, h⟩
  rcases this (List.mem_reverse.1 hx) with h | ⟨y, hy, hf, h⟩
  · exact .inl (List.mem_reverse.1 h)
  · exact .inr ⟨y, List.mem_reverse.1 hy, hf, h⟩

theorem inv_updateReturnTime (hinv : Inv windowSize s) {name : String} {overuse now : ℚ}
    (hnow : s.clock ≤ now) (ho : 0 ≤ overuse)
    (hfind : s.ReportFinds windowSize (.updateReturnTime name overuse now)) :
    Inv windowSize (s.updateReturnTime name overuse now) := by
  refine ⟨listed_updateReturnTime hinv hfind, fun x hx hl => ?_, fun x hx => ?_⟩
  · show x.end ≤ now - windowSize
    rcases mem_updateReturnTime hx with hx | ⟨y, hy, hn, rfl⟩
    · have := hinv.dropped x hx hl
      linarith
    · rcases hfind y hn with hyl | ⟨-, h⟩
      · rw [hyl] at hl; cases hl
      · exact (min_le_right _ _).trans h
  · rcases mem_updateReturnTime hx with hx | ⟨y, hy, -, rfl⟩
    · obtain ⟨h1, h2, h3⟩ := hinv.timed x hx
      exact ⟨h1, h2, h3.trans hnow⟩
    · obtain ⟨h1, h2, h3⟩ := hinv.timed y hy
      have h4 : y.start ≤ min now (y.end + overuse) := le_min (h3.trans hnow) (by linarith)
      exact ⟨h1, h4, h3.trans hnow⟩

theorem inv_prune (hinv : Inv windowSize s) {now : ℚ} (hnow : s.clock ≤ now) :
    Inv windowSize (s.prune (now - windowSize) now) := by
  refine ⟨?_, fun x hx hl => ?_, fun x hx => ?_⟩
  · simp only [prune, Scheduler.prune, hinv.listed, List.filter_map, List.map_map, List.filter_filter]
    simp [Function.comp_def, Bool.and_comm]
  · obtain ⟨y, hy, rfl⟩ := List.mem_map.1 hx
    show y.end ≤ now - windowSize
    cases hyl : y.listed with
    | false => have := hinv.dropped y hy hyl; linarith
    | true => simp [hyl, beyondWindow] at hl; exact hl.le
  · obtain ⟨y, hy, rfl⟩ := List.mem_map.1 hx
    obtain ⟨h1, h2, h3⟩ := hinv.timed y hy
    exact ⟨h1, h2, h3.trans hnow⟩

theorem inv_step (hinv : Inv windowSize s) (ha : s.Admissible op) (hf : s.ReportFinds windowSize op)
    (hs : s.step windowSize op = some s') : Inv windowSize s' := by
  cases op with
  | record name quota now => cases hs; exact inv_record hinv ha.1 ha.2.1 ha.2.2
  | updateReturnTime name overuse now => cases hs; exact inv_updateReturnTime hinv ha.2.1 ha.2.2 hf
  | pass now => cases hs; exact inv_prune hinv ha.2

/-! ## The usage map over runs -/

/-- The window and the full history have the same fair shares. -/
theorem fairShare_window (hinv : Inv windowSize s) {now : ℚ} (hnow : s.clock ≤ now) (c : String) :
    fairShare (s.window windowSize now) c (now - windowSize) = fairShare s.full c (now - windowSize) := by
  rw [window, fairShare_prune le_rfl, fairShare, fairShare, hinv.listed, full, spans, spans, List.map_map, List.map_map]
  refine share_filter_map _ _ (fun x hx hl => ?_) c
  have : x.end ≤ now - windowSize := by have := hinv.dropped x hx hl; linarith
  show (x.end : ℝ) ≤ ((now - windowSize : ℚ) : ℝ)
  exact_mod_cast this

theorem wellTimed_window (hinv : Inv windowSize s) (now : ℚ) : WellTimed (s.window windowSize now) := by
  intro h hh
  obtain ⟨x, hx, -, rfl⟩ := mem_history hinv (mem_prune.1 hh).1
  obtain ⟨h1, h2, -⟩ := hinv.timed x hx
  exact ⟨h1, h2⟩

theorem usageExact_of_inv (hinv : Inv windowSize s) {now : ℚ} (hnow : s.clock ≤ now)
    (hclear : s.StampsClear windowSize now) : s.UsageExact windowSize now := by
  intro ts hts
  obtain ⟨u, hu, hshare⟩ := usageOf_eq_fairShare (wellTimed_window hinv now) hclear.2
    (fun h hh => lt_of_le_of_ne (mem_prune.1 hh).2 (hclear.1 h hh).symm) hts
  exact ⟨u, hu, fun c => by rw [hshare, fairShare_window hinv hnow]⟩

/-- Where no token ends exactly at the window start, an evaluation gives every client at least its
fair share. -/
theorem fairShare_le_of_inv (hinv : Inv windowSize s) {now : ℚ} (hnow : s.clock ≤ now)
    (hends : ∀ h ∈ s.window windowSize now, h.end ≠ now - windowSize) {ts : List ContainerTimestamp}
    (hts : StdSort tsComp (timestampVector (s.window windowSize now)) ts) {u : String → ℚ}
    (hu : usageOf (now - windowSize) ts = some u) (c : String) : fairShare s.full c (now - windowSize) ≤ u c := by
  rw [← fairShare_window hinv hnow]
  have := fairShare_le_usageOf (wellTimed_window hinv now) (fun h hh => (mem_prune.1 hh).2) hts hu c
  rwa [swept_of_ne hends] at this

/-- In every run whose overuse reports all find their token, every evaluation with clear stamps
gives each client exactly its fair share over everything ever recorded. -/
theorem usageExact_of_run {ops : List TimelineOp}
    (hrun : RunWhere (step windowSize) (fun s op => s.Admissible op ∧ s.ReportFinds windowSize op) init ops s)
    {now : ℚ} (hnow : s.clock ≤ now) (hclear : s.StampsClear windowSize now) : s.UsageExact windowSize now :=
  usageExact_of_inv (hrun.invariant (fun _ _ _ hi hg hs => inv_step hi hg.1 hg.2 hs) (inv_init windowSize))
    hnow hclear

/-- A run the theorem speaks about: `a` returns early, `b` is still running at the evaluation. -/
theorem usageExact_of_two_tokens : ∃ s : Timeline,
    RunWhere (step 10) (fun s op => s.Admissible op ∧ s.ReportFinds 10 op) init
      [.record "a" 4 1, .updateReturnTime "a" 0 4, .record "b" 6 6] s ∧
    s.clock ≤ 13 ∧ s.StampsClear 10 13 ∧ s.UsageExact 10 13 := by
  have hrun : RunWhere (step 10) (fun s op => s.Admissible op ∧ s.ReportFinds 10 op) init
      [.record "a" 4 1, .updateReturnTime "a" 0 4, .record "b" 6 6]
      ⟨[⟨"a", 1, 4⟩, ⟨"b", 6, 12⟩], [⟨⟨"a", 1, 4⟩, true⟩, ⟨⟨"b", 6, 12⟩, true⟩], 6⟩ :=
    runWhere_of_exec (by decide +kernel)
  have hclock : (6 : ℚ) ≤ 13 := by norm_num
  have hclear : StampsClear 10 ⟨[⟨"a", 1, 4⟩, ⟨"b", 6, 12⟩], [⟨⟨"a", 1, 4⟩, true⟩, ⟨⟨"b", 6, 12⟩, true⟩], 6⟩ 13 := by
    unfold StampsClear; decide +kernel
  exact ⟨_, hrun, hclock, hclear, usageExact_of_run hrun hclock hclear⟩

/-- At 15, with a window of 10, the token of `a` ends exactly at the window start: its two stamps
count as two tokens and `a` is given 5 instead of 0. -/
theorem usage_not_exact_at_window_start : ∃ s : Timeline,
    RunWhere (step 10) Admissible init [.record "a" 4 1, .record "b" 6 6] s ∧ s.clock ≤ 15 ∧
      ¬ s.UsageExact 10 15 := by
  refine ⟨⟨[⟨"a", 1, 5⟩, ⟨"b", 6, 12⟩], [⟨⟨"a", 1, 5⟩, true⟩, ⟨⟨"b", 6, 12⟩, true⟩], 6⟩,
    runWhere_of_exec (by decide +kernel), by norm_num, fun h => ?_⟩
  obtain ⟨u, hu, hshare⟩ := h [⟨"a", -1⟩, ⟨"a", 5⟩, ⟨"b", -6⟩, ⟨"b", 12⟩] (by decide +kernel)
  have hua : u "a" = 5 := by
    have : (usageOf (15 - 10) [⟨"a", -1⟩, ⟨"a", 5⟩, ⟨"b", -6⟩, ⟨"b", 12⟩]).map (fun u => u "a") = some 5 := by
      decide +kernel
    rw [hu] at this
    simpa using this
  have hpos : 0 < fairShare (full ⟨[⟨"a", 1, 5⟩, ⟨"b", 6, 12⟩],
      [⟨⟨"a", 1, 5⟩, true⟩, ⟨⟨"b", 6, 12⟩, true⟩], 6⟩) "a" (15 - 10) := by
    rw [← hshare, hua]; norm_num
  obtain ⟨x, hx, hk, hlt⟩ := exists_of_share_pos hpos
  simp [full, spans] at hx
  rcases hx with rfl | rfl
  · norm_num at hlt
  · simp at hk

end Timeline

end Gemini.Scheduler
