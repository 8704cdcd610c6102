/-
How long `select_candidate` sleeps. When no candidate is below its limit the scheduler sleeps until
the first entry of `history_list` ends at the window start. A fresh turn may find a candidate
earlier: the shares shrink as soon as the window start moves into a token, and another token may
leave the window before the first one.

`noOversleep_iff` says exactly when no candidate is slept past: when the first entry leaves at
once, or when at the end of the sleep every candidate still has its limit in shares after the first
entry's end. A token that ends elsewhere before that instant is seen by the sweep as doubled.
-/
import Gemini.Scheduler.Sweep
import Gemini.Scheduler.Select

namespace Gemini.Scheduler

open Gemini.Lib

/-- No turn before the wake-up time would select a candidate. -/
def NoOversleep (windowSize : ℚ) (clients : ClientInfoMap) (hs : List History) (candidates : List Candidate)
    (now ms : ℚ) : Prop :=
  ∀ t, now < t → Selects windowSize clients hs candidates t → now + ms ≤ t

/-- Every candidate has its limit at `t` in shares of `hs` after the window start. -/
def AllAtLimit (windowSize : ℚ) (clients : ClientInfoMap) (hs : List History) (candidates : List Candidate)
    (t : ℚ) : Prop :=
  ∀ c ∈ candidates, ∀ inf ∈ clients c.name,
    ((inf.maxFrac * effectiveWindow windowSize t : ℚ) : ℝ) ≤ fairShare hs c.name (t - windowSize)

/-- When `first` leaves the window, the front candidate still has a token in it and every candidate
its limit; and so it is, in swept tokens, wherever another token leaves before. -/
def StillBlocked (windowSize : ℚ) (clients : ClientInfoMap) (hs : List History) (candidates : List Candidate)
    (now : ℚ) (first : History) : Prop :=
  (∀ c ∈ candidates.head?, ∃ g ∈ hs, g.name = c.name ∧ first.end ≤ g.end) ∧
  AllAtLimit windowSize clients hs candidates (first.end + windowSize) ∧
  ∀ g ∈ hs, now - windowSize < g.end → g.end < first.end →
    AllAtLimit windowSize clients (swept g.end (prune g.end hs)) candidates (g.end + windowSize)

/-- The first entry of `history_list` leaves the window at once, or the candidates are blocked until it does. -/
def BlockedUntil (windowSize : ℚ) (clients : ClientInfoMap) (hs : List History) (candidates : List Candidate)
    (now : ℚ) : Prop :=
  ∀ first ∈ hs.head?, first.end = now - windowSize ∨ StillBlocked windowSize clients hs candidates now first

section

variable {windowSize now t : ℚ} {clients : ClientInfoMap} {hs : List History} {candidates : List Candidate}

theorem swept_prune_of_ne {w : ℚ} (h : ∀ g ∈ hs, g.end ≠ w) (c : String) :
    fairShare (swept w (prune w hs)) c w = fairShare hs c w := by
  rw [swept_of_ne fun g hg => h g (mem_prune.1 hg).1, fairShare_prune le_rfl]

/-- A turn that finds a candidate below its limit in swept shares can select. -/
theorem selects_of_share {front : Candidate} {tail : List Candidate} (hwt : WellTimed hs)
    (hknown : ∀ c ∈ front :: tail, ∃ inf, clients c.name = some inf)
    (h : ¬ AllAtLimit windowSize clients (swept (t - windowSize) (prune (t - windowSize) hs)) (front :: tail) t) :
    Selects windowSize clients hs (front :: tail) t := by
  unfold AllAtLimit at h
  push Not at h
  obtain ⟨c, hc, inf, hinf, hlt⟩ := h
  obtain ⟨ts, hts, hb⟩ := exists_balanced (wellTimed_prune hwt (t - windowSize))
  obtain ⟨u, hu, hshare⟩ := usageOf_eq (wellTimed_prune hwt _) hb (fun _ hh => (mem_prune.1 hh).2) hts
  rw [← hshare] at hlt
  exact selects_of_below hknown hts hu hc hinf (by exact_mod_cast hlt)

/-- A turn that selects leaves by the quick exit or finds a candidate below its limit. -/
theorem not_allAtLimit_of_selects (hwt : WellTimed hs) (h : Selects windowSize clients hs candidates t) :
    (∃ c ∈ candidates.head?, ∀ g ∈ prune (t - windowSize) hs, g.name ≠ c.name) ∨
      ¬ AllAtLimit windowSize clients (swept (t - windowSize) (prune (t - windowSize) hs)) candidates t := by
  obtain ⟨ts, order, c, rest, h⟩ := h
  rcases selectPass_selected h with ⟨rfl, hq⟩ | ⟨usage, inf, i, hu, hts, hc, -, hinf, hlt, -⟩
  · exact .inl ⟨c, rfl, hq⟩
  · apply Or.inr
    intro hall
    have h1 := hall c (List.mem_of_getElem? hc) inf hinf
    have h2 := fairShare_le_usageOf (wellTimed_prune hwt _) (fun _ hh => (mem_prune.1 hh).2) hts hu c.name
    exact absurd hlt (not_lt.2 (by exact_mod_cast h1.trans h2))

theorem effectiveWindow_mono (windowSize : ℚ) {a b : ℚ} (h : a ≤ b) :
    effectiveWindow windowSize a ≤ effectiveWindow windowSize b := by
  rw [effectiveWindow_eq_min, effectiveWindow_eq_min]; exact min_le_min_right _ h

/-- The window grows no faster than time passes. -/
theorem effectiveWindow_sub_le (windowSize : ℚ) {a b : ℚ} (h : a ≤ b) :
    effectiveWindow windowSize b - effectiveWindow windowSize a ≤ b - a := by
  rw [effectiveWindow_eq_min, effectiveWindow_eq_min]
  rcases le_total a windowSize with h1 | h1
  · rw [min_eq_left h1]; have := min_le_left b windowSize; linarith
  · rw [min_eq_right h1, min_eq_right (h1.trans h)]; linarith

/-- Limits are reached later, never earlier, than a moment at which they are all reached: the shares
only shrink and the window only grows. -/
theorem AllAtLimit.before (hlim : ∀ c ∈ candidates, ∀ inf ∈ clients c.name, 0 < inf.maxFrac) {a b : ℚ} (h : a ≤ b)
    (hb : AllAtLimit windowSize clients hs candidates b) : AllAtLimit windowSize clients hs candidates a := by
  intro c hc inf hinf
  have h1 := hb c hc inf hinf
  have h2 : fairShare hs c.name (b - windowSize) ≤ fairShare hs c.name (a - windowSize) :=
    share_antitone _ _ (by exact_mod_cast sub_le_sub_right h windowSize)
  have h3 : ((inf.maxFrac * effectiveWindow windowSize a : ℚ) : ℝ) ≤
      (inf.maxFrac * effectiveWindow windowSize b : ℚ) := by
    exact_mod_cast mul_le_mul_of_nonneg_left (effectiveWindow_mono windowSize h) (hlim c hc inf hinf).le
  linarith

/-- If the limits are not all reached at `b`, they are not shortly before it. -/
theorem exists_not_allAtLimit (hlim : ∀ c ∈ candidates, ∀ inf ∈ clients c.name, 0 < inf.maxFrac) {a b : ℚ}
    (hab : a < b) (hb : ¬ AllAtLimit windowSize clients hs candidates b) :
    ∃ t, a < t ∧ t < b ∧ ¬ AllAtLimit windowSize clients hs candidates t := by
  unfold AllAtLimit at hb
  push Not at hb
  obtain ⟨c, hc, inf, hinf, hlt⟩ := hb
  have hpos := hlim c hc inf hinf
  have hpos' : (0 : ℝ) < inf.maxFrac + 1 := by have : (0 : ℝ) < inf.maxFrac := by exact_mod_cast hpos
                                               linarith
  -- the gap left at `b`, and how long it takes to close it
  obtain ⟨δ, hδ⟩ : ∃ δ : ℝ, δ = ((inf.maxFrac * effectiveWindow windowSize b : ℚ) : ℝ) -
      fairShare hs c.name (b - windowSize) := ⟨_, rfl⟩
  have hδ0 : 0 < δ := by rw [hδ]; linarith
  have hab' : (a : ℝ) < b := by exact_mod_cast hab
  obtain ⟨t, h1, h2⟩ := exists_rat_btwn (max_lt hab' (sub_lt_self (b : ℝ) (div_pos hδ0 hpos')))
  have hat := (le_max_left _ _).trans_lt h1
  have hdt := (le_max_right _ _).trans_lt h1
  have htb : t < b := by exact_mod_cast h2
  refine ⟨t, by exact_mod_cast hat, htb, fun hall => ?_⟩
  have h3 := hall c hc inf hinf
  have h4 := share_sub_le (spans hs) c.name (a := ((t - windowSize : ℚ) : ℝ)) (b := ((b - windowSize : ℚ) : ℝ))
    (by exact_mod_cast sub_le_sub_right htb.le windowSize)
  have h5 : (inf.maxFrac : ℝ) * (effectiveWindow windowSize b - effectiveWindow windowSize t : ℚ) ≤
      inf.maxFrac * (b - t : ℚ) :=
    mul_le_mul_of_nonneg_left (by exact_mod_cast effectiveWindow_sub_le windowSize htb.le) (by exact_mod_cast hpos.le)
  have h6 : (b - t : ℝ) * (inf.maxFrac + 1) < δ := by
    rw [← lt_div_iff₀ hpos']; linarith
  unfold fairShare at hδ h3
  push_cast at hδ h3 h4 h5
  linarith

/-- Short of `b` and after `a` there are instants at which no token ends at the window start. -/
theorem lastEnd_filter_lt {w v : ℚ} (hw : w < v) (hs : List History) :
    lastEnd w (hs.filter fun g => decide (g.end < v)) < v := by
  induction hs with
  | nil => exact hw
  | cons g hs ih =>
    by_cases hg : g.end < v
    · rw [List.filter_cons_of_pos (by simpa using hg)]; exact max_lt hg ih
    · rw [List.filter_cons_of_neg (by simpa using hg)]; exact ih

/-- From some instant on, up to `b`, no token ends at the window start. -/
theorem exists_last_end_before {b : ℚ} (hnow : now < b) (windowSize : ℚ) (hs : List History) :
    ∃ m, now ≤ m ∧ m < b ∧ ∀ g ∈ hs, g.end < b - windowSize → g.end ≤ m - windowSize := by
  have h1 := lastEnd_filter_lt (sub_lt_sub_right hnow windowSize) hs
  have h2 := le_lastEnd (now - windowSize) (hs.filter fun g => decide (g.end < b - windowSize))
  refine ⟨lastEnd (now - windowSize) (hs.filter fun g => decide (g.end < b - windowSize)) + windowSize, by linarith,
    by linarith, ?_⟩
  intro g hg hlt
  rw [add_sub_cancel_right]
  exact end_le_lastEnd _ (List.mem_filter.2 ⟨hg, by simpa using hlt⟩)

/-- If no turn selects before `first` leaves the window, the candidates are blocked until then. -/
theorem stillBlocked_of_not_selects {front : Candidate} {tail : List Candidate} {first : History} (hwt : WellTimed hs)
    (hlim : ∀ c ∈ front :: tail, ∀ inf ∈ clients c.name, 0 < inf.maxFrac)
    (hknown : ∀ c ∈ front :: tail, ∃ inf, clients c.name = some inf) (hnow : now < first.end + windowSize)
    (hblock : ∀ t, now < t → t < first.end + windowSize → ¬ Selects windowSize clients hs (front :: tail) t) :
    StillBlocked windowSize clients hs (front :: tail) now first := by
  obtain ⟨m, hm1, hm2, hm3⟩ := exists_last_end_before hnow windowSize hs
  rw [add_sub_cancel_right] at hm3
  refine ⟨?_, ?_, ?_⟩
  · -- without a token of its own the front candidate would leave by the quick exit
    intro c hc
    obtain rfl : front = c := by simpa using hc
    by_contra hnone
    push Not at hnone
    refine hblock ((m + (first.end + windowSize)) / 2) (by linarith) (by linarith) (selects_of_absent ?_)
    intro g hg hn
    obtain ⟨hg, hw⟩ := mem_prune.1 hg
    have := hm3 g hg (hnone g hg hn)
    linarith
  · -- a candidate below its limit then is below it shortly before, where no token is doubled
    by_contra hnot
    obtain ⟨t, h1, h2, h3⟩ := exists_not_allAtLimit hlim hm2 hnot
    refine hblock t (hm1.trans_lt h1) h2 (selects_of_share hwt hknown fun hall => h3 ?_)
    intro c hc inf hinf
    rw [← swept_prune_of_ne fun g hg he => ?_]
    · exact hall c hc inf hinf
    · rcases lt_or_ge g.end first.end with hlt | hle
      · have := hm3 g hg hlt; linarith
      · linarith
  · intro g _ h1 h2
    by_contra hnot
    refine hblock (g.end + windowSize) (by linarith) (by linarith) (selects_of_share hwt hknown ?_)
    rwa [add_sub_cancel_right]

/-- While the candidates are blocked no turn selects. -/
theorem not_selects_of_stillBlocked {first : History} (hwt : WellTimed hs)
    (hlim : ∀ c ∈ candidates, ∀ inf ∈ clients c.name, 0 < inf.maxFrac)
    (hblocked : StillBlocked windowSize clients hs candidates now first) (hnow : now < t)
    (hlt : t < first.end + windowSize) : ¬ Selects windowSize clients hs candidates t := by
  intro hsel
  obtain ⟨hhead, hall, hedge⟩ := hblocked
  rcases not_allAtLimit_of_selects hwt hsel with ⟨c, hc, hq⟩ | hnot
  · obtain ⟨g, hg, hn, he⟩ := hhead c hc
    exact hq g (mem_prune.2 ⟨hg, by linarith⟩) hn
  · apply hnot
    by_cases hend : ∃ g ∈ hs, g.end = t - windowSize
    · obtain ⟨g, hg, he⟩ := hend
      have := hedge g hg (by linarith) (by linarith)
      rwa [he, sub_add_cancel] at this
    · push Not at hend
      intro c hc inf hinf
      rw [swept_prune_of_ne hend]
      exact hall.before hlim hlt.le c hc inf hinf

/-- No candidate is slept past exactly when the first entry leaves the window at once, or every
candidate still has its limit when it does and whenever another token leaves before. -/
theorem noOversleep_iff {history : List History} {ts : List ContainerTimestamp} {order : List ValidCandidate} {ms : ℚ}
    (hwt : WellTimed history) (hlim : ∀ c ∈ candidates, ∀ inf ∈ clients c.name, 0 < inf.maxFrac)
    (h : selectPass windowSize clients history candidates now ts order = some (.sleep ms)) :
    NoOversleep windowSize clients (prune (now - windowSize) history) candidates now ms ↔
      BlockedUntil windowSize clients (prune (now - windowSize) history) candidates now := by
  obtain ⟨usage, -, -, ⟨⟨c, hc, -⟩, ⟨first, hfirst, hms⟩, hfull⟩⟩ := selectPass_sleep h
  have hwt' := wellTimed_prune hwt (now - windowSize)
  have hge : now - windowSize ≤ first.end := (mem_prune.1 (List.mem_of_head? hfirst)).2
  have hwake : now + ms = first.end + windowSize := by linarith
  obtain ⟨tail, rfl⟩ : ∃ tail, candidates = c :: tail := by
    cases candidates with
    | nil => cases hc
    | cons d ds => exact ⟨ds, by rw [Option.some.inj hc]⟩
  have hknown : ∀ d ∈ c :: tail, ∃ inf, clients d.name = some inf := fun d hd => (hfull d hd).imp fun _ h => h.1
  unfold NoOversleep
  rw [hwake]
  constructor
  · intro hno g hg
    obtain rfl : first = g := Option.some.inj (hfirst.symm.trans hg)
    rcases hge.eq_or_lt with heq | hlt
    · exact .inl heq.symm
    · exact .inr (stillBlocked_of_not_selects hwt' hlim hknown (by linarith) fun t h1 h2 hsel =>
        absurd (hno t h1 hsel) (not_le.2 h2))
  · intro hb t hnow hsel
    rcases hb first hfirst with heq | hblocked
    · linarith
    · by_contra hlt
      exact not_selects_of_stillBlocked hwt' hlim hblocked hnow (not_le.1 hlt) hsel

end

/-! ## A sleep past a candidate -/

/-- One client with half of the GPU as its limit. -/
def halfLimit : ClientInfoMap := fun n => if n = "a" then some (.new 250 100 5 (1 / 2) (1 / 2) 0) else none

/-- Its one token, from 1 to 9, and a request of its own waiting. -/
def oneToken : List History := [⟨"a", 1, 9⟩]
def oneWaiting : List Candidate := [⟨4, "a", 0, 11, 0⟩]

theorem oneToken_sleeps :
    selectPass 10 halfLimit oneToken oneWaiting 11 [⟨"a", -1⟩, ⟨"a", 9⟩] [] = some (.sleep 8) := by
  decide +kernel

/-- At 11, with a window of 10, `a` has used 8 of its 5 and the scheduler sleeps 8, although `a` is
below its limit again at 15. -/
theorem oversleeps_one_token :
    selectPass 10 halfLimit oneToken oneWaiting 11 [⟨"a", -1⟩, ⟨"a", 9⟩] [] = some (.sleep 8) ∧
      ¬ NoOversleep 10 halfLimit (prune (11 - 10) oneToken) oneWaiting 11 8 := by
  refine ⟨oneToken_sleeps, fun h => ?_⟩
  have hsel : selectPass 10 halfLimit (prune (11 - 10) oneToken) oneWaiting 15 [⟨"a", -1⟩, ⟨"a", 9⟩]
      [⟨1, 1, 4, 11, 0⟩] = some (.selected ⟨4, "a", 0, 11, 0⟩ []) := by decide +kernel
  have := h 15 (by norm_num) ⟨_, _, _, _, hsel⟩
  norm_num at this

theorem noOversleep_iff_one_token :
    NoOversleep 10 halfLimit (prune (11 - 10) oneToken) oneWaiting 11 8 ↔
      BlockedUntil 10 halfLimit (prune (11 - 10) oneToken) oneWaiting 11 :=
  noOversleep_iff (by decide +kernel) (by decide +kernel) oneToken_sleeps

end Gemini.Scheduler
