/-
The minimum-share policy of `select_candidate`: a candidate below its request, one with the least
usage for its REQUEST, goes before every other; if there is none the candidate with the least
usage goes first.

The sort keeps the policy as long as no candidate is exactly at its request: such a candidate is
compared by usage alone, and may come before a candidate below its request or, standing in no
order with the others, leave the outcome of the sort open. The quick exit never looks at the other
candidates. Its candidate has used nothing, so it is first by the policy unless its REQUEST is 0.
-/
import Gemini.Scheduler.Sweep
import Gemini.Scheduler.Priority

namespace Gemini.Scheduler

open Gemini.Lib

/-! ## The policy -/

/-- `get_min_fraction` of the candidate's client. -/
def minFraction (clients : ClientInfoMap) (c : Candidate) : ℚ := (clients c.name).elim 0 ClientInfo.minFrac

/-- `get_max_fraction` of the candidate's client. -/
def maxFraction (clients : ClientInfoMap) (c : Candidate) : ℚ := (clients c.name).elim 0 ClientInfo.maxFrac

section

variable (clients : ClientInfoMap) (window : ℚ) (usage : String → ℚ) (cands : List Candidate)

def missingOf (c : Candidate) : ℚ := minFraction clients c * window - usage c.name

/-- The candidates below their limit. -/
def underLimit : Set Candidate := {c | c ∈ cands ∧ usage c.name < maxFraction clients c * window}

/-- The candidates below their limit that are below their request as well. -/
def needy : Set Candidate :=
  {c | c ∈ underLimit clients window usage cands ∧ usage c.name < minFraction clients c * window}

/-- `c` goes first by the minimum-share policy. -/
structure MinimumShare (c : Candidate) : Prop where
  mem : c ∈ underLimit clients window usage cands
  below : (needy clients window usage cands).Nonempty → c ∈ needy clients window usage cands ∧
    ∀ d ∈ needy clients window usage cands,
      usage c.name / minFraction clients c ≤ usage d.name / minFraction clients d
  least : ¬ (needy clients window usage cands).Nonempty →
    ∀ d ∈ underLimit clients window usage cands, usage c.name ≤ usage d.name

/-- Some candidate below its request has used less than `z`, and the usage of `z` agrees with the
order of the candidates below their limit. -/
structure NotInFront (z : Candidate) : Prop where
  behind : ∃ p ∈ needy clients window usage cands, usage p.name < usage z.name
  placed : Placed (underLimit clients window usage cands) (missingOf clients window usage)
    (fun c => usage c.name) z

/-- When a turn over the tokens `hs` keeps the policy: the quick exit if its candidate has a LIMIT,
and a REQUEST too wherever some candidate is below its own, the sort if no candidate exactly at
its request can come before one below its own. -/
structure KeepsPolicy (hs : List History) (front : Candidate) : Prop where
  quick : (∀ h ∈ hs, h.name ≠ front.name) → 0 < maxFraction clients front * window ∧
    ((needy clients window usage cands).Nonempty → 0 < minFraction clients front * window)
  swept : (∃ h ∈ hs, h.name = front.name) → (needy clients window usage cands).Nonempty →
    ∀ z ∈ underLimit clients window usage cands, missingOf clients window usage z = 0 →
      NotInFront clients window usage cands z

end

/-! ## What the sort leaves in front -/

section

variable {xs : List ValidCandidate}

/-- The policy, read off the values that are sorted. -/
structure GoesFirst (xs : List ValidCandidate) (v : ValidCandidate) : Prop where
  below : (∃ d ∈ xs, 0 < d.missing) → 0 < v.missing ∧
    ∀ d ∈ xs, 0 < d.missing → missingShare d.missing d.usage ≤ missingShare v.missing v.usage
  least : (¬ ∃ d ∈ xs, 0 < d.missing) → ∀ d ∈ xs, v.usage ≤ d.usage

theorem goesFirst_of_minimal {v : ValidCandidate} (hv : v ∈ xs)
    (hz : (∃ d ∈ xs, 0 < d.missing) → v.missing = 0 → ∃ p ∈ xs, p.usage < v.usage)
    (hmin : ∀ y ∈ xs, schdPriority y v = false) : GoesFirst xs v := by
  constructor
  · rintro ⟨d, hd, hd0⟩
    have hpos : 0 < v.missing := by
      rcases lt_trichotomy v.missing 0 with h | h | h
      · have := hmin d hd
        rw [schdPriority_of_ahead ⟨hd0, .inl h⟩] at this; cases this
      · obtain ⟨p, hp, hlt⟩ := hz ⟨d, hd, hd0⟩ h
        have := hmin p hp
        rw [(schdPriority_usage (.inr h)).2 hlt] at this; cases this
      · exact h
    refine ⟨hpos, fun e he he0 => le_of_not_gt fun hlt => ?_⟩
    have := hmin e he
    rw [schdPriority_of_ahead ⟨he0, .inr ⟨hpos, hlt⟩⟩] at this; cases this
  · intro hnone d hd
    refine le_of_not_gt fun hlt => ?_
    have hle : ∀ e ∈ xs, e.missing ≤ 0 := fun e he => le_of_not_gt fun h => hnone ⟨e, he, h⟩
    have hdv : schdPriority d v = true := by
      by_cases h0 : d.missing = 0 ∨ v.missing = 0
      · exact (schdPriority_usage h0).2 hlt
      · rw [not_or] at h0
        exact (schdPriority_ahead h0.1 h0.2).2 (.inr ⟨lt_of_le_of_ne (hle d hd) h0.1,
          lt_of_le_of_ne (hle v hv) h0.2, hlt⟩)
    rw [hmin d hd] at hdv; cases hdv

/-- Every value the sort may leave in front goes first exactly if, wherever some candidate is
below its request, every candidate at its own is placed behind one. -/
theorem goesFirst_iff : (∀ v ∈ xs, (StrictWeakOn schdPriority xs → ∀ y ∈ xs, schdPriority y v = false) →
      GoesFirst xs v) ↔
    ((∃ d ∈ xs, 0 < d.missing) → ∀ z ∈ xs, z.missing = 0 → (∃ p ∈ xs, 0 < p.missing ∧ p.usage < z.usage) ∧
      Placed {v | v ∈ xs} ValidCandidate.missing ValidCandidate.usage z) := by
  constructor
  · intro h hneed z hz hz0
    have hswo : StrictWeakOn schdPriority xs := by
      by_contra hns
      have := ((h z hz fun h => absurd h hns).below hneed).1
      exact this.ne' hz0
    refine ⟨?_, (strictWeakOn_schdPriority_iff xs).1 hswo z hz hz0⟩
    obtain ⟨order, hperm, hsort⟩ := exists_stdSort schdPriority xs
    obtain ⟨v, rest, rfl⟩ : ∃ v rest, order = v :: rest := by
      cases order with
      | nil => rw [← hperm.mem_iff] at hz; cases hz
      | cons v rest => exact ⟨v, rest, rfl⟩
    obtain ⟨hv, hmin⟩ := exists_stdSort_cons.1 ⟨rest, hperm, hsort⟩
    refine ⟨v, hv, ((h v hv hmin).below hneed).1, lt_of_not_ge fun hle => ?_⟩
    -- otherwise `z` could be in front as well
    have hminz : ∀ y ∈ xs, schdPriority y z = false := by
      intro y hy
      rw [Bool.eq_false_iff]
      intro hyz
      rcases (strictWeakOn_iff.1 hswo).2 y hy v hv z hz hyz with hyv | hvz
      · rw [hmin hswo y hy] at hyv; cases hyv
      · exact ((schdPriority_usage (.inr hz0)).1 hvz).not_ge hle
    have := ((h z hz fun _ => hminz).below hneed).1
    exact this.ne' hz0
  · intro h v hv hmin
    have hswo : StrictWeakOn schdPriority xs := by
      rw [strictWeakOn_schdPriority_iff]
      intro z hz hz0
      by_cases hneed : ∃ d ∈ xs, 0 < d.missing
      · exact (h hneed z hz hz0).2
      · constructor
        · rintro p hp - - ⟨hp0, -⟩
          exact absurd ⟨p, hp, hp0⟩ hneed
        · rintro p hp - - hp0
          exact absurd ⟨p, hp, hp0⟩ hneed
    refine goesFirst_of_minimal hv (fun hneed hv0 => ?_) (hmin hswo)
    obtain ⟨⟨p, hp, -, hlt⟩, -⟩ := h hneed v hv hv0
    exact ⟨p, hp, hlt⟩

end

/-! ## Candidates and their values -/

/-- Usages that agree with the order of some values agree with that of any others which miss and
have used the same. -/
theorem Placed.of_values {α β : Type*} {S : Set α} {T : Set β} {missing usage : α → ℚ} {missing' usage' : β → ℚ}
    {z : α} {z' : β} (h : Placed S missing usage z) (hz : usage z = usage' z')
    (hT : ∀ c ∈ T, ∃ v ∈ S, missing v = missing' c ∧ usage v = usage' c) : Placed T missing' usage' z' := by
  constructor
  · intro p hp q hq ha
    obtain ⟨v, hv, hv1, hv2⟩ := hT p hp
    obtain ⟨w, hw, hw1, hw2⟩ := hT q hq
    unfold Ahead at ha
    rw [← hv1, ← hw1, ← hv2, ← hw2] at ha
    rw [← hv2, ← hw2, ← hz]
    exact h.ordered v hv w hw ha
  · intro p hp q hq hp0 hq0 heq
    obtain ⟨v, hv, hv1, hv2⟩ := hT p hp
    obtain ⟨w, hw, hw1, hw2⟩ := hT q hq
    rw [← hv1] at hp0
    rw [← hw1] at hq0
    rw [← hv1, ← hw1, ← hv2, ← hw2] at heq
    rw [← hv2, ← hw2, ← hz]
    exact h.tied v hv w hw hp0 hq0 heq

/-- `v` is the value of the candidate `c`. -/
structure ValidCandidate.Values (clients : ClientInfoMap) (window : ℚ) (usage : String → ℚ)
    (cands : List Candidate) (v : ValidCandidate) (c : Candidate) : Prop where
  iter : cands[v.iter]? = some c
  missing : v.missing = missingOf clients window usage c
  usage : v.usage = usage c.name

section

variable {clients : ClientInfoMap} {window : ℚ} {usage : String → ℚ} {cands : List Candidate}
  {valid : List ValidCandidate} {v : ValidCandidate} {c : Candidate}

/-- The sorted values are those of the candidates below their limit. -/
theorem exists_candidate (hv : validCandidates clients window usage 0 cands = some valid) (h : v ∈ valid) :
    ∃ c ∈ underLimit clients window usage cands, v.Values clients window usage cands c := by
  obtain ⟨j, c, inf, hj, hinf, rfl, hr⟩ := (mem_validCandidates hv v).1 h
  refine ⟨c, ⟨List.mem_of_getElem? hj, ?_⟩, ⟨by simpa [ValidCandidate.of] using hj, ?_, rfl⟩⟩
  · simpa [maxFraction, hinf, ValidCandidate.of] using hr
  · simp [missingOf, minFraction, hinf, ValidCandidate.of]

theorem exists_value (hv : validCandidates clients window usage 0 cands = some valid)
    (h : c ∈ underLimit clients window usage cands) : ∃ v ∈ valid, v.Values clients window usage cands c := by
  obtain ⟨hc, hlt⟩ := h
  obtain ⟨inf, hinf⟩ := (validCandidates_isSome cands 0).1 ⟨valid, hv⟩ c hc
  obtain ⟨j, hj⟩ := List.getElem?_of_mem hc
  rw [maxFraction, hinf] at hlt
  refine ⟨_, (mem_validCandidates hv _).2 ⟨j, c, inf, hj, hinf, rfl, sub_pos.2 hlt⟩, ⟨?_, ?_, rfl⟩⟩
  · simpa [ValidCandidate.of] using hj
  · simp [missingOf, minFraction, hinf, ValidCandidate.of]

theorem ValidCandidate.Values.missing_pos (h : v.Values clients window usage cands c)
    (hc : c ∈ underLimit clients window usage cands) : 0 < v.missing ↔ c ∈ needy clients window usage cands := by
  rw [h.missing, missingOf, sub_pos]
  constructor
  · exact fun h => ⟨hc, h⟩
  · exact And.right

theorem needy_nonempty (hv : validCandidates clients window usage 0 cands = some valid) :
    (needy clients window usage cands).Nonempty ↔ ∃ d ∈ valid, 0 < d.missing := by
  constructor
  · rintro ⟨c, hc⟩
    obtain ⟨v, hv, hvc⟩ := exists_value hv hc.1
    exact ⟨v, hv, (hvc.missing_pos hc.1).2 hc⟩
  · rintro ⟨v, hv', h0⟩
    obtain ⟨c, hc, hvc⟩ := exists_candidate hv hv'
    exact ⟨c, (hvc.missing_pos hc).1 h0⟩

/-- The missing share is what the used share of the request leaves. -/
theorem missingShare_eq {r w u : ℚ} (h : r * w ≠ 0) : missingShare (r * w - u) u = 1 - u / r / w := by
  rw [missingShare, sub_add_cancel, sub_div, div_self h, div_div]

/-- Of two candidates below their request the one that has used less for its REQUEST misses the
larger share. -/
theorem missingShare_le_iff (hmin : ∀ c ∈ cands, 0 ≤ minFraction clients c) (hu : ∀ c ∈ cands, 0 ≤ usage c.name)
    {d : Candidate} {v e : ValidCandidate} (hc : c ∈ needy clients window usage cands)
    (hd : d ∈ needy clients window usage cands) (hvc : v.Values clients window usage cands c)
    (hed : e.Values clients window usage cands d) :
    missingShare e.missing e.usage ≤ missingShare v.missing v.usage ↔
      usage c.name / minFraction clients c ≤ usage d.name / minFraction clients d := by
  have hc0 : 0 < minFraction clients c * window := (hu c hc.1.1).trans_lt hc.2
  have hd0 : 0 < minFraction clients d * window := (hu d hd.1.1).trans_lt hd.2
  have hw : 0 < window := pos_of_mul_pos_right hc0 (hmin c hc.1.1)
  rw [hed.missing, hed.usage, hvc.missing, hvc.usage, missingOf, missingOf, missingShare_eq hc0.ne',
    missingShare_eq hd0.ne', sub_le_sub_iff_left, div_le_div_iff_of_pos_right hw]

/-- A value goes first exactly if its candidate goes first by the policy. -/
theorem goesFirst_iff_minimumShare (hmin : ∀ c ∈ cands, 0 ≤ minFraction clients c)
    (hu : ∀ c ∈ cands, 0 ≤ usage c.name) (hv : validCandidates clients window usage 0 cands = some valid)
    (hc : c ∈ underLimit clients window usage cands) (hvc : v.Values clients window usage cands c) :
    GoesFirst valid v ↔ MinimumShare clients window usage cands c := by
  constructor
  · rintro ⟨hbelow, hleast⟩
    refine ⟨hc, fun hne => ?_, fun hnone d hd => ?_⟩
    · obtain ⟨h0, hall⟩ := hbelow ((needy_nonempty hv).1 hne)
      have hcn := (hvc.missing_pos hc).1 h0
      refine ⟨hcn, fun d hd => ?_⟩
      obtain ⟨e, he, hed⟩ := exists_value hv hd.1
      exact (missingShare_le_iff hmin hu hcn hd hvc hed).1 (hall e he ((hed.missing_pos hd.1).2 hd))
    · obtain ⟨e, he, hed⟩ := exists_value hv hd
      have := hleast (fun h => hnone ((needy_nonempty hv).2 h)) e he
      rwa [hvc.usage, hed.usage] at this
  · rintro ⟨-, hbelow, hleast⟩
    constructor
    · intro hne
      obtain ⟨hcn, hall⟩ := hbelow ((needy_nonempty hv).2 hne)
      refine ⟨(hvc.missing_pos hc).2 hcn, fun e he he0 => ?_⟩
      obtain ⟨d, hd, hed⟩ := exists_candidate hv he
      have hdn := (hed.missing_pos hd).1 he0
      exact (missingShare_le_iff hmin hu hcn hdn hvc hed).2 (hall d hdn)
    · intro hnone e he
      obtain ⟨d, hd, hed⟩ := exists_candidate hv he
      rw [hvc.usage, hed.usage]
      exact hleast (fun h => hnone ((needy_nonempty hv).1 h)) d hd

/-- The sort keeps the policy exactly if every candidate at its request is behind one below its
own and agrees with the order of the others. -/
theorem sort_keeps_policy (hmin : ∀ c ∈ cands, 0 ≤ minFraction clients c) (hu : ∀ c ∈ cands, 0 ≤ usage c.name)
    (hv : validCandidates clients window usage 0 cands = some valid) :
    (∀ v ∈ valid, (StrictWeakOn schdPriority valid → ∀ y ∈ valid, schdPriority y v = false) →
      ∀ c, cands[v.iter]? = some c → MinimumShare clients window usage cands c) ↔
    ((needy clients window usage cands).Nonempty → ∀ z ∈ underLimit clients window usage cands,
      missingOf clients window usage z = 0 → NotInFront clients window usage cands z) := by
  have hval : (∀ v ∈ valid, (StrictWeakOn schdPriority valid → ∀ y ∈ valid, schdPriority y v = false) →
      ∀ c, cands[v.iter]? = some c → MinimumShare clients window usage cands c) ↔
      ∀ v ∈ valid, (StrictWeakOn schdPriority valid → ∀ y ∈ valid, schdPriority y v = false) →
        GoesFirst valid v := by
    refine forall₃_congr fun v hv' _ => ?_
    obtain ⟨c, hc, hvc⟩ := exists_candidate hv hv'
    rw [goesFirst_iff_minimumShare hmin hu hv hc hvc]
    constructor
    · exact fun h => h c hvc.iter
    · intro h d hd
      rw [hvc.iter] at hd; cases hd
      exact h
  rw [hval, goesFirst_iff, needy_nonempty hv]
  refine forall_congr' fun _ => ?_
  constructor
  · intro h z hz hz0
    obtain ⟨v, hv', hvz⟩ := exists_value hv hz
    obtain ⟨⟨p, hp, hp0, hlt⟩, hpl⟩ := h v hv' (hvz.missing.trans hz0)
    obtain ⟨d, hd, hpd⟩ := exists_candidate hv hp
    refine ⟨⟨d, (hpd.missing_pos hd).1 hp0, by rw [← hpd.usage, ← hvz.usage]; exact hlt⟩, ?_⟩
    refine hpl.of_values hvz.usage fun c hc => ?_
    obtain ⟨w, hw, hwc⟩ := exists_value hv hc
    exact ⟨w, hw, hwc.missing, hwc.usage⟩
  · intro h v hv' hv0
    obtain ⟨z, hz, hvz⟩ := exists_candidate hv hv'
    obtain ⟨⟨p, hp, hlt⟩, hpl⟩ := h z hz (hvz.missing.symm.trans hv0)
    obtain ⟨e, he, hep⟩ := exists_value hv hp.1
    refine ⟨⟨e, he, (hep.missing_pos hp.1).2 hp, by rw [hep.usage, hvz.usage]; exact hlt⟩, ?_⟩
    refine hpl.of_values hvz.usage.symm fun w hw => ?_
    obtain ⟨c, hc, hwc⟩ := exists_candidate hv hw
    exact ⟨c, hc, hwc.missing.symm, hwc.usage.symm⟩

end

/-! ## Turns of `select_candidate` -/

section

variable {windowSize now windowStart : ℚ} {clients : ClientInfoMap} {history hs : List History}
  {front c : Candidate} {cands tail : List Candidate} {ts : List ContainerTimestamp} {usage : String → ℚ}
  {valid : List ValidCandidate}

/-- What the turn may select after the sweep: the candidates the sort may leave in front. -/
theorem exists_selected :
    (∃ order rest, selectByPriority cands hs windowStart valid order = some (.selected c rest)) ↔
      ∃ v ∈ valid, cands[v.iter]? = some c ∧
        (StrictWeakOn schdPriority valid → ∀ y ∈ valid, schdPriority y v = false) := by
  constructor
  · rintro ⟨order, rest, h⟩
    unfold selectByPriority at h
    split at h
    · simp only [Option.map_eq_some_iff, reduceCtorEq, and_false, exists_false] at h
    · split at h
      · rename_i hsort
        simp only [Option.bind_eq_bind, Option.bind_eq_some_iff] at h
        obtain ⟨v, hhead, d, hd, h⟩ := h
        cases h
        obtain ⟨order', rfl⟩ := List.head?_eq_some_iff.1 hhead
        obtain ⟨hv, hmin⟩ := exists_stdSort_cons.1 ⟨order', hsort⟩
        exact ⟨v, hv, hd, hmin⟩
      · cases h
  · rintro ⟨v, hv, hc, hmin⟩
    obtain ⟨order, hsort⟩ := exists_stdSort_cons.2 ⟨hv, hmin⟩
    refine ⟨v :: order, cands.eraseIdx v.iter, ?_⟩
    have hne : valid ≠ [] := by rintro rfl; cases hv
    simp only [selectByPriority, if_neg hne, if_pos hsort, Option.bind_eq_bind, List.head?_cons, Option.bind_some,
      hc]
    rfl

/-- The turn of the quick exit. -/
theorem selectPass_quick (hq : ∀ h ∈ prune (now - windowSize) history, h.name ≠ front.name)
    (order : List ValidCandidate) :
    selectPass windowSize clients history (front :: tail) now ts order = some (.selected front tail) := by
  simp only [selectPass]
  rw [if_pos hq]

/-- The turn without the quick exit. -/
theorem selectPass_swept (hq : ∃ h ∈ prune (now - windowSize) history, h.name = front.name)
    (hts : StdSort tsComp (timestampVector (prune (now - windowSize) history)) ts)
    (hu : usageOf (now - windowSize) ts = some usage)
    (hv : validCandidates clients (effectiveWindow windowSize now) usage 0 (front :: tail) = some valid)
    (order : List ValidCandidate) : selectPass windowSize clients history (front :: tail) now ts order =
      selectByPriority (front :: tail) (prune (now - windowSize) history) (now - windowSize) valid order := by
  have hq' : ¬ ∀ h ∈ prune (now - windowSize) history, h.name ≠ front.name := by
    push Not
    exact hq
  simp only [selectPass, if_neg hq', if_pos hts, hu, hv, Option.bind_eq_bind, Option.bind_some]

/-- A candidate that has used nothing goes first by the policy exactly if it has a LIMIT, and a
REQUEST wherever some candidate is below its own. -/
theorem minimumShare_of_unused {window : ℚ} (hmin : ∀ c ∈ cands, 0 ≤ minFraction clients c)
    (hu : ∀ c ∈ cands, 0 ≤ usage c.name) (hc : c ∈ cands) (h0 : usage c.name = 0) :
    MinimumShare clients window usage cands c ↔ 0 < maxFraction clients c * window ∧
      ((needy clients window usage cands).Nonempty → 0 < minFraction clients c * window) := by
  constructor
  · rintro ⟨hmem, hbelow, -⟩
    rw [← h0]
    exact ⟨hmem.2, fun hne => (hbelow hne).1.2⟩
  · rintro ⟨hlim, hreq⟩
    rw [← h0] at hlim hreq
    refine ⟨⟨hc, hlim⟩, fun hne => ⟨⟨⟨hc, hlim⟩, hreq hne⟩, fun d hd => ?_⟩, fun _ d hd => ?_⟩
    · rw [h0, zero_div]
      exact div_nonneg (hu d hd.1.1) (hmin d hd.1.1)
    · rw [h0]
      exact hu d hd.1

/-- A turn of `select_candidate` returns a candidate that goes first by the minimum-share policy,
whatever order of equal candidates the sort leaves, exactly if `KeepsPolicy` holds. -/
theorem selectPass_minimumShare_iff (hwt : WellTimed history)
    (hclients : ∀ c ∈ front :: tail, ∃ inf, clients c.name = some inf ∧ 0 ≤ inf.minFrac)
    (hts : StdSort tsComp (timestampVector (prune (now - windowSize) history)) ts)
    (hu : usageOf (now - windowSize) ts = some usage) :
    (∀ order c rest, selectPass windowSize clients history (front :: tail) now ts order = some (.selected c rest) →
      MinimumShare clients (effectiveWindow windowSize now) usage (front :: tail) c) ↔
    KeepsPolicy clients (effectiveWindow windowSize now) usage (front :: tail)
      (prune (now - windowSize) history) front := by
  have hmin : ∀ c ∈ front :: tail, 0 ≤ minFraction clients c := by
    intro c hc
    obtain ⟨inf, hinf, h0⟩ := hclients c hc
    simpa [minFraction, hinf] using h0
  have hnn : ∀ c ∈ front :: tail, 0 ≤ usage c.name := fun c _ =>
    usageOf_nonneg (wellTimed_prune hwt _) (fun _ hh => (mem_prune.1 hh).2) hts hu c.name
  by_cases hq : ∀ h ∈ prune (now - windowSize) history, h.name ≠ front.name
  · have hfront : MinimumShare clients (effectiveWindow windowSize now) usage (front :: tail) front ↔ _ :=
      minimumShare_of_unused hmin hnn (List.mem_cons_self ..) (usageOf_absent hts hu hq)
    constructor
    · intro h
      constructor
      · exact fun _ => hfront.1 (h [] front tail (selectPass_quick hq []))
      · rintro ⟨g, hg, hn⟩
        exact absurd hn (hq g hg)
    · intro h order c rest hsel
      rw [selectPass_quick hq order] at hsel; cases hsel
      exact hfront.2 (h.quick hq)
  · have hq' : ∃ h ∈ prune (now - windowSize) history, h.name = front.name := by
      push Not at hq
      exact hq
    obtain ⟨valid, hv⟩ : ∃ valid, validCandidates clients (effectiveWindow windowSize now) usage 0
        (front :: tail) = some valid :=
      (validCandidates_isSome _ _).2 fun c hc => (hclients c hc).imp fun _ h => h.1
    have hkeep := sort_keeps_policy hmin hnn hv
    constructor
    · intro h
      constructor
      · exact fun hn => absurd hn hq
      intro _
      apply hkeep.1
      intro v hv' hfirst c hc
      obtain ⟨order, rest, hsel⟩ := exists_selected.2 ⟨v, hv', hc, hfirst⟩
      exact h order c rest (by rw [selectPass_swept hq' hts hu hv]; exact hsel)
    · intro h order c rest hsel
      rw [selectPass_swept hq' hts hu hv] at hsel
      obtain ⟨v, hv', hc, hfirst⟩ := exists_selected.1 ⟨order, rest, hsel⟩
      exact hkeep.2 (h.swept hq') v hv' hfirst c hc

/-- Two clients, `a` with a REQUEST of 0.8. -/
def twoClients (requestB : ℚ) : ClientInfoMap := fun n =>
  if n = "a" then some (.new 100 10 200 (4/5) 1 0)
  else if n = "b" then some (.new 100 10 200 requestB 1 0) else none

def candidateA : Candidate := ⟨4, "a", 0, 11, 0⟩
def candidateB : Candidate := ⟨5, "b", 1, 11, 1⟩

@[simp] theorem minFraction_candidateA (r : ℚ) : minFraction (twoClients r) candidateA = 4/5 := rfl
@[simp] theorem minFraction_candidateB (r : ℚ) : minFraction (twoClients r) candidateB = r := rfl
@[simp] theorem maxFraction_candidateA (r : ℚ) : maxFraction (twoClients r) candidateA = 1 := rfl

/-- Half of the window went to `a`. -/
theorem usageOf_half : ∃ usage, usageOf (12 - 10) [⟨"a", -5⟩, ⟨"a", 10⟩] = some usage ∧
    usage candidateA.name = 5 ∧ usage candidateB.name = 0 := by
  have h : (usageOf (12 - 10) [⟨"a", -5⟩, ⟨"a", 10⟩]).map (fun u => (u "a", u "b")) = some (5, 0) := by
    decide +kernel
  obtain ⟨usage, hu, hv⟩ := Option.map_eq_some_iff.1 h
  rw [Prod.mk.injEq] at hv
  exact ⟨usage, hu, hv⟩

/-- A turn the theorem speaks about: `a` has used half of the window, `b` nothing, and neither is at
its request. -/
theorem selectPass_minimumShare_of_two : ∃ usage, usageOf (12 - 10) [⟨"a", -5⟩, ⟨"a", 10⟩] = some usage ∧
    ∀ order c rest, selectPass 10 (twoClients (1/10)) [⟨"a", 5, 10⟩] [candidateA, candidateB] 12
        [⟨"a", -5⟩, ⟨"a", 10⟩] order = some (.selected c rest) →
      MinimumShare (twoClients (1/10)) (effectiveWindow 10 12) usage [candidateA, candidateB] c := by
  obtain ⟨usage, hu, ha, hb⟩ := usageOf_half
  refine ⟨usage, hu, (selectPass_minimumShare_iff (by decide +kernel) ?_ (by decide +kernel) hu).2 ⟨?_, ?_⟩⟩
  · simp only [List.forall_mem_cons, List.not_mem_nil, false_imp_iff, implies_true, and_true]
    exact ⟨⟨_, rfl, by decide +kernel⟩, _, rfl, by decide +kernel⟩
  · intro h
    exact absurd rfl (h ⟨"a", 5, 10⟩ (by decide +kernel))
  · intro _ _ z hz hz0
    exfalso
    have hz : z = candidateA ∨ z = candidateB := by simpa using hz.1
    rcases hz with rfl | rfl
    · rw [missingOf, minFraction_candidateA, ha] at hz0
      norm_num [effectiveWindow] at hz0
    · rw [missingOf, minFraction_candidateB, hb] at hz0
      norm_num [effectiveWindow] at hz0

/-- A client with a REQUEST of 0 that has used nothing comes before one below its request. -/
theorem not_minimumShare_of_zero_request : ∃ usage order rest,
    usageOf (12 - 10) [⟨"a", -5⟩, ⟨"a", 10⟩] = some usage ∧
    selectPass 10 (twoClients 0) [⟨"a", 5, 10⟩] [candidateA, candidateB] 12 [⟨"a", -5⟩, ⟨"a", 10⟩] order =
      some (.selected candidateB rest) ∧
    candidateA ∈ needy (twoClients 0) (effectiveWindow 10 12) usage [candidateA, candidateB] ∧
    ¬ MinimumShare (twoClients 0) (effectiveWindow 10 12) usage [candidateA, candidateB] candidateB := by
  obtain ⟨usage, hu, ha, hb⟩ := usageOf_half
  have hneedy : candidateA ∈ needy (twoClients 0) (effectiveWindow 10 12) usage [candidateA, candidateB] := by
    refine ⟨⟨List.mem_cons_self .., ?_⟩, ?_⟩
    · rw [ha, maxFraction_candidateA]; norm_num [effectiveWindow]
    · rw [ha, minFraction_candidateA]; norm_num [effectiveWindow]
  refine ⟨usage, [⟨0, 10, 0, 11, 1⟩, ⟨3, 5, 5, 11, 0⟩], [candidateA], hu, by decide +kernel, hneedy, fun h => ?_⟩
  have hlt := (h.below ⟨_, hneedy⟩).1.2
  rw [hb, minFraction_candidateB, zero_mul] at hlt
  exact lt_irrefl _ hlt

/-- The quick exit agrees with the sweep and the sort: they would list the front candidate, put no
candidate before it, and may select it as well. -/
theorem quickExit_minimal
    (hclients : ∀ c ∈ front :: tail, ∃ inf, clients c.name = some inf ∧ 0 ≤ inf.minFrac ∧ 0 < inf.maxFrac)
    (hhist : ∀ h ∈ history, 0 < h.start ∧ h.start < h.end ∧ now - windowSize ≤ h.end) (hnow : 0 < now)
    (hwindow : 0 < windowSize) (hq : ∀ h ∈ history, h.name ≠ front.name)
    (hts : StdSort tsComp (timestampVector history) ts) :
    ∃ usage inf valid, usageOf (now - windowSize) ts = some usage ∧ clients front.name = some inf ∧
      validCandidates clients (effectiveWindow windowSize now) usage 0 (front :: tail) = some valid ∧
      ValidCandidate.of (effectiveWindow windowSize now) usage inf front 0 ∈ valid ∧
      (∀ b ∈ valid, schdPriority b (ValidCandidate.of (effectiveWindow windowSize now) usage inf front 0) = false) ∧
      (∃ order, selectByPriority (front :: tail) history (now - windowSize) valid order =
        some (.selected front tail)) ∧
      ∀ order, selectPass windowSize clients history (front :: tail) now ts order = some (.selected front tail) := by
  have hwt : WellTimed history := fun h hh => ⟨(hhist h hh).1, (hhist h hh).2.1.le⟩
  have hends : EndsMatched history := fun h hh heq => absurd heq (hhist h hh).2.1.ne
  have hw : ∀ h ∈ history, now - windowSize ≤ h.end := fun h hh => (hhist h hh).2.2
  obtain ⟨usage, hu, -⟩ := usageOf_eq hwt (balanced_of_endsMatched hwt hends hts) hw hts
  obtain ⟨inf, hinf, hminf, hmaxf⟩ := hclients front (List.mem_cons_self ..)
  obtain ⟨valid, hv⟩ : ∃ valid, validCandidates clients (effectiveWindow windowSize now) usage 0
      (front :: tail) = some valid :=
    (validCandidates_isSome _ _).2 fun c hc => (hclients c hc).imp fun _ h => h.1
  have h0 : usage front.name = 0 := usageOf_absent hts hu hq
  have hwin : 0 < effectiveWindow windowSize now := by
    rw [effectiveWindow_eq_min]
    exact lt_min hnow hwindow
  have hmem : ValidCandidate.of (effectiveWindow windowSize now) usage inf front 0 ∈ valid := by
    refine (mem_validCandidates hv _).2 ⟨0, front, inf, rfl, hinf, rfl, ?_⟩
    simp only [ValidCandidate.of, h0, sub_zero]
    exact mul_pos hmaxf hwin
  have hbuild := buildable_of_mem hv hwin.le (fun c hc inf hinf => by
    obtain ⟨inf', hinf', h, -⟩ := hclients c hc
    rw [hinf'] at hinf; cases hinf
    exact h) fun c _ => usageOf_nonneg hwt hw hts hu c.name
  have hfirst : ∀ b ∈ valid,
      schdPriority b (ValidCandidate.of (effectiveWindow windowSize now) usage inf front 0) = false :=
    fun b hb => (hbuild b hb).not_before_unused (hbuild _ hmem) h0
  refine ⟨usage, inf, valid, hu, hinf, hv, hmem, hfirst, ?_, selectPass_quick fun h hh => hq h (mem_prune.1 hh).1⟩
  obtain ⟨order, hsort⟩ := exists_stdSort_cons.2 ⟨hmem, fun _ => hfirst⟩
  have hne : valid ≠ [] := by
    rintro rfl
    cases hmem
  refine ⟨ValidCandidate.of (effectiveWindow windowSize now) usage inf front 0 :: order, ?_⟩
  simp only [selectByPriority, if_neg hne, if_pos hsort, Option.bind_eq_bind, List.head?_cons, Option.bind_some]
  rfl

/-- A turn the theorem speaks about: `b` asks for its first token while `a` waits for another. -/
theorem quickExit_minimal_of_new_client : ∃ usage inf valid,
    usageOf (12 - 10) [⟨"a", -5⟩, ⟨"a", 10⟩] = some usage ∧ twoClients 0 candidateB.name = some inf ∧
      validCandidates (twoClients 0) (effectiveWindow 10 12) usage 0 [candidateB, candidateA] = some valid ∧
      ValidCandidate.of (effectiveWindow 10 12) usage inf candidateB 0 ∈ valid ∧
      (∀ b ∈ valid, schdPriority b (ValidCandidate.of (effectiveWindow 10 12) usage inf candidateB 0) = false) ∧
      (∃ order, selectByPriority [candidateB, candidateA] [⟨"a", 5, 10⟩] (12 - 10) valid order =
        some (.selected candidateB [candidateA])) ∧
      ∀ order, selectPass 10 (twoClients 0) [⟨"a", 5, 10⟩] [candidateB, candidateA] 12 [⟨"a", -5⟩, ⟨"a", 10⟩] order =
        some (.selected candidateB [candidateA]) := by
  refine quickExit_minimal ?_ (by decide +kernel) (by norm_num) (by norm_num) (by decide +kernel) (by decide +kernel)
  simp only [List.forall_mem_cons, List.not_mem_nil, false_imp_iff, implies_true, and_true]
  exact ⟨⟨_, rfl, by decide +kernel⟩, _, rfl, by decide +kernel⟩

end

end Gemini.Scheduler
