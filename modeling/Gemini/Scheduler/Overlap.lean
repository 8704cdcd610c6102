/-
The overlap count of the sweep. The sweep takes one off `overlap_cnt` at every end stamp, and a name
off `overlap_check_vector` only where it finds one: the two stay equal, and the loop divides by a
positive count only, exactly in the orders in which every end stamp finds its name.

Whether a name is found is counted on the stamps: there have been more starts of it than ends. Over
all orders it is counted on the tokens: only zero-length ones can end before they start.
-/
import Gemini.Scheduler.Sweep

namespace Gemini.Scheduler

open Gemini.Lib

/-! ## The overlap count -/

/-- `overlap_cnt` is the size of `overlap_check_vector`. -/
def Sweep.Consistent (s : Sweep) : Prop := s.overlapCnt = s.overlapCheckVector.length

/-- The loop over the stamps is safe from `s` on: around every turn the count is the size of the
vector, and a turn with names in the vector divides by a positive count. -/
def SafeLoop : Sweep → List ContainerTimestamp → Prop
  | s, [] => s.Consistent
  | s, x :: rest => s.Consistent ∧ (s.overlapCheckVector ≠ [] → 0 < s.overlapCnt) ∧
      ∀ s', s.step x = some s' → SafeLoop s' rest

/-- Every end stamp comes when a name of its own is open, of those open at the beginning and those
started since. -/
def Matched (opened : List String) (ts : List ContainerTimestamp) : Prop :=
  ∀ done x rest, ts = done ++ x :: rest → isStart x = false →
    (done.countP fun y => y.name == x.name && !isStart y) <
      opened.count x.name + done.countP fun y => y.name == x.name && isStart y

section

variable {opened : List String} {rest ts : List ContainerTimestamp} {x : ContainerTimestamp} {s s' : Sweep}

/-- The names that are open after a stamp. -/
def openedAfter (opened : List String) (x : ContainerTimestamp) : List String :=
  if isStart x then opened ++ [x.name] else opened.erase x.name

/-- One stamp more before, or its name open from the beginning: the count is the same. -/
theorem count_openedAfter (hx : isStart x = false → x.name ∈ opened) (n : String) (done : List ContainerTimestamp) :
    ((x :: done).countP fun y => y.name == n && !isStart y) +
        ((openedAfter opened x).count n + done.countP fun y => y.name == n && isStart y) =
      (done.countP fun y => y.name == n && !isStart y) +
        (opened.count n + (x :: done).countP fun y => y.name == n && isStart y) := by
  unfold openedAfter
  cases hs : isStart x with
  | true =>
    simp only [if_true, List.countP_cons, List.count_append, List.count_singleton, hs]
    by_cases hn : x.name = n
    · simp [hn]; omega
    · simp [hn]
  | false =>
    simp only [Bool.false_eq_true, if_false, List.countP_cons, List.count_erase, hs]
    by_cases hn : x.name = n
    · have : 0 < opened.count n := List.count_pos_iff.2 (hn ▸ hx hs)
      simp [hn]; omega
    · simp [hn]

theorem matched_nil : Matched opened [] := by
  intro done x rest h
  simp at h

theorem matched_cons :
    Matched opened (x :: rest) ↔ (isStart x = false → x.name ∈ opened) ∧ Matched (openedAfter opened x) rest := by
  constructor
  · intro h
    have hx : isStart x = false → x.name ∈ opened := fun hx => by
      simpa [List.count_pos_iff] using h [] x rest rfl hx
    refine ⟨hx, ?_⟩
    rintro done y after rfl hy
    have h1 := h (x :: done) y after rfl hy
    have h2 := count_openedAfter hx y.name done
    omega
  · rintro ⟨hx, h⟩ (_ | ⟨z, done⟩) y after he hy
    · obtain ⟨rfl, rfl⟩ : x = y ∧ rest = after := by simpa using he
      simpa [List.count_pos_iff] using hx hy
    · obtain ⟨rfl, rfl⟩ : x = z ∧ rest = done ++ y :: after := by simpa using he
      have h1 := h done y after rfl hy
      have h2 := count_openedAfter hx y.name done
      omega

/-- After any part of the stamps no more have ended than were open. -/
theorem Matched.prefix_le : ∀ {done : List ContainerTimestamp} {opened : List String}, Matched opened (done ++ rest) →
    ∀ n, (done.countP fun y => y.name == n && !isStart y) ≤
      opened.count n + done.countP fun y => y.name == n && isStart y
  | [], opened, _, n => by simp
  | x :: done, opened, h, n => by
    obtain ⟨hx, h⟩ := matched_cons.1 h
    have h1 := Matched.prefix_le h n
    have h2 := count_openedAfter hx n done
    omega

theorem consistent_enter (w : ℚ) (before : List ContainerTimestamp) : (Sweep.enter w before).Consistent := by
  simp [Sweep.Consistent, Sweep.enter]

theorem SafeLoop.consistent (h : SafeLoop s ts) : s.Consistent := by
  cases ts with
  | nil => exact h
  | cons x rest => exact h.1

theorem Sweep.Consistent.pos (h : s.Consistent) (hv : s.overlapCheckVector ≠ []) : 0 < s.overlapCnt := by
  rw [h]
  exact_mod_cast List.length_pos_of_ne_nil hv

/-- A turn from a consistent count. The new count is consistent unless an end stamp finds nothing. -/
theorem Sweep.Consistent.step (h : s.Consistent) (x : ContainerTimestamp) : ∃ s', s.step x = some s' ∧
    s'.overlapCheckVector = openedAfter s.overlapCheckVector x ∧
    (s'.Consistent ↔ (isStart x = false → x.name ∈ s.overlapCheckVector)) ∧ s'.currentTime = |x.time| ∧
    s'.usage = accrue s.overlapCheckVector ((|x.time| - s.currentTime) / s.overlapCnt) s.usage := by
  have hdiv : ¬ (s.overlapCheckVector ≠ [] ∧ s.overlapCnt = 0) := fun hd => (h.pos hd.1).ne' hd.2
  have hcnt : s.overlapCnt = s.overlapCheckVector.length := h
  unfold Sweep.step
  rw [if_neg hdiv]
  by_cases hx : x.time < 0
  · have hst : isStart x = true := by simpa [isStart] using hx
    refine ⟨_, if_pos hx, by simp [openedAfter, hst], ?_, rfl, rfl⟩
    simp [Sweep.Consistent, hst, hcnt]
  · have hst : isStart x = false := by simpa [isStart] using hx
    refine ⟨_, if_neg hx, by simp [openedAfter, hst], ?_, rfl, rfl⟩
    by_cases hmem : x.name ∈ s.overlapCheckVector
    · have := List.length_erase_of_mem hmem
      have := List.length_pos_of_mem hmem
      simp only [Sweep.Consistent, hmem, implies_true, iff_true]
      omega
    · -- nothing to take off: the count goes down all the same
      simp [Sweep.Consistent, hst, hmem, List.erase_of_not_mem hmem, hcnt]

/-- The loop is safe exactly in the orders that match every end stamp. -/
theorem safeLoop_iff (h : s.Consistent) : SafeLoop s ts ↔ Matched s.overlapCheckVector ts := by
  induction ts generalizing s with
  | nil => exact ⟨fun _ => matched_nil, fun _ => h⟩
  | cons x rest ih =>
    obtain ⟨s', hs', hv, hc, -, -⟩ := h.step x
    rw [matched_cons, ← hv]
    constructor
    · rintro ⟨-, -, hloop⟩
      have hloop := hloop s' hs'
      exact ⟨hc.1 hloop.consistent, (ih hloop.consistent).1 hloop⟩
    · rintro ⟨hx, hm⟩
      refine ⟨h, h.pos, fun t ht => ?_⟩
      rw [hs'] at ht; cases ht
      exact (ih (hc.2 hx)).2 hm

/-- A safe loop over sorted stamps comes to its end, and takes no usage away. -/
theorem SafeLoop.usage_nonneg : ∀ {ts : List ContainerTimestamp} {s : Sweep}, SafeLoop s ts →
    ts.Pairwise (fun a b => |a.time| ≤ |b.time|) → (∀ x ∈ ts, s.currentTime ≤ |x.time|) → (∀ c, 0 ≤ s.usage c) →
    ∃ s', ts.foldlM Sweep.step s = some s' ∧ ∀ c, 0 ≤ s'.usage c
  | [], s, _, _, _, hu => ⟨s, rfl, hu⟩
  | x :: rest, s, h, hsort, hcur, hu => by
    rw [List.pairwise_cons] at hsort
    obtain ⟨s₁, hs₁, -, -, ht, hacc⟩ := h.1.step x
    have hcnt : (0 : ℚ) ≤ s.overlapCnt := by
      rw [show s.overlapCnt = s.overlapCheckVector.length from h.1]; positivity
    have hslice : 0 ≤ (|x.time| - s.currentTime) / s.overlapCnt :=
      div_nonneg (sub_nonneg.2 (hcur x (List.mem_cons_self ..))) hcnt
    have hu₁ : ∀ c, 0 ≤ s₁.usage c := by
      intro c
      rw [hacc, accrue_apply]
      exact add_nonneg (hu c) (mul_nonneg (Nat.cast_nonneg _) hslice)
    obtain ⟨s', hs', hu'⟩ := SafeLoop.usage_nonneg (h.2.2 s₁ hs₁) hsort.2 (fun y hy => ht ▸ hsort.1 y hy) hu₁
    exact ⟨s', by rw [List.foldlM_cons, hs₁]; exact hs', hu'⟩

end

/-! ## Every order of equal stamps -/

/-- No order of equal stamps puts an end stamp where its name is not open: every token started after
the clock's zero if the window reaches back to it, and at the instant of a zero-length token its
client has at least as many tokens running through the instant, or ending at the window start, which
are open twice, as zero-length ones. -/
structure EndsOpen (w : ℚ) (hs : List History) : Prop where
  clock : w < 0 → ∀ h ∈ hs, 0 < h.start
  ends : ∀ h ∈ hs, w < h.end → h.start = h.end →
    (hs.countP fun g => decide (g.name = h.name ∧ g.start = h.end ∧ g.end = h.end)) ≤
      (hs.countP fun g => decide (g.name = h.name ∧ g.start < h.end ∧ h.end < g.end)) +
        2 * hs.countP fun g => decide (g.name = h.name ∧ g.end = w)

/-- The names of the stamps before the window. -/
def openedBefore (w : ℚ) (ts : List ContainerTimestamp) : List String :=
  (ts.takeWhile (beforeWindow w)).map ContainerTimestamp.name

/-- The sweep over the stamps in the order `ts` is safe. -/
def SafeSweep (w : ℚ) (ts : List ContainerTimestamp) : Prop :=
  SafeLoop (Sweep.enter w (ts.takeWhile (beforeWindow w))) (ts.dropWhile (beforeWindow w))

/-- Every end stamp inside the window comes when its name is open. -/
def MatchedInside (w : ℚ) (ts : List ContainerTimestamp) : Prop :=
  Matched (openedBefore w ts) (ts.dropWhile (beforeWindow w))

/-- An order of equal stamps with the end stamps first. -/
def endFirst (x : ContainerTimestamp) : ℚ ×ₗ Bool := toLex (|x.time|, isStart x)

section

variable {w τ : ℚ} {hs : List History} {ts : List ContainerTimestamp} {n : String}

theorem safeSweep_iff : SafeSweep w ts ↔ MatchedInside w ts := safeLoop_iff (consistent_enter ..)

/-- A safe sweep has a usage, which is nowhere negative. -/
theorem usageOf_of_safeSweep (hts : StdSort tsComp (timestampVector hs) ts) (h : SafeSweep w ts) :
    ∃ u, usageOf w ts = some u ∧ ∀ c, 0 ≤ u c := by
  obtain ⟨hsort, hafter⟩ := stamps_inside w hts
  obtain ⟨s, hs, hu⟩ := SafeLoop.usage_nonneg h hsort (fun x hx => (hafter x hx).le) fun c => by simp [Sweep.enter]
  exact ⟨s.usage, by rw [usageOf, hs]; rfl, hu⟩

/-- The tokens of a client that have ended since the window start are those that were running, or
have started, and are not running any more. -/
theorem countP_ended (hle : ∀ h ∈ hs, h.start ≤ h.end) (hw : ∀ h ∈ hs, w ≤ h.end) (hτ : w < τ) (n : String) :
    (hs.countP fun h => (h.name == n) && (decide (w < h.end) && decide (h.end ≤ τ))) +
        (hs.countP fun h => decide (h.name = n ∧ h.start < τ ∧ τ < h.end)) +
        (hs.countP fun h => decide (h.name = n ∧ h.end = w)) =
      (hs.countP fun h => (h.name == n) && decide (h.start ≤ w)) +
        (hs.countP fun h => (h.name == n) && (decide (w < h.start) && decide (h.start < τ))) +
        hs.countP fun h => decide (h.name = n ∧ h.start = τ ∧ h.end = τ) := by
  induction hs with
  | nil => rfl
  | cons h hs ih =>
    have ih := ih (fun g hg => hle g (List.mem_cons_of_mem _ hg)) fun g hg => hw g (List.mem_cons_of_mem _ hg)
    have hle := hle h (List.mem_cons_self ..)
    have hw := hw h (List.mem_cons_self ..)
    simp only [List.countP_cons]
    have h1 : (if ((h.name == n) && (decide (w < h.end) && decide (h.end ≤ τ))) = true then 1 else 0) +
        (if decide (h.name = n ∧ h.start < τ ∧ τ < h.end) = true then 1 else 0) +
        (if decide (h.name = n ∧ h.end = w) = true then 1 else 0) =
        (if ((h.name == n) && decide (h.start ≤ w)) = true then 1 else 0) +
        (if ((h.name == n) && (decide (w < h.start) && decide (h.start < τ))) = true then 1 else 0) +
        (if decide (h.name = n ∧ h.start = τ ∧ h.end = τ) = true then 1 else 0) := by
      by_cases hn : h.name = n
      · rcases hw.eq_or_lt with he | he
        · have h2 : h.start ≤ w := he ▸ hle
          simp [hn, ← he, h2, hτ.not_gt, h2.not_gt, hτ.ne]
        · rcases le_or_gt h.start w with hs | hs
          · have h2 : h.start < τ := hs.trans_lt hτ
            rcases le_or_gt h.end τ with h3 | h3
            · simp [hn, he, he.ne', hs, hs.not_gt, h2, h2.ne, h3, h3.not_gt]
            · simp [hn, he, he.ne', hs, hs.not_gt, h2, h2.ne, h3, h3.not_ge]
          · rcases lt_trichotomy h.start τ with h2 | h2 | h2
            · rcases le_or_gt h.end τ with h3 | h3
              · simp [hn, he, he.ne', hs, hs.not_ge, h2, h2.ne, h3, h3.not_gt]
              · simp [hn, he, he.ne', hs, hs.not_ge, h2, h2.ne, h3, h3.not_ge]
            · rcases le_or_gt h.end τ with h3 | h3
              · simp [hn, hτ, hτ.ne', hτ.not_ge, h2, le_antisymm h3 (h2 ▸ hle)]
              · simp [hn, he.ne', hτ.not_ge, h2, h3.not_ge, h3.ne']
            · have h3 := h2.trans_le hle
              simp [hn, he.ne', hs.not_ge, h2.not_gt, h2.ne', h3.not_ge]
      · simp [hn]
    omega

/-- Tokens of a window: they do not end before they start or before the window does, and start after
the clock's zero if the window reaches back to it. -/
def InWindow (w : ℚ) (hs : List History) : Prop :=
  ∀ h ∈ hs, 0 ≤ h.start ∧ h.start ≤ h.end ∧ w ≤ h.end ∧ (w < 0 → 0 < h.start)

/-- The stamps of the tokens before the window, and inside it. -/
theorem countP_before (w : ℚ) (hts : StdSort tsComp (timestampVector hs) ts) (q : ContainerTimestamp → Bool) :
    (ts.takeWhile (beforeWindow w)).countP q = ((timestampVector hs).countP fun x => q x && beforeWindow w x) ∧
      (ts.dropWhile (beforeWindow w)).countP q = (timestampVector hs).countP fun x => q x && !beforeWindow w x := by
  rw [← hts.1.countP_eq, ← hts.1.countP_eq]
  exact countP_takeWhile_of_pairwise (fun a b hab hb => by
    simp only [beforeWindow, decide_eq_true_eq] at hb ⊢; exact hab.trans hb) (pairwise_abs hts) q

theorem count_openedBefore (hin : InWindow w hs) (hts : StdSort tsComp (timestampVector hs) ts) (n : String) :
    (openedBefore w ts).count n = (hs.countP fun h => (h.name == n) && decide (h.start ≤ w)) +
      hs.countP fun h => decide (h.name = n ∧ h.end = w) := by
  have h1 := (countP_before w hts (·.name == n)).1
  rw [countP_timestampVector] at h1
  rw [openedBefore, List.count_eq_countP, List.countP_map]
  refine h1.trans (congrArg₂ _ (List.countP_congr fun h hh => ?_) (List.countP_congr fun h hh => ?_))
  · obtain ⟨h0, -⟩ := hin h hh
    simp [beforeWindow, abs_of_nonneg h0]
  · obtain ⟨h0, h2, h3, -⟩ := hin h hh
    simp only [beforeWindow, abs_of_nonneg (h0.trans h2), Bool.and_eq_true, beq_iff_eq, decide_eq_true_eq]
    exact and_congr_right fun _ => ⟨fun h => le_antisymm h h3, fun h => h.le⟩

/-- The end stamps inside the window are those of the tokens that end inside it. -/
theorem countP_inside_ends (hin : InWindow w hs) (hts : StdSort tsComp (timestampVector hs) ts) (n : String)
    (r : ℚ → Bool) :
    ((ts.dropWhile (beforeWindow w)).countP fun x => (x.name == n && !isStart x) && r |x.time|) =
      hs.countP fun h => (h.name == n) && (decide (w < h.end) && r h.end) := by
  rw [(countP_before w hts _).2, countP_timestampVector]
  have h1 : (hs.countP fun h => ((h.name == n && !isStart ⟨h.name, -h.start⟩) && r |(-h.start)|) &&
      !beforeWindow w ⟨h.name, -h.start⟩) = 0 := by
    rw [List.countP_eq_zero]
    intro h hh
    obtain ⟨h0, -, -, hpos⟩ := hin h hh
    rcases h0.eq_or_lt with h0 | h0
    · have : 0 ≤ w := not_lt.1 fun hw => (hpos hw).ne h0
      simp [beforeWindow, ← h0, this]
    · simp [isStart, h0]
  rw [h1, Nat.zero_add]
  refine List.countP_congr fun h hh => ?_
  obtain ⟨h0, h2, -⟩ := hin h hh
  have h3 := h0.trans h2
  simp [isStart, beforeWindow, abs_of_nonneg h3, h3]
  tauto

/-- The start stamps inside the window are those of the tokens that start inside it. -/
theorem countP_inside_starts (hin : InWindow w hs) (hts : StdSort tsComp (timestampVector hs) ts) (n : String)
    (r : ℚ → Bool) :
    ((ts.dropWhile (beforeWindow w)).countP fun x => (x.name == n && isStart x) && r |x.time|) =
      hs.countP fun h => (h.name == n) && (decide (w < h.start) && r h.start) := by
  rw [(countP_before w hts _).2, countP_timestampVector]
  have h1 : (hs.countP fun h => ((h.name == n && isStart ⟨h.name, h.end⟩) && r |h.end|) &&
      !beforeWindow w ⟨h.name, h.end⟩) = 0 := by
    rw [List.countP_eq_zero]
    intro h hh
    obtain ⟨h0, h2, -⟩ := hin h hh
    simp [isStart, h0.trans h2]
  rw [h1, Nat.add_zero]
  refine List.countP_congr fun h hh => ?_
  obtain ⟨h0, -, -, hpos⟩ := hin h hh
  rcases h0.eq_or_lt with h0 | h0
  · have : 0 ≤ w := not_lt.1 fun hw => (hpos hw).ne h0
    simp [isStart, ← h0, this.not_gt]
  · simp [isStart, beforeWindow, abs_of_pos h0, h0]
    tauto

/-- Where ends are open every order matches them. -/
theorem matched_of_endsOpen (hin : InWindow w hs) (hopen : EndsOpen w hs)
    (hts : StdSort tsComp (timestampVector hs) ts) : MatchedInside w ts := by
  intro done x rest he hx
  obtain ⟨hsort, hafter⟩ := stamps_inside w hts
  have hends := countP_inside_ends hin hts x.name fun q => decide (q ≤ |x.time|)
  have hstarts := countP_inside_starts hin hts x.name fun q => decide (q < |x.time|)
  rw [he] at hsort hafter hends hstarts
  obtain ⟨-, hrest, hdone⟩ := List.pairwise_append.1 hsort
  have hτ : w < |x.time| := hafter x (by simp)
  -- what is processed holds every start before the stamp, and of the ends up to it all but this one
  have h1 : (done.countP fun y => (y.name == x.name && !isStart y) && decide (|y.time| ≤ |x.time|)) =
      done.countP fun y => y.name == x.name && !isStart y :=
    List.countP_congr fun y hy => by simp [hdone y hy x (List.mem_cons_self ..)]
  have h2 : (done.countP fun y => (y.name == x.name && isStart y) && decide (|y.time| < |x.time|)) ≤
      done.countP fun y => y.name == x.name && isStart y :=
    List.countP_mono_left fun y _ h => (Bool.and_eq_true_iff.1 h).1
  have h3 : (rest.countP fun y => (y.name == x.name && isStart y) && decide (|y.time| < |x.time|)) = 0 := by
    rw [List.countP_eq_zero]
    intro y hy
    simp [(List.pairwise_cons.1 hrest).1 y hy]
  simp only [List.countP_append, List.countP_cons, hx, beq_self_eq_true, Bool.not_false, le_refl, decide_true,
    Bool.and_true, Bool.and_false, Bool.false_and, if_true, Bool.false_eq_true, if_false] at hends hstarts
  have hcond : (hs.countP fun g => decide (g.name = x.name ∧ g.start = |x.time| ∧ g.end = |x.time|)) ≤
      (hs.countP fun g => decide (g.name = x.name ∧ g.start < |x.time| ∧ |x.time| < g.end)) +
        2 * hs.countP fun g => decide (g.name = x.name ∧ g.end = w) := by
    by_cases hz : ∃ h ∈ hs, h.name = x.name ∧ h.start = |x.time| ∧ h.end = |x.time|
    · obtain ⟨h, hh, hn, hst, hen⟩ := hz
      have := hopen.ends h hh (by rw [hen]; exact hτ) (hst.trans hen.symm)
      rwa [hn, hen] at this
    · have : (hs.countP fun g => decide (g.name = x.name ∧ g.start = |x.time| ∧ g.end = |x.time|)) = 0 := by
        rw [List.countP_eq_zero]
        intro g hg hd
        exact hz ⟨g, hg, of_decide_eq_true hd⟩
      omega
  have hcount := countP_ended (fun h hh => (hin h hh).2.1) (fun h hh => (hin h hh).2.2.1) hτ x.name
  have hbefore := count_openedBefore hin hts x.name
  omega

/-- A stamp at the clock's zero, where the window reaches back to it, is no start stamp and the first
of all: it finds nothing open. -/
theorem pos_of_matched (h0 : ∀ h ∈ hs, 0 ≤ h.start) (hts : StdSort tsComp (timestampVector hs) ts)
    (hm : MatchedInside w ts) (hw : w < 0) : ∀ h ∈ hs, 0 < h.start := by
  intro h hh
  refine (h0 h hh).lt_of_ne fun hz => ?_
  have hnone : ∀ x, beforeWindow w x = false := fun x => by
    simpa [beforeWindow] using hw.trans_le (abs_nonneg x.time)
  have hmem : (⟨h.name, -h.start⟩ : ContainerTimestamp) ∈ ts :=
    hts.1.symm.subset (List.mem_flatMap.2 ⟨h, hh, by simp⟩)
  cases ts with
  | nil => cases hmem
  | cons x rest =>
    have hx : x.time = 0 := by
      have hle := pairwise_abs hts
      rw [List.pairwise_cons] at hle
      rcases List.mem_cons.1 hmem with he | hmem
      · rw [← he, ← hz, neg_zero]
      · have := hle.1 _ hmem
        rw [← hz, neg_zero, abs_zero] at this
        exact abs_eq_zero.1 (le_antisymm this (abs_nonneg _))
    have hst : isStart x = false := by simp [isStart, hx]
    simp only [MatchedInside, openedBefore, List.takeWhile_cons, List.dropWhile_cons, hnone] at hm
    have := (matched_cons.1 hm).1 hst
    simp at this

/-- Up to the end stamps of an instant come the ends up to it and the starts before it. -/
theorem endFirst_le {x : ContainerTimestamp} :
    endFirst x ≤ toLex (τ, false) ↔ if isStart x then |x.time| < τ else |x.time| ≤ τ := by
  unfold endFirst
  rw [Prod.Lex.toLex_le_toLex]
  cases isStart x with
  | true => simp
  | false => simp [le_iff_lt_or_eq]

/-- The tokens of a window in which every order matches the ends have their ends open. -/
theorem endsOpen_of_matched (hs0 : ∀ h ∈ hs, 0 ≤ h.start ∧ h.start ≤ h.end ∧ w ≤ h.end)
    (hm : ∀ ts, StdSort tsComp (timestampVector hs) ts → MatchedInside w ts) : EndsOpen w hs := by
  obtain ⟨ts, hts, hkey⟩ := exists_stdSort_of_key
    (fun a b (h : endFirst a ≤ endFirst b) => abs_le_of_lex h) hs
  have hclock : w < 0 → ∀ h ∈ hs, 0 < h.start := pos_of_matched (fun h hh => (hs0 h hh).1) hts (hm ts hts)
  have hin : InWindow w hs := fun h hh =>
    ⟨(hs0 h hh).1, (hs0 h hh).2.1, (hs0 h hh).2.2, fun hw => hclock hw h hh⟩
  refine ⟨hclock, fun h hh hτ _ => ?_⟩
  -- the part of the stamps up to the last end stamp at the instant
  have hpart := countP_takeWhile_of_pairwise (p := fun y => decide (endFirst y ≤ toLex (h.end, false)))
    (fun a b hab hb => by simp only [decide_eq_true_eq] at hb ⊢; exact hab.trans hb)
    (hkey.sublist (List.dropWhile_sublist (beforeWindow w)))
  have hle : Matched (openedBefore w ts) (ts.dropWhile (beforeWindow w)) := hm ts hts
  rw [← List.takeWhile_append_dropWhile (p := fun y => decide (endFirst y ≤ toLex (h.end, false)))
    (l := ts.dropWhile (beforeWindow w))] at hle
  have hle := hle.prefix_le h.name
  rw [(hpart _).1, (hpart _).1] at hle
  have hends := countP_inside_ends hin hts h.name fun q => decide (q ≤ h.end)
  have hstarts := countP_inside_starts hin hts h.name fun q => decide (q < h.end)
  have h1 : ((ts.dropWhile (beforeWindow w)).countP fun y => (y.name == h.name && !isStart y) &&
        decide (endFirst y ≤ toLex (h.end, false))) =
      (ts.dropWhile (beforeWindow w)).countP fun y => (y.name == h.name && !isStart y) &&
        decide (|y.time| ≤ h.end) := by
    refine List.countP_congr fun y _ => ?_
    cases hy : isStart y <;> simp [endFirst_le, hy]
  have h2 : ((ts.dropWhile (beforeWindow w)).countP fun y => (y.name == h.name && isStart y) &&
        decide (endFirst y ≤ toLex (h.end, false))) =
      (ts.dropWhile (beforeWindow w)).countP fun y => (y.name == h.name && isStart y) && decide (|y.time| < h.end) := by
    refine List.countP_congr fun y _ => ?_
    cases hy : isStart y <;> simp [endFirst_le, hy]
  have hcount := countP_ended (fun g hg => (hin g hg).2.1) (fun g hg => (hin g hg).2.2.1) hτ h.name
  have hbefore := count_openedBefore hin hts h.name
  omega

/-- Tokens of a positive length have their ends open. -/
theorem endsOpen_of_pos (h : ∀ g ∈ hs, 0 < g.start ∧ g.start < g.end) : EndsOpen w hs :=
  ⟨fun _ g hg => (h g hg).1, fun g hg _ he => absurd he (h g hg).2.ne⟩

/-- Every order matches the ends exactly where the ends are open. -/
theorem forall_matched_iff (hs0 : ∀ h ∈ hs, 0 ≤ h.start ∧ h.start ≤ h.end ∧ w ≤ h.end) :
    (∀ ts, StdSort tsComp (timestampVector hs) ts → MatchedInside w ts) ↔ EndsOpen w hs := by
  refine ⟨endsOpen_of_matched hs0, fun h ts hts => matched_of_endsOpen (fun g hg => ?_) h hts⟩
  obtain ⟨h0, h1, h2⟩ := hs0 g hg
  exact ⟨h0, h1, h2, fun hw => h.clock hw g hg⟩

end

end Gemini.Scheduler
