/-
What the sweep of `select_candidate` measures, for tokens with positive start, none of which ends
before it starts. The usage map is the fair share of each client over the tokens of the window,
except for the tokens that end exactly at the window start: both stamps of such a token lie before
the window, so the sweep takes it for two tokens that are held until the last stamp (`swept`).

Of equal stamps `std::sort` may put an end stamp before the start stamp of its own zero-length
token. The sweep then never takes the name off the overlap vector again: clients are given at least
their share. In a balanced order, and there always is one, they are given exactly their share.

The invariant is that the usage gained so far and the share still to come add up to the share
after the window start; the overlap vector holds each name as often as tokens of it are active,
and besides the names that were not taken off.
-/
import Mathlib.Data.List.TakeWhile
import Gemini.Lib.FairShare
import Gemini.Scheduler.History

namespace Gemini.Scheduler

open Gemini.Lib Set

/-! ## Fair shares of tokens -/

/-- The tokens as spans of real time. -/
def spans (hs : List History) : List (Span String) := hs.map fun h => ⟨h.name, h.start, h.end⟩

/-- The fair share of a client after `w`: the integral of the part of the tokens held at an
instant that are the client's. -/
noncomputable def fairShare (hs : List History) (c : String) (w : ℚ) : ℝ := share (spans hs) c w

/-- Tokens start after the clock's zero and do not end before they start. -/
def WellTimed (hs : List History) : Prop := ∀ h ∈ hs, 0 < h.start ∧ h.start ≤ h.end

/-- No order of equal stamps puts an end stamp where no start stamp of its name is open: at the
instant of a zero-length token, its client has at least as many tokens running through the instant
as zero-length ones. Where every token has a positive length this holds. -/
def EndsMatched (hs : List History) : Prop :=
  ∀ h ∈ hs, h.start = h.end →
    (hs.countP fun g => decide (g.name = h.name ∧ g.start = h.end ∧ g.end = h.end)) ≤
      hs.countP fun g => decide (g.name = h.name ∧ g.start < h.end ∧ h.end < g.end)

instance (hs : List History) : Decidable (WellTimed hs) := by unfold WellTimed; infer_instance
instance (hs : List History) : Decidable (EndsMatched hs) := by unfold EndsMatched; infer_instance

/-- The last end of a token, or `w` if there is none after it. -/
def lastEnd (w : ℚ) (hs : List History) : ℚ := hs.foldr (fun h m => max h.end m) w

/-- The tokens a token that ends exactly at the window start is taken for. -/
def doubled (w : ℚ) (hs : List History) : List History :=
  (hs.filter fun h => decide (h.end = w)).flatMap fun h => [⟨h.name, w, lastEnd w hs⟩, ⟨h.name, w, lastEnd w hs⟩]

/-- The tokens whose fair shares the sweep computes. -/
def swept (w : ℚ) (hs : List History) : List History := hs ++ doubled w hs

theorem wellTimed_prune {hs : List History} (h : WellTimed hs) (w : ℚ) : WellTimed (prune w hs) :=
  fun g hg => h g (mem_prune.1 hg).1

theorem le_lastEnd (w : ℚ) (hs : List History) : w ≤ lastEnd w hs := by
  induction hs with
  | nil => exact le_rfl
  | cons h hs ih => exact ih.trans (le_max_right _ _)

theorem end_le_lastEnd (w : ℚ) {hs : List History} {h : History} (hh : h ∈ hs) : h.end ≤ lastEnd w hs := by
  induction hs with
  | nil => cases hh
  | cons g hs ih =>
    rcases List.mem_cons.1 hh with rfl | hh
    · exact le_max_left _ _
    · exact (ih hh).trans (le_max_right _ _)

theorem lastEnd_le {w T : ℚ} {hs : List History} (hw : w ≤ T) (h : ∀ g ∈ hs, g.end ≤ T) : lastEnd w hs ≤ T := by
  induction hs with
  | nil => exact hw
  | cons g hs ih =>
    exact max_le (h g (List.mem_cons_self ..)) (ih fun g hg => h g (List.mem_cons_of_mem _ hg))

theorem swept_of_ne {w : ℚ} {hs : List History} (h : ∀ g ∈ hs, g.end ≠ w) : swept w hs = hs := by
  have : hs.filter (fun h => decide (h.end = w)) = [] := by
    rw [List.filter_eq_nil_iff]; intro g hg; simpa using h g hg
  simp [swept, doubled, this]

theorem spans_append (hs gs : List History) : spans (hs ++ gs) = spans hs ++ spans gs := by simp [spans]

/-- Pruning loses nothing after the window start. -/
theorem fairShare_prune {v w : ℚ} (hvw : v ≤ w) (hs : List History) (c : String) :
    fairShare (prune v hs) c w = fairShare hs c w := by
  refine share_filter_map _ _ (fun h _ hb => ?_) c
  simp only [beyondWindow, Bool.not_eq_eq_eq_not, Bool.not_false, decide_eq_true_eq] at hb
  show (h.end : ℝ) ≤ w
  exact_mod_cast hb.le.trans hvw

/-! ## Stamps -/

/-- The stamp is a start stamp. -/
def isStart (x : ContainerTimestamp) : Bool := decide (x.time < 0)

theorem forall_dropWhile_of_pairwise {α : Type*} {R : α → α → Prop} {p : α → Bool}
    (hR : ∀ a b, R a b → p b = true → p a = true) :
    ∀ {l : List α}, l.Pairwise R → ∀ x ∈ l.dropWhile p, p x = false
  | [], _, x, hx => by simp at hx
  | a :: l, h, x, hx => by
    rw [List.pairwise_cons] at h
    rw [List.dropWhile_cons] at hx
    split at hx
    · exact forall_dropWhile_of_pairwise hR h.2 x hx
    · rename_i ha
      rcases List.mem_cons.1 hx with rfl | hx
      · simpa using ha
      · cases hp : p x with
        | false => rfl
        | true => exact absurd (hR a x (h.1 x hx) hp) ha

/-- In a list sorted by a relation that a predicate is closed under, what the predicate holds of comes first. -/
theorem countP_takeWhile_of_pairwise {α : Type*} {R : α → α → Prop} {p : α → Bool}
    (hR : ∀ a b, R a b → p b = true → p a = true) {l : List α} (h : l.Pairwise R) (q : α → Bool) :
    (l.takeWhile p).countP q = (l.countP fun x => q x && p x) ∧
      (l.dropWhile p).countP q = l.countP fun x => q x && !p x := by
  have h1 : ∀ x ∈ l.takeWhile p, p x = true := fun x hx => List.mem_takeWhile_imp hx
  have h2 := forall_dropWhile_of_pairwise hR h
  have hl : ∀ r : α → Bool, l.countP r = (l.takeWhile p).countP r + (l.dropWhile p).countP r := by
    intro r
    rw [← List.countP_append, List.takeWhile_append_dropWhile]
  constructor
  · have h3 : (l.dropWhile p).countP (fun x => q x && p x) = 0 := by
      rw [List.countP_eq_zero]; intro x hx; simp [h2 x hx]
    rw [hl, h3, Nat.add_zero]
    exact List.countP_congr fun x hx => by simp [h1 x hx]
  · have h3 : (l.takeWhile p).countP (fun x => q x && !p x) = 0 := by
      rw [List.countP_eq_zero]; intro x hx; simp [h1 x hx]
    rw [hl, h3, Nat.zero_add]
    exact List.countP_congr fun x hx => by simp [h2 x hx]

/-- The start stamps of a client set up to an instant are its tokens begun by then. -/
theorem countP_starts {hs : List History} (hwt : WellTimed hs) (p : String → Bool) (r : ℚ → Bool) :
    ((timestampVector hs).countP fun x => p x.name && isStart x && r |x.time|) =
      hs.countP fun h => p h.name && r h.start := by
  rw [countP_timestampVector]
  have h2 : (hs.countP fun h => p h.name && isStart ⟨h.name, h.end⟩ && r |h.end|) = 0 := by
    rw [List.countP_eq_zero]
    intro h hh
    obtain ⟨h0, h1⟩ := hwt h hh
    simp [isStart, (h0.trans_le h1).le]
  rw [h2, Nat.add_zero]
  apply List.countP_congr
  intro h hh
  have h0 := (hwt h hh).1
  simp [isStart, h0, abs_of_pos h0]

/-- The end stamps of a client set up to an instant are its tokens ended by then. -/
theorem countP_ends {hs : List History} (hwt : WellTimed hs) (p : String → Bool) (r : ℚ → Bool) :
    ((timestampVector hs).countP fun x => p x.name && !isStart x && r |x.time|) =
      hs.countP fun h => p h.name && r h.end := by
  rw [countP_timestampVector]
  have h2 : (hs.countP fun h => p h.name && !isStart ⟨h.name, -h.start⟩ && r |(-h.start)|) = 0 := by
    rw [List.countP_eq_zero]
    intro h hh
    simp [isStart, (hwt h hh).1]
  rw [h2, Nat.zero_add]
  apply List.countP_congr
  intro h hh
  obtain ⟨h0, h1⟩ := hwt h hh
  have h3 := h0.trans_le h1
  simp [isStart, h3.le, abs_of_pos h3]

/-- In a sorted list split at an instant, what lies up to it is the first part. -/
theorem countP_split {l r : List ContainerTimestamp} (q : ContainerTimestamp → Bool) (R : ℚ → Bool)
    (hl : ∀ x ∈ l, R |x.time| = true) (hr : ∀ x ∈ r, R |x.time| = false) :
    ((l ++ r).countP fun x => q x && R |x.time|) = l.countP q := by
  have h0 : (r.countP fun x => q x && R |x.time|) = 0 := by
    rw [List.countP_eq_zero]; intro x hx; simp [hr x hx]
  rw [List.countP_append, h0, Nat.add_zero]
  exact List.countP_congr fun x hx => by simp [hl x hx]

/-! ## Balanced orders -/

/-- Every end stamp comes when a start stamp of its name is open. -/
def Balanced (ts : List ContainerTimestamp) : Prop :=
  ∀ done x rest, ts = done ++ x :: rest → isStart x = false →
    (done.countP fun y => y.name == x.name && !isStart y) < done.countP fun y => y.name == x.name && isStart y

/-- Equal stamps in the order of a container that starts before it ends. -/
def startFirst (x : ContainerTimestamp) : ℚ ×ₗ Bool := toLex (|x.time|, !isStart x)

section

variable {w : ℚ} {hs : List History} {ts done rest : List ContainerTimestamp} {x : ContainerTimestamp}

theorem pairwise_abs (hts : StdSort tsComp (timestampVector hs) ts) :
    ts.Pairwise fun a b => |a.time| ≤ |b.time| :=
  hts.pairwise_key fun a b => by simp only [tsComp, decide_eq_true_eq]

/-- Up to any instant no more tokens of a client have ended than had begun before it. -/
theorem countP_ended_le (hwt : WellTimed hs) (hm : EndsMatched hs) (c : String) (τ : ℚ) :
    (hs.countP fun h => (h.name == c) && decide (h.end ≤ τ)) ≤
      hs.countP fun h => (h.name == c) && decide (h.start < τ) := by
  -- ended or running through, begun before or of length zero: the same tokens counted twice
  have key : (hs.countP fun h => (h.name == c) && decide (h.end ≤ τ)) +
      (hs.countP fun h => decide (h.name = c ∧ h.start < τ ∧ τ < h.end)) =
      (hs.countP fun h => (h.name == c) && decide (h.start < τ)) +
        hs.countP fun h => decide (h.name = c ∧ h.start = τ ∧ h.end = τ) := by
    clear hm
    induction hs with
    | nil => rfl
    | cons h hs ih =>
      have ih := ih fun g hg => hwt g (List.mem_cons_of_mem _ hg)
      have hle := (hwt h (List.mem_cons_self ..)).2
      simp only [List.countP_cons]
      have h1 : (if ((h.name == c) && decide (h.end ≤ τ)) = true then 1 else 0) +
          (if decide (h.name = c ∧ h.start < τ ∧ τ < h.end) = true then 1 else 0) =
          (if ((h.name == c) && decide (h.start < τ)) = true then 1 else 0) +
            (if decide (h.name = c ∧ h.start = τ ∧ h.end = τ) = true then 1 else 0) := by
        by_cases hn : h.name = c
        · rcases lt_trichotomy h.start τ with h1 | h1 | h1
          · by_cases h2 : h.end ≤ τ
            · simp [hn, h1, h2, h1.ne, not_lt.2 h2]
            · simp [hn, h1, h2, h1.ne, not_le.1 h2]
          · by_cases h2 : h.end ≤ τ
            · simp [hn, h1, le_antisymm h2 (h1 ▸ hle)]
            · simp [hn, h1, h2, (not_le.1 h2).ne']
          · simp [hn, h1.not_gt, h1.ne', not_le.2 (h1.trans_le hle)]
        · simp [hn]
      omega
  by_cases hz : ∃ h ∈ hs, h.name = c ∧ h.start = τ ∧ h.end = τ
  · obtain ⟨h, hh, rfl, h1, rfl⟩ := hz
    have := hm h hh h1
    omega
  · have : (hs.countP fun h => decide (h.name = c ∧ h.start = τ ∧ h.end = τ)) = 0 := by
      rw [List.countP_eq_zero]
      intro h hh
      simpa using fun h1 h2 h3 => hz ⟨h, hh, h1, h2, h3⟩
    omega

/-- Among the stamps `done`, sorted before an end stamp, are at most as many ends of its client as
tokens have ended by then, less one. -/
theorem countP_ends_lt (hwt : WellTimed hs) (hts : (done ++ x :: rest).Perm (timestampVector hs))
    (hpast : ∀ y ∈ done, |y.time| ≤ |x.time|) (hx : isStart x = false) :
    (done.countP fun y => y.name == x.name && !isStart y) <
      hs.countP fun h => (h.name == x.name) && decide (h.end ≤ |x.time|) := by
  have h1 := countP_ends hwt (· == x.name) fun q => decide (q ≤ |x.time|)
  rw [← hts.countP_eq, List.countP_append, List.countP_cons] at h1
  have h2 : (done.countP fun y => (y.name == x.name) && !isStart y && decide (|y.time| ≤ |x.time|)) =
      done.countP fun y => (y.name == x.name) && !isStart y :=
    List.countP_congr fun y hy => by simp [hpast y hy]
  simp only [hx, beq_self_eq_true, Bool.not_false, le_refl, decide_true, Bool.and_true, if_true] at h1
  omega

/-- The starts of a client that lie before the rest of the stamps are among the stamps `done`. -/
theorem countP_starts_le (hwt : WellTimed hs) (hts : (done ++ x :: rest).Perm (timestampVector hs))
    (hx : isStart x = false) {r : ℚ → Bool} (hrest : ∀ y ∈ rest, isStart y = true → r |y.time| = false) :
    (hs.countP fun h => (h.name == x.name) && r h.start) ≤
      done.countP fun y => y.name == x.name && isStart y := by
  have h1 := countP_starts hwt (· == x.name) r
  rw [← hts.countP_eq, List.countP_append, List.countP_cons] at h1
  have h2 : (rest.countP fun y => (y.name == x.name) && isStart y && r |y.time|) = 0 := by
    rw [List.countP_eq_zero]
    intro y hy h
    simp only [Bool.and_eq_true] at h
    rw [hrest y hy h.1.2] at h; exact absurd h.2 (by simp)
  have h3 : (done.countP fun y => (y.name == x.name) && isStart y && r |y.time|) ≤
      done.countP fun y => (y.name == x.name) && isStart y :=
    List.countP_mono_left fun y _ h => by simp at h ⊢; exact h.1
  simp only [hx, Bool.and_false, Bool.false_and, Bool.false_eq_true, if_false] at h1
  omega

/-- Where ends are matched every order is balanced. -/
theorem balanced_of_endsMatched (hwt : WellTimed hs) (hm : EndsMatched hs)
    (hts : StdSort tsComp (timestampVector hs) ts) : Balanced ts := by
  rintro done x rest rfl hx
  have hsort := List.pairwise_append.1 (pairwise_abs hts)
  have h1 := countP_ends_lt hwt hts.1 (fun y hy => hsort.2.2 y hy x (List.mem_cons_self ..)) hx
  have h2 := countP_starts_le hwt hts.1 hx (r := fun q => decide (q < |x.time|)) fun y hy _ => by
    simpa using (List.pairwise_cons.1 hsort.2.1).1 y hy
  exact h1.trans_le ((countP_ended_le hwt hm x.name |x.time|).trans h2)

/-- Equal stamps can come in the order of any finer key. -/
theorem exists_stdSort_of_key {β : Type*} [LinearOrder β] {key : ContainerTimestamp → β}
    (hkey : ∀ a b, key a ≤ key b → |a.time| ≤ |b.time|) (hs : List History) :
    ∃ ts, StdSort tsComp (timestampVector hs) ts ∧ ts.Pairwise fun a b => key a ≤ key b := by
  obtain ⟨ts, hts⟩ := exists_stdSort (fun a b => decide (key a < key b)) (timestampVector hs)
  have hsort : ts.Pairwise fun a b => key a ≤ key b := hts.pairwise_key fun a b => by simp
  exact ⟨ts, ⟨hts.1, fun _ => hsort.imp fun h => by simpa [tsComp] using hkey _ _ h⟩, hsort⟩

theorem abs_le_of_lex {a b : ContainerTimestamp} {x y : Bool} (h : toLex (|a.time|, x) ≤ toLex (|b.time|, y)) :
    |a.time| ≤ |b.time| :=
  (Prod.Lex.le_iff.1 h).elim le_of_lt fun h => h.1.le

/-- There always is a balanced order. -/
theorem exists_balanced (hwt : WellTimed hs) : ∃ ts, StdSort tsComp (timestampVector hs) ts ∧ Balanced ts := by
  obtain ⟨ts, hts, hkey⟩ := exists_stdSort_of_key
    (fun a b (h : startFirst a ≤ startFirst b) => abs_le_of_lex h) hs
  refine ⟨ts, hts, ?_⟩
  rintro done x rest rfl hx
  have hsort := List.pairwise_append.1 hkey
  have h1 := countP_ends_lt hwt hts.1 (fun y hy => abs_le_of_lex (hsort.2.2 y hy x (List.mem_cons_self ..))) hx
  have h2 := countP_starts_le hwt hts.1 hx (r := fun q => decide (q ≤ |x.time|)) fun y hy hys => by
    rcases Prod.Lex.le_iff.1 ((List.pairwise_cons.1 hsort.2.1).1 y hy) with h | h
    · simpa [startFirst] using h
    · exact absurd (show true ≤ false by simpa [startFirst, hx, hys] using h.2) (by decide)
  refine h1.trans_le (le_trans (List.countP_mono_left fun h hh => ?_) h2)
  simp only [Bool.and_eq_true, decide_eq_true_eq]
  exact fun hc => ⟨hc.1, (hwt h hh).2.trans hc.2⟩

end

/-! ## The invariant of the sweep -/

/-- The state of the sweep after the stamps `done`; `lost` are the names of the end stamps that
found no instance to take off the overlap vector. -/
structure SweepInv (w : ℚ) (hs : List History) (done : List ContainerTimestamp) (lost : List String) (s : Sweep) :
    Prop where
  cnt : s.overlapCnt + lost.length = s.overlapCheckVector.length
  held : ∀ p : String → Bool,
    s.overlapCheckVector.countP p + (done.countP fun x => p x.name && !isStart x) =
      (done.countP fun x => p x.name && isStart x) + 2 * (hs.countP fun h => p h.name && decide (h.end = w)) +
        lost.countP p
  le : w ≤ s.currentTime
  past : ∀ x ∈ done, |x.time| ≤ s.currentTime
  total : ∀ c, fairShare (swept w hs) c w ≤ s.usage c + fairShare (swept w hs) c s.currentTime
  exact : lost = [] → ∀ c, (s.usage c : ℝ) + fairShare (swept w hs) c s.currentTime = fairShare (swept w hs) c w

section

variable {w : ℚ} {hs : List History} {done rest ts : List ContainerTimestamp} {lost : List String}
  {x : ContainerTimestamp} {s s' : Sweep}

theorem countP_spans (hs : List History) (q : Span String → Bool) :
    (spans hs).countP q = hs.countP fun h => q ⟨h.name, h.start, h.end⟩ := by
  simp [spans, List.countP_map, Function.comp_def]

theorem countP_doubled (w : ℚ) (hs : List History) (q : History → Bool) :
    (doubled w hs).countP q = 2 * hs.countP fun h => q ⟨h.name, w, lastEnd w hs⟩ && decide (h.end = w) := by
  unfold doubled
  generalize lastEnd w hs = T
  induction hs with
  | nil => rfl
  | cons h hs ih =>
    by_cases he : h.end = w
    · simp only [List.filter_cons, he, decide_true, if_true, List.flatMap_cons, List.countP_append,
        List.countP_cons, List.countP_nil, ih, Bool.and_true]
      split <;> omega
    · simp [he, ih]

/-- Between two stamps the overlap vector holds the names of the active tokens and the lost ones. -/
theorem countP_active (hwt : WellTimed hs) (hts : (done ++ x :: rest).Perm (timestampVector hs))
    (hinv : SweepInv w hs done lost s) (hle : |x.time| ≤ lastEnd w hs) (hrest : ∀ y ∈ rest, |x.time| ≤ |y.time|)
    (p : String → Bool) {t : ℝ} (ht : t ∈ Ioo (s.currentTime : ℝ) ((|x.time| : ℚ) : ℝ)) :
    ((spans (swept w hs)).countP fun y => p y.key && decide (y.lo ≤ t ∧ t < y.hi)) + lost.countP p =
      s.overlapCheckVector.countP p := by
  obtain ⟨ht1, ht2⟩ := ht
  have hw : (w : ℝ) ≤ t := by have : (w : ℝ) ≤ s.currentTime := by exact_mod_cast hinv.le
                              linarith
  have hT : t < (lastEnd w hs : ℚ) := ht2.trans_le (by exact_mod_cast hle)
  -- the doubled tokens cover the whole interval
  have hd : ((spans (doubled w hs)).countP fun y => p y.key && decide (y.lo ≤ t ∧ t < y.hi)) =
      2 * hs.countP fun h => p h.name && decide (h.end = w) := by
    rw [countP_spans, countP_doubled]
    simp [hw, hT]
  -- the stamps up to `t` are the processed ones
  have hpast : ∀ y ∈ done, decide (((|y.time| : ℚ) : ℝ) ≤ t) = true := by
    intro y hy
    have : ((|y.time| : ℚ) : ℝ) ≤ s.currentTime := by exact_mod_cast hinv.past y hy
    simp only [decide_eq_true_eq]; linarith
  have hnext : ∀ y ∈ x :: rest, decide (((|y.time| : ℚ) : ℝ) ≤ t) = false := by
    intro y hy
    have : ((|x.time| : ℚ) : ℝ) ≤ (|y.time| : ℚ) := by
      rcases List.mem_cons.1 hy with rfl | hy
      · exact le_rfl
      · exact_mod_cast hrest y hy
    simp only [decide_eq_false_iff_not, not_le]; linarith
  have hs1 := countP_starts hwt p fun q => decide ((q : ℝ) ≤ t)
  have he1 := countP_ends hwt p fun q => decide ((q : ℝ) ≤ t)
  rw [← hts.countP_eq] at hs1 he1
  have hs2 := countP_split (fun y => p y.name && isStart y) (fun q => decide ((q : ℝ) ≤ t)) hpast hnext
  have he2 := countP_split (fun y => p y.name && !isStart y) (fun q => decide ((q : ℝ) ≤ t)) hpast hnext
  have hc := countP_covers (L := spans hs) (fun y => p y.key) (fun y hy => by
    obtain ⟨h, hh, rfl⟩ := List.mem_map.1 hy
    show (h.start : ℝ) ≤ h.end
    exact_mod_cast (hwt h hh).2) t
  have hh := hinv.held p
  rw [swept, spans_append, List.countP_append, hd]
  simp only [countP_spans] at hc ⊢
  omega

theorem abs_le_lastEnd (hwt : WellTimed hs) (hx : x ∈ timestampVector hs) : |x.time| ≤ lastEnd w hs := by
  obtain ⟨h, hh, hx⟩ := List.mem_flatMap.1 hx
  obtain ⟨h0, h1⟩ := hwt h hh
  have := end_le_lastEnd w hh
  rcases List.mem_cons.1 hx with rfl | hx
  · rw [abs_neg, abs_of_pos h0]; exact h1.trans this
  · rw [List.mem_singleton.1 hx, abs_of_pos (h0.trans_le h1)]; exact this

/-- What a stamp adds to a client's usage is at least its share of the time since the last stamp,
and exactly its share if no name is lost. -/
theorem accrue_share (hwt : WellTimed hs) (hts : (done ++ x :: rest).Perm (timestampVector hs))
    (hinv : SweepInv w hs done lost s) (hcur : s.currentTime ≤ |x.time|) (hrest : ∀ y ∈ rest, |x.time| ≤ |y.time|)
    (c : String) :
    ∃ gain : ℚ, accrue s.overlapCheckVector ((|x.time| - s.currentTime) / s.overlapCnt) s.usage c = s.usage c + gain ∧
      fairShare (swept w hs) c s.currentTime ≤ gain + fairShare (swept w hs) c |x.time| ∧
      (lost = [] → fairShare (swept w hs) c s.currentTime = gain + fairShare (swept w hs) c |x.time|) := by
  refine ⟨_, accrue_apply .., ?_⟩
  rcases hcur.eq_or_lt with h0 | hlt
  · rw [← h0, sub_self, zero_div, mul_zero]
    push_cast
    exact ⟨by linarith, fun _ => by linarith⟩
  have hx : x ∈ timestampVector hs := hts.subset (by simp)
  have hact := countP_active hwt hts hinv (abs_le_lastEnd hwt hx) hrest
  have hlt' : (s.currentTime : ℝ) < (|x.time| : ℚ) := by exact_mod_cast hlt
  -- between the stamps the count is the number of active tokens
  have hcnt : ∀ t ∈ Ioo (s.currentTime : ℝ) ((|x.time| : ℚ) : ℝ),
      (((spans (swept w hs)).countP fun y => true && decide (y.lo ≤ t ∧ t < y.hi) : ℕ) : ℤ) = s.overlapCnt :=
    fun t ht => by
      have h1 := hact (fun _ => true) ht
      simp only [List.countP_true] at h1
      have h2 := hinv.cnt
      omega
  have hcnt0 : 0 ≤ s.overlapCnt := by
    obtain ⟨t, ht⟩ := exists_between hlt'
    rw [← hcnt t ht]; exact Int.natCast_nonneg _
  have hconst := share_of_const (L := spans (swept w hs)) (k := c) hlt'.le
    (r := (s.overlapCheckVector.count c - lost.count c) / s.overlapCnt) fun t ht => by
      have h1 := hact (· == c) ht
      have h2 := hcnt t ht
      rw [rate_eq]
      simp only [List.count]
      rw [← h2, ← h1]
      push_cast
      ring
  have hdiff : fairShare (swept w hs) c s.currentTime = (((|x.time| : ℚ) : ℝ) - s.currentTime) *
      ((s.overlapCheckVector.count c - lost.count c) / s.overlapCnt) + fairShare (swept w hs) c |x.time| := by
    rw [fairShare, fairShare, hconst]; ring
  have hnn : (0 : ℝ) ≤ (((|x.time| : ℚ) : ℝ) - s.currentTime) * (lost.count c / s.overlapCnt) := by
    have h1 : (0 : ℝ) ≤ (s.overlapCnt : ℝ) := by exact_mod_cast hcnt0
    have h2 : (0 : ℝ) ≤ ((|x.time| : ℚ) : ℝ) - s.currentTime := by linarith
    positivity
  push_cast at hdiff hnn ⊢
  refine ⟨?_, fun hl => ?_⟩
  · rw [hdiff]
    have : (|(x.time : ℝ)| - s.currentTime) * ((s.overlapCheckVector.count c - lost.count c) / s.overlapCnt) =
        s.overlapCheckVector.count c * ((|(x.time : ℝ)| - s.currentTime) / s.overlapCnt) -
          (|(x.time : ℝ)| - s.currentTime) * (lost.count c / s.overlapCnt) := by ring
    linarith
  · rw [hdiff, hl, List.count_nil]
    push_cast
    ring

/-- A turn of the loop loses at most the name of the stamp, and only at an end stamp that finds no
instance to take off. -/
theorem SweepInv.step (hwt : WellTimed hs) (hts : (done ++ x :: rest).Perm (timestampVector hs))
    (hinv : SweepInv w hs done lost s) (hcur : s.currentTime ≤ |x.time|) (hrest : ∀ y ∈ rest, |x.time| ≤ |y.time|)
    (hstep : s.step x = some s') :
    ∃ lost', SweepInv w hs (done ++ [x]) lost' s' ∧ s'.currentTime = |x.time| ∧
      (isStart x = true ∨ x.name ∈ s.overlapCheckVector → lost' = lost) := by
  have hpast : ∀ y ∈ done ++ [x], |y.time| ≤ |x.time| := by
    intro y hy
    rcases List.mem_append.1 hy with hy | hy
    · exact (hinv.past y hy).trans hcur
    · rw [List.mem_singleton.1 hy]
  have hgain := accrue_share hwt hts hinv hcur hrest
  -- the usage is the same wherever the stamp leads
  have htot : ∀ c, fairShare (swept w hs) c w ≤
      accrue s.overlapCheckVector ((|x.time| - s.currentTime) / s.overlapCnt) s.usage c +
        fairShare (swept w hs) c |x.time| := by
    intro c
    obtain ⟨gain, hg, hle, -⟩ := hgain c
    have := hinv.total c
    rw [hg]; push_cast; linarith
  have hexact :
    lost = [] → ∀ c, (accrue s.overlapCheckVector ((|x.time| - s.currentTime) / s.overlapCnt) s.usage c : ℝ) +
        fairShare (swept w hs) c |x.time| = fairShare (swept w hs) c w := by
    intro hl c
    obtain ⟨gain, hg, -, he⟩ := hgain c
    have h1 := hinv.exact hl c
    have h2 := he hl
    rw [hg]; push_cast; linarith
  have hcnt := hinv.cnt
  unfold Sweep.step at hstep
  split at hstep
  · cases hstep
  simp only at hstep
  by_cases hx : x.time < 0
  · have hst : isStart x = true := by simpa [isStart] using hx
    rw [if_pos hx] at hstep; cases hstep
    refine ⟨lost, ⟨?_, fun p => ?_, hinv.le.trans hcur, hpast, htot, hexact⟩, rfl, fun _ => rfl⟩
    · simp only [List.length_append, List.length_singleton]; push_cast; omega
    · have := hinv.held p
      simp only [List.countP_append, List.countP_singleton, hst]
      cases p x.name <;> simp <;> omega
  · have hst : isStart x = false := by simpa [isStart] using hx
    rw [if_neg hx] at hstep; cases hstep
    by_cases hmem : x.name ∈ s.overlapCheckVector
    · have hperm := List.perm_cons_erase hmem
      refine ⟨lost, ⟨?_, fun p => ?_, hinv.le.trans hcur, hpast, htot, hexact⟩, rfl, fun _ => rfl⟩
      · have := hperm.length_eq
        simp only [List.length_cons] at this
        show s.overlapCnt - 1 + (lost.length : ℤ) = ((s.overlapCheckVector.erase x.name).length : ℤ)
        omega
      · have := hinv.held p
        rw [hperm.countP_eq, List.countP_cons] at this
        simp only [List.countP_append, List.countP_singleton, hst]
        cases hp : p x.name <;> simp [hp] at this ⊢ <;> omega
    · -- nothing to take off: the count goes down all the same
      have herase := List.erase_of_not_mem hmem
      refine ⟨x.name :: lost, ⟨?_, fun p => ?_, hinv.le.trans hcur, hpast, htot, by simp⟩, rfl, ?_⟩
      · show s.overlapCnt - 1 + ((x.name :: lost).length : ℤ) = ((s.overlapCheckVector.erase x.name).length : ℤ)
        rw [herase, List.length_cons]; push_cast; omega
      · have := hinv.held p
        simp only [herase, List.countP_append, List.countP_cons, hst]
        cases hp : p x.name <;> simp <;> omega
      · rintro (h | h)
        · rw [hst] at h; cases h
        · exact absurd h hmem

/-- As long as no name is lost the sweep does not divide by zero. -/
theorem SweepInv.step_isSome (hinv : SweepInv w hs done [] s) (x : ContainerTimestamp) : ∃ s', s.step x = some s' := by
  unfold Sweep.step
  have hcnt := hinv.cnt
  have hdiv : ¬ (s.overlapCheckVector ≠ [] ∧ s.overlapCnt = 0) := by
    rintro ⟨h1, h2⟩
    rw [h2, List.length_nil] at hcnt
    exact h1 (List.length_eq_zero_iff.1 (by omega))
  rw [if_neg hdiv]
  simp only
  split <;> exact ⟨_, rfl⟩

/-- When the stamps are used up nothing is still to come. -/
theorem SweepInv.finished (hts : done.Perm (timestampVector hs)) (hinv : SweepInv w hs done lost s) (c : String) :
    fairShare (swept w hs) c s.currentTime = 0 := by
  have hend : lastEnd w hs ≤ s.currentTime := by
    apply lastEnd_le hinv.le
    intro h hh
    have hmem : (⟨h.name, h.end⟩ : ContainerTimestamp) ∈ timestampVector hs :=
      List.mem_flatMap.2 ⟨h, hh, by simp⟩
    have := hinv.past _ (hts.symm.subset hmem)
    exact (le_abs_self h.end).trans this
  refine share_of_ended (fun y hy => ?_) c
  obtain ⟨h, hh, rfl⟩ := List.mem_map.1 hy
  have : h.end ≤ s.currentTime := by
    rcases List.mem_append.1 hh with hh | hh
    · exact (end_le_lastEnd w hh).trans hend
    · obtain ⟨g, -, hg⟩ := List.mem_flatMap.1 hh
      obtain rfl : h = ⟨g.name, w, lastEnd w hs⟩ := by simpa using hg
      exact hend
  show (h.end : ℝ) ≤ s.currentTime
  exact_mod_cast this

/-- However the sweep over the rest of the stamps ends, it gives every client at least its share. -/
theorem SweepInv.run_le (hwt : WellTimed hs) :
    ∀ {rest done : List ContainerTimestamp} {lost : List String} {s : Sweep},
      (done ++ rest).Perm (timestampVector hs) → rest.Pairwise (fun a b => |a.time| ≤ |b.time|) →
      (∀ y ∈ rest, s.currentTime ≤ |y.time|) → SweepInv w hs done lost s →
      rest.foldlM Sweep.step s = some s' → ∀ c, fairShare (swept w hs) c w ≤ s'.usage c
  | [], done, lost, s, hts, _, _, hinv, h, c => by
    cases h
    have := hinv.total c
    rwa [hinv.finished (by simpa using hts), add_zero] at this
  | x :: rest, done, lost, s, hts, hsort, hcur, hinv, h, c => by
    rw [List.pairwise_cons] at hsort
    rw [List.foldlM_cons] at h
    obtain ⟨s₁, hs₁, h⟩ := Option.bind_eq_some_iff.1 h
    obtain ⟨lost', hinv', hc', -⟩ := hinv.step hwt hts (hcur x (List.mem_cons_self ..)) hsort.1 hs₁
    exact SweepInv.run_le hwt (by simpa using hts) hsort.2 (fun y hy => hc' ▸ hsort.1 y hy) hinv' h c

/-- The sweep over the rest of a balanced order loses no name and gives every client its share. -/
theorem SweepInv.run (hwt : WellTimed hs) (hb : Balanced ts) :
    ∀ {rest done : List ContainerTimestamp} {s : Sweep}, ts = done ++ rest → (done ++ rest).Perm (timestampVector hs) →
      rest.Pairwise (fun a b => |a.time| ≤ |b.time|) → (∀ y ∈ rest, s.currentTime ≤ |y.time|) →
      SweepInv w hs done [] s →
      ∃ s', rest.foldlM Sweep.step s = some s' ∧ ∀ c, (s'.usage c : ℝ) = fairShare (swept w hs) c w
  | [], done, s, _, hts, _, _, hinv => by
    refine ⟨s, rfl, fun c => ?_⟩
    have := hinv.exact rfl c
    rwa [hinv.finished (by simpa using hts), add_zero] at this
  | x :: rest, done, s, hsplit, hts, hsort, hcur, hinv => by
    rw [List.pairwise_cons] at hsort
    obtain ⟨s₁, hs₁⟩ := hinv.step_isSome x
    obtain ⟨lost', hinv', hc', hlost⟩ := hinv.step hwt hts (hcur x (List.mem_cons_self ..)) hsort.1 hs₁
    have hnone : lost' = [] := hlost <| by
      cases hx : isStart x with
      | true => exact .inl rfl
      | false =>
        right
        have h1 := hb done x rest hsplit hx
        have h2 := hinv.held (· == x.name)
        have h3 : 0 < s.overlapCheckVector.countP (· == x.name) := by simp only [List.countP_nil] at h2; omega
        obtain ⟨n, hn, he⟩ := List.countP_pos_iff.1 h3
        exact (beq_iff_eq.1 he) ▸ hn
    rw [hnone] at hinv'
    obtain ⟨s'', h1, h2⟩ := SweepInv.run hwt hb (by simpa using hsplit) (by simpa using hts) hsort.2
      (fun y hy => hc' ▸ hsort.1 y hy) hinv'
    exact ⟨s'', by rw [List.foldlM_cons, hs₁]; exact h1, h2⟩

/-- The loop over the stamps before the window counts a token that ends exactly at the window
start twice, and every other token begun by then once. -/
theorem SweepInv.enter (hwt : WellTimed hs) (hw : ∀ h ∈ hs, w ≤ h.end)
    {before after : List ContainerTimestamp} (hts : (before ++ after).Perm (timestampVector hs))
    (hb : ∀ x ∈ before, |x.time| ≤ w) (ha : ∀ x ∈ after, w < |x.time|) :
    SweepInv w hs before [] (Sweep.enter w before) := by
  refine ⟨by simp [Sweep.enter], fun p => ?_, le_rfl, hb, fun c => by simp [Sweep.enter],
    fun _ c => by simp [Sweep.enter]⟩
  have h1 := countP_ends hwt p fun q => decide (q ≤ w)
  have h2 := countP_split (fun x => p x.name && !isStart x) (fun q => decide (q ≤ w))
    (fun x hx => by simpa using hb x hx) fun x hx => by simpa using ha x hx
  have h3 : (hs.countP fun h => p h.name && decide (h.end ≤ w)) =
      hs.countP fun h => p h.name && decide (h.end = w) :=
    List.countP_congr fun h hh => by simp [le_antisymm_iff, hw h hh]
  have h4 := List.countP_eq_countP_filter_add before (fun x => p x.name) isStart
  rw [List.countP_filter, List.countP_filter] at h4
  rw [← hts.countP_eq, h2, h3] at h1
  simp only [Sweep.enter, List.countP_map, Function.comp_def, List.countP_nil]
  omega

/-- The stamps inside the window are sorted and lie after its start. -/
theorem stamps_inside (w : ℚ) (hts : StdSort tsComp (timestampVector hs) ts) :
    (ts.dropWhile (beforeWindow w)).Pairwise (fun a b => |a.time| ≤ |b.time|) ∧
      ∀ x ∈ ts.dropWhile (beforeWindow w), w < |x.time| := by
  have hsort := pairwise_abs hts
  refine ⟨hsort.sublist (List.dropWhile_sublist _), fun x hx => ?_⟩
  have := forall_dropWhile_of_pairwise (p := beforeWindow w) (fun a b hab hb => by
    simp only [beforeWindow, decide_eq_true_eq] at hb ⊢; exact hab.trans hb) hsort x hx
  simpa [beforeWindow] using this

/-- The sorted stamps fall into those before the window and those inside it. -/
theorem stamps_split (hwt : WellTimed hs) (hw : ∀ h ∈ hs, w ≤ h.end) (hts : StdSort tsComp (timestampVector hs) ts) :
    SweepInv w hs (ts.takeWhile (beforeWindow w)) [] (Sweep.enter w (ts.takeWhile (beforeWindow w))) ∧
      (ts.dropWhile (beforeWindow w)).Pairwise (fun a b => |a.time| ≤ |b.time|) ∧
      ∀ y ∈ ts.dropWhile (beforeWindow w), w ≤ |y.time| := by
  obtain ⟨hsort, ha⟩ := stamps_inside w hts
  have hb : ∀ x ∈ ts.takeWhile (beforeWindow w), |x.time| ≤ w := by
    intro x hx
    simpa [beforeWindow] using List.mem_takeWhile_imp hx
  have hperm : (ts.takeWhile (beforeWindow w) ++ ts.dropWhile (beforeWindow w)).Perm (timestampVector hs) := by
    rw [List.takeWhile_append_dropWhile]; exact hts.1
  exact ⟨SweepInv.enter hwt hw hperm hb ha, hsort, fun y hy => (ha y hy).le⟩

/-- In every order the usage map gives each client at least its fair share over the swept tokens. -/
theorem fairShare_le_usageOf (hwt : WellTimed hs) (hw : ∀ h ∈ hs, w ≤ h.end)
    (hts : StdSort tsComp (timestampVector hs) ts) {u : String → ℚ} (hu : usageOf w ts = some u) (c : String) :
    fairShare (swept w hs) c w ≤ u c := by
  obtain ⟨hinv, hsort, hge⟩ := stamps_split hwt hw hts
  obtain ⟨s, hs, rfl⟩ := Option.map_eq_some_iff.1 hu
  exact SweepInv.run_le hwt (by rw [List.takeWhile_append_dropWhile]; exact hts.1) hsort hge hinv hs c

/-- In a balanced order the usage map is the fair share over the swept tokens. -/
theorem usageOf_eq (hwt : WellTimed hs) (hb : Balanced ts) (hw : ∀ h ∈ hs, w ≤ h.end)
    (hts : StdSort tsComp (timestampVector hs) ts) :
    ∃ u, usageOf w ts = some u ∧ ∀ c, (u c : ℝ) = fairShare (swept w hs) c w := by
  obtain ⟨hinv, hsort, hge⟩ := stamps_split hwt hw hts
  obtain ⟨s, h1, h2⟩ := SweepInv.run hwt hb (List.takeWhile_append_dropWhile ..).symm
    (by rw [List.takeWhile_append_dropWhile]; exact hts.1) hsort hge hinv
  exact ⟨s.usage, by rw [usageOf, h1]; rfl, h2⟩

/-- Where ends are matched and no token ends exactly at the window start, the usage map is the fair
share. -/
theorem usageOf_eq_fairShare (hwt : WellTimed hs) (hm : EndsMatched hs)
    (hw : ∀ h ∈ hs, w < h.end) (hts : StdSort tsComp (timestampVector hs) ts) :
    ∃ u, usageOf w ts = some u ∧ ∀ c, (u c : ℝ) = fairShare hs c w := by
  have := usageOf_eq hwt (balanced_of_endsMatched hwt hm hts) (fun h hh => (hw h hh).le) hts
  rwa [swept_of_ne fun h hh => (hw h hh).ne'] at this

/-- In every order the usage map is nowhere negative. -/
theorem usageOf_nonneg (hwt : WellTimed hs) (hw : ∀ h ∈ hs, w ≤ h.end)
    (hts : StdSort tsComp (timestampVector hs) ts) {u : String → ℚ} (hu : usageOf w ts = some u) (c : String) :
    0 ≤ u c := by
  have := (share_nonneg (spans (swept w hs)) c w).trans (fairShare_le_usageOf hwt hw hts hu c)
  exact_mod_cast this

end

/-! ## Clients without a stamp -/

section

variable {w : ℚ} {s s' : Sweep} {c : String}

theorem Sweep.step_absent {x : ContainerTimestamp} (hx : x.name ≠ c) (hc : c ∉ s.overlapCheckVector)
    (h : s.step x = some s') : c ∉ s'.overlapCheckVector ∧ s'.usage c = s.usage c := by
  unfold Sweep.step at h
  split at h
  · cases h
  · have hu : ∀ slice, accrue s.overlapCheckVector slice s.usage c = s.usage c := by
      intro slice
      rw [accrue_apply, List.count_eq_zero_of_not_mem hc]; simp
    simp only at h
    split at h
    · cases h
      exact ⟨by simp [hc, hx.symm], hu _⟩
    · cases h
      exact ⟨fun h => hc (List.mem_of_mem_erase h), hu _⟩

theorem Sweep.run_absent : ∀ {ts : List ContainerTimestamp} {s : Sweep}, (∀ x ∈ ts, x.name ≠ c) →
    c ∉ s.overlapCheckVector → ts.foldlM Sweep.step s = some s' → s'.usage c = s.usage c
  | [], s, _, _, h => by cases h; rfl
  | x :: ts, s, hts, hc, h => by
    rw [List.foldlM_cons] at h
    obtain ⟨s₁, hs₁, h⟩ := Option.bind_eq_some_iff.1 h
    obtain ⟨hc', hu⟩ := Sweep.step_absent (hts x (List.mem_cons_self ..)) hc hs₁
    rw [Sweep.run_absent (fun y hy => hts y (List.mem_cons_of_mem _ hy)) hc' h, hu]

/-- A client without a token in the window has used nothing. -/
theorem usageOf_absent {hs : List History} {ts : List ContainerTimestamp}
    (hts : StdSort tsComp (timestampVector hs) ts) {u : String → ℚ} (hu : usageOf w ts = some u)
    (hc : ∀ h ∈ hs, h.name ≠ c) : u c = 0 := by
  have hne : ∀ x ∈ ts, x.name ≠ c := by
    intro x hx
    obtain ⟨h, hh, hx⟩ := List.mem_flatMap.1 (hts.1.subset hx)
    have : x.name = h.name := by
      simp only [List.mem_cons, List.not_mem_nil, or_false] at hx
      rcases hx with rfl | rfl <;> rfl
    exact this ▸ hc h hh
  obtain ⟨s, hs, rfl⟩ := Option.map_eq_some_iff.1 hu
  rw [Sweep.run_absent (fun x hx => hne x ((List.dropWhile_sublist _).subset hx)) ?_ hs]
  · rfl
  · intro h
    obtain ⟨x, hx, hxc⟩ := List.mem_map.1 h
    exact hne x ((List.takeWhile_sublist _).subset hx) hxc

end

end Gemini.Scheduler
