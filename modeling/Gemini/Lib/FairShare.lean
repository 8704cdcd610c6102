/-
Fair shares of a resource held by overlapping spans. At an instant covered by `n` spans, of which
`m` carry the key `k`, the key is served at the rate `m / n` (at rate 0 where nothing covers the
instant). Its share after `w` is the integral of this rate over all later instants.

The lemmas are the rules a sweep over the end points of the spans needs: the share splits at any
later instant, it is the rate times the length where the rate is constant, it ends with the last
span, and it does not see what ended before.
-/
import Mathlib.Tactic
import Mathlib.MeasureTheory.Integral.Bochner.Set
import Mathlib.MeasureTheory.Measure.Lebesgue.Basic

namespace Gemini.Lib

open MeasureTheory Set

/-- A span of time `[lo, hi)` held under a key. -/
structure Span (κ : Type*) where
  key : κ
  lo : ℝ
  hi : ℝ

namespace Span

variable {κ : Type*}

/-- The span covers the instant `t`. -/
def Covers (x : Span κ) (t : ℝ) : Prop := x.lo ≤ t ∧ t < x.hi

end Span

section Share

open Classical in
/-- The number of spans covering `t`. -/
noncomputable def active {κ : Type*} (L : List (Span κ)) (t : ℝ) : ℕ :=
  L.countP fun x => decide (x.Covers t)

open Classical in
/-- The number of spans of the key `k` covering `t`. -/
noncomputable def activeOf {κ : Type*} (L : List (Span κ)) (k : κ) (t : ℝ) : ℕ :=
  L.countP fun x => decide (x.key = k ∧ x.Covers t)

/-- The rate at which `k` is served at `t`. -/
noncomputable def rate {κ : Type*} (L : List (Span κ)) (k : κ) (t : ℝ) : ℝ :=
  activeOf L k t / active L t

/-- The share of `k` after `w`. -/
noncomputable def share {κ : Type*} (L : List (Span κ)) (k : κ) (w : ℝ) : ℝ :=
  ∫ t in Ioi w, rate L k t

variable {κ : Type*} {L L' : List (Span κ)} {k : κ} {a b t w : ℝ}

theorem activeOf_le_active (L : List (Span κ)) (k : κ) (t : ℝ) : activeOf L k t ≤ active L t :=
  List.countP_mono_left fun x _ h => by simp only [decide_eq_true_eq] at h ⊢; exact h.2

theorem rate_nonneg (L : List (Span κ)) (k : κ) (t : ℝ) : 0 ≤ rate L k t := by unfold rate; positivity

theorem rate_le_one (L : List (Span κ)) (k : κ) (t : ℝ) : rate L k t ≤ 1 := by
  unfold rate
  exact div_le_one_of_le₀ (by exact_mod_cast activeOf_le_active L k t) (by positivity)

theorem rate_of_active_zero (h : active L t = 0) (k : κ) : rate L k t = 0 := by simp [rate, h]

theorem active_eq_zero (h : ∀ x ∈ L, x.hi ≤ t) : active L t = 0 := by
  unfold active
  rw [List.countP_eq_zero]
  intro x hx
  have := h x hx
  simp only [decide_eq_true_eq]
  rintro ⟨-, h2⟩
  linarith

/-! ## Integrability -/

theorem measurable_countP (p : Span κ → ℝ → Prop) [∀ x t, Decidable (p x t)]
    (hp : ∀ x, MeasurableSet {t | p x t}) (L : List (Span κ)) :
    Measurable fun t => (L.countP fun x => decide (p x t) : ℝ) := by
  induction L with
  | nil => simp
  | cons x L ih =>
    have : (fun t => ((x :: L).countP fun x => decide (p x t) : ℝ)) =
        fun t => (L.countP fun x => decide (p x t) : ℝ) + {t | p x t}.indicator (fun _ => 1) t := by
      funext t
      by_cases h : p x t <;> simp [h, indicator]
    rw [this]
    exact ih.add (measurable_const.indicator (hp x))

theorem measurableSet_covers (x : Span κ) : MeasurableSet {t | x.Covers t} :=
  (measurableSet_Ici (a := x.lo)).inter (measurableSet_Iio (a := x.hi))

theorem measurable_rate (L : List (Span κ)) (k : κ) : Measurable (rate L k) := by
  classical
  have h1 : Measurable fun t => (active L t : ℝ) := by
    have := measurable_countP (fun (x : Span κ) t => x.Covers t) measurableSet_covers L
    exact this
  have h2 : Measurable fun t => (activeOf L k t : ℝ) := by
    have := measurable_countP (fun (x : Span κ) t => x.key = k ∧ x.Covers t)
      (fun x => (MeasurableSet.const _).inter (measurableSet_covers x)) L
    exact this
  exact h2.div h1

theorem exists_end (L : List (Span κ)) : ∃ T, ∀ x ∈ L, x.hi ≤ T := by
  induction L with
  | nil => exact ⟨0, by simp⟩
  | cons x L ih =>
    obtain ⟨T, hT⟩ := ih
    refine ⟨max x.hi T, fun y hy => ?_⟩
    rcases List.mem_cons.1 hy with rfl | hy
    · exact le_max_left _ _
    · exact (hT y hy).trans (le_max_right _ _)

theorem integrableOn_rate (L : List (Span κ)) (k : κ) (w : ℝ) : IntegrableOn (rate L k) (Ioi w) := by
  obtain ⟨T, hT⟩ := exists_end L
  have hb : IntegrableOn (rate L k) (Ioc w T) :=
    Measure.integrableOn_of_bounded (M := 1) (by simp) (measurable_rate L k).aestronglyMeasurable
      (by filter_upwards with t; rw [Real.norm_of_nonneg (rate_nonneg L k t)]; exact rate_le_one L k t)
  have hz : IntegrableOn (rate L k) (Ioi (max w T)) := by
    have h0 : IntegrableOn (fun _ => (0 : ℝ)) (Ioi (max w T)) := integrableOn_zero
    refine h0.congr_fun (fun t ht => ?_) measurableSet_Ioi
    have : T < t := (le_max_right w T).trans_lt ht
    exact (rate_of_active_zero (active_eq_zero fun x hx => (hT x hx).trans this.le) k).symm
  apply (hb.union hz).mono_set
  intro t ht
  by_cases h : t ≤ T
  · exact .inl ⟨ht, h⟩
  · exact .inr (max_lt ht (lt_of_not_ge h))

/-! ## Rules for shares -/

theorem share_nonneg (L : List (Span κ)) (k : κ) (w : ℝ) : 0 ≤ share L k w :=
  setIntegral_nonneg measurableSet_Ioi fun t _ => rate_nonneg L k t

/-- The share splits at any later instant. -/
theorem share_split (L : List (Span κ)) (k : κ) (h : a ≤ b) :
    share L k a = (∫ t in Ioo a b, rate L k t) + share L k b := by
  have hu : Ioi a = Ioc a b ∪ Ioi b := (Ioc_union_Ioi_eq_Ioi h).symm
  have hd : Disjoint (Ioc a b) (Ioi b) := Set.disjoint_left.2 fun t h1 h2 => absurd h1.2 (not_le.2 h2)
  have hi := integrableOn_rate L k a
  unfold share
  rw [← integral_Ioc_eq_integral_Ioo, hu, setIntegral_union hd measurableSet_Ioi
    (hi.mono_set Ioc_subset_Ioi_self) (hi.mono_set (Ioi_subset_Ioi h))]

/-- Where the rate is constant the share is the rate times the length. -/
theorem share_of_const (h : a ≤ b) {r : ℝ} (hr : ∀ t ∈ Ioo a b, rate L k t = r) :
    share L k a = r * (b - a) + share L k b := by
  rw [share_split L k h, setIntegral_congr_fun measurableSet_Ioo hr, setIntegral_const, Real.volume_real_Ioo_of_le h]
  simp [mul_comm]

/-- Equal counts after `w` give equal shares after `w`. -/
theorem share_congr (h : ∀ t, w < t → active L t = active L' t)
    (hk : ∀ t, w < t → activeOf L k t = activeOf L' k t) : share L k w = share L' k w :=
  setIntegral_congr_fun measurableSet_Ioi fun t ht => by unfold rate; rw [h t ht, hk t ht]

/-- Nothing is served after the last span. -/
theorem share_of_ended (h : ∀ x ∈ L, x.hi ≤ w) (k : κ) : share L k w = 0 :=
  setIntegral_eq_zero_of_forall_eq_zero fun _ ht =>
    rate_of_active_zero (active_eq_zero fun x hx => (h x hx).trans (le_of_lt ht)) k

/-- What ended by `w` does not count after `w`. -/
theorem share_filter_map {α : Type*} (f : α → Span κ) (p : α → Bool) {l : List α}
    (h : ∀ a ∈ l, p a = false → (f a).hi ≤ w) (k : κ) : share ((l.filter p).map f) k w = share (l.map f) k w := by
  refine share_congr (fun t ht => ?_) fun t ht => ?_ <;>
  · simp only [active, activeOf, List.countP_map, List.countP_filter]
    apply List.countP_congr
    intro a ha
    cases hp : p a with
    | true => simp
    | false =>
      have := h a ha hp
      have : ¬ (f a).Covers t := fun hc => by have := hc.2; linarith
      simp [this]

theorem share_antitone (L : List (Span κ)) (k : κ) (h : a ≤ b) : share L k b ≤ share L k a := by
  rw [share_split L k h]
  have : 0 ≤ ∫ t in Ioo a b, rate L k t := setIntegral_nonneg measurableSet_Ioo fun t _ => rate_nonneg L k t
  linarith

/-- The share shrinks no faster than time passes. -/
theorem share_sub_le (L : List (Span κ)) (k : κ) (h : a ≤ b) : share L k a - share L k b ≤ b - a := by
  have h1 : (∫ t in Ioo a b, rate L k t) ≤ ∫ _ in Ioo a b, (1 : ℝ) :=
    setIntegral_mono_on ((integrableOn_rate L k a).mono_set Ioo_subset_Ioi_self)
      (integrableOn_const (by simp)) measurableSet_Ioo fun t _ => rate_le_one L k t
  rw [setIntegral_const, Real.volume_real_Ioo_of_le h] at h1
  rw [share_split L k h]
  simp only [smul_eq_mul, mul_one] at h1
  linarith

/-- A key with a positive share after `w` has a span that ends after `w`. -/
theorem exists_of_share_pos (h : 0 < share L k w) : ∃ x ∈ L, x.key = k ∧ w < x.hi := by
  by_contra hn
  push Not at hn
  refine h.ne' (setIntegral_eq_zero_of_forall_eq_zero fun t ht => ?_)
  have : activeOf L k t = 0 := by
    unfold activeOf
    rw [List.countP_eq_zero]
    intro x hx
    simp only [decide_eq_true_eq]
    rintro ⟨h1, -, h3⟩
    have := hn x hx h1
    have : w < t := ht
    linarith
  simp [rate, this]

/-! ## Counting end points -/

/-- Where spans do not end before they begin, the spans covering an instant are those begun less
those ended. -/
theorem countP_covers (p : Span κ → Bool) (hL : ∀ x ∈ L, x.lo ≤ x.hi) (t : ℝ) :
    (L.countP fun x => p x && decide (x.lo ≤ t ∧ t < x.hi)) + (L.countP fun x => p x && decide (x.hi ≤ t)) =
      L.countP fun x => p x && decide (x.lo ≤ t) := by
  induction L with
  | nil => rfl
  | cons x L ih =>
    have hx := hL x (List.mem_cons_self ..)
    have := ih fun y hy => hL y (List.mem_cons_of_mem _ hy)
    simp only [List.countP_cons]
    generalize (L.countP fun y => p y && decide (y.lo ≤ t ∧ t < y.hi)) = m at this ⊢
    generalize (L.countP fun y => p y && decide (y.hi ≤ t)) = n at this ⊢
    generalize (L.countP fun y => p y && decide (y.lo ≤ t)) = l at this ⊢
    cases hp : p x with
    | false => simp [this]
    | true =>
      by_cases h1 : x.hi ≤ t
      · have h2 : x.lo ≤ t := hx.trans h1
        simp [h1, h2, not_lt.2 h1]; omega
      · by_cases h2 : x.lo ≤ t <;> simp [h1, h2, not_le.1 h1] <;> omega

/-- The counts of the covering spans decide the rate. -/
theorem rate_eq [DecidableEq κ] (L : List (Span κ)) (k : κ) (t : ℝ) :
    rate L k t = (L.countP fun x => (x.key == k) && decide (x.lo ≤ t ∧ t < x.hi) : ℕ) /
      (L.countP fun x => true && decide (x.lo ≤ t ∧ t < x.hi) : ℕ) := by
  have h1 : active L t = L.countP fun x => true && decide (x.lo ≤ t ∧ t < x.hi) :=
    List.countP_congr fun x _ => by simp only [decide_eq_true_eq, Bool.true_and]; rfl
  have h2 : activeOf L k t = L.countP fun x => (x.key == k) && decide (x.lo ≤ t ∧ t < x.hi) :=
    List.countP_congr fun x _ => by simp only [decide_eq_true_eq, Bool.and_eq_true, beq_iff_eq]; rfl
  rw [rate, h1, h2]

/-! ## All keys together -/

variable {K : Finset κ}

/-- The instants that some span covers. -/
def busy (L : List (Span κ)) : Set ℝ := {t | ∃ x ∈ L, x.Covers t}

theorem mem_busy : t ∈ busy L ↔ active L t ≠ 0 := by
  unfold active
  rw [← Nat.pos_iff_ne_zero, List.countP_pos_iff]
  simp only [decide_eq_true_eq]
  rfl

theorem measurableSet_busy (L : List (Span κ)) : MeasurableSet (busy L) := by
  induction L with
  | nil => simp [busy]
  | cons x L ih =>
    have hcons : busy (x :: L) = {t | x.Covers t} ∪ busy L := by
      ext t
      simp [busy]
    rw [hcons]
    exact (measurableSet_covers x).union ih

theorem sum_activeOf (hK : ∀ x ∈ L, x.key ∈ K) (t : ℝ) : ∑ k ∈ K, activeOf L k t = active L t := by
  classical
  induction L with
  | nil => simp [active, activeOf]
  | cons x L ih =>
    have ih := ih fun y hy => hK y (List.mem_cons_of_mem _ hy)
    unfold active activeOf at ih ⊢
    simp only [List.countP_cons, Finset.sum_add_distrib, ih]
    congr 1
    by_cases hc : x.Covers t
    · simp only [hc, and_true, decide_eq_true_eq, if_true]
      rw [Finset.sum_ite_eq, if_pos (hK x (List.mem_cons_self ..))]
    · simp [hc]

/-- The rates add up to one where there is anything to serve. -/
theorem sum_rate (hK : ∀ x ∈ L, x.key ∈ K) (t : ℝ) : ∑ k ∈ K, rate L k t = (busy L).indicator (fun _ => 1) t := by
  unfold rate
  rw [← Finset.sum_div, ← Nat.cast_sum, sum_activeOf hK]
  by_cases ht : t ∈ busy L
  · rw [indicator_of_mem ht, div_self (by exact_mod_cast mem_busy.1 ht)]
  · rw [indicator_of_notMem ht, not_not.1 (mt mem_busy.2 ht), Nat.cast_zero, div_zero]

/-- The shares add up to the time at which there is anything to serve. -/
theorem sum_share (hK : ∀ x ∈ L, x.key ∈ K) (w : ℝ) : ∑ k ∈ K, share L k w = volume.real (Ioi w ∩ busy L) := by
  unfold share
  rw [← integral_finsetSum _ fun k _ => integrableOn_rate L k w]
  simp only [sum_rate hK]
  rw [setIntegral_indicator (measurableSet_busy L), setIntegral_const, smul_eq_mul, mul_one]

end Share

end Gemini.Lib
