/-
Limits on a key over every window. A key whose spans follow one another, and which has had at most
`C` in the window before each of its spans begins, has at most `C` and one span in any window, and
so `n` times as much in `n` windows in a row.

The limit before an instant survives whatever happens after it: new spans, and changes that leave
the other keys' cover before the instant at least as it was and the key's own as it was.
-/
import Gemini.Lib.FairShare

namespace Gemini.Lib

open MeasureTheory Set

variable {κ : Type*} {L L' : List (Span κ)} {k : κ} {a b c t C W q : ℝ}

/-- The share of `k` between `a` and `b`. -/
noncomputable def shareIn (L : List (Span κ)) (k : κ) (a b : ℝ) : ℝ := ∫ t in Ioo a b, rate L k t

/-- In the window of length `W` that ends at `b`, and from anywhere in it, `k` has at most `C`. -/
def Capped (L : List (Span κ)) (k : κ) (W C b : ℝ) : Prop := ∀ a, b - W ≤ a → shareIn L k a b ≤ C

/-- Before `b` the second span covers what the first one does, and what it does if the key is `k`. -/
def Span.Covered (k : κ) (b : ℝ) (x y : Span κ) : Prop :=
  y.key = x.key ∧ (∀ t < b, x.Covers t → y.Covers t) ∧ (x.key = k → ∀ t < b, y.Covers t → x.Covers t)

/-! ## Shares between two instants -/

theorem integrableOn_shareIn (L : List (Span κ)) (k : κ) (a b : ℝ) : IntegrableOn (rate L k) (Ioo a b) :=
  (integrableOn_rate L k a).mono_set Ioo_subset_Ioi_self

theorem shareIn_of_le (h : b ≤ a) : shareIn L k a b = 0 := by
  rw [shareIn, Ioo_eq_empty (not_lt.2 h)]
  exact setIntegral_empty

theorem shareIn_add (hab : a ≤ b) (hbc : b ≤ c) : shareIn L k a b + shareIn L k b c = shareIn L k a c := by
  have h1 := share_split L k hab
  have h2 := share_split L k hbc
  have h3 := share_split L k (hab.trans hbc)
  unfold shareIn
  linarith

theorem shareIn_le_share (L : List (Span κ)) (k : κ) (a b : ℝ) : shareIn L k a b ≤ share L k a := by
  by_cases hab : a ≤ b
  · have hsplit := share_split L k hab
    have hrest := share_nonneg L k b
    unfold shareIn
    linarith
  · rw [shareIn_of_le (not_le.1 hab).le]
    exact share_nonneg L k a

theorem shareIn_mono (h : ∀ t ∈ Ioo a b, rate L' k t ≤ rate L k t) : shareIn L' k a b ≤ shareIn L k a b :=
  setIntegral_mono_on (integrableOn_shareIn L' k a b) (integrableOn_shareIn L k a b) measurableSet_Ioo h

/-- A key has no share after its last span. -/
theorem share_of_key_ended (h : ∀ x ∈ L, x.key = k → x.hi ≤ a) : share L k a = 0 := by
  refine le_antisymm (not_lt.1 fun hpos => ?_) (share_nonneg L k a)
  obtain ⟨x, hx, hk, hlt⟩ := exists_of_share_pos hpos
  exact absurd (h x hx hk) (not_le.2 hlt)

/-- A key that one span alone can serve between `a` and `b` gets at most the length of it. -/
theorem shareIn_le_length {x : Span κ} (hx : x.lo ≤ x.hi) (h : ∀ t ∈ Ioo a b, activeOf L k t ≠ 0 → x.Covers t) :
    shareIn L k a b ≤ x.hi - x.lo := by
  have hle : ∀ t ∈ Ioo a b, rate L k t ≤ (Ico x.lo x.hi).indicator (fun _ => (1 : ℝ)) t := by
    intro t ht
    by_cases hc : activeOf L k t = 0
    · rw [rate, hc, Nat.cast_zero, zero_div]
      exact indicator_nonneg (fun _ _ => zero_le_one) t
    · rw [indicator_of_mem (show t ∈ Ico x.lo x.hi from h t ht hc)]
      exact rate_le_one L k t
  have hint : IntegrableOn ((Ico x.lo x.hi).indicator fun _ => (1 : ℝ)) (Ioo a b) :=
    (integrable_indicator_iff measurableSet_Ico).2 (integrableOn_const (by simp)) |>.integrableOn
  have hmono := setIntegral_mono_on (integrableOn_shareIn L k a b) hint measurableSet_Ioo hle
  rw [setIntegral_indicator measurableSet_Ico, setIntegral_const, smul_eq_mul, mul_one] at hmono
  have hvol : volume.real (Ioo a b ∩ Ico x.lo x.hi) ≤ volume.real (Ico x.lo x.hi) :=
    measureReal_mono inter_subset_right (by simp)
  rw [Real.volume_real_Ico_of_le hx] at hvol
  exact hmono.trans hvol

/-! ## What later changes keep -/

theorem active_le_of_forall₂ (h : List.Forall₂ (Span.Covered k b) L L') (ht : t < b) : active L t ≤ active L' t := by
  unfold active
  induction h with
  | nil => exact le_rfl
  | @cons x y _ _ hxy _ ih =>
    rw [List.countP_cons, List.countP_cons]
    refine Nat.add_le_add ih ?_
    by_cases hc : x.Covers t
    · simp [hc, hxy.2.1 t ht hc]
    · simp [hc]

theorem activeOf_le_of_forall₂ (h : List.Forall₂ (Span.Covered k b) L L') (ht : t < b) :
    activeOf L' k t ≤ activeOf L k t := by
  unfold activeOf
  induction h with
  | nil => exact le_rfl
  | @cons x y _ _ hxy _ ih =>
    rw [List.countP_cons, List.countP_cons]
    refine Nat.add_le_add ih ?_
    by_cases hc : y.key = k ∧ y.Covers t
    · have hk : x.key = k := hxy.1 ▸ hc.1
      simp [hc, hk, hxy.2.2 hk t ht hc.2]
    · simp [hc]

/-- More cover by others lowers the rate. -/
theorem rate_le_of_forall₂ (h : List.Forall₂ (Span.Covered k b) L L') (ht : t < b) : rate L' k t ≤ rate L k t := by
  have hof := activeOf_le_of_forall₂ h ht
  have hall := active_le_of_forall₂ h ht
  by_cases h0 : active L t = 0
  · have hz : activeOf L' k t = 0 := by
      have := activeOf_le_active L k t
      omega
    rw [rate, hz, Nat.cast_zero, zero_div]
    exact rate_nonneg L k t
  · exact div_le_div₀ (Nat.cast_nonneg _) (by exact_mod_cast hof) (by exact_mod_cast Nat.pos_of_ne_zero h0)
      (by exact_mod_cast hall)

theorem Capped.of_forall₂ (hcap : Capped L k W C b) (h : List.Forall₂ (Span.Covered k b) L L') : Capped L' k W C b :=
  fun a ha => (shareIn_mono fun _ ht => rate_le_of_forall₂ h ht.2).trans (hcap a ha)

/-- A new span does not show before it begins. -/
theorem Capped.append (hcap : Capped L k W C b) {x : Span κ} (hx : b ≤ x.lo) : Capped (L ++ [x]) k W C b := by
  refine fun a ha => (shareIn_mono fun t ht => le_of_eq ?_).trans (hcap a ha)
  have hc : ¬ x.Covers t := fun hc => absurd (hc.1.trans_lt ht.2) (not_lt.2 hx)
  unfold rate active activeOf
  simp only [List.countP_append, List.countP_singleton, hc, and_false, decide_false, Bool.false_eq_true, if_false,
    add_zero]

theorem capped_of_share (h : share L k (b - W) ≤ C) : Capped L k W C b :=
  fun a ha => ((shareIn_le_share L k a b).trans (share_antitone L k ha)).trans h

/-- A key without a span is as limited later as it was. -/
theorem Capped.later (hcap : Capped L k W C b) (hC : 0 ≤ C) (hbc : b ≤ c) (hend : ∀ x ∈ L, x.key = k → x.hi ≤ b) :
    Capped L k W C c := by
  intro a ha
  by_cases hab : a ≤ b
  · have hrest : shareIn L k b c ≤ 0 := (shareIn_le_share L k b c).trans (share_of_key_ended hend).le
    have hfirst := hcap a (by linarith)
    rw [← shareIn_add hab hbc]
    linarith
  · have hend' : ∀ x ∈ L, x.key = k → x.hi ≤ a := fun x hx hk => (hend x hx hk).trans (not_le.1 hab).le
    exact ((shareIn_le_share L k a c).trans (share_of_key_ended hend').le).trans hC

/-! ## Windows -/

/-- A key limited before each of its spans, which follow one another, has one span more in a window. -/
theorem shareIn_window_le (hC : 0 ≤ C) (hq : 0 ≤ q) (hord : ∀ x ∈ L, x.lo ≤ x.hi)
    (hsep : L.Pairwise fun x y => x.key = y.key → x.hi ≤ y.lo) (hcap : ∀ x ∈ L, x.key = k → Capped L k W C x.lo)
    (hlen : ∀ x ∈ L, x.key = k → x.hi - x.lo ≤ q) (hb : b ≤ a + W) : shareIn L k a b ≤ C + q := by
  classical
  -- the last span of `k` that begins before `b` is the only one in its way after its start
  have hin : ∀ {t}, t < b → activeOf L k t ≠ 0 → ∃ y ∈ L.filter fun x => x.key = k ∧ x.lo < b, y.Covers t := by
    intro t ht hne
    obtain ⟨y, hy, hc⟩ := List.countP_pos_iff.1 (Nat.pos_of_ne_zero hne)
    obtain ⟨hk, hc⟩ := of_decide_eq_true hc
    exact ⟨y, List.mem_filter.2 ⟨hy, decide_eq_true ⟨hk, hc.1.trans_lt ht⟩⟩, hc⟩
  rcases List.eq_nil_or_concat (L.filter fun x => decide (x.key = k ∧ x.lo < b)) with hnil | ⟨ys, x, hlast⟩
  · have hzero : ∀ t ∈ Ioo a b, rate L k t = 0 := by
      intro t ht
      have h0 : activeOf L k t = 0 := by
        by_contra hne
        obtain ⟨y, hy, -⟩ := hin ht.2 hne
        rw [hnil] at hy
        cases hy
      rw [rate, h0, Nat.cast_zero, zero_div]
    rw [shareIn, setIntegral_congr_fun measurableSet_Ioo hzero, integral_zero]
    exact add_nonneg hC hq
  · obtain ⟨hx, hkx, hxb⟩ : x ∈ L ∧ x.key = k ∧ x.lo < b := by
      have hmem : x ∈ L.filter fun x => decide (x.key = k ∧ x.lo < b) := by rw [hlast]; simp
      obtain ⟨h1, h2⟩ := List.mem_filter.1 hmem
      exact ⟨h1, of_decide_eq_true h2⟩
    have hbefore : ∀ y ∈ ys, y.hi ≤ x.lo := by
      intro y hy
      have hpair := hsep.sublist (List.filter_sublist (p := fun x => decide (x.key = k ∧ x.lo < b)))
      rw [hlast, List.concat_eq_append, List.pairwise_append] at hpair
      have hyk : y.key = k := by
        have hmem : y ∈ L.filter fun x => decide (x.key = k ∧ x.lo < b) := by
          rw [hlast, List.concat_eq_append]
          exact List.mem_append_left _ hy
        exact (of_decide_eq_true (List.mem_filter.1 hmem).2).1
      exact hpair.2.2 y hy x (List.mem_singleton_self x) (hyk.trans hkx.symm)
    have honly : ∀ {t}, x.lo < t → t < b → activeOf L k t ≠ 0 → x.Covers t := by
      intro t hxt htb hne
      obtain ⟨y, hy, hc⟩ := hin htb hne
      rw [hlast, List.concat_eq_append] at hy
      rcases List.mem_append.1 hy with hy | hy
      · exact absurd (hc.2.trans_le (hbefore y hy)) (not_lt.2 hxt.le)
      · rwa [← List.mem_singleton.1 hy]
    have hlen := hlen x hx hkx
    by_cases hax : a ≤ x.lo
    · have hfirst := hcap x hx hkx a (by linarith)
      have hrest := shareIn_le_length (L := L) (k := k) (hord x hx) fun t (ht : t ∈ Ioo x.lo b) => honly ht.1 ht.2
      rw [← shareIn_add hax hxb.le]
      linarith
    · have hall := shareIn_le_length (L := L) (k := k) (hord x hx) fun t (ht : t ∈ Ioo a b) =>
        honly ((not_le.1 hax).trans ht.1) ht.2
      linarith

/-- `n` windows in a row. -/
theorem shareIn_windows_le (hW : 0 ≤ W) (h : ∀ a, shareIn L k a (a + W) ≤ C) (a : ℝ) (n : ℕ) :
    shareIn L k a (a + n * W) ≤ n * C := by
  induction n with
  | zero => simp [shareIn_of_le]
  | succ n ih =>
    have hnW : 0 ≤ (n : ℝ) * W := mul_nonneg n.cast_nonneg hW
    have hlast := h (a + n * W)
    push_cast
    rw [show a + (n + 1) * W = a + n * W + W by ring, ← shareIn_add (b := a + n * W) (by linarith) (by linarith)]
    linarith

end Gemini.Lib
