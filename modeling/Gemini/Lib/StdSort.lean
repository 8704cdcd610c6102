/-
What `std::sort` promises: a permutation of its input, sorted whenever the comparison is a strict
weak ordering of the elements. For any other comparison no order is promised.
-/
import Mathlib.Tactic

namespace Gemini.Lib

variable {α : Type*}

/-- `lt` is a strict weak ordering of the elements of `xs`. -/
def StrictWeakOn (lt : α → α → Bool) (xs : List α) : Prop :=
  (∀ a ∈ xs, lt a a = false) ∧
  (∀ a ∈ xs, ∀ b ∈ xs, ∀ c ∈ xs, lt a b = true → lt b c = true → lt a c = true) ∧
  (∀ a ∈ xs, ∀ b ∈ xs, ∀ c ∈ xs, lt a b = false → lt b a = false → lt b c = false → lt c b = false →
    lt a c = false ∧ lt c a = false)

instance (lt : α → α → Bool) (xs : List α) : Decidable (StrictWeakOn lt xs) := by
  unfold StrictWeakOn; infer_instance

/-- `ys` is a possible outcome of sorting `xs` by `lt`. -/
def StdSort (lt : α → α → Bool) (xs ys : List α) : Prop :=
  ys.Perm xs ∧ (StrictWeakOn lt xs → ys.Pairwise fun a b => lt b a = false)

instance [DecidableEq α] (lt : α → α → Bool) (xs ys : List α) : Decidable (StdSort lt xs ys) := by
  unfold StdSort; infer_instance

/-- Every list has a sorted outcome. -/
theorem exists_stdSort (lt : α → α → Bool) (xs : List α) : ∃ ys, StdSort lt xs ys := by
  by_cases h : StrictWeakOn lt xs
  · obtain ⟨hirr, htr, hinc⟩ := h
    have htrans : ∀ a b c : {x // x ∈ xs}, (!lt b.1 a.1) = true → (!lt c.1 b.1) = true → (!lt c.1 a.1) = true := by
      intro ⟨a, ha⟩ ⟨b, hb⟩ ⟨c, hc⟩ hab hbc
      simp only [Bool.not_eq_true'] at hab hbc ⊢
      by_contra hca
      rw [Bool.not_eq_false] at hca
      cases hab' : lt a b with
      | true => rw [htr c hc a ha b hb hca hab'] at hbc; cases hbc
      | false =>
        cases hbc' : lt b c with
        | true => rw [htr b hb c hc a ha hbc' hca] at hab; cases hab
        | false => rw [(hinc a ha b hb c hc hab' hab hbc' hbc).2] at hca; cases hca
    have htotal : ∀ a b : {x // x ∈ xs}, (!lt b.1 a.1 || !lt a.1 b.1) = true := by
      intro ⟨a, ha⟩ ⟨b, hb⟩
      by_contra hc
      simp only [Bool.or_eq_true, Bool.not_eq_true', not_or, Bool.not_eq_false] at hc
      have := htr a ha b hb a ha hc.2 hc.1
      rw [hirr a ha] at this; cases this
    have hsort := List.pairwise_mergeSort htrans htotal xs.attach
    refine ⟨(xs.attach.mergeSort fun a b => !lt b.1 a.1).map Subtype.val, ?_, fun _ => ?_⟩
    · have := (List.mergeSort_perm xs.attach fun a b => !lt b.1 a.1).map Subtype.val
      rwa [List.attach_map_subtype_val] at this
    · rw [List.pairwise_map]
      exact hsort.imp fun h => by simpa using h
  · exact ⟨xs, List.Perm.refl xs, fun h' => absurd h' h⟩

/-- A strict weak ordering is an asymmetric relation in which every element lies behind the smaller
or before the larger of any two that are ordered. -/
theorem strictWeakOn_iff {lt : α → α → Bool} {xs : List α} : StrictWeakOn lt xs ↔
    (∀ a ∈ xs, ∀ b ∈ xs, lt a b = true → lt b a = false) ∧
    ∀ a ∈ xs, ∀ b ∈ xs, ∀ c ∈ xs, lt a c = true → lt a b = true ∨ lt b c = true := by
  constructor
  · rintro ⟨hirr, htr, hinc⟩
    have hasymm : ∀ a ∈ xs, ∀ b ∈ xs, lt a b = true → lt b a = false := by
      intro a ha b hb hab
      rw [Bool.eq_false_iff]
      intro hba
      have := htr a ha b hb a ha hab hba
      rw [hirr a ha] at this; cases this
    refine ⟨hasymm, fun a ha b hb c hc hac => ?_⟩
    by_contra h
    simp only [not_or, Bool.not_eq_true] at h
    cases hba : lt b a with
    | true => rw [htr b hb a ha c hc hba hac] at h; cases h.2
    | false =>
      cases hcb : lt c b with
      | true => rw [htr a ha c hc b hb hac hcb] at h; cases h.1
      | false => rw [(hinc a ha b hb c hc h.1 hba h.2 hcb).1] at hac; cases hac
  · rintro ⟨hasymm, hco⟩
    have hirr : ∀ a ∈ xs, lt a a = false := by
      intro a ha
      cases haa : lt a a with
      | true => exact (haa.symm.trans (hasymm a ha a ha haa))
      | false => rfl
    refine ⟨hirr, fun a ha b hb c hc hab hbc => ?_, fun a ha b hb c hc h1 h2 h3 h4 => ⟨?_, ?_⟩⟩
    · rcases hco a ha c hc b hb hab with h | h
      · exact h
      · rw [hasymm b hb c hc hbc] at h; cases h
    · rw [Bool.eq_false_iff]
      intro hac
      rcases hco a ha b hb c hc hac with h | h
      · rw [h1] at h; cases h
      · rw [h3] at h; cases h
    · rw [Bool.eq_false_iff]
      intro hca
      rcases hco c hc b hb a ha hca with h | h
      · rw [h4] at h; cases h
      · rw [h2] at h; cases h

theorem StrictWeakOn.subset {lt : α → α → Bool} {xs ys : List α} (h : StrictWeakOn lt xs) (hs : ys ⊆ xs) :
    StrictWeakOn lt ys := by
  obtain ⟨h1, h2, h3⟩ := h
  exact ⟨fun a ha => h1 a (hs ha), fun a ha b hb c hc => h2 a (hs ha) b (hs hb) c (hs hc),
    fun a ha b hb c hc => h3 a (hs ha) b (hs hb) c (hs hc)⟩

/-- The elements that can come first: the smallest ones, and all of them if the comparison is no
strict weak ordering. -/
theorem exists_stdSort_cons {lt : α → α → Bool} {xs : List α} {x : α} : (∃ ys, StdSort lt xs (x :: ys)) ↔
    x ∈ xs ∧ (StrictWeakOn lt xs → ∀ y ∈ xs, lt y x = false) := by
  constructor
  · rintro ⟨ys, hperm, hsort⟩
    have hx : x ∈ xs := hperm.subset (List.mem_cons_self ..)
    refine ⟨hx, fun h y hy => ?_⟩
    rcases List.mem_cons.1 (hperm.symm.subset hy) with rfl | hy
    · exact h.1 y hx
    · exact (List.pairwise_cons.1 (hsort h)).1 y hy
  · rintro ⟨hx, hmin⟩
    obtain ⟨before, after, rfl⟩ := List.append_of_mem hx
    obtain ⟨ys, hperm, hsort⟩ := exists_stdSort lt (before ++ after)
    have hsub : before ++ after ⊆ before ++ x :: after := by
      intro y hy
      rcases List.mem_append.1 hy with hy | hy
      · exact List.mem_append_left _ hy
      · exact List.mem_append_right _ (List.mem_cons_of_mem _ hy)
    refine ⟨ys, (hperm.cons x).trans List.perm_middle.symm, fun h => List.pairwise_cons.2 ⟨fun y hy => ?_, ?_⟩⟩
    · exact hmin h y (hsub (hperm.subset hy))
    · exact hsort (h.subset hsub)

section Key

variable {β : Type*} [LinearOrder β] {lt : α → α → Bool} {key : α → β}

/-- Comparing a key of a linear order is a strict weak ordering. -/
theorem strictWeakOn_key (hlt : ∀ a b, lt a b = true ↔ key a < key b) (xs : List α) : StrictWeakOn lt xs := by
  have hle : ∀ a b, lt a b = false ↔ key b ≤ key a := by
    intro a b
    rw [← not_lt, ← hlt, Bool.not_eq_true]
  refine ⟨fun a _ => (hle a a).2 le_rfl, fun a _ b _ c _ h1 h2 => ?_, fun a _ b _ c _ h1 h2 h3 h4 => ?_⟩
  · rw [hlt] at *; exact h1.trans h2
  · rw [hle] at h1 h2 h3 h4 ⊢; rw [hle]; exact ⟨h3.trans h1, h2.trans h4⟩

theorem StdSort.pairwise_key (hlt : ∀ a b, lt a b = true ↔ key a < key b) {xs ys : List α}
    (h : StdSort lt xs ys) : ys.Pairwise fun a b => key a ≤ key b :=
  (h.2 (strictWeakOn_key hlt xs)).imp fun {a b} h => by rw [← not_lt, ← hlt, h]; simp

end Key

end Gemini.Lib
