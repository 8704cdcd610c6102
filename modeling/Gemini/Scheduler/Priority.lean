/-
When `schd_priority` is a strict weak ordering. It compares missing shares and signs as long as no
candidate misses nothing; a candidate exactly at its request is compared with every other one by
usage alone. So the comparison is a strict weak ordering of some candidates exactly if each of
them that is at its request has a usage that agrees with the order of the others.
-/
import Gemini.Scheduler.Select

namespace Gemini.Scheduler

open Gemini.Lib

/-! ## Candidates at their request -/

/-- The part of its request a candidate has not used: the ratio `schd_priority` compares. -/
def missingShare (missing usage : ℚ) : ℚ := missing / (missing + usage)

section

variable {α : Type*} (S : Set α) (missing usage : α → ℚ)

/-- `p` comes before `q` by the ratio or by the signs: it is below its request, and `q` is above
its own or misses a smaller share of it. -/
def Ahead (p q : α) : Prop :=
  0 < missing p ∧ (missing q < 0 ∨
    0 < missing q ∧ missingShare (missing q) (usage q) < missingShare (missing p) (usage p))

/-- The usage of `z` agrees with the order of the candidates of `S`: of two that are ordered the
first has used less than `z` or the second more, and two that miss the same share are both below
`z`, both above it or both level with it. -/
structure Placed (z : α) : Prop where
  ordered : ∀ p ∈ S, ∀ q ∈ S, Ahead missing usage p q → usage p < usage z ∨ usage z < usage q
  tied : ∀ p ∈ S, ∀ q ∈ S, 0 < missing p → 0 < missing q →
    missingShare (missing p) (usage p) = missingShare (missing q) (usage q) →
    (usage p < usage z ↔ usage q < usage z) ∧ (usage z < usage p ↔ usage z < usage q)

end

/-- What `select_candidate` knows of the candidates it sorts. -/
structure ValidCandidate.Buildable (v : ValidCandidate) : Prop where
  usage : 0 ≤ v.usage
  require : 0 ≤ v.missing + v.usage
  remaining : 0 < v.remaining

/-- The entries of `vaild_candidates` are such values. -/
theorem buildable_of_mem {clients : ClientInfoMap} {window : ℚ} {usage : String → ℚ} {cs : List Candidate}
    {i : ℕ} {vs : List ValidCandidate} (h : validCandidates clients window usage i cs = some vs)
    (hw : 0 ≤ window) (hmin : ∀ c ∈ cs, ∀ inf ∈ clients c.name, 0 ≤ inf.minFrac)
    (hu : ∀ c ∈ cs, 0 ≤ usage c.name) : ∀ v ∈ vs, v.Buildable := by
  intro v hv
  obtain ⟨j, c, inf, hj, hinf, rfl, hr⟩ := (mem_validCandidates h v).1 hv
  have hc : c ∈ cs := List.mem_of_getElem? hj
  refine ⟨hu c hc, ?_, hr⟩
  have := mul_nonneg (hmin c hc inf hinf) hw
  simpa [ValidCandidate.of] using this

/-! ## The comparison by signs -/

section

variable {a b : ValidCandidate}

/-- The ratio and sign tests of `schd_priority`. -/
def ValidCandidate.Ahead (a b : ValidCandidate) : Prop :=
  Scheduler.Ahead ValidCandidate.missing ValidCandidate.usage a b

theorem schdPriority_usage (h : a.missing = 0 ∨ b.missing = 0) :
    schdPriority a b = true ↔ a.usage < b.usage := by
  unfold schdPriority
  rcases h with h | h <;> simp [h]

/-- Away from the request the ratio and sign tests come first, and usages are compared above it. -/
theorem schdPriority_ahead (ha : a.missing ≠ 0) (hb : b.missing ≠ 0) :
    schdPriority a b = true ↔ a.Ahead b ∨ a.missing < 0 ∧ b.missing < 0 ∧ a.usage < b.usage := by
  unfold schdPriority ValidCandidate.Ahead Scheduler.Ahead missingShare
  rcases lt_or_gt_of_ne ha with ha | ha <;> rcases lt_or_gt_of_ne hb with hb | hb <;>
    simp [ha, hb, ha.not_gt, hb.not_gt]

theorem schdPriority_of_ahead (h : a.Ahead b) : schdPriority a b = true :=
  (schdPriority_ahead h.1.ne' (h.2.elim LT.lt.ne fun h => h.1.ne')).2 (.inl h)

theorem ahead_or_usage (h : schdPriority a b = true) : a.Ahead b ∨ a.usage < b.usage := by
  by_cases ha : a.missing = 0
  · exact .inr ((schdPriority_usage (.inl ha)).1 h)
  by_cases hb : b.missing = 0
  · exact .inr ((schdPriority_usage (.inr hb)).1 h)
  rcases (schdPriority_ahead ha hb).1 h with h | h
  · exact .inl h
  · exact .inr h.2.2

/-- How two candidates that are not at their request compare. -/
theorem ahead_cases (ha : a.missing ≠ 0) (hb : b.missing ≠ 0) : a.Ahead b ∨ b.Ahead a ∨
    (0 < a.missing ∧ 0 < b.missing ∧ missingShare a.missing a.usage = missingShare b.missing b.usage) ∨
    a.missing < 0 ∧ b.missing < 0 := by
  rcases lt_or_gt_of_ne ha with ha | ha <;> rcases lt_or_gt_of_ne hb with hb | hb
  · exact .inr (.inr (.inr ⟨ha, hb⟩))
  · exact .inr (.inl ⟨hb, .inl ha⟩)
  · exact .inl ⟨ha, .inl hb⟩
  · rcases lt_trichotomy (missingShare a.missing a.usage) (missingShare b.missing b.usage) with h | h | h
    · exact .inr (.inl ⟨hb, .inr ⟨ha, h⟩⟩)
    · exact .inr (.inr (.inl ⟨ha, hb, h⟩))
    · exact .inl ⟨ha, .inr ⟨hb, h⟩⟩

theorem schdPriority_asymm (h : schdPriority a b = true) : schdPriority b a = false := by
  rw [Bool.eq_false_iff]
  intro h'
  by_cases h0 : a.missing = 0 ∨ b.missing = 0
  · rw [schdPriority_usage h0] at h
    rw [schdPriority_usage h0.symm] at h'
    exact h.not_gt h'
  · rw [not_or] at h0
    rw [schdPriority_ahead h0.1 h0.2] at h
    rw [schdPriority_ahead h0.2 h0.1] at h'
    rcases h with ⟨ha, h | ⟨hb, h⟩⟩ | ⟨ha, hb, h⟩
    · rcases h' with ⟨hb, -⟩ | ⟨-, ha', -⟩ <;> linarith
    · rcases h' with ⟨-, h' | ⟨-, h'⟩⟩ | ⟨hb', -⟩
      · linarith
      · exact h.not_gt h'
      · linarith
    · rcases h' with ⟨hb', -⟩ | ⟨-, -, h'⟩
      · linarith
      · exact h.not_gt h'

/-- No candidate comes before one that has used nothing. -/
theorem ValidCandidate.Buildable.not_before_unused (hb : b.Buildable) (ha : a.Buildable) (h0 : a.usage = 0) :
    schdPriority b a = false := by
  have ha0 : 0 ≤ a.missing := by simpa [h0] using ha.require
  rw [Bool.eq_false_iff]
  intro h
  rcases ahead_or_usage h with ⟨hb0, hneg | ⟨hpos, hlt⟩⟩ | hlt
  · exact hneg.not_ge ha0
  · -- it misses its whole request, and the other no more than that
    rw [missingShare, missingShare, h0, add_zero, div_self hpos.ne', one_lt_div (by linarith [hb.usage])] at hlt
    linarith [hb.usage]
  · exact hb.usage.not_gt (h0 ▸ hlt)

end

/-! ## Strict weak orderings -/

section

variable {xs : List ValidCandidate} {a b c : ValidCandidate}

/-- No candidate away from its request disturbs the order of two others. -/
theorem schdPriority_between (ha : a.missing ≠ 0) (hb : b.missing ≠ 0) (hc : c.missing ≠ 0)
    (h : schdPriority a c = true) : schdPriority a b = true ∨ schdPriority b c = true := by
  rw [schdPriority_ahead ha hc] at h
  rw [schdPriority_ahead ha hb, schdPriority_ahead hb hc]
  rcases lt_or_gt_of_ne hb with hb | hb
  · rcases h with h | ⟨ha, hc, h⟩
    · exact .inl (.inl ⟨h.1, .inl hb⟩)
    · rcases lt_or_ge a.usage b.usage with hab | hba
      · exact .inl (.inr ⟨ha, hb, hab⟩)
      · exact .inr (.inr ⟨hb, hc, hba.trans_lt h⟩)
  · rcases h with ⟨ha, hc | ⟨hc, h⟩⟩ | ⟨ha, hc, h⟩
    · exact .inr (.inl ⟨hb, .inl hc⟩)
    · rcases lt_or_ge (missingShare b.missing b.usage) (missingShare a.missing a.usage) with hba | hab
      · exact .inl (.inl ⟨ha, .inr ⟨hb, hba⟩⟩)
      · exact .inr (.inl ⟨hb, .inr ⟨hc, h.trans_le hab⟩⟩)
    · exact .inr (.inl ⟨hb, .inl hc⟩)

/-- Every candidate lies behind the first or before the second of two that are ordered, if those at
their request are placed. -/
theorem schdPriority_cotrans
    (hz : ∀ z ∈ xs, z.missing = 0 → Placed {v | v ∈ xs} ValidCandidate.missing ValidCandidate.usage z)
    (ha : a ∈ xs) (hb : b ∈ xs) (hc : c ∈ xs) (h : schdPriority a c = true) :
    schdPriority a b = true ∨ schdPriority b c = true := by
  by_cases hb0 : b.missing = 0
  · rw [schdPriority_usage (.inr hb0), schdPriority_usage (.inl hb0)]
    rcases ahead_or_usage h with h | h
    · exact (hz b hb hb0).ordered a ha c hc h
    · rcases lt_or_ge a.usage b.usage with hab | hba
      · exact .inl hab
      · exact .inr (hba.trans_lt h)
  by_cases ha0 : a.missing = 0
  · rw [schdPriority_usage (.inl ha0)] at h ⊢
    rcases lt_or_ge a.usage b.usage with hab | hba
    · exact .inl hab
    right
    by_cases hc0 : c.missing = 0
    · exact (schdPriority_usage (.inr hc0)).2 (hba.trans_lt h)
    rcases ahead_cases hb0 hc0 with hbc | hcb | ⟨hb1, hc1, heq⟩ | ⟨hb1, hc1⟩
    · exact schdPriority_of_ahead hbc
    · rcases (hz a ha ha0).ordered c hc b hb hcb with h' | h'
      · exact absurd h' h.not_gt
      · exact absurd h' hba.not_gt
    · exact absurd (((hz a ha ha0).tied b hb c hc hb1 hc1 heq).2.2 h) hba.not_gt
    · exact (schdPriority_ahead hb0 hc0).2 (.inr ⟨hb1, hc1, hba.trans_lt h⟩)
  by_cases hc0 : c.missing = 0
  · rw [schdPriority_usage (.inr hc0)] at h ⊢
    rcases lt_or_ge b.usage c.usage with hbc | hcb
    · exact .inr hbc
    left
    rcases ahead_cases ha0 hb0 with hab | hba | ⟨ha1, hb1, heq⟩ | ⟨ha1, hb1⟩
    · exact schdPriority_of_ahead hab
    · rcases (hz c hc hc0).ordered b hb a ha hba with h' | h'
      · exact absurd h' hcb.not_gt
      · exact absurd h' h.not_gt
    · exact absurd (((hz c hc hc0).tied a ha b hb ha1 hb1 heq).1.1 h) hcb.not_gt
    · exact (schdPriority_ahead ha0 hb0).2 (.inr ⟨ha1, hb1, h.trans_le hcb⟩)
  exact schdPriority_between ha0 hb0 hc0 h

/-- `schd_priority` is a strict weak ordering of some candidates exactly if each of them that is at
its request is placed among the others. -/
theorem strictWeakOn_schdPriority_iff (xs : List ValidCandidate) : StrictWeakOn schdPriority xs ↔
    ∀ z ∈ xs, z.missing = 0 → Placed {v | v ∈ xs} ValidCandidate.missing ValidCandidate.usage z := by
  rw [strictWeakOn_iff]
  constructor
  · rintro ⟨-, hco⟩ z hz hz0
    have hone : ∀ p ∈ xs, ∀ q ∈ xs, 0 < p.missing → 0 < q.missing →
        missingShare p.missing p.usage = missingShare q.missing q.usage →
        (p.usage < z.usage → q.usage < z.usage) ∧ (z.usage < p.usage → z.usage < q.usage) := by
      intro p hp q hq hp1 hq1 heq
      have hpq : schdPriority p q = false ∧ schdPriority q p = false := by
        unfold missingShare at heq
        constructor <;> simp [schdPriority, hp1, hq1, heq]
      constructor
      · intro h
        rcases hco p hp q hq z hz ((schdPriority_usage (.inr hz0)).2 h) with h | h
        · rw [hpq.1] at h; cases h
        · exact (schdPriority_usage (.inr hz0)).1 h
      · intro h
        rcases hco z hz q hq p hp ((schdPriority_usage (.inl hz0)).2 h) with h | h
        · exact (schdPriority_usage (.inl hz0)).1 h
        · rw [hpq.2] at h; cases h
    constructor
    · intro p hp q hq h
      have := hco p hp z hz q hq (schdPriority_of_ahead h)
      rwa [schdPriority_usage (.inr hz0), schdPriority_usage (.inl hz0)] at this
    · intro p hp q hq hp1 hq1 heq
      have h1 := hone p hp q hq hp1 hq1 heq
      have h2 := hone q hq p hp hq1 hp1 heq.symm
      exact ⟨⟨h1.1, h2.1⟩, h1.2, h2.2⟩
  · intro hz
    constructor
    · exact fun a _ b _ => schdPriority_asymm
    · exact fun a ha b hb c hc => schdPriority_cotrans hz ha hb hc

end

/-- Three candidates in a circle: `a` is below its request and used most, `b` is exactly at its
request, `c` is above it and used least. -/
theorem schdPriority_circle :
    let client : ℚ → ℚ → ClientInfo := fun minf maxf => .new 100 10 200 minf maxf 0
    let clients : ClientInfoMap := fun n =>
      if n = "a" then some (client (3/5) 1) else if n = "b" then some (client (3/10) 1)
      else if n = "c" then some (client 0 1) else none
    let usage : String → ℚ := fun n => if n = "a" then 5 else if n = "b" then 3 else 1
    ∃ a b c : ValidCandidate,
      validCandidates clients 10 usage 0 [⟨4, "a", 0, 0, 0⟩, ⟨5, "b", 1, 0, 1⟩, ⟨6, "c", 2, 0, 2⟩] = some [a, b, c] ∧
        (∀ v ∈ [a, b, c], v.Buildable) ∧
        schdPriority a c = true ∧ schdPriority c b = true ∧ schdPriority b a = true ∧
        ¬ StrictWeakOn schdPriority [a, b, c] := by
  intro client clients usage
  refine ⟨⟨1, 5, 5, 0, 0⟩, ⟨0, 7, 3, 0, 1⟩, ⟨-1, 9, 1, 0, 2⟩, by decide +kernel, ?_, by decide +kernel,
    by decide +kernel, by decide +kernel, by decide +kernel⟩
  simp only [List.forall_mem_cons, List.not_mem_nil, false_imp_iff, implies_true, and_true]
  exact ⟨⟨by norm_num, by norm_num, by norm_num⟩, ⟨by norm_num, by norm_num, by norm_num⟩,
    by norm_num, by norm_num, by norm_num⟩

end Gemini.Scheduler
