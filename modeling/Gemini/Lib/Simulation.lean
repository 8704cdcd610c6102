/-
Forward simulations: a step of one transition system is matched by a run of another one, perhaps an
empty one, between related states. Then its runs are matched, and what holds of all that the other
system reaches holds, through the relation, of what it reaches itself.
-/
import Gemini.Lib.Run

namespace Gemini.Lib

variable {σ τ ε δ : Type*} {step : σ → ε → Option σ} {G : σ → ε → Prop} {step' : τ → δ → Option τ} {G' : τ → δ → Prop}
  {R : σ → τ → Prop}

/-- Two runs in a row. -/
theorem RunWhere.append {s t u : σ} {es fs : List ε} (h : RunWhere step G s es t) (h' : RunWhere step G t fs u) :
    RunWhere step G s (es ++ fs) u := by
  induction h with
  | nil s => exact h'
  | cons hg hs _ ih => exact .cons hg hs (ih h')

theorem RunWhere.single {s t : σ} {e : ε} (hg : G s e) (hs : step s e = some t) : RunWhere step G s [e] t :=
  .cons hg hs (.nil t)

/-- Steps that are matched step by step make runs with the same labels. -/
theorem RunWhere.lockstep {step' : τ → ε → Option τ} {G' : τ → ε → Prop}
    (hstep : ∀ s t e s', R s t → G s e → step s e = some s' → ∃ t', G' t e ∧ step' t e = some t' ∧ R s' t')
    {s s' : σ} {t : τ} {es : List ε} (hrun : RunWhere step G s es s') (hR : R s t) :
    ∃ t', RunWhere step' G' t es t' ∧ R s' t' := by
  induction hrun generalizing t with
  | nil s => exact ⟨t, .nil t, hR⟩
  | cons hg hs _ ih =>
    obtain ⟨t₁, hg₁, hs₁, hR₁⟩ := hstep _ _ _ _ hR hg hs
    obtain ⟨t', hrun', hR'⟩ := ih hR₁
    exact ⟨t', .cons hg₁ hs₁ hrun', hR'⟩

/-- Every step that meets `G`, from a state related to `t`, is matched from `t`. -/
def Simulates (step : σ → ε → Option σ) (G : σ → ε → Prop) (step' : τ → δ → Option τ) (G' : τ → δ → Prop)
    (R : σ → τ → Prop) : Prop :=
  ∀ s t e s', R s t → G s e → step s e = some s' → ∃ ds t', RunWhere step' G' t ds t' ∧ R s' t'

/-- Whole runs are matched. -/
theorem Simulates.run (h : Simulates step G step' G' R) {s s' : σ} {t : τ} {es : List ε}
    (hrun : RunWhere step G s es s') (hR : R s t) : ∃ ds t', RunWhere step' G' t ds t' ∧ R s' t' := by
  induction hrun generalizing t with
  | nil s => exact ⟨[], t, .nil t, hR⟩
  | cons hg hs _ ih =>
    obtain ⟨ds, t₁, hrun₁, hR₁⟩ := h _ _ _ _ hR hg hs
    obtain ⟨ds', t', hrun', hR'⟩ := ih hR₁
    exact ⟨ds ++ ds', t', hrun₁.append hrun', hR'⟩

end Gemini.Lib
