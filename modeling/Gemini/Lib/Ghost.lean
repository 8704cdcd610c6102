/-
History variables: a step function with a record of the past that no step reads. Every run has its
record.
-/
import Gemini.Lib.Run

namespace Gemini.Lib

variable {σ ε γ : Type*} {step : σ → ε → Option σ} {G : σ → ε → Prop} {note : σ → ε → γ → γ}

/-- The steps of `step`, with what `note` records of each, in the state before it. -/
def withHistory (step : σ → ε → Option σ) (note : σ → ε → γ → γ) (p : σ × γ) (e : ε) : Option (σ × γ) :=
  (step p.1 e).map fun s => (s, note p.1 e p.2)

theorem withHistory_some {p q : σ × γ} {e : ε} (h : withHistory step note p e = some q) :
    step p.1 e = some q.1 ∧ q.2 = note p.1 e p.2 := by
  obtain ⟨s, hs, rfl⟩ := Option.map_eq_some_iff.1 h
  exact ⟨hs, rfl⟩

/-- Every run can be recorded. -/
theorem RunWhere.recorded {s t : σ} {es : List ε} (h : RunWhere step G s es t) (note : σ → ε → γ → γ) (g : γ) :
    ∃ g', RunWhere (withHistory step note) (fun p e => G p.1 e) (s, g) es (t, g') := by
  induction h generalizing g with
  | nil s => exact ⟨g, .nil _⟩
  | cons hg hs _ ih =>
    obtain ⟨g', hrun⟩ := ih (note _ _ g)
    exact ⟨g', .cons hg (by rw [withHistory, hs]; rfl) hrun⟩

end Gemini.Lib
