/-
Runs of a labelled, partial step function: the runs whose every step meets a condition on the
state before it, the rule that carries an invariant from one step to a whole run, and the
executable run of a list of labels.
-/
import Mathlib.Tactic

namespace Gemini.Lib

variable {σ ε : Type*} {step : σ → ε → Option σ} {G G' : σ → ε → Prop} {P : σ → Prop}

/-- A run from `s` whose every step, taken in the state before it, meets `G`. -/
inductive RunWhere (step : σ → ε → Option σ) (G : σ → ε → Prop) : σ → List ε → σ → Prop
  | nil (s : σ) : RunWhere step G s [] s
  | cons {s s' t : σ} {e : ε} {es : List ε} :
      G s e → step s e = some s' → RunWhere step G s' es t → RunWhere step G s (e :: es) t

/-- A run without a condition on its steps. -/
abbrev Run (step : σ → ε → Option σ) : σ → List ε → σ → Prop := RunWhere step fun _ _ => True

namespace RunWhere

theorem mono (hG : ∀ s e, G s e → G' s e) {s t : σ} {es : List ε} (h : RunWhere step G s es t) :
    RunWhere step G' s es t := by
  induction h with
  | nil s => exact .nil s
  | cons hg hs _ ih => exact .cons (hG _ _ hg) hs ih

/-- What every step that meets `G` preserves holds at the end of every run. -/
theorem invariant (hstep : ∀ s e s', P s → G s e → step s e = some s' → P s') {s t : σ} {es : List ε}
    (h : RunWhere step G s es t) (h0 : P s) : P t := by
  induction h with
  | nil s => exact h0
  | cons hg hs _ ih => exact ih (hstep _ _ _ h0 hg hs)

/-- The steps of a run meet, with its condition, every invariant of it. -/
theorem with_invariant (hstep : ∀ s e s', P s → G s e → step s e = some s' → P s') {s t : σ} {es : List ε}
    (h : RunWhere step G s es t) (h0 : P s) : RunWhere step (fun s e => P s ∧ G s e) s es t := by
  induction h with
  | nil s => exact .nil s
  | cons hg hs _ ih => exact .cons ⟨h0, hg⟩ hs (ih (hstep _ _ _ h0 hg hs))

/-- The labels of a run are those it lists. -/
theorem labelled {s t : σ} {es : List ε} (h : RunWhere step G s es t) :
    RunWhere step (fun s e => G s e ∧ e ∈ es) s es t := by
  induction h with
  | nil s => exact .nil s
  | cons hg hs _ ih =>
    exact .cons ⟨hg, List.mem_cons_self ..⟩ hs (ih.mono fun _ _ h => ⟨h.1, List.mem_cons_of_mem _ h.2⟩)

/-- What a step keeps of all but what it touches is kept, by steps that touch `ks` only, of all the others. -/
theorem untouched {κ : Type*} {touched : ε → κ} {ks : List κ} {R : κ → σ → Prop}
    (hstep : ∀ s e s' k, k ≠ touched e → R k s → step s e = some s' → R k s') (hG : ∀ s e, G s e → touched e ∈ ks) :
    ∀ s e s', (∀ k, k ∉ ks → R k s) → G s e → step s e = some s' → ∀ k, k ∉ ks → R k s' := by
  intro s e s' h hg hs k hk
  refine hstep s e s' k ?_ (h k hk) hs
  rintro rfl
  exact hk (hG s e hg)

/-- A map that commutes with the steps takes runs to runs. -/
theorem map {f : σ → σ} {g : ε → ε} (hstep : ∀ s e s', step s e = some s' → step (f s) (g e) = some (f s'))
    (hG : ∀ s e, G s e → G' (f s) (g e)) {s t : σ} {es : List ε} (h : RunWhere step G s es t) :
    RunWhere step G' (f s) (es.map g) (f t) := by
  induction h with
  | nil s => exact .nil _
  | cons hg hs _ ih => exact .cons (hG _ _ hg) (hstep _ _ _ hs) ih

/-- A run of two lists in a row passes through a state between them. -/
theorem of_append {fs : List ε} : ∀ {es : List ε} {s t : σ}, RunWhere step G s (es ++ fs) t →
    ∃ u, RunWhere step G s es u ∧ RunWhere step G u fs t
  | [], s, _, h => ⟨s, .nil s, h⟩
  | _ :: _, _, _, .cons hg hs h =>
    have ⟨u, h1, h2⟩ := of_append h
    ⟨u, .cons hg hs h1, h2⟩

end RunWhere

/-- The state after a list of labels, if every one of them is possible and meets `G`. -/
def execWhere (step : σ → ε → Option σ) (G : σ → ε → Prop) [∀ s e, Decidable (G s e)] (s : σ) (es : List ε) :
    Option σ :=
  es.foldlM (fun s e => if G s e then step s e else none) s

theorem runWhere_of_exec [∀ s e, Decidable (G s e)] :
    ∀ {es : List ε} {s t : σ}, execWhere step G s es = some t → RunWhere step G s es t
  | [], s, t, h => by
    obtain rfl : s = t := by simpa [execWhere] using h
    exact .nil s
  | e :: es, s, t, h => by
    simp only [execWhere, List.foldlM_cons, Option.bind_eq_bind, Option.bind_eq_some_iff] at h
    obtain ⟨s', hs, h⟩ := h
    split at hs
    · rename_i hg
      exact .cons hg hs (runWhere_of_exec h)
    · cases hs

theorem execWhere_of_run [∀ s e, Decidable (G s e)] {es : List ε} {s t : σ} (h : RunWhere step G s es t) :
    execWhere step G s es = some t := by
  induction h with
  | nil s => rfl
  | cons hg hs _ ih =>
    simp only [execWhere, List.foldlM_cons, if_pos hg, hs, Option.bind_eq_bind, Option.bind_some] at ih ⊢
    exact ih

/-- A run whose end has a decidable property, by computation. -/
theorem exists_runWhere [∀ s e, Decidable (G s e)] {Q : σ → Prop} [DecidablePred Q] {s : σ} {es : List ε}
    (h : (execWhere step G s es).any (fun t => decide (Q t)) = true) : ∃ t, RunWhere step G s es t ∧ Q t := by
  obtain ⟨t, ht, hq⟩ := (Option.any_eq_true ..).1 h
  exact ⟨t, runWhere_of_exec ht, of_decide_eq_true hq⟩

end Gemini.Lib
