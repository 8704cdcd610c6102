/-
The upper bound of a predictor. `set_upperbound` stores it, and neither the records nor the predictions
are compared with it: the predictions stay below the bound exactly when the measured periods do.
-/
import Gemini.Prediction.Refine

namespace Gemini.Prediction

open Gemini.Lib

variable {thres b : ℚ} {s s' : Session} {now : ℤ}

/-- No chain of periods that can still be predicted is longer than `b`. -/
def Log.Within (thres : ℚ) (now : ℤ) (b : ℚ) (l : Log) : Prop :=
  ∀ e ∈ chainLengths thres l.periods, tooOld now e.1 = false → e.2 ≤ b

instance (thres : ℚ) (now : ℤ) (b : ℚ) (l : Log) : Decidable (l.Within thres now b) := by
  unfold Log.Within; infer_instance

def Call.setsUpperbound : Call → Bool
  | .setUpperbound _ => true
  | _ => false

/-- Only `set_upperbound` changes the bound. -/
theorem upperbound_call (p : Predictor) {c : Call} (hc : c.setsUpperbound = false) :
    (p.call c).upperbound = p.upperbound := by
  cases c with
  | recordStart now => simp only [Predictor.call, Predictor.recordStart]; split_ifs <;> rfl
  | recordStop now => simp only [Predictor.call, Predictor.recordStop]; split_ifs <;> rfl
  | setUpperbound bound => cases hc
  | _ => rfl

theorem upperbound_of_run {calls : List Call} (hrun : RunWhere Session.step Session.Ticks s calls s')
    (hcalls : ∀ c ∈ calls, c.setsUpperbound = false) : s'.predictor.upperbound = s.predictor.upperbound := by
  refine hrun.labelled.invariant (P := fun t => t.predictor.upperbound = s.predictor.upperbound) ?_ rfl
  rintro t c t' h ⟨-, hc⟩ ht
  cases ht
  rw [← h]
  exact upperbound_call _ (hcalls c hc)

theorem longest_le_iff {lengths : List (ℤ × ℚ)} (hb : 0 ≤ b) :
    longest now lengths ≤ b ↔ ∀ e ∈ lengths, tooOld now e.1 = false → e.2 ≤ b := by
  constructor
  · exact fun h e he hnew => (le_longest he hnew).trans h
  · intro h
    unfold longest
    cases hm : ((lengths.filter fun e => !tooOld now e.1).map Prod.snd).max? with
    | none => exact hb
    | some m =>
      obtain ⟨e, he, rfl⟩ := List.mem_map.1 (List.max?_eq_some_iff.1 hm).1
      obtain ⟨he, hnew⟩ := List.mem_filter.1 he
      exact h e he (by simpa using hnew)

/-- After `set_upperbound(b)` and until the next one, both predictions are at most `b` exactly when no
chain of recent periods is longer. -/
theorem predictions_le_iff {before after : List Call}
    (hrun : RunWhere Session.step Session.Ticks (.new thres) (before ++ .setUpperbound b :: after) s)
    (hafter : ∀ c ∈ after, c.setsUpperbound = false) (hb : 0 ≤ b) (hnow : s.clock ≤ now) (hmax : now < TimePoint.max) :
    s.predictor.upperbound = b ∧
    ((s.predictor.predictUnmerged now).1 ≤ b ∧ (s.predictor.predictMerged now).1 ≤ b ↔ s.log.Within thres now b) := by
  obtain ⟨-, h2, hle⟩ := predictions_of_run hrun hnow hmax
  constructor
  · obtain ⟨t, -, hrun⟩ := hrun.of_append
    cases hrun with
    | cons _ hs hrun =>
      cases hs
      exact upperbound_of_run hrun hafter
  · rw [Log.Within, ← longest_le_iff hb, ← h2]
    exact ⟨fun h => h.2, fun h => ⟨hle.trans h, h⟩⟩

/-- A period of 5 s under a bound of 5.999 s. -/
theorem predictions_le_of_short_period : ∃ s, RunWhere Session.step Session.Ticks (.new 2)
      ([] ++ .setUpperbound 5999 :: [.recordStart 1000000000, .recordStop 6000000000]) s ∧
    s.log.Within 2 6000000000 5999 ∧ s.predictor.upperbound = 5999 ∧
    (s.predictor.predictUnmerged 6000000000).1 ≤ 5999 ∧ (s.predictor.predictMerged 6000000000).1 ≤ 5999 := by
  have hrun : ∃ s, RunWhere Session.step Session.Ticks (.new 2)
      ([] ++ .setUpperbound 5999 :: [.recordStart 1000000000, .recordStop 6000000000]) s ∧
      (s.clock ≤ 6000000000 ∧ s.log.Within 2 6000000000 5999) := exists_runWhere (by decide +kernel)
  obtain ⟨s, hrun, hnow, hwithin⟩ := hrun
  obtain ⟨h1, h2⟩ := predictions_le_iff hrun (by decide) (by norm_num) hnow (by decide +kernel)
  exact ⟨s, hrun, hwithin, h1, h2.2 hwithin⟩

/-- With a quota of 6 s and the bound 1 ms below it, a burst of 7 s is predicted whole. -/
theorem prediction_above_upperbound : ∃ s, RunWhere Session.step Session.Ticks (.new 2)
      [.setUpperbound 5999, .recordStart 1000000000, .recordStop 8000000000] s ∧
    s.predictor.upperbound = 5999 ∧ (s.predictor.predictUnmerged 8000000000).1 = 7000 ∧
    (s.predictor.predictMerged 8000000000).1 = 7000 :=
  exists_runWhere (by decide +kernel)

end Gemini.Prediction
