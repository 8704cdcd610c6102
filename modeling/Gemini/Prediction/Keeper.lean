/-
A record keeper answers with the maximum over a sliding window, although it throws records away at
both ends. The log remembers every record added since the last clear; the queue tracks the log.
-/
import Gemini.Lib.Run
import Gemini.Prediction.Predictor

namespace Gemini.Prediction

open Gemini.Lib

variable {k : RecordKeeper} {validTime start now : ℤ} {log : List (ℤ × ℚ)}

/-! ## What is outdated -/

/-- More than `VALID_TIME` whole milliseconds ago. -/
def outdated (validTime now tp : ℤ) : Bool := decide (validTime < wholeMs (now - tp))

/-- The largest of the data of age `VALID_TIME` at most, 0 if there is none. -/
def windowMax (validTime now : ℤ) (log : List (ℤ × ℚ)) : ℚ :=
  ((log.filter fun r => decide (wholeMs (now - r.1) ≤ validTime)).map Prod.snd).max?.getD 0

theorem outdated_anti {a b : ℤ} (h : a ≤ b) (hb : outdated validTime now b = true) : outdated validTime now a = true :=
  decide_eq_true ((of_decide_eq_true hb).trans_le (Int.tdiv_le_tdiv (by norm_num) (by omega)))

theorem outdated_mono {now' tp : ℤ} (h : now ≤ now') (hb : outdated validTime now tp = true) :
    outdated validTime now' tp = true :=
  decide_eq_true ((of_decide_eq_true hb).trans_le (Int.tdiv_le_tdiv (by norm_num) (by omega)))

theorem windowMax_eq (validTime now : ℤ) (log : List (ℤ × ℚ)) :
    windowMax validTime now log = ((log.filter fun r => !outdated validTime now r.1).map Prod.snd).max?.getD 0 := by
  simp only [windowMax, outdated, ← decide_not, not_lt]

/-! ## The queue of a keeper -/

/-- No difference to the time point of a kept record overflows. -/
def RecordKeeper.Spans (k : RecordKeeper) (now : ℤ) : Prop := ∀ r ∈ k.records, now - r.1 ≤ TimePoint.max

instance (k : RecordKeeper) (now : ℤ) : Decidable (k.Spans now) := by unfold RecordKeeper.Spans; infer_instance

/-- On records that are not ahead, wrapping around makes no difference. -/
theorem records_dropOutdated (hk : k.Spans now) (hr : ∀ r ∈ k.records, r.1 ≤ now) :
    (k.dropOutdated now).records = dropOld (outdated k.validTime now) k.records := by
  unfold RecordKeeper.dropOutdated dropOld
  unfold RecordKeeper.Spans at hk
  generalize k.records = rs at hk hr
  induction rs with
  | nil => rfl
  | cons r rs ih =>
    have h1 := hr r (List.mem_cons_self ..)
    have h2 := hk r (List.mem_cons_self ..)
    have ih := ih (fun x hx => hk x (List.mem_cons_of_mem _ hx)) fun x hx => hr x (List.mem_cons_of_mem _ hx)
    simp only [List.dropWhile_cons, outdated, since_of_le h1 h2] at ih ⊢
    split
    · exact ih
    · rfl

theorem getMax_eq (k : RecordKeeper) : k.getMax = (k.records.head?.map Prod.snd).getD 0 := by
  unfold RecordKeeper.getMax
  cases k.records <;> rfl

/-- A keeper that tracks a log answers with the maximum over the window, and goes on tracking it. -/
theorem getMax_dropOutdated (h : Tracks (outdated k.validTime now) log k.records) (hlog : ∀ e ∈ log, e.1 ≤ now)
    (hk : k.Spans now) :
    (k.dropOutdated now).getMax = windowMax k.validTime now log ∧
      Tracks (outdated k.validTime now) log (k.dropOutdated now).records := by
  have hdrop := records_dropOutdated hk fun r hr => hlog r (h.mem r hr)
  constructor
  · rw [getMax_eq, hdrop, h.front fun _ _ => outdated_anti, windowMax_eq]
  · rw [hdrop]; exact h.dropOld (fun _ => id) fun _ _ => outdated_anti

/-! ## Runs of a keeper -/

inductive KeeperCall where
  | add (data : ℚ) (tp : ℤ)
  | dropOutdated (tp : ℤ)
  | clear
deriving DecidableEq, Repr

/-- A keeper, the records added since the last clear, newest first, and the last time point of a call. -/
structure Keeping where
  keeper : RecordKeeper
  log : List (ℤ × ℚ)
  clock : ℤ
deriving DecidableEq, Repr

namespace Keeping

def new (validTime start : ℤ) : Keeping := ⟨⟨validTime, []⟩, [], start⟩

def step (s : Keeping) : KeeperCall → Option Keeping
  | .add data tp => some ⟨s.keeper.add data tp, (tp, data) :: s.log, tp⟩
  | .dropOutdated tp => some ⟨s.keeper.dropOutdated tp, s.log, tp⟩
  | .clear => some ⟨s.keeper.clear, [], s.clock⟩

/-- Time points do not decrease, and the differences the call takes do not overflow. -/
def Ticks (s : Keeping) : KeeperCall → Prop
  | .add _ tp => s.clock ≤ tp
  | .dropOutdated tp => s.clock ≤ tp ∧ s.keeper.Spans tp
  | .clear => True

instance (s : Keeping) (c : KeeperCall) : Decidable (s.Ticks c) :=
  match c with
  | .add _ tp => inferInstanceAs (Decidable (s.clock ≤ tp))
  | .dropOutdated tp => inferInstanceAs (Decidable (s.clock ≤ tp ∧ s.keeper.Spans tp))
  | .clear => .isTrue trivial

/-- The queue tracks the log, which lies before the clock. -/
structure Inv (validTime : ℤ) (s : Keeping) : Prop where
  valid : s.keeper.validTime = validTime
  logged : ∀ e ∈ s.log, e.1 ≤ s.clock
  tracks : Tracks (outdated validTime s.clock) s.log s.keeper.records

variable {s s' : Keeping}

theorem inv_new (validTime start : ℤ) : Inv validTime (new validTime start) :=
  ⟨rfl, by simp [new], .nil _⟩

/-- Time passes. -/
theorem Inv.tick (h : Inv validTime s) (hnow : s.clock ≤ now) : Inv validTime { s with clock := now } :=
  ⟨h.valid, fun e he => (h.logged e he).trans hnow, h.tracks.mono fun _ => outdated_mono hnow⟩

theorem inv_step {c : KeeperCall} (h : Inv validTime s) (ht : s.Ticks c) (hs : s.step c = some s') :
    Inv validTime s' := by
  cases c with
  | add data tp =>
    cases hs
    have h := h.tick ht
    refine ⟨h.valid, fun e he => ?_, h.tracks.push h.logged⟩
    rcases List.mem_cons.1 he with rfl | he
    · exact le_rfl
    · exact h.logged e he
  | dropOutdated tp =>
    cases hs
    obtain ⟨hnow, hspan⟩ := ht
    have h := h.tick hnow
    obtain rfl := h.valid
    exact ⟨rfl, h.logged, (getMax_dropOutdated h.tracks h.logged hspan).2⟩
  | clear =>
    cases hs
    exact ⟨h.valid, nofun, .nil _⟩

/-- After any calls at time points that do not decrease, the kept records rise in time and fall in data,
and at any later time the answer is the maximum over the window. -/
theorem getMax_of_run {calls : List KeeperCall} (hrun : RunWhere step Ticks (new validTime start) calls s) :
    (s.keeper.records.Pairwise fun a b => a.1 ≤ b.1 ∧ b.2 ≤ a.2) ∧
      ∀ now, s.clock ≤ now → s.keeper.Spans now →
        (s.keeper.dropOutdated now).getMax = windowMax validTime now s.log := by
  have h : Inv validTime s := hrun.invariant (fun _ _ _ => inv_step) (inv_new validTime start)
  refine ⟨h.tracks.sorted, ?_⟩
  intro now hnow hspan
  have h := h.tick hnow
  obtain rfl := h.valid
  exact (getMax_dropOutdated h.tracks h.logged hspan).1

/-- With 1 ms to live, the larger record is outdated when the second maximum is asked for. -/
theorem getMax_of_two_records : ∃ s, RunWhere step Ticks (new 1 0)
      [.add 5 0, .dropOutdated 1900000, .add 3 1900000, .add 2 1900000] s ∧ s.clock ≤ 2000000 ∧
    s.keeper.Spans 2000000 ∧
    (s.keeper.dropOutdated 2000000).getMax = windowMax 1 2000000 s.log ∧
    s.keeper.records.Pairwise fun a b => a.1 ≤ b.1 ∧ b.2 ≤ a.2 := by
  have hrun : ∃ s, RunWhere step Ticks (new 1 0)
      [.add 5 0, .dropOutdated 1900000, .add 3 1900000, .add 2 1900000] s ∧ s.clock ≤ 2000000 ∧
      s.keeper.Spans 2000000 := exists_runWhere (by decide +kernel)
  obtain ⟨s, hrun, hnow, hspan⟩ := hrun
  obtain ⟨hsorted, hmax⟩ := getMax_of_run hrun
  exact ⟨s, hrun, hnow, hspan, hmax 2000000 hnow hspan, hsorted⟩

end Keeping

end Gemini.Prediction
