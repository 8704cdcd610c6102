/-
`RecordKeeper` and `Predictor`: the lengths of past periods, and the longest of the recent ones.
`timepoint_t::max()` and `timepoint_t::min()` stand for times that are not set.
-/
import Gemini.Chrono
import Gemini.Lib.SlidingMax

namespace Gemini.Prediction

open Gemini.Lib

/-! ## `RecordKeeper` -/

structure RecordKeeper where
  validTime : ℤ
  records : List (ℤ × ℚ)
deriving DecidableEq, Repr

namespace RecordKeeper

/-- Maintains the decreasing property. -/
def add (data : ℚ) (tp : ℤ) (k : RecordKeeper) : RecordKeeper :=
  { k with records := k.records.rdropWhile (fun r => decide (r.2 < data)) ++ [(tp, data)] }

/-- Removes records which are `VALID_TIME` milliseconds before `tp`. -/
def dropOutdated (tp : ℤ) (k : RecordKeeper) : RecordKeeper :=
  { k with records := k.records.dropWhile fun r => decide (k.validTime < wholeMs (since r.1 tp)) }

def getMax (k : RecordKeeper) : ℚ :=
  match k.records with
  | [] => 0
  | r :: _ => r.2

def clear (k : RecordKeeper) : RecordKeeper := { k with records := [] }

end RecordKeeper

/-! ## `Predictor` -/

/-- `PREDICT_MAX_KEEP`, the maximum time a record will be kept, in milliseconds. -/
def predictMaxKeep : ℤ := 3000

/-- `std::numeric_limits<double>::max()`. -/
def doubleMax : ℚ := (2 ^ 53 - 1) * 2 ^ 971

structure Predictor where
  mergeThres : ℚ
  periodBegin : ℤ
  longPeriodBegin : ℤ
  longPeriodEnd : ℤ
  normalRecords : RecordKeeper
  longRecords : RecordKeeper
  upperbound : ℚ
deriving DecidableEq, Repr

namespace Predictor

def new (thres : ℚ) : Predictor :=
  ⟨thres, TimePoint.max, TimePoint.max, TimePoint.min, ⟨predictMaxKeep, []⟩, ⟨predictMaxKeep, []⟩, doubleMax⟩

/-- We are in an active period. -/
def ongoingUnmerged (p : Predictor) : Bool := p.periodBegin != TimePoint.max

/-- We are in an active long period. -/
def ongoingMerged (p : Predictor) : Bool := p.longPeriodBegin != TimePoint.max

/-- Marks complete for a period. -/
def recordStop (now : ℤ) (p : Predictor) : Predictor :=
  if p.ongoingUnmerged then
    { p with
      normalRecords := p.normalRecords.add (toMs (since p.periodBegin now)) now
      longPeriodEnd := now
      longRecords := p.longRecords.add (toMs (since p.longPeriodBegin now)) now
      periodBegin := TimePoint.max }
  else { p with periodBegin := TimePoint.max }

/-- Marks begin for a period. -/
def recordStart (now : ℤ) (p : Predictor) : Predictor :=
  if p.ongoingUnmerged then p
  else
    let intv := toMs (since p.longPeriodEnd now)
    -- long period did not start, or last long period too long ago
    if !p.ongoingMerged ∨ p.mergeThres < intv then
      { p with periodBegin := now, longPeriodBegin := now, longPeriodEnd := TimePoint.min }
    else { p with periodBegin := now }

/-- Invalidates the running period. -/
def interrupt (p : Predictor) : Predictor :=
  { p with periodBegin := TimePoint.max, longPeriodBegin := TimePoint.max, longPeriodEnd := TimePoint.min }

def predictUnmerged (now : ℤ) (p : Predictor) : ℚ × Predictor :=
  let k := p.normalRecords.dropOutdated now
  (k.getMax, { p with normalRecords := k })

def predictMerged (now : ℤ) (p : Predictor) : ℚ × Predictor :=
  let k := p.longRecords.dropOutdated now
  (k.getMax, { p with longRecords := k })

def setUpperbound (bound : ℚ) (p : Predictor) : Predictor := { p with upperbound := bound }

/-- Clears all past records and status. -/
def reset (p : Predictor) : Predictor :=
  { p with
    normalRecords := p.normalRecords.clear
    longRecords := p.longRecords.clear
    periodBegin := TimePoint.max
    longPeriodBegin := TimePoint.max
    longPeriodEnd := TimePoint.min }

end Predictor

/-- A call on a predictor, with the clock reading it takes. -/
inductive Call where
  | recordStart (now : ℤ)
  | recordStop (now : ℤ)
  | interrupt
  | reset
  | predictUnmerged (now : ℤ)
  | predictMerged (now : ℤ)
  | setUpperbound (bound : ℚ)
deriving DecidableEq, Repr

def Call.reading : Call → Option ℤ
  | .recordStart now => some now
  | .recordStop now => some now
  | .predictUnmerged now => some now
  | .predictMerged now => some now
  | _ => none

def Predictor.call (p : Predictor) : Call → Predictor
  | .recordStart now => p.recordStart now
  | .recordStop now => p.recordStop now
  | .interrupt => p.interrupt
  | .reset => p.reset
  | .predictUnmerged now => (p.predictUnmerged now).2
  | .predictMerged now => (p.predictMerged now).2
  | .setUpperbound bound => p.setUpperbound bound

end Gemini.Prediction
