/-
The predictor computes maxima over the log of completed periods. The log remembers the periods since
the last reset, and for each whether it is separated from the one before. A prediction at `now` is
the longest period, or the longest time from the begin of a chain of merged periods, among those
whose stop is not too old; it is 0 if there is none.

The invariant reads the three time points off the log and says that the two deques track the
periods' lengths and the chains' lengths. Every call preserves it.
-/
import Gemini.Lib.Run
import Gemini.Prediction.Keeper

namespace Gemini.Prediction

open Gemini.Lib

/-! ## The log of periods -/

/-- A period that has begun, and whether an interrupt or a reset separates it from the last one. -/
structure Begun where
  start : ℤ
  separated : Bool
deriving DecidableEq, Repr

/-- A completed period. -/
structure Period extends Begun where
  stop : ℤ
deriving DecidableEq, Repr

/-- The periods completed since the last reset, newest first, and the running one. -/
structure Log where
  periods : List Period
  current : Option Begun
  separated : Bool
deriving DecidableEq, Repr

namespace Log

def empty : Log := ⟨[], none, true⟩

/-- Calls while a period is running, or while none is, are ignored where the source ignores them. -/
def call (l : Log) : Call → Log
  | .recordStart now => if l.current = none then { l with current := some ⟨now, l.separated⟩ } else l
  | .recordStop now =>
    match l.current with
    | some b => ⟨⟨b, now⟩ :: l.periods, none, false⟩
    | none => l
  | .interrupt => { l with current := none, separated := true }
  | .reset => empty
  | .predictUnmerged _ => l
  | .predictMerged _ => l
  | .setUpperbound _ => l

end Log

/-- A period that continues the chain of the one before it. -/
def Continues (thres : ℚ) (p : Begun) (before : Period) : Prop :=
  p.separated = false ∧ toMs (p.start - before.stop) ≤ thres

instance (thres : ℚ) (p : Begun) (before : Period) : Decidable (Continues thres p before) := by
  unfold Continues; infer_instance

/-- The start of the first period of the longest chain that ends at `p`, where `ps` came before. -/
def chainStart (thres : ℚ) (p : Begun) : List Period → ℤ
  | [] => p.start
  | q :: qs => if Continues thres p q then chainStart thres q.toBegun qs else p.start

/-- The stop of each completed period, with its length. -/
def Log.lengths (l : Log) : List (ℤ × ℚ) := l.periods.map fun p => (p.stop, toMs (p.stop - p.start))

/-- The stop of each completed period, with the time since the start of its chain. -/
def chainLengths (thres : ℚ) : List Period → List (ℤ × ℚ)
  | [] => []
  | p :: ps => (p.stop, toMs (p.stop - chainStart thres p.toBegun ps)) :: chainLengths thres ps

/-- More than `PREDICT_MAX_KEEP` whole milliseconds ago. -/
def tooOld (now tp : ℤ) : Bool := decide (predictMaxKeep < wholeMs (now - tp))

/-- The longest of the lengths whose stop is not too old. -/
def longest (now : ℤ) (lengths : List (ℤ × ℚ)) : ℚ :=
  ((lengths.filter fun e => !tooOld now e.1).map Prod.snd).max?.getD 0

theorem tooOld_mono {now now' tp : ℤ} (h : now ≤ now') (hb : tooOld now tp = true) : tooOld now' tp = true :=
  outdated_mono h hb

/-! ## Chains -/

/-- The periods came one after the other, after the clock's zero. -/
structure Ordered (ps : List Period) : Prop where
  apart : ps.Pairwise fun p q => q.stop ≤ p.start
  timed : ∀ p ∈ ps, 0 ≤ p.start ∧ p.start ≤ p.stop

theorem Ordered.tail {p : Period} {ps : List Period} (h : Ordered (p :: ps)) :
    Ordered ps ∧ ∀ q ∈ ps, q.stop ≤ p.start := by
  obtain ⟨h1, h2⟩ := List.pairwise_cons.1 h.apart
  exact ⟨⟨h2, fun q hq => h.timed q (List.mem_cons_of_mem _ hq)⟩, h1⟩

section

variable {thres : ℚ}

/-- A chain starts no later than the period it ends at, and not before the clock. -/
theorem chainStart_le (thres : ℚ) :
    ∀ {p : Begun} {ps : List Period}, Ordered ps → 0 ≤ p.start → (∀ q ∈ ps, q.stop ≤ p.start) →
    0 ≤ chainStart thres p ps ∧ chainStart thres p ps ≤ p.start
  | p, [], _, h0, _ => ⟨h0, le_rfl⟩
  | p, q :: qs, ho, h0, hb => by
    obtain ⟨hq0, hq1⟩ := ho.timed q (List.mem_cons_self ..)
    obtain ⟨ho', hb'⟩ := ho.tail
    unfold chainStart
    split
    · obtain ⟨h1, h2⟩ := chainStart_le thres (p := q.toBegun) ho' hq0 hb'
      exact ⟨h1, h2.trans (hq1.trans (hb q (List.mem_cons_self ..)))⟩
    · exact ⟨h0, le_rfl⟩

theorem mem_chainLengths (thres : ℚ) : ∀ {ps : List Period} {e : ℤ × ℚ}, e ∈ chainLengths thres ps →
    ∃ p ∈ ps, e.1 = p.stop
  | [], e, h => by cases h
  | p :: ps, e, h => by
    rcases List.mem_cons.1 h with rfl | h
    · exact ⟨p, List.mem_cons_self .., rfl⟩
    · obtain ⟨q, hq, he⟩ := mem_chainLengths thres h
      exact ⟨q, List.mem_cons_of_mem _ hq, he⟩

/-- Every completed period is the end of a chain at least as long. -/
theorem exists_chainLengths (thres : ℚ) : ∀ {ps : List Period}, Ordered ps → ∀ p ∈ ps,
    ∃ e ∈ chainLengths thres ps, e.1 = p.stop ∧ toMs (p.stop - p.start) ≤ e.2
  | [], _, p, hp => by cases hp
  | q :: qs, ho, p, hp => by
    obtain ⟨ho', hb'⟩ := ho.tail
    rcases List.mem_cons.1 hp with rfl | hp
    · refine ⟨_, List.mem_cons_self .., rfl, toMs_mono ?_⟩
      have := (chainStart_le thres ho' (ho.timed p (List.mem_cons_self ..)).1 hb').2
      omega
    · obtain ⟨e, he, h⟩ := exists_chainLengths thres ho' p hp
      exact ⟨e, List.mem_cons_of_mem _ he, h⟩

end

/-! ## The invariant -/

/-- A predictor, the log of its calls and the last reading of the clock. -/
structure Session where
  predictor : Predictor
  log : Log
  clock : ℤ
deriving DecidableEq, Repr

namespace Session

def new (thres : ℚ) : Session := ⟨.new thres, .empty, 0⟩

def step (s : Session) (c : Call) : Option Session :=
  some ⟨s.predictor.call c, s.log.call c, c.reading.getD s.clock⟩

/-- The clock does not go back, and it shows less than `timepoint_t::max()`. -/
def Ticks (s : Session) (c : Call) : Prop := ∀ now ∈ c.reading, s.clock ≤ now ∧ now < TimePoint.max

instance (s : Session) (c : Call) : Decidable (s.Ticks c) := by unfold Ticks; infer_instance

end Session

/-- The start of the running chain. -/
def Log.chainBegin (thres : ℚ) (l : Log) : Option ℤ :=
  match l.current with
  | some b => some (chainStart thres b l.periods)
  | none => if l.separated then none else l.periods.head?.map fun q => chainStart thres q.toBegun l.periods.tail

/-- The stop of the last period of the running chain. -/
def Log.chainEnd (l : Log) : Option ℤ := if l.separated then none else l.periods.head?.map Period.stop

/-- The log's times lie before the clock. -/
structure Log.Timed (l : Log) (clock : ℤ) : Prop where
  tick : 0 ≤ clock ∧ clock < TimePoint.max
  ordered : Ordered l.periods
  stopped : ∀ p ∈ l.periods, p.stop ≤ clock
  running : ∀ b ∈ l.current, 0 ≤ b.start ∧ b.start ≤ clock ∧ ∀ q ∈ l.periods, q.stop ≤ b.start

/-- The predictor's time points are those of the log, and its deques track the lengths. -/
structure Refines (thres : ℚ) (s : Session) : Prop where
  timed : s.log.Timed s.clock
  mergeThres : s.predictor.mergeThres = thres
  periodBegin : s.predictor.periodBegin = (s.log.current.map Begun.start).getD TimePoint.max
  longPeriodBegin : s.predictor.longPeriodBegin = (s.log.chainBegin thres).getD TimePoint.max
  longPeriodEnd : s.log.current = none → s.predictor.longPeriodEnd = s.log.chainEnd.getD TimePoint.min
  validTime : s.predictor.normalRecords.validTime = predictMaxKeep ∧
    s.predictor.longRecords.validTime = predictMaxKeep
  normal : Tracks (tooOld s.clock) s.log.lengths s.predictor.normalRecords.records
  long : Tracks (tooOld s.clock) (chainLengths thres s.log.periods) s.predictor.longRecords.records

variable {thres : ℚ} {s s' : Session} {now : ℤ}

theorem Log.Timed.mono {l : Log} {a b : ℤ} (h : l.Timed a) (hab : a ≤ b) (hb : b < TimePoint.max) : l.Timed b :=
  ⟨⟨h.tick.1.trans hab, hb⟩, h.ordered, fun p hp => (h.stopped p hp).trans hab,
    fun c hc => ⟨(h.running c hc).1, (h.running c hc).2.1.trans hab, (h.running c hc).2.2⟩⟩

/-- The start of the running chain is a clock reading. -/
theorem Log.Timed.chainBegin {l : Log} {clock : ℤ} (h : l.Timed clock) :
    ∀ t ∈ l.chainBegin thres, 0 ≤ t ∧ t ≤ clock := by
  intro t ht
  unfold Log.chainBegin at ht
  split at ht
  · rename_i b hb
    cases ht
    obtain ⟨h0, h1, h2⟩ := h.running b hb
    obtain ⟨h3, h4⟩ := chainStart_le thres h.ordered h0 h2
    exact ⟨h3, h4.trans h1⟩
  · split at ht
    · cases ht
    · obtain ⟨q, hq, rfl⟩ := Option.mem_map.1 ht
      cases hps : l.periods with
      | nil => rw [hps] at hq; cases hq
      | cons p ps =>
        obtain rfl : p = q := by rw [hps] at hq; exact Option.some.inj hq
        have ho := hps ▸ h.ordered
        obtain ⟨ho', hb'⟩ := ho.tail
        obtain ⟨h0, h1⟩ := ho.timed p (List.mem_cons_self ..)
        obtain ⟨h3, h4⟩ := chainStart_le thres ho' h0 hb'
        exact ⟨h3, h4.trans (h1.trans (h.stopped _ (by rw [hps]; exact List.mem_cons_self ..)))⟩

theorem ongoingUnmerged_eq (h : Refines thres s) : s.predictor.ongoingUnmerged = s.log.current.isSome := by
  unfold Predictor.ongoingUnmerged
  rw [h.periodBegin]
  cases hc : s.log.current with
  | none => simp
  | some b =>
    obtain ⟨-, h1, -⟩ := h.timed.running b hc
    have := h.timed.tick.2
    simp only [Option.map_some, Option.getD_some, Option.isSome_some, bne_iff_ne]
    omega

theorem ongoingMerged_eq (h : Refines thres s) : s.predictor.ongoingMerged = (s.log.chainBegin thres).isSome := by
  unfold Predictor.ongoingMerged
  rw [h.longPeriodBegin]
  cases hc : s.log.chainBegin thres with
  | none => simp
  | some t =>
    obtain ⟨-, h1⟩ := h.timed.chainBegin t hc
    have := h.timed.tick.2
    simp only [Option.getD_some, Option.isSome_some, bne_iff_ne]
    omega

theorem refines_new (thres : ℚ) : Refines thres (.new thres) := by
  refine ⟨⟨⟨le_rfl, by norm_num [Session.new, TimePoint.max]⟩, ⟨.nil, by simp [Session.new, Log.empty]⟩, ?_, ?_⟩,
    rfl, rfl, rfl, fun _ => rfl, ⟨rfl, rfl⟩,
    .nil _, .nil _⟩
  · simp [Session.new, Log.empty]
  · simp [Session.new, Log.empty]

/-! ## What each call preserves -/

/-- Time passes. -/
theorem Refines.tick (h : Refines thres s) (hnow : s.clock ≤ now) (hmax : now < TimePoint.max) :
    Refines thres { s with clock := now } :=
  { h with
    timed := h.timed.mono hnow hmax
    normal := h.normal.mono fun _ => tooOld_mono hnow
    long := h.long.mono fun _ => tooOld_mono hnow }

/-- A new period begins a chain exactly when the source resets its long period. -/
theorem chainStart_begun (h : Refines thres s) (hc : s.log.current = none) :
    chainStart thres ⟨s.clock, s.log.separated⟩ s.log.periods =
      if !s.predictor.ongoingMerged ∨ s.predictor.mergeThres < toMs (since s.predictor.longPeriodEnd s.clock) then
        s.clock
      else s.predictor.longPeriodBegin := by
  rw [ongoingMerged_eq h, h.mergeThres, h.longPeriodEnd hc, h.longPeriodBegin]
  unfold Log.chainBegin Log.chainEnd
  rw [hc]
  cases hsep : s.log.separated with
  | true => cases hps : s.log.periods <;> simp [chainStart, Continues]
  | false =>
    cases hps : s.log.periods with
    | nil => simp [chainStart]
    | cons q qs =>
      obtain ⟨h0, h1⟩ := h.timed.ordered.timed q (by rw [hps]; exact List.mem_cons_self ..)
      have h2 := h.timed.stopped q (by rw [hps]; exact List.mem_cons_self ..)
      have h3 := h.timed.tick
      have hgap : since q.stop s.clock = s.clock - q.stop := since_eq (by omega) (by omega) h3.1 h3.2.le
      by_cases hlt : thres < toMs (s.clock - q.stop)
      · simp [chainStart, Continues, hgap, hlt, not_le.2 hlt]
      · simp [chainStart, Continues, hgap, hlt, not_lt.1 hlt]

theorem refines_recordStart (h : Refines thres s) : Refines thres
    { s with predictor := s.predictor.recordStart s.clock, log := s.log.call (.recordStart s.clock) } := by
  have hon := ongoingUnmerged_eq h
  cases hc : s.log.current with
  | some b =>
    rw [hc] at hon
    simpa [Predictor.recordStart, hon, Log.call, hc] using h
  | none =>
    rw [hc] at hon
    have hchain := chainStart_begun h hc
    have hlog : s.log.call (.recordStart s.clock) = { s.log with current := some ⟨s.clock, s.log.separated⟩ } := by
      simp [Log.call, hc]
    rw [hlog]
    have htimed : Log.Timed { s.log with current := some ⟨s.clock, s.log.separated⟩ } s.clock :=
      ⟨h.timed.tick, h.timed.ordered, h.timed.stopped, fun b hb => by
        cases hb; exact ⟨h.timed.tick.1, le_rfl, h.timed.stopped⟩⟩
    unfold Predictor.recordStart
    rw [hon]
    simp only [Option.isSome_none, Bool.false_eq_true, if_false]
    split
    · rename_i hcond
      rw [if_pos hcond] at hchain
      exact ⟨htimed, h.mergeThres, rfl, hchain.symm, nofun, h.validTime, h.normal, h.long⟩
    · rename_i hcond
      rw [if_neg hcond] at hchain
      exact ⟨htimed, h.mergeThres, rfl, hchain.symm, nofun, h.validTime, h.normal, h.long⟩

theorem refines_recordStop (h : Refines thres s) : Refines thres
    { s with predictor := s.predictor.recordStop s.clock, log := s.log.call (.recordStop s.clock) } := by
  have hon := ongoingUnmerged_eq h
  cases hc : s.log.current with
  | none =>
    rw [hc] at hon
    have hbegin : TimePoint.max = s.predictor.periodBegin := by rw [h.periodBegin, hc]; rfl
    simpa [Predictor.recordStop, hon, Log.call, hc, hbegin] using h
  | some b =>
    rw [hc] at hon
    obtain ⟨h0, h1, h2⟩ := h.timed.running b hc
    obtain ⟨ht0, ht1⟩ := h.timed.tick
    have hbegin : s.predictor.periodBegin = b.start := by rw [h.periodBegin, hc]; rfl
    have hlong : s.predictor.longPeriodBegin = chainStart thres b s.log.periods := by
      rw [h.longPeriodBegin, Log.chainBegin, hc]; rfl
    obtain ⟨hl0, hl1⟩ := chainStart_le thres h.timed.ordered h0 h2
    have hlog : s.log.call (.recordStop s.clock) = ⟨⟨b, s.clock⟩ :: s.log.periods, none, false⟩ := by
      simp [Log.call, hc]
    rw [hlog]
    unfold Predictor.recordStop
    rw [hon]
    simp only [Option.isSome_some, if_true, hbegin, hlong]
    rw [since_eq h0 (by omega) ht0 ht1.le, since_eq hl0 (by omega) ht0 ht1.le]
    refine ⟨⟨h.timed.tick, ⟨List.pairwise_cons.2 ⟨h2, h.timed.ordered.apart⟩, ?_⟩, ?_, nofun⟩, h.mergeThres, rfl, rfl,
      fun _ => rfl, h.validTime, h.normal.push fun e he => ?_, h.long.push fun e he => ?_⟩
    · rintro p hp
      rcases List.mem_cons.1 hp with rfl | hp
      · exact ⟨h0, h1⟩
      · exact h.timed.ordered.timed p hp
    · rintro p hp
      rcases List.mem_cons.1 hp with rfl | hp
      · exact le_rfl
      · exact h.timed.stopped p hp
    · obtain ⟨p, hp, rfl⟩ := List.mem_map.1 he
      exact h.timed.stopped p hp
    · obtain ⟨p, hp, he⟩ := mem_chainLengths thres he
      rw [he]; exact h.timed.stopped p hp

theorem refines_interrupt (h : Refines thres s) : Refines thres
    { s with predictor := s.predictor.interrupt, log := s.log.call .interrupt } :=
  ⟨⟨h.timed.tick, h.timed.ordered, h.timed.stopped, nofun⟩, h.mergeThres, rfl, rfl, fun _ => rfl, h.validTime,
    h.normal, h.long⟩

theorem refines_reset (h : Refines thres s) : Refines thres
    { s with predictor := s.predictor.reset, log := s.log.call .reset } :=
  ⟨⟨h.timed.tick, ⟨.nil, nofun⟩, nofun, nofun⟩, h.mergeThres, rfl, rfl, fun _ => rfl, h.validTime, .nil _, .nil _⟩

/-- On what lies before the clock, no difference overflows. -/
theorem spans_of_le {k : RecordKeeper} {clock : ℤ} (hmax : clock < TimePoint.max) (hr : ∀ r ∈ k.records, 0 ≤ r.1) :
    k.Spans clock := fun r hr' => by
  have := hr r hr'
  omega

/-- A deque that tracks lengths predicts the longest of them. -/
theorem longest_dropOutdated {k : RecordKeeper} (hk : k.validTime = predictMaxKeep) {clock : ℤ}
    (hmax : clock < TimePoint.max) {lengths : List (ℤ × ℚ)} (hl : ∀ e ∈ lengths, 0 ≤ e.1 ∧ e.1 ≤ clock)
    (h : Tracks (tooOld clock) lengths k.records) :
    (k.dropOutdated clock).getMax = longest clock lengths ∧
      Tracks (tooOld clock) lengths (k.dropOutdated clock).records := by
  have hold : tooOld clock = outdated k.validTime clock := by rw [hk]; rfl
  rw [hold] at h ⊢
  have hspan := spans_of_le hmax fun r hr => (hl r (h.mem r hr)).1
  obtain ⟨h1, h2⟩ := getMax_dropOutdated h (fun e he => (hl e he).2) hspan
  exact ⟨by rw [h1, windowMax_eq, ← hold]; rfl, h2⟩

theorem Refines.lengths_le (h : Refines thres s) : ∀ e ∈ s.log.lengths, 0 ≤ e.1 ∧ e.1 ≤ s.clock := by
  intro e he
  obtain ⟨p, hp, rfl⟩ := List.mem_map.1 he
  obtain ⟨h0, h1⟩ := h.timed.ordered.timed p hp
  exact ⟨h0.trans h1, h.timed.stopped p hp⟩

theorem Refines.chainLengths_le (h : Refines thres s) :
    ∀ e ∈ chainLengths thres s.log.periods, 0 ≤ e.1 ∧ e.1 ≤ s.clock := by
  intro e he
  obtain ⟨p, hp, he⟩ := mem_chainLengths thres he
  obtain ⟨h0, h1⟩ := h.timed.ordered.timed p hp
  rw [he]
  exact ⟨h0.trans h1, h.timed.stopped p hp⟩

/-- A prediction is the longest length, and keeps what it needs for the next one. -/
theorem predictUnmerged_spec (h : Refines thres s) :
    (s.predictor.predictUnmerged s.clock).1 = longest s.clock s.log.lengths ∧
      Refines thres { s with predictor := (s.predictor.predictUnmerged s.clock).2 } := by
  obtain ⟨h1, h2⟩ := longest_dropOutdated h.validTime.1 h.timed.tick.2 h.lengths_le h.normal
  exact ⟨h1, ⟨h.timed, h.mergeThres, h.periodBegin, h.longPeriodBegin, h.longPeriodEnd, h.validTime, h2, h.long⟩⟩

theorem predictMerged_spec (h : Refines thres s) :
    (s.predictor.predictMerged s.clock).1 = longest s.clock (chainLengths thres s.log.periods) ∧
      Refines thres { s with predictor := (s.predictor.predictMerged s.clock).2 } := by
  obtain ⟨h1, h2⟩ := longest_dropOutdated h.validTime.2 h.timed.tick.2 h.chainLengths_le h.long
  exact ⟨h1, ⟨h.timed, h.mergeThres, h.periodBegin, h.longPeriodBegin, h.longPeriodEnd, h.validTime, h.normal, h2⟩⟩

theorem refines_step {c : Call} (h : Refines thres s) (ht : s.Ticks c) (hs : s.step c = some s') :
    Refines thres s' := by
  cases hs
  cases c with
  | recordStart now => exact refines_recordStart (h.tick (ht now rfl).1 (ht now rfl).2)
  | recordStop now => exact refines_recordStop (h.tick (ht now rfl).1 (ht now rfl).2)
  | interrupt => exact refines_interrupt h
  | reset => exact refines_reset h
  | predictUnmerged now => exact (predictUnmerged_spec (h.tick (ht now rfl).1 (ht now rfl).2)).2
  | predictMerged now => exact (predictMerged_spec (h.tick (ht now rfl).1 (ht now rfl).2)).2
  | setUpperbound bound =>
    exact ⟨h.timed, h.mergeThres, h.periodBegin, h.longPeriodBegin, h.longPeriodEnd, h.validTime, h.normal, h.long⟩

/-! ## Predictions over runs -/

theorem longest_of_none {lengths : List (ℤ × ℚ)} (h : ∀ e ∈ lengths, tooOld now e.1 = true) :
    longest now lengths = 0 := by
  have : (lengths.filter fun e => !tooOld now e.1) = [] := List.filter_eq_nil_iff.2 fun e he => by simp [h e he]
  simp [longest, this]

theorem le_longest {lengths : List (ℤ × ℚ)} {e : ℤ × ℚ} (he : e ∈ lengths) (hnew : tooOld now e.1 = false) :
    e.2 ≤ longest now lengths := by
  have hmem : e.2 ∈ (lengths.filter fun e => !tooOld now e.1).map Prod.snd :=
    List.mem_map.2 ⟨e, List.mem_filter.2 ⟨he, by simp [hnew]⟩, rfl⟩
  unfold longest
  cases hm : ((lengths.filter fun e => !tooOld now e.1).map Prod.snd).max? with
  | none => rw [List.max?_eq_none_iff.1 hm] at hmem; cases hmem
  | some m => exact (List.max?_eq_some_iff.1 hm).2 _ hmem

/-- Chains are at least as long as the periods that end them. -/
theorem longest_lengths_le {l : Log} (ho : Ordered l.periods) (now : ℤ) :
    longest now l.lengths ≤ longest now (chainLengths thres l.periods) := by
  by_cases hold : ∀ p ∈ l.periods, tooOld now p.stop = true
  · rw [longest_of_none fun e he => ?_, longest_of_none fun e he => ?_]
    · obtain ⟨p, hp, he⟩ := mem_chainLengths thres he
      rw [he]; exact hold p hp
    · obtain ⟨p, hp, rfl⟩ := List.mem_map.1 he
      exact hold p hp
  · push Not at hold
    obtain ⟨p, hp, hnew⟩ := hold
    have hmem : toMs (p.stop - p.start) ∈ (l.lengths.filter fun e => !tooOld now e.1).map Prod.snd :=
      List.mem_map.2 ⟨_, List.mem_filter.2 ⟨List.mem_map.2 ⟨p, hp, rfl⟩, by simpa using hnew⟩, rfl⟩
    rw [longest]
    cases hm : ((l.lengths.filter fun e => !tooOld now e.1).map Prod.snd).max? with
    | none => rw [List.max?_eq_none_iff.1 hm] at hmem; cases hmem
    | some m =>
      obtain ⟨e, he, rfl⟩ := List.mem_map.1 (List.max?_eq_some_iff.1 hm).1
      obtain ⟨he, hnew⟩ := List.mem_filter.1 he
      obtain ⟨q, hq, rfl⟩ := List.mem_map.1 he
      obtain ⟨e, he, hstop, hle⟩ := exists_chainLengths thres ho q hq
      exact hle.trans (le_longest he (by rw [hstop]; simpa using hnew))

/-- After any calls under a clock that does not go back, the predictions are the longest recent
period and the longest recent chain of periods, and the second is at least the first. -/
theorem predictions_of_run {calls : List Call} (hrun : RunWhere Session.step Session.Ticks (.new thres) calls s)
    (hnow : s.clock ≤ now) (hmax : now < TimePoint.max) :
    (s.predictor.predictUnmerged now).1 = longest now s.log.lengths ∧
    (s.predictor.predictMerged now).1 = longest now (chainLengths thres s.log.periods) ∧
    (s.predictor.predictUnmerged now).1 ≤ (s.predictor.predictMerged now).1 := by
  have h : Refines thres s := hrun.invariant (fun _ _ _ => refines_step) (refines_new thres)
  have h := h.tick hnow hmax
  have h1 := (predictUnmerged_spec h).1
  have h2 := (predictMerged_spec h).1
  refine ⟨h1, h2, ?_⟩
  rw [show (s.predictor.predictUnmerged now).1 = _ from h1, show (s.predictor.predictMerged now).1 = _ from h2]
  exact longest_lengths_le h.timed.ordered now

/-- Periods of 2 ms and of 3 ms with a gap of 1 ms, merged into one chain of 6 ms. -/
theorem predictions_of_two_periods : ∃ s, RunWhere Session.step Session.Ticks (.new 1)
      [.recordStart 1000000, .recordStop 3000000, .recordStart 4000000, .recordStop 7000000] s ∧
    s.clock ≤ 8000000 ∧ 8000000 < TimePoint.max ∧
    (s.predictor.predictUnmerged 8000000).1 = longest 8000000 s.log.lengths ∧
    (s.predictor.predictMerged 8000000).1 = longest 8000000 (chainLengths 1 s.log.periods) ∧
    (s.predictor.predictUnmerged 8000000).1 ≤ (s.predictor.predictMerged 8000000).1 := by
  have hrun : ∃ s, RunWhere Session.step Session.Ticks (.new 1)
      [.recordStart 1000000, .recordStop 3000000, .recordStart 4000000, .recordStop 7000000] s ∧
      s.clock ≤ 8000000 := exists_runWhere (by decide +kernel)
  obtain ⟨s, hrun, hclock⟩ := hrun
  have hmax : (8000000 : ℤ) < TimePoint.max := by decide +kernel
  exact ⟨s, hrun, hclock, hmax, predictions_of_run hrun hclock hmax⟩

end Gemini.Prediction
