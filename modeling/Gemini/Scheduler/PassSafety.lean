/-
The arithmetic and the lookups of one pass of `select_candidate`, in every state that the scheduler
can reach. Its lookups find their clients, a pass that does not leave by the quick exit finds
history, and over a consistent overlap count no usage is negative, so `schd_priority` divides by
positive numbers.

The overlap count is the one condition: it is not consistent in an order of equal stamps that puts
the end stamp of a zero-length token before its start stamp.
-/
import Gemini.Scheduler.Overlap
import Gemini.Scheduler.Daemon

namespace Gemini.Scheduler.State

open Gemini.Lib

/-- The start of the window of a pass at `now`. -/
def windowStart (cfg : Config) (now : ℕ) : ℚ := msSinceStart cfg now - cfg.windowSize

/-- What is left of `history_list` in a pass at `now`. -/
def windowHistory (cfg : Config) (s : State) (now : ℕ) : List History :=
  prune (windowStart cfg now) s.timeline.historyList

/-- A pass at `now` leaves by the quick exit: the front candidate has no token in the window. -/
def QuickExit (cfg : Config) (s : State) (now : ℕ) : Prop :=
  ∃ front ∈ s.candidates.head?, ∀ h ∈ s.windowHistory cfg now, h.name ≠ front.name

/-- The sweep of a pass at `now` over the stamps in the order `ts`, and what comes after it, is safe:
`history_list.begin()` is there to be read, the count is consistent and positive where it divides,
and so is what `schd_priority` divides by. -/
structure SweepSafe (cfg : Config) (s : State) (now : ℕ) (ts : List ContainerTimestamp) : Prop where
  history : s.windowHistory cfg now ≠ []
  overlap : SafeSweep (windowStart cfg now) ts
  priority : ∀ usage valid, usageOf (windowStart cfg now) ts = some usage →
    validCandidates s.clients (effectiveWindow cfg.windowSize (msSinceStart cfg now))
      usage 0 s.candidates = some valid →
    ∀ v ∈ valid, 0 < v.missing → 0 < v.missing + v.usage

/-- A pass at `now` that sorts the stamps to `ts` is safe. -/
structure PassSafe (cfg : Config) (s : State) (now : ℕ) (ts : List ContainerTimestamp) : Prop where
  names : ∀ c ∈ s.candidates, ∃ inf, s.clients c.name = some inf
  sweep : ¬ s.QuickExit cfg now → s.SweepSafe cfg now ts

section

variable {cfg : Config} {s s' : State} {e : Event} {es : List Event} {now : ℕ} {ts : List ContainerTimestamp}

theorem not_quickExit {front : Candidate} (hf : s.candidates.head? = some front) {h : History}
    (hh : h ∈ s.windowHistory cfg now) (hn : h.name = front.name) : ¬ s.QuickExit cfg now := by
  rintro ⟨c, hc, hall⟩
  obtain rfl : front = c := Option.some.inj (hf.symm.trans hc)
  exact hall h hh hn

/-- No token starts before the clock does. -/
theorem start_nonneg_step (h : ∀ g ∈ s.timeline.historyList, 0 ≤ g.start) (hs : s.step cfg e = some s') :
    ∀ g ∈ s'.timeline.historyList, 0 ≤ g.start := by
  cases e with
  | accept socket => obtain ⟨-, rfl⟩ := accept_some hs; exact h
  | request conn name reqId overuse burst now =>
    obtain ⟨-, socket, -, ⟨-, rfl⟩ | ⟨inf, -, rfl⟩⟩ := request_some hs
    · exact h
    · intro g hg
      rcases mem_updateFirst (List.mem_reverse.1 hg) with hg | ⟨y, hy, -, rfl⟩
      · exact h g (List.mem_reverse.1 hg)
      · exact h y (List.mem_reverse.1 hy)
  | enqueue conn now => obtain ⟨-, -, socket, name, reqId, -, rfl⟩ := enqueue_some hs; exact h
  | hangUp conn => obtain ⟨socket, -, rfl⟩ := hangUp_some hs; exact h
  | configure name minf maxf mem => cases hs; exact h
  | select now ts order =>
    obtain ⟨-, -, ⟨-, rfl⟩ | ⟨c, rest, -, rfl⟩ | ⟨ms, rfl⟩⟩ := select_some hs
    · exact h
    · exact fun g hg => h g (mem_prune.1 hg).1
    · exact fun g hg => h g (mem_prune.1 hg).1
  | record now =>
    obtain ⟨-, selected, inf, -, -, rfl⟩ := record_some hs
    intro g hg
    rcases List.mem_append.1 hg with hg | hg
    · exact h g hg
    · rw [List.mem_singleton.1 hg]
      show 0 ≤ msSinceStart cfg now
      unfold msSinceStart
      positivity
  | send => obtain ⟨selected, quota, -, rfl⟩ := send_some hs; exact h
  | arm now => obtain ⟨-, selected, quota, -, rfl⟩ := arm_some hs; exact h
  | block => obtain ⟨selected, deadline, -, rfl⟩ := block_some hs; exact h
  | wake now timedOut =>
    obtain ⟨-, ⟨b, -, rfl⟩ | ⟨selected, deadline, b, -, ⟨-, rfl⟩ | ⟨-, rfl⟩ | ⟨-, rfl⟩⟩⟩ := wake_some hs <;> exact h

/-- A safe sweep leaves no usage negative, and what `schd_priority` divides by is a positive `missing`
and a usage. -/
theorem priority_of_overlap (hts : StdSort tsComp (timestampVector (s.windowHistory cfg now)) ts)
    (hsafe : SafeSweep (windowStart cfg now) ts) {usage : String → ℚ} {valid : List ValidCandidate}
    (hu : usageOf (windowStart cfg now) ts = some usage) {window : ℚ}
    (hv : validCandidates s.clients window usage 0 s.candidates = some valid) {v : ValidCandidate} (hmem : v ∈ valid)
    (hpos : 0 < v.missing) : 0 < v.missing + v.usage := by
  obtain ⟨u, hu', hnn⟩ := usageOf_of_safeSweep hts hsafe
  obtain rfl : u = usage := Option.some.inj (hu'.symm.trans hu)
  obtain ⟨j, c, inf, -, -, rfl, -⟩ := (mem_validCandidates hv v).1 hmem
  exact add_pos_of_pos_of_nonneg hpos (hnn c.name)

/-- A pass is safe exactly when it leaves by the quick exit or its order of the stamps matches the
ends. -/
theorem passSafe_iff (hk : s.Known) (hne : s.candidates ≠ [])
    (hts : StdSort tsComp (timestampVector (s.windowHistory cfg now)) ts) :
    s.PassSafe cfg now ts ↔ s.QuickExit cfg now ∨ MatchedInside (windowStart cfg now) ts := by
  rw [← safeSweep_iff]
  constructor
  · intro h
    by_cases hq : s.QuickExit cfg now
    · exact .inl hq
    · exact .inr (h.sweep hq).overlap
  · intro h
    refine ⟨hk.queued, fun hq => ?_⟩
    have hsafe := h.resolve_left hq
    refine ⟨fun hnil => hq ?_, hsafe, fun usage valid hu hv v hmem => priority_of_overlap hts hsafe hu hv hmem⟩
    -- without history the front candidate has no token
    obtain ⟨front, tail, hc⟩ := List.exists_cons_of_ne_nil hne
    exact ⟨front, by rw [hc]; rfl, by simp [hnil]⟩

/-- A safe pass is not stuck: it selects or sleeps. -/
theorem PassSafe.exists_pass (h : s.PassSafe cfg now ts) (hne : s.candidates ≠ [])
    (hts : StdSort tsComp (timestampVector (s.windowHistory cfg now)) ts) : ∃ order p,
    selectPass cfg.windowSize s.clients s.timeline.historyList s.candidates
      (msSinceStart cfg now) ts order = some p := by
  obtain ⟨front, tail, hc⟩ := List.exists_cons_of_ne_nil hne
  have hnames := h.names
  rw [hc] at hnames ⊢
  by_cases hq : ∀ h ∈ s.windowHistory cfg now, h.name ≠ front.name
  · exact ⟨[], .selected front tail, if_pos hq⟩
  push Not at hq
  obtain ⟨g, hg, hn⟩ := hq
  obtain ⟨hhist, hsafe, -⟩ := h.sweep (not_quickExit (by rw [hc]; rfl) hg hn)
  obtain ⟨usage, hu, -⟩ := usageOf_of_safeSweep hts hsafe
  exact Scheduler.exists_pass hnames hts hhist hu

/-- In every state that can be reached, a pass is safe in every order of equal stamps exactly when it
leaves by the quick exit or its tokens have their ends open. -/
theorem passSafe_iff_of_run (hrun : Run (step cfg) init es s) (hne : s.candidates ≠ [])
    (hle : ∀ h ∈ s.timeline.historyList, h.start ≤ h.end) (now : ℕ) :
    (∀ ts, StdSort tsComp (timestampVector (s.windowHistory cfg now)) ts → s.PassSafe cfg now ts) ↔
      s.QuickExit cfg now ∨ EndsOpen (windowStart cfg now) (s.windowHistory cfg now) := by
  have hk : s.Known := hrun.invariant (fun _ _ _ h _ hs => h.step hs) known_init
  have h0 : ∀ h ∈ s.timeline.historyList, 0 ≤ h.start :=
    hrun.invariant (fun _ _ _ h _ hs => start_nonneg_step h hs) (by simp [init, Timeline.init])
  have hwin : ∀ h ∈ s.windowHistory cfg now, 0 ≤ h.start ∧ h.start ≤ h.end ∧ windowStart cfg now ≤ h.end := by
    intro h hh
    obtain ⟨hh, hw⟩ := mem_prune.1 hh
    exact ⟨h0 h hh, hle h hh, hw⟩
  rw [← forall_matched_iff hwin]
  constructor
  · intro h
    by_cases hq : s.QuickExit cfg now
    · exact .inl hq
    · exact .inr fun ts hts => ((passSafe_iff hk hne hts).1 (h ts hts)).resolve_left hq
  · intro h ts hts
    exact (passSafe_iff hk hne hts).2 (h.imp_right fun h => h ts hts)

end

/-! ## A window of two grants -/

/-- A client with the limit `maxf` is granted a token at 1, keeps it to its end and asks for the next
one at 6. -/
def grantTwice (maxf burst : ℚ) : List Event :=
  [.configure "a" 0 maxf 0, .accept 4, .request 0 "a" 0 0 burst 1000000, .enqueue 0 1000000, .select 1000000 [] [],
    .record 1000000, .send, .arm 1000000, .block, .wake 5000000 true, .request 0 "a" 1 0 burst 6000000,
      .enqueue 0 6000000]

/-- With a token of 4 ms in the window every pass is safe. -/
theorem passSafe_of_two_grants : ∃ s, Run (step tenMs) init (grantTwice (1 / 2) 0) s ∧ s.candidates ≠ [] ∧
    (∀ h ∈ s.timeline.historyList, h.start ≤ h.end) ∧ ¬ s.QuickExit tenMs 6000000 ∧
    ∀ ts, StdSort tsComp (timestampVector (s.windowHistory tenMs 6000000)) ts →
      s.PassSafe tenMs 6000000 ts := by
  have hrun : ∃ s, Run (step tenMs) init (grantTwice (1 / 2) 0) s ∧
      s.candidates = [⟨4, "a", 1, 6, 0⟩] ∧ s.timeline.historyList = [⟨"a", 1, 5⟩] := exists_runWhere (by decide +kernel)
  obtain ⟨s, hrun, hc, hh⟩ := hrun
  have hwin : s.windowHistory tenMs 6000000 = [⟨"a", 1, 5⟩] := by
    rw [windowHistory, hh]
    decide +kernel
  have hle : ∀ h ∈ s.timeline.historyList, h.start ≤ h.end := by
    rw [hh]; decide +kernel
  have hopen : EndsOpen (windowStart tenMs 6000000) (s.windowHistory tenMs 6000000) :=
    endsOpen_of_pos (by rw [hwin]; decide +kernel)
  have hq : ¬ s.QuickExit tenMs 6000000 :=
    not_quickExit (by rw [hc]; rfl) (by rw [hwin]; exact List.mem_singleton_self _) rfl
  have hne : s.candidates ≠ [] := by simp [hc]
  exact ⟨s, hrun, hne, hle, hq, (passSafe_iff_of_run hrun hne hle 6000000).2 (.inr hopen)⟩

/-- A client with a limit of zero is granted a token of zero length. With its end stamp first, there
is no name to take off at the end, and the count goes below zero. -/
theorem not_passSafe_of_zero_length : ∃ s ts, Run (step tenMs) init (grantTwice 0 1) s ∧ s.candidates ≠ [] ∧
    (∀ h ∈ s.timeline.historyList, h.start ≤ h.end) ∧
    StdSort tsComp (timestampVector (s.windowHistory tenMs 6000000)) ts ∧
    ¬ s.PassSafe tenMs 6000000 ts := by
  have hrun : ∃ s, Run (step tenMs) init (grantTwice 0 1) s ∧
      s.candidates = [⟨4, "a", 1, 6, 0⟩] ∧ s.timeline.historyList = [⟨"a", 1, 1⟩] := exists_runWhere (by decide +kernel)
  obtain ⟨s, hrun, hc, hh⟩ := hrun
  have hwin : s.windowHistory tenMs 6000000 = [⟨"a", 1, 1⟩] := by
    rw [windowHistory, hh]
    decide +kernel
  refine ⟨s, [⟨"a", 1⟩, ⟨"a", -1⟩], hrun, by simp [hc], by rw [hh]; decide +kernel, by rw [hwin]; decide +kernel,
    fun h => ?_⟩
  have hq : ¬ s.QuickExit tenMs 6000000 :=
    not_quickExit (by rw [hc]; rfl) (by rw [hwin]; exact List.mem_singleton_self _) rfl
  have hw : windowStart tenMs 6000000 = -4 := by decide +kernel
  have hinside : [⟨"a", 1⟩, ⟨"a", -1⟩].dropWhile (beforeWindow (-4)) = [⟨"a", 1⟩, ⟨"a", -1⟩] := by decide +kernel
  have hbefore : openedBefore (-4) [⟨"a", 1⟩, ⟨"a", -1⟩] = [] := by decide +kernel
  have hm := safeSweep_iff.1 (h.sweep hq).overlap
  rw [MatchedInside, hw, hinside, hbefore] at hm
  have := (matched_cons.1 hm).1 (by decide +kernel)
  simp at this

end Gemini.Scheduler.State
