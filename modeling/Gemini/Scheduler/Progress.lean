/-
The scheduler never gets stuck. From every state of every run the daemon alone, on wake-ups that are
due and on readings of the clock late enough, answers all that waits: it is blocked without a
deadline only when it was signalled or there is nothing to do, the client it has chosen has an entry,
and once the window is empty the first candidate leaves `select_candidate` by the quick exit,
whatever its limit is.
-/
import Gemini.Lib.Simulation
import Gemini.Scheduler.Held

namespace Gemini.Scheduler

open Gemini.Lib

theorem Daemon.chosen_of_signal {d : Daemon} {c : Candidate} (h : d.signal = .chosen c) : d = .chosen c := by
  cases d <;> first | exact h | cases h

theorem Daemon.signal_ne_unnoticed (d : Daemon) : d.signal ≠ .waiting false := by cases d <;> nofun

namespace State

variable {cfg : Config} {s s' : State} {e : Event}

/-- A step of the daemon that does not rest on a spurious wake-up. -/
def Due (s : State) : Event → Prop
  | .select now _ _ =>
    match s.daemon with
    | .sleeping wakeUp woken => woken = true ∨ wakeUp.toNs ≤ now
    | _ => True
  | .wake _ timedOut =>
    match s.daemon with
    | .waiting woken => woken = true
    | .holding _ _ woken => timedOut = true ∨ woken = true
    | _ => True
  | .record _ | .send | .arm _ | .block => True
  | _ => False

/-! ## The invariant -/

/-- What the daemon relies on: nobody queues a request unnoticed, and its clients are known. -/
structure ProgressInv (s : State) : Prop where
  known : s.Known
  chosen : ∀ c, s.daemon = .chosen c → ∃ inf, s.clients c.name = some inf
  noticed : s.daemon = .waiting false → s.candidates = []

theorem progressInv_init : ProgressInv init := ⟨known_init, nofun, nofun⟩

/-- A step that leaves the daemon where it is, and its candidates. -/
theorem ProgressInv.of_frame (h : ProgressInv s) (hs : s.step cfg e = some s') (hd : s'.daemon = s.daemon)
    (hc : s'.candidates = s.candidates)
    (hk : ∀ name, (∃ inf, s.clients name = some inf) → ∃ inf, s'.clients name = some inf) : ProgressInv s' :=
  ⟨h.known.step hs, fun c hc' => hk _ (h.chosen c (hd ▸ hc')), fun hw => hc ▸ h.noticed (hd ▸ hw)⟩

/-- A step of the daemon that neither chooses nor blocks it for want of candidates. -/
theorem ProgressInv.of_daemon (h : ProgressInv s) (hs : s.step cfg e = some s') (hc : ∀ c, s'.daemon ≠ .chosen c)
    (hw : s'.daemon ≠ .waiting false) : ProgressInv s' :=
  ⟨h.known.step hs, fun c hc' => absurd hc' (hc c), fun hw' => absurd hw' hw⟩

theorem progressInv_step (h : ProgressInv s) (hs : s.step cfg e = some s') : ProgressInv s' := by
  cases e with
  | accept socket =>
    have hs' := hs
    obtain ⟨-, rfl⟩ := accept_some hs'
    exact h.of_frame hs rfl rfl fun _ => id
  | request conn name reqId overuse burst now =>
    have hs' := hs
    obtain ⟨-, socket, -, ⟨-, rfl⟩ | ⟨inf, -, rfl⟩⟩ := request_some hs'
    · exact h.of_frame hs rfl rfl fun _ => id
    · exact h.of_frame hs rfl rfl fun _ => known_update
  | enqueue conn now =>
    have hs' := hs
    obtain ⟨-, hu, socket, name, reqId, -, rfl⟩ := enqueue_some hs'
    -- the signal leaves the daemon with a wake-up, or unblocked
    refine ⟨h.known.step hs, fun c hc => h.chosen c (Daemon.chosen_of_signal hc), fun hw =>
      absurd hw (Daemon.signal_ne_unnoticed _)⟩
  | hangUp conn =>
    have hs' := hs
    obtain ⟨socket, -, rfl⟩ := hangUp_some hs'
    exact h.of_frame hs rfl rfl fun _ => id
  | configure name minf maxf gpuMemLimit =>
    have hs' := hs
    cases hs'
    exact h.of_frame (e := .configure name minf maxf gpuMemLimit) hs rfl rfl fun _ => known_update
  | select now ts order =>
    have hs' := hs
    obtain ⟨-, -, ⟨hn, rfl⟩ | ⟨c, rest, hp, rfl⟩ | ⟨ms, rfl⟩⟩ := select_some hs'
    · exact ⟨h.known.step hs, nofun, fun _ => hn⟩
    · refine ⟨h.known.step hs, fun d hd => ?_, nofun⟩
      cases hd
      obtain ⟨i, hi, -⟩ := selectPass_mem hp
      exact h.known.queued c (List.mem_of_getElem? hi)
    · exact h.of_daemon hs nofun nofun
  | record now =>
    have hs' := hs
    obtain ⟨-, selected, inf, -, -, rfl⟩ := record_some hs'
    exact h.of_daemon hs nofun nofun
  | send =>
    have hs' := hs
    obtain ⟨selected, quota, -, rfl⟩ := send_some hs'
    exact h.of_daemon hs nofun nofun
  | arm now =>
    have hs' := hs
    obtain ⟨-, selected, quota, -, rfl⟩ := arm_some hs'
    exact h.of_daemon hs nofun nofun
  | block =>
    have hs' := hs
    obtain ⟨selected, deadline, -, rfl⟩ := block_some hs'
    exact h.of_daemon hs nofun nofun
  | wake now timedOut =>
    have hs' := hs
    obtain ⟨-, ⟨b, -, rfl⟩ | ⟨selected, deadline, b, -, ⟨-, rfl⟩ | ⟨-, rfl⟩ | ⟨-, rfl⟩⟩⟩ := wake_some hs' <;>
      exact h.of_daemon hs nofun nofun

/-! ## One token -/

/-- What the daemon does on its own: it is ready for the next candidate, all that was chosen is
answered, and the queue is as it was. -/
structure Ready (cfg : Config) (s s' : State) : Prop where
  inv : ProgressInv s'
  daemon : s'.daemon = .top ∨ ∃ wakeUp woken, s'.daemon = .sleeping wakeUp woken
  candidates : s'.candidates = s.candidates
  answers : s.answers ⊆ s'.answers
  answered : ∀ c, s.daemon.unanswered = some c → ∃ a ∈ s'.answers, a.request = c

/-- A step of the daemon on the way. -/
theorem Ready.cons {t : State} (hs : s.step cfg e = some t) (hdue : s.Due e) (hc : t.candidates = s.candidates)
    (ha : s.answers ⊆ t.answers)
    (hans : ∀ c, s.daemon.unanswered = some c → t.daemon.unanswered = some c ∨ ∃ a ∈ t.answers, a.request = c)
    (h : ∃ ds s', RunWhere (step cfg) Due t ds s' ∧ Ready cfg t s') :
    ∃ ds s', RunWhere (step cfg) Due s ds s' ∧ Ready cfg s s' := by
  obtain ⟨ds, s', hrun, hr⟩ := h
  refine ⟨e :: ds, s', .cons hdue hs hrun, hr.inv, hr.daemon, hr.candidates.trans hc, fun a h => hr.answers (ha h),
    fun c h => ?_⟩
  rcases hans c h with h | ⟨a, h, he⟩
  · exact hr.answered c h
  · exact ⟨a, hr.answers h, he⟩

theorem ready_of_idle (h : ProgressInv s) (hd : s.daemon = .top ∨ ∃ wakeUp woken, s.daemon = .sleeping wakeUp woken) :
    ∃ ds s', RunWhere (step cfg) Due s ds s' ∧ Ready cfg s s' := by
  refine ⟨[], s, .nil s, h, hd, rfl, fun _ => id, fun c hc => ?_⟩
  rcases hd with hd | ⟨w, b, hd⟩
  · rw [hd] at hc; cases hc
  · rw [hd] at hc; cases hc

theorem ready_of_holding (h : ProgressInv s) {selected : Candidate} {deadline : Timespec} {woken : Bool}
    (hd : s.daemon = .holding selected deadline woken) : ∃ ds s', RunWhere (step cfg) Due s ds s' ∧ Ready cfg s s' := by
  obtain ⟨now, hnow⟩ : ∃ now : ℕ, s.clock ≤ now ∧ deadline.toNs ≤ now :=
    ⟨max s.clock deadline.toNs.toNat, le_max_left .., (Int.self_le_toNat _).trans (by exact_mod_cast le_max_right ..)⟩
  have hs : s.step cfg (.wake now true) = some { s with daemon := .top, clock := now } := by
    simp only [step, wake, hd, if_pos hnow.1, if_pos hnow.2, if_true]
  refine Ready.cons hs ?_ rfl (fun _ => id) (by simp [hd, Daemon.unanswered])
    (ready_of_idle (progressInv_step h hs) (.inl rfl))
  simp only [Due, hd]
  exact .inl trivial

theorem ready_of_armed (h : ProgressInv s) {selected : Candidate} {deadline : Timespec}
    (hd : s.daemon = .armed selected deadline) : ∃ ds s', RunWhere (step cfg) Due s ds s' ∧ Ready cfg s s' := by
  have hs : s.step cfg .block = some { s with daemon := .holding selected deadline false } := by
    simp only [step, block, hd]
  exact Ready.cons hs trivial rfl (fun _ => id) (by simp [hd, Daemon.unanswered])
    (ready_of_holding (progressInv_step h hs) rfl)

theorem ready_of_sent (h : ProgressInv s) {selected : Candidate} {quota : ℚ} (hd : s.daemon = .sent selected quota) :
    ∃ ds s', RunWhere (step cfg) Due s ds s' ∧ Ready cfg s s' := by
  have hs : s.step cfg (.arm s.clock) =
      some { s with daemon := .armed selected (getTimespecAfter (.ofNs s.clock) quota), clock := s.clock } := by
    simp only [step, arm, hd, le_refl, if_true]
  exact Ready.cons hs trivial rfl (fun _ => id) (by simp [hd, Daemon.unanswered])
    (ready_of_armed (progressInv_step h hs) rfl)

theorem ready_of_granted (h : ProgressInv s) {selected : Candidate} {quota : ℚ}
    (hd : s.daemon = .granted selected quota) : ∃ ds s', RunWhere (step cfg) Due s ds s' ∧ Ready cfg s s' := by
  have hs : s.step cfg .send = some { s with
      daemon := .sent selected quota
      answers := s.answers ++ [⟨selected, quota, s.descriptors selected.socket⟩] } := by
    simp only [step, send, hd]
  refine Ready.cons hs trivial rfl (List.subset_append_left ..) (fun c hc => .inr ?_)
    (ready_of_sent (progressInv_step h hs) rfl)
  rw [hd] at hc
  cases hc
  exact ⟨_, List.mem_append_right _ (List.mem_singleton_self _), rfl⟩

theorem ready_of_chosen (h : ProgressInv s) {selected : Candidate} (hd : s.daemon = .chosen selected) :
    ∃ ds s', RunWhere (step cfg) Due s ds s' ∧ Ready cfg s s' := by
  obtain ⟨inf, hi⟩ := h.chosen selected hd
  obtain ⟨t, hs, htd, htc, hta⟩ : ∃ t, s.step cfg (.record s.clock) = some t ∧
    t.daemon = .granted selected inf.getQuota.quota ∧ t.candidates = s.candidates ∧ t.answers = s.answers := by
    refine ⟨_, by simp only [step, record, hd, le_refl, if_true, hi, Option.map_some]; rfl, ?_⟩
    exact ⟨rfl, rfl, rfl⟩
  refine Ready.cons hs trivial htc (by rw [hta]; exact fun _ => id) (fun c hc => .inl ?_)
    (ready_of_granted (progressInv_step h hs) htd)
  rw [hd] at hc
  rw [htd]
  exact hc

/-- From anywhere but an unsignalled wait the daemon comes back for the next candidate. -/
theorem exists_ready (cfg : Config) (h : ProgressInv s) (hw : s.daemon ≠ .waiting false) :
    ∃ ds s', RunWhere (step cfg) Due s ds s' ∧ Ready cfg s s' := by
  cases hd : s.daemon with
  | top => exact ready_of_idle h (.inl hd)
  | waiting woken =>
    cases woken with
    | false => exact absurd hd hw
    | true =>
      have hs : s.step cfg (.wake s.clock false) = some { s with daemon := .top, clock := s.clock } := by
        simp [step, wake, hd]
      refine Ready.cons hs ?_ rfl (fun _ => id) (by simp [hd, Daemon.unanswered])
        (ready_of_idle (progressInv_step h hs) (.inl rfl))
      simp only [Due, hd]
  | sleeping wakeUp woken => exact ready_of_idle h (.inr ⟨wakeUp, woken, hd⟩)
  | chosen selected => exact ready_of_chosen h hd
  | granted selected quota => exact ready_of_granted h hd
  | sent selected quota => exact ready_of_sent h hd
  | armed selected deadline => exact ready_of_armed h hd
  | holding selected deadline woken => exact ready_of_holding h hd

/-! ## The queue -/

/-- A time after which the window is empty, and any other time as well. -/
theorem exists_late (cfg : Config) (hs : List History) (after : ℕ) :
    ∃ now, after ≤ now ∧ prune (msSinceStart cfg now - cfg.windowSize) hs = [] := by
  obtain ⟨b, hb⟩ : ∃ b : ℚ, ∀ h ∈ hs, h.end < b := by
    induction hs with
    | nil => exact ⟨0, nofun⟩
    | cons h hs ih =>
      obtain ⟨b, hb⟩ := ih
      refine ⟨max b (h.end + 1), fun g hg => ?_⟩
      rcases List.mem_cons.1 hg with rfl | hg
      · exact lt_of_lt_of_le (lt_add_one _) (le_max_right ..)
      · exact lt_of_lt_of_le (hb g hg) (le_max_left ..)
  obtain ⟨k, hk⟩ := exists_nat_ge (b + cfg.windowSize)
  refine ⟨cfg.progressStart + after + k * 10 ^ 6, by omega, ?_⟩
  have hms : (k : ℚ) ≤ msSinceStart cfg (cfg.progressStart + after + k * 10 ^ 6) := by
    have hdiv : k * 1000 ≤ (cfg.progressStart + after + k * 10 ^ 6 - cfg.progressStart) / 1000 := by omega
    have hcast : (k * 1000 : ℚ) ≤ ((cfg.progressStart + after + k * 10 ^ 6 - cfg.progressStart) / 1000 : ℕ) := by
      exact_mod_cast hdiv
    unfold msSinceStart
    linarith
  rw [prune, List.filter_eq_nil_iff]
  intro h hh
  have := hb h hh
  simp only [beyondWindow, Bool.not_eq_true', decide_eq_false_iff_not, not_not]
  linarith

/-- The daemon takes the first candidate when nothing is left in the window. -/
theorem exists_chosen (cfg : Config) (hd : s.daemon = .top ∨ ∃ wakeUp woken, s.daemon = .sleeping wakeUp woken)
    {c : Candidate} {rest : List Candidate} (hc : s.candidates = c :: rest) :
    ∃ e t, s.step cfg e = some t ∧ s.Due e ∧ t.daemon = .chosen c ∧ t.candidates = rest ∧ t.answers = s.answers := by
  obtain ⟨after, hafter⟩ : ∃ after : ℕ, s.clock ≤ after ∧ ∀ wakeUp woken, s.daemon = .sleeping wakeUp woken →
    wakeUp.toNs ≤ after := by
    rcases hd with hd | ⟨w, b, hd⟩
    · exact ⟨s.clock, le_rfl, fun _ _ h => by rw [hd] at h; cases h⟩
    · refine ⟨max s.clock w.toNs.toNat, le_max_left .., fun _ _ h => ?_⟩
      rw [hd] at h
      cases h
      exact (Int.self_le_toNat _).trans (by exact_mod_cast le_max_right ..)
  obtain ⟨now, hnow, hempty⟩ := exists_late cfg s.timeline.historyList after
  have hclock : s.clock ≤ now := hafter.1.trans hnow
  have hpass : selectPass cfg.windowSize s.clients s.timeline.historyList (c :: rest) (msSinceStart cfg now) [] [] =
      some (.selected c rest) := by
    simp only [selectPass, hempty]
    exact if_pos (by simp)
  refine ⟨.select now [] [], { s with
    timeline := s.timeline.prune (msSinceStart cfg now - cfg.windowSize) (msSinceStart cfg now)
    candidates := rest, daemon := .chosen c, clock := now }, ?_, ?_, rfl, rfl, rfl⟩
  · rcases hd with hd | ⟨w, b, hd⟩
    · simp only [step, select, if_pos hclock, hd, hc, turn, hpass, reduceCtorEq, if_false]
    · simp only [step, select, if_pos hclock, hd, hc, turn, hpass]
  · rcases hd with hd | ⟨w, b, hd⟩
    · simp only [Due, hd]
    · simp only [Due, hd]
      exact .inr ((hafter.2 w b hd).trans (by exact_mod_cast hnow))

/-- The queue empties, by induction on its length. -/
theorem exists_drained : ∀ (cs : List Candidate) {s : State}, s.candidates = cs → ProgressInv s →
    s.daemon ≠ .waiting false → ∃ ds s', RunWhere (step cfg) Due s ds s' ∧ s'.waiting = [] ∧ s.answers ⊆ s'.answers ∧
      ∀ c, s.Outstanding c → ∃ a ∈ s'.answers, a.request = c
  | [], s, hc, h, hw => by
    obtain ⟨ds, s', hrun, hr⟩ := exists_ready cfg h hw
    refine ⟨ds, s', hrun, ?_, hr.answers, fun c ho => ?_⟩
    · rw [waiting, hr.candidates.trans hc]
      rcases hr.daemon with hd | ⟨wakeUp, woken, hd⟩
      · rw [hd]; rfl
      · rw [hd]; rfl
    · rcases ho with ho | ho
      · rw [hc] at ho; cases ho
      · exact hr.answered c ho
  | c :: cs, s, hc, h, hw => by
    obtain ⟨ds, u, hrun, hr⟩ := exists_ready cfg h hw
    obtain ⟨e, t, hs, hdue, htd, htc, hta⟩ := exists_chosen cfg hr.daemon (hr.candidates.trans hc)
    obtain ⟨ds', s', hrun', hempty, hsub, hans⟩ :=
      exists_drained cs htc (progressInv_step hr.inv hs) (by rw [htd]; rintro ⟨⟩)
    rw [hta] at hsub
    refine ⟨ds ++ e :: ds', s', hrun.append (.cons hdue hs hrun'), hempty, fun a ha => hsub (hr.answers ha),
      fun d ho => ?_⟩
    rcases ho with ho | ho
    · rw [hc] at ho
      rcases List.mem_cons.1 ho with rfl | ho
      · exact hans d (.inr (by rw [htd]; rfl))
      · exact hans d (.inl (by rw [htc]; exact ho))
    · obtain ⟨a, ha, he⟩ := hr.answered d ho
      exact ⟨a, hsub ha, he⟩

/-- Left alone, the daemon comes to a state in which nothing waits for its response. -/
theorem exists_quiet (cfg : Config) (h : ProgressInv s) : ∃ ds s', RunWhere (step cfg) Due s ds s' ∧ s'.waiting = [] ∧
    ∀ c, s.Outstanding c → ∃ a ∈ s'.answers, a.request = c := by
  by_cases hw : s.daemon = .waiting false
  · have hempty : s.waiting = [] := by
      rw [waiting, h.noticed hw, hw]
      rfl
    refine ⟨[], s, .nil s, hempty, fun c ho => ?_⟩
    rw [← mem_waiting, hempty] at ho
    cases ho
  · obtain ⟨ds, s', hds, hempty, -, hans⟩ := exists_drained _ rfl h hw
    exact ⟨ds, s', hds, hempty, hans⟩

/-- Meanwhile the threads of the connections stay where they are. -/
theorem handlers_of_due (hdue : s.Due e) (hs : s.step cfg e = some s') : s'.handlers = s.handlers := by
  cases e with
  | accept socket => cases hdue
  | request conn name reqId overuse burst now => cases hdue
  | enqueue conn now => cases hdue
  | hangUp conn => cases hdue
  | configure name minf maxf gpuMemLimit => cases hdue
  | select now ts order => obtain ⟨-, -, ⟨-, rfl⟩ | ⟨c, rest, -, rfl⟩ | ⟨ms, rfl⟩⟩ := select_some hs <;> rfl
  | record now => obtain ⟨-, selected, inf, -, -, rfl⟩ := record_some hs; rfl
  | send => obtain ⟨selected, quota, -, rfl⟩ := send_some hs; rfl
  | arm now => obtain ⟨-, selected, quota, -, rfl⟩ := arm_some hs; rfl
  | block => obtain ⟨selected, deadline, -, rfl⟩ := block_some hs; rfl
  | wake now timedOut =>
    obtain ⟨-, ⟨b, -, rfl⟩ | ⟨selected, deadline, b, -, ⟨-, rfl⟩ | ⟨-, rfl⟩ | ⟨-, rfl⟩⟩⟩ := wake_some hs <;> rfl

/-! ## Over runs -/

/-- From every state of every run the daemon alone, without a spurious wake-up and on readings of the clock
late enough, can empty the queue and answer every request that waits; so it is never blocked for good while
one does. -/
theorem answers_all_of_run {es : List Event} (hrun : Run (step cfg) init es s) :
    ∃ ds s', RunWhere (step cfg) Due s ds s' ∧ s'.candidates = [] ∧
      ∀ c, s.Outstanding c → ∃ a ∈ s'.answers, a.request = c := by
  have h : ProgressInv s := hrun.invariant (fun _ _ _ h _ => progressInv_step h) progressInv_init
  obtain ⟨ds, s', hds, hempty, hans⟩ := exists_quiet cfg h
  exact ⟨ds, s', hds, (List.append_eq_nil_iff.1 hempty).1, hans⟩

/-- A client with no share, while its token is in the window. -/
def behindLimit : List Event :=
  [.configure "a" 0 0 0, .accept 4, .request 0 "a" 0 0 0 1000000, .enqueue 0 1000000, .select 2000000 [] [],
    .record 2000000, .send, .arm 2000000, .block, .request 0 "a" 1 0 0 3000000, .enqueue 0 3000000, .wake 3000000 false,
    .select 300000000 [⟨"a", -2⟩, ⟨"a", 3⟩] []]

theorem answers_all_of_sleeping : ∃ s, Run (step defaultConfig) init behindLimit s ∧
    (∃ wakeUp, s.daemon = .sleeping wakeUp false) ∧
    ∃ ds s', RunWhere (step defaultConfig) Due s ds s' ∧ s'.candidates = [] ∧
      ∀ c, s.Outstanding c → ∃ a ∈ s'.answers, a.request = c := by
  have hrun : ∃ s, Run (step defaultConfig) init behindLimit s ∧ s.daemon = .sleeping ⟨10, 3000000⟩ false :=
    exists_runWhere (by decide +kernel)
  obtain ⟨s, hrun, hd⟩ := hrun
  exact ⟨s, hrun, ⟨_, hd⟩, answers_all_of_run hrun⟩

end State

end Gemini.Scheduler
