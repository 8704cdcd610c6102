/-
No quota request is lost, duplicated or mixed up. The history variables are the REQ_QUOTAs that
`handle_message` has read from known clients, the candidates it has pushed and the entries that
`Record` has appended. What is read is pushed or about to be pushed; what is pushed is answered,
selected or still queued, in the order of its arrival; and the quotas that were sent are, one by one,
those of the recorded entries.
-/
import Gemini.Lib.Ghost
import Gemini.Lib.Update
import Gemini.Scheduler.Delivery

namespace Gemini.Scheduler

open Gemini.Lib

/-! ## Requests -/

/-- What a response goes by: the socket, the name and the request id of a REQ_QUOTA. -/
structure QuotaRequest where
  socket : ℕ
  name : String
  reqId : ℤ
deriving DecidableEq, Repr

def Candidate.request (c : Candidate) : QuotaRequest := ⟨c.socket, c.name, c.reqId⟩

/-- The request that the thread of a connection has read and is about to push. -/
def Handler.inProgress : Option Handler → Multiset QuotaRequest
  | some ⟨socket, some (name, reqId)⟩ => {⟨socket, name, reqId⟩}
  | _ => 0

theorem Handler.inProgress_none : Handler.inProgress none = 0 := rfl

theorem Handler.inProgress_idle (socket : ℕ) : Handler.inProgress (some ⟨socket, none⟩) = 0 := rfl

theorem Handler.inProgress_pending (socket : ℕ) (name : String) (reqId : ℤ) :
    Handler.inProgress (some ⟨socket, some (name, reqId)⟩) = {⟨socket, name, reqId⟩} := rfl

/-- The token that is recorded and whose quota is not sent yet. -/
def Daemon.recorded : Daemon → List (String × ℚ)
  | .granted selected quota => [(selected.name, quota)]
  | _ => []

@[simp] theorem Daemon.recorded_signal (d : Daemon) : d.signal.recorded = d.recorded := by cases d <;> rfl

/-! ## The record -/

/-- The history variables. -/
structure Traffic where
  received : List QuotaRequest
  accepted : List Candidate
  tokens : List History
deriving DecidableEq, Repr

/-- A change of an entry that keeps `k` keeps `k` of the list. -/
theorem map_updateLast {α β : Type*} (name : α → String) (c : String) (k : α → β) (f : α → α) (hf : ∀ x, k (f x) = k x)
    (xs : List α) : (updateLast name c f xs).map k = xs.map k := by
  have hfirst : ∀ ys : List α, (updateFirst name c f ys).map k = ys.map k := by
    intro ys
    induction ys with
    | nil => rfl
    | cons y ys ih =>
      rw [updateFirst]
      split
      · rw [List.map_cons, List.map_cons, hf]
      · rw [List.map_cons, List.map_cons, ih]
  rw [updateLast, List.map_reverse, hfirst, List.map_reverse, List.reverse_reverse]

namespace State

/-- What an event adds to the record. -/
def noteTraffic (cfg : Config) (s : State) : Event → Traffic → Traffic
  | .request conn name reqId _ _ _, g =>
    match s.handlers conn, s.clients name with
    | some h, some _ => { g with received := g.received ++ [⟨h.socket, name, reqId⟩] }
    | _, _ => g
  | .enqueue conn now, g =>
    match s.handlers conn with
    | some ⟨socket, some (name, reqId)⟩ =>
      { g with accepted := g.accepted ++ [⟨socket, name, reqId, msSinceStart cfg now, conn⟩] }
    | _ => g
  | .record now, g =>
    match s.daemon with
    | .chosen selected =>
      match s.clients selected.name with
      | some inf =>
        { g with tokens := g.tokens ++
          [⟨selected.name, msSinceStart cfg now, msSinceStart cfg now + inf.getQuota.quota⟩] }
      | none => g
    | _ => g
  | _, g => g

/-- The scheduler, with its record. -/
def stepTraffic (cfg : Config) : State × Traffic → Event → Option (State × Traffic) :=
  withHistory (step cfg) (noteTraffic cfg)

/-- The requests that the threads are about to push. -/
def inProgress (s : State) : Multiset QuotaRequest :=
  ∑ conn ∈ Finset.range s.nextConn, Handler.inProgress (s.handlers conn)

/-- What is conserved. -/
structure Conserved (s : State) (g : Traffic) : Prop where
  fresh : ∀ conn, s.nextConn ≤ conn → s.handlers conn = none
  received :
    (g.received : Multiset QuotaRequest) = (g.accepted.map Candidate.request : Multiset QuotaRequest) + s.inProgress
  accepted : (g.accepted : Multiset Candidate) =
    (s.answers.map Answer.request : Multiset Candidate) + s.daemon.unanswered.toList + s.candidates
  order : s.candidates.Sublist g.accepted
  quotas : (s.answers.map fun a => (a.request.name, a.quota)) ++ s.daemon.recorded =
    g.tokens.map fun t => (t.name, t.end - t.start)
  entries : (s.timeline.fullHistory.map fun x => (x.name, x.start)) = g.tokens.map fun t => (t.name, t.start)

theorem conserved_init : Conserved init ⟨[], [], []⟩ :=
  ⟨fun _ _ => rfl, by simp [inProgress, init], by simp [init, Daemon.unanswered], List.nil_sublist _, rfl, rfl⟩

variable {cfg : Config} {s s' : State} {g : Traffic}

/-- An open connection is a number that was given out. -/
theorem Conserved.lt_nextConn (h : Conserved s g) {conn : ℕ} {handler : Handler} (hh : s.handlers conn = some handler) :
    conn ∈ Finset.range s.nextConn := by
  rw [Finset.mem_range]
  by_contra hle
  rw [h.fresh conn (by omega)] at hh
  cases hh

/-- What is conserved speaks of the connections, the queue, the answers and the time line only. -/
theorem Conserved.of_frame (h : Conserved s g) (hh : s'.handlers = s.handlers) (hn : s'.nextConn = s.nextConn)
    (hc : s'.candidates = s.candidates) (ha : s'.answers = s.answers) (hu : s'.daemon.unanswered = s.daemon.unanswered)
    (hr : s'.daemon.recorded = s.daemon.recorded)
    (ht : (s'.timeline.fullHistory.map fun x => (x.name, x.start)) =
      s.timeline.fullHistory.map fun x => (x.name, x.start)) :
    Conserved s' g := by
  refine ⟨?_, ?_, ?_, ?_, ?_, ?_⟩
  · rw [hh, hn]; exact h.fresh
  · rw [inProgress, hh, hn]; exact h.received
  · rw [hc, ha, hu]; exact h.accepted
  · rw [hc]; exact h.order
  · rw [ha, hr]; exact h.quotas
  · rw [ht]; exact h.entries

theorem conserved_accept (h : Conserved s g) {socket : ℕ} (hs : s.accept socket = some s') : Conserved s' g := by
  obtain ⟨-, rfl⟩ := accept_some hs
  refine ⟨fun conn hc => ?_, ?_, h.accepted, h.order, h.quotas, h.entries⟩
  · have hc' : s.nextConn + 1 ≤ conn := hc
    exact (Function.update_of_ne (by omega) ..).trans (h.fresh conn (by omega))
  · rw [h.received]
    simp only [inProgress, Finset.sum_range_succ, Function.update_self]
    rw [sum_update_of_notMem _ (by simp) Handler.inProgress]
    simp [Handler.inProgress]

/-- What a thread is about to push is what it has read. -/
theorem conserved_request (h : Conserved s g) {conn : ℕ} {name : String} {reqId : ℤ} {overuse burst : ℚ} {now : ℕ}
    (hs : s.request cfg conn name reqId overuse burst now = some s') :
    Conserved s' (s.noteTraffic cfg (.request conn name reqId overuse burst now) g) := by
  obtain ⟨-, socket, hh, ⟨hn, rfl⟩ | ⟨inf, hi, rfl⟩⟩ := request_some hs
  · simp only [noteTraffic, hh, hn]
    exact h.of_frame rfl rfl rfl rfl rfl rfl rfl
  · simp only [noteTraffic, hh, hi]
    refine ⟨fresh_update h.fresh hh _, ?_, h.accepted, h.order, h.quotas, ?_⟩
    · have hsum := sum_update_add s.handlers (h.lt_nextConn hh) Handler.inProgress (some ⟨socket, some (name, reqId)⟩)
      simp only [hh, Handler.inProgress_idle, Handler.inProgress_pending, add_zero] at hsum
      simp only [inProgress, hsum, ← Multiset.coe_add, h.received, Multiset.coe_singleton, add_assoc]
    · rw [← h.entries]
      exact map_updateLast _ _ (fun x : Tracked => (x.name, x.start))
        (fun x => ⟨x.toHistory.returned overuse (msSinceStart cfg now), x.listed⟩) (fun _ => rfl) _

theorem conserved_enqueue (h : Conserved s g) {conn now : ℕ} (hs : s.enqueue cfg conn now = some s') :
    Conserved s' (s.noteTraffic cfg (.enqueue conn now) g) := by
  obtain ⟨-, -, socket, name, reqId, hh, rfl⟩ := enqueue_some hs
  simp only [noteTraffic, hh]
  refine ⟨fresh_update h.fresh hh _, ?_, ?_, h.order.append_right _, by simpa using h.quotas, h.entries⟩
  · have hsum := sum_update_add s.handlers (h.lt_nextConn hh) Handler.inProgress (some ⟨socket, none⟩)
    simp only [hh, Handler.inProgress_idle, Handler.inProgress_pending, add_zero] at hsum
    simp only [inProgress, h.received, ← hsum, List.map_append, ← Multiset.coe_add]
    simp only [List.map_cons, List.map_nil, Multiset.coe_singleton, Candidate.request]
    abel
  · simp only [← Multiset.coe_add, h.accepted, Daemon.unanswered_signal, add_assoc]

theorem conserved_hangUp (h : Conserved s g) {conn : ℕ} (hs : s.hangUp conn = some s') : Conserved s' g := by
  obtain ⟨socket, hh, rfl⟩ := hangUp_some hs
  refine ⟨fresh_update h.fresh hh _, ?_, h.accepted, h.order, h.quotas, h.entries⟩
  have hsum := sum_update_add s.handlers (h.lt_nextConn hh) Handler.inProgress none
  simp only [hh, Handler.inProgress_idle, Handler.inProgress_none, add_zero] at hsum
  simp only [inProgress, hsum, h.received]

/-- Both ways out of `select_candidate` take one request out of the queue. -/
theorem conserved_select (h : Conserved s g) {now : ℕ} {ts : List ContainerTimestamp} {order : List ValidCandidate}
    (hs : s.select cfg now ts order = some s') : Conserved s' g := by
  obtain ⟨-, hd, hcases⟩ := select_some hs
  have hidle : s.daemon.unanswered = none ∧ s.daemon.recorded = [] := by
    rcases hd with hd | ⟨w, b, hd⟩ <;> rw [hd] <;> exact ⟨rfl, rfl⟩
  have hpruned : ((s.timeline.prune (msSinceStart cfg now - cfg.windowSize) (msSinceStart cfg now)).fullHistory.map
      fun x => (x.name, x.start)) = s.timeline.fullHistory.map fun x => (x.name, x.start) := by
    rw [Timeline.prune, List.map_map]
    rfl
  rcases hcases with ⟨-, rfl⟩ | ⟨c, rest, hp, rfl⟩ | ⟨ms, rfl⟩
  · exact h.of_frame rfl rfl rfl rfl hidle.1.symm hidle.2.symm rfl
  · obtain ⟨i, hi, rfl⟩ := selectPass_mem hp
    obtain ⟨hlt, hget⟩ := List.getElem?_eq_some_iff.1 hi
    refine ⟨h.fresh, h.received, ?_, ?_, ?_, hpruned.trans h.entries⟩
    · have hperm : (s.candidates : Multiset Candidate) = (c :: s.candidates.eraseIdx i : List Candidate) := by
        rw [Multiset.coe_eq_coe, ← hget]
        exact (List.getElem_cons_eraseIdx_perm hlt).symm
      rw [h.accepted, hidle.1, hperm, ← Multiset.cons_coe]
      simp only [Daemon.unanswered, Option.toList_none, Option.toList_some, Multiset.coe_nil, add_zero,
        Multiset.coe_singleton, ← Multiset.singleton_add, add_assoc]
    · exact (List.eraseIdx_sublist _ _).trans h.order
    · have hq := h.quotas
      rw [hidle.2] at hq
      exact hq
  · exact h.of_frame rfl rfl rfl rfl hidle.1.symm hidle.2.symm hpruned

/-- The quota in the answer will be that of the entry that is recorded with it. -/
theorem conserved_record (h : Conserved s g) {now : ℕ} (hs : s.record cfg now = some s') :
    Conserved s' (s.noteTraffic cfg (.record now) g) := by
  obtain ⟨-, selected, inf, hd, hi, rfl⟩ := record_some hs
  simp only [noteTraffic, hd, hi]
  refine ⟨h.fresh, h.received, ?_, h.order, ?_, ?_⟩
  · simpa [hd, Daemon.unanswered] using h.accepted
  · have hq := h.quotas
    simp only [hd, Daemon.recorded, List.append_nil] at hq
    simp [hq, Daemon.recorded]
  · simp [Timeline.record, h.entries]

theorem conserved_send (h : Conserved s g) (hs : s.send = some s') : Conserved s' g := by
  obtain ⟨selected, quota, hd, rfl⟩ := send_some hs
  refine ⟨h.fresh, h.received, ?_, h.order, ?_, h.entries⟩
  · rw [h.accepted, hd]
    simp [Daemon.unanswered, ← Multiset.coe_add]
  · rw [← h.quotas, hd]
    simp [Daemon.recorded]

theorem conserved_step {p q : State × Traffic} {e : Event} (h : Conserved p.1 p.2)
    (hrec : stepTraffic cfg p e = some q) : Conserved q.1 q.2 := by
  obtain ⟨s, g⟩ := p
  obtain ⟨s', g'⟩ := q
  obtain ⟨hs, hg⟩ := withHistory_some hrec
  simp only at hs hg h
  subst hg
  cases e with
  | accept socket => exact conserved_accept h hs
  | request conn name reqId overuse burst now => exact conserved_request h hs
  | enqueue conn now => exact conserved_enqueue h hs
  | hangUp conn => exact conserved_hangUp h hs
  | configure name minf maxf gpuMemLimit => cases hs; exact h.of_frame rfl rfl rfl rfl rfl rfl rfl
  | select now ts order => exact conserved_select h hs
  | record now => exact conserved_record h hs
  | send => exact conserved_send h hs
  | arm now =>
    obtain ⟨-, selected, quota, hd, rfl⟩ := arm_some hs
    exact h.of_frame rfl rfl rfl rfl (by rw [hd]; rfl) (by rw [hd]; rfl) rfl
  | block =>
    obtain ⟨selected, deadline, hd, rfl⟩ := block_some hs
    exact h.of_frame rfl rfl rfl rfl (by rw [hd]; rfl) (by rw [hd]; rfl) rfl
  | wake now timedOut =>
    obtain ⟨-, ⟨b, hd, rfl⟩ | ⟨selected, deadline, b, hd, ⟨-, rfl⟩ | ⟨-, rfl⟩ | ⟨-, rfl⟩⟩⟩ := wake_some hs <;>
      exact h.of_frame rfl rfl rfl rfl (by rw [hd]; rfl) (by rw [hd]; rfl) rfl

/-! ## Conservation over runs -/

theorem conserved_of_run {es : List Event} (hrun : Run (stepTraffic cfg) (init, ⟨[], [], []⟩) es (s, g)) :
    Conserved s g :=
  hrun.invariant (P := fun p => Conserved p.1 p.2) (fun _ _ _ h _ => conserved_step h) conserved_init

/-- In every run: the requests read from known clients are those pushed and those about to be pushed;
those pushed are answered, selected or queued; the answers and the token that is about to be answered
have the names and the quotas of the entries recorded, one by one, and these are all the entries there
are; and the queue is in the order of arrival. -/
theorem requests_conserved {es : List Event} (hrun : Run (stepTraffic cfg) (init, ⟨[], [], []⟩) es (s, g)) :
    (g.received : Multiset QuotaRequest) = (g.accepted.map Candidate.request : Multiset QuotaRequest) + s.inProgress ∧
    (g.accepted.map Candidate.request : Multiset QuotaRequest) =
      (s.answers.map fun a => a.request.request : Multiset QuotaRequest) +
        (s.daemon.unanswered.toList.map Candidate.request : Multiset QuotaRequest) +
        (s.candidates.map Candidate.request : Multiset QuotaRequest) ∧
    (s.answers.map fun a => (a.request.name, a.quota)) ++ s.daemon.recorded =
      (g.tokens.map fun t => (t.name, t.end - t.start)) ∧
    (s.timeline.fullHistory.map fun x => (x.name, x.start)) = (g.tokens.map fun t => (t.name, t.start)) ∧
    s.candidates.Sublist g.accepted := by
  have h := conserved_of_run hrun
  refine ⟨h.received, ?_, h.quotas, h.entries, h.order⟩
  have hacc := congrArg (Multiset.map Candidate.request) h.accepted
  simpa only [Multiset.map_add, Multiset.map_coe, List.map_map, Function.comp_def] using hacc

/-- One request is answered while another waits. -/
theorem requests_conserved_of_two : ∃ s g,
    Run (stepTraffic defaultConfig) (init, ⟨[], [], []⟩)
      (connectAndAsk ++ [.request 0 "a" 1 0 0 1000000] ++ grantToken ++
      [.enqueue 0 2000000]) (s, g) ∧
    (g.accepted.map Candidate.request : Multiset QuotaRequest) = {⟨4, "a", 0⟩, ⟨4, "a", 1⟩} ∧
    (g.accepted.map Candidate.request : Multiset QuotaRequest) =
      (s.answers.map fun a => a.request.request : Multiset QuotaRequest) +
        (s.daemon.unanswered.toList.map Candidate.request : Multiset QuotaRequest) +
        (s.candidates.map Candidate.request : Multiset QuotaRequest) := by
  have hrun : ∃ p : State × Traffic, Run (stepTraffic defaultConfig) (init, ⟨[], [], []⟩)
      (connectAndAsk ++ [.request 0 "a" 1 0 0 1000000] ++ grantToken ++ [.enqueue 0 2000000]) p ∧
      p.2.accepted.map Candidate.request = [⟨4, "a", 0⟩, ⟨4, "a", 1⟩] := exists_runWhere (by decide +kernel)
  obtain ⟨⟨s, g⟩, hrun, hacc⟩ := hrun
  exact ⟨s, g, hrun, by rw [hacc]; rfl, (requests_conserved hrun).2.1⟩

end State

end Gemini.Scheduler
