/-
What the whole system does for a kernel launch that asks for quota, from the hook thread to the
scheduler and back.
-/
import Gemini.System.Refinement

namespace Gemini.System.State

open Gemini.Lib

variable {cfg : Scheduler.Config} {s : State} {conn : ℕ} {p : Pod} {es : List Event}

instance (s : State) (e : Event) : Decidable (s.ClosesIdle e) :=
  match e with
  | .schedule e => inferInstanceAs (Decidable (s.sched.ClosesIdle e))
  | .connect .. | .ask _ | .learn _ | .exit _ | .act .. | .receive _ | .serve .. => .isTrue trivial

/-- A pod manager connects, learns its limit, asks for quota through one hook thread and is answered. -/
def oneRoundTrip : List Event :=
  [.schedule (.configure "a" (1 / 2) 1 7), .connect "a" 4, .ask 0, .ask 0, .serve 0 0, .serve 0 0, .learn 0, .receive 0,
    .act 0 (.accept 9), .act 0 .forward, .act 0 (.request 9 0 5)] ++
  (PodManager.State.steps 9 8 []).map (.act 0) ++
  [.act 0 .forward, .serve 0 1000000, .schedule (.enqueue 0 1000000), .schedule (.select 1000000 [] []),
    .schedule (.record 1000000), .schedule .send, .receive 0, .act 0 (.advance 9 0)]

/-! ## The parts of the system -/

theorem similar_of_run (hrun : RunWhere (step cfg) ClosesIdle init es s) (conn : ℕ) :
    ∃ ds m, Run PodManager.State.step .init ds m ∧ Similar (s.managerAt conn) m :=
  (simulates_manager cfg conn).run (hrun.with_invariant (fun _ _ _ => inv_step) inv_init) (.refl _)

/-- In every run of the system the scheduler has made a run of its own, in which connections close
idle, and every pod manager has, but for early wake-ups, made one of its own. -/
theorem components_of_run (hrun : RunWhere (step cfg) ClosesIdle init es s) :
    (∃ ds, RunWhere (Scheduler.State.step cfg) Scheduler.State.ClosesIdle .init ds s.sched) ∧
    ∀ conn p, s.pods conn = some p → ∃ ds m, Run PodManager.State.step .init ds m ∧ Similar p.manager m := by
  constructor
  · obtain ⟨ds, t, hds, rfl⟩ := (simulates_scheduler cfg).run hrun rfl
    exact ⟨ds, hds⟩
  · intro conn p hp
    rw [← managerAt_eq hp]
    exact similar_of_run hrun conn

/-- A quota has made the whole way. -/
theorem components_of_round_trip : ∃ s, RunWhere (step Scheduler.defaultConfig) ClosesIdle init oneRoundTrip s ∧
    (s.managerAt 0).podQuota = 255 / 2 ∧
    ∀ conn p, s.pods conn = some p → ∃ ds m, Run PodManager.State.step .init ds m ∧ Similar p.manager m := by
  have hrun : ∃ s, RunWhere (step Scheduler.defaultConfig) ClosesIdle init oneRoundTrip s ∧
      (s.managerAt 0).podQuota = 255 / 2 := exists_runWhere (by decide +kernel)
  obtain ⟨s, hrun, hq⟩ := hrun
  exact ⟨s, hrun, hq, (components_of_run hrun).2⟩

/-! ## Requests -/

/-- The places of a request id, on the way out and on the way back. -/
def places (s : State) (conn : ℕ) (p : Pod) : Multiset ℕ :=
  (p.manager.requestQueue.map (fun r => r.reqId + 1) : Multiset ℕ) + (p.upIds : Multiset ℕ) + s.sched.held conn +
    (p.downIds : Multiset ℕ) + ((keys p.manager.responseMap).map (· + 1) : Multiset ℕ)

theorem places_eq (h : Inv s) (hp : s.pods conn = some p) :
    s.places conn p = (p.manager.tickets.map (· + 1) : Multiset ℕ) := by
  have ho := (h.pods conn p hp).outstanding
  simp only [books, List.map_map, Function.comp_def] at ho
  simp only [places, PodManager.State.tickets, PodManager.State.unanswered, List.map_append, List.map_map,
    Function.comp_def, ← Multiset.coe_add, ho]
  abel

/-- An id that a hook thread waits for is in one of the places. -/
theorem count_places (hrun : RunWhere (step cfg) ClosesIdle init es s) (hp : s.pods conn = some p) {t reqId : ℕ}
    (ht : (p.manager.threads t).awaiting = some reqId) : (s.places conn p).count (reqId + 1) = 1 := by
  obtain ⟨ds, m, hm, f, hf, hsim⟩ := similar_of_run hrun conn
  rw [managerAt_eq hp] at hsim
  obtain ⟨g, hrec⟩ := hm.recorded PodManager.State.noteReplies []
  have htick := PodManager.State.ticketInv_of_run (hrec.mono fun _ _ _ => trivial)
  have hmem : reqId ∈ m.tickets := by
    refine (htick.waited reqId).1 ⟨t, ?_⟩
    rw [hsim] at ht
    rw [← hf.awaiting]
    exact ht
  have hsame : p.manager.tickets = m.tickets := by rw [hsim]; rfl
  rw [places_eq (inv_of_run hrun) hp, hsame, Multiset.coe_count, List.count_map_of_injective _ _ (add_left_injective 1)]
  exact List.count_eq_one_of_mem htick.nodup_tickets hmem

/-- In every run: the ids that a pod manager has given out are queued, on the wire, held by the
scheduler or answered by it, each once; a request on the wire is of a client that the scheduler
knows; and the id that a hook thread waits for is in one place between its queue and `response_map`. -/
theorem requests_end_to_end (hrun : RunWhere (step cfg) ClosesIdle init es s) (hp : s.pods conn = some p) :
    (p.manager.requestQueue.map (fun r => r.reqId + 1) : Multiset ℕ) + (p.upIds : Multiset ℕ) + s.sched.held conn +
      (s.sched.answered conn : Multiset ℕ) = (Multiset.range p.manager.reqCnt).map (· + 1) ∧
    (p.upIds ≠ [] → ∃ inf, s.sched.clients p.name = some inf) ∧
    ∀ t reqId, (p.manager.threads t).awaiting = some reqId → (s.places conn p).count (reqId + 1) = 1 := by
  have hpod := (inv_of_run hrun).pods conn p hp
  refine ⟨?_, fun hne => ?_, fun t reqId => count_places hrun hp⟩
  · have hc := hpod.conserved
    simpa only [books, List.map_map, Function.comp_def] using hc
  · obtain ⟨reqId, hr⟩ := List.exists_mem_of_ne_nil _ hne
    exact hpod.known (.inr (.inl (hpod.issued_pos hr)))

/-- The one request of the round trip, when it is on its way to the scheduler. -/
theorem requests_end_to_end_of_round_trip : ∃ s p, RunWhere (step Scheduler.defaultConfig) ClosesIdle init
    (oneRoundTrip.take 20) s ∧ s.pods 0 = some p ∧ (p.manager.threads 9).awaiting = some 0 ∧
    (s.places 0 p).count 1 = 1 := by
  have hrun : ∃ s, RunWhere (step Scheduler.defaultConfig) ClosesIdle init (oneRoundTrip.take 20) s ∧
      (s.pods 0).any (fun p => decide ((p.manager.threads 9).awaiting = some 0)) = true :=
      exists_runWhere (by decide +kernel)
  obtain ⟨s, hrun, hany⟩ := hrun
  obtain ⟨p, hp, ht⟩ := (Option.any_eq_true ..).1 hany
  have ht := of_decide_eq_true ht
  exact ⟨s, p, hrun, hp, ht, (requests_end_to_end hrun hp).2.2 9 0 ht⟩

/-! ## Quotas -/

/-- What the scheduler has answered is a token that it has recorded. -/
theorem token_of_answer {sched : Scheduler.State} {g : Scheduler.Traffic} (h : Scheduler.State.Conserved sched g)
    {a : Scheduler.Answer} (ha : a ∈ sched.answers) :
    ∃ tok ∈ g.tokens, tok.name = a.request.name ∧ tok.end - tok.start = a.quota := by
  have hm : (a.request.name, a.quota) ∈ g.tokens.map fun t => (t.name, t.end - t.start) := by
    rw [← h.quotas]
    exact List.mem_append_left _ (List.mem_map.2 ⟨a, ha, rfl⟩)
  obtain ⟨tok, ht, he⟩ := List.mem_map.1 hm
  exact ⟨tok, ht, congrArg Prod.fst he, congrArg Prod.snd he⟩

/-- In every run, with the record of the tokens that the scheduler has granted in it: each response
that a pod manager keeps answers its own request of that id, and its quota, and the quota that the
pod manager works with, are the length of a token granted under the name of the pod manager. -/
theorem quota_end_to_end (hrun : RunWhere (step cfg) ClosesIdle init es s) (hp : s.pods conn = some p) :
    ∃ ds g, Run (Scheduler.State.stepTraffic cfg) (.init, ⟨[], [], []⟩) ds (s.sched, g) ∧
    (∀ e ∈ p.manager.responseMap, ∃ a ∈ s.sched.answers, a.request.conn = conn ∧ a.request.name = p.name ∧
      a.request.reqId.toNat = e.1 + 1 ∧ ∃ tok ∈ g.tokens, tok.name = p.name ∧ tok.end - tok.start = e.2) ∧
    (p.manager.podQuota ≠ 0 → ∃ tok ∈ g.tokens, tok.name = p.name ∧ tok.end - tok.start = p.manager.podQuota) := by
  have hinv := inv_of_run hrun
  have hpod := hinv.pods conn p hp
  obtain ⟨ds, t, hds, rfl⟩ := (simulates_scheduler cfg).run hrun rfl
  obtain ⟨g, hrec⟩ := hds.recorded (Scheduler.State.noteTraffic cfg) ⟨[], [], []⟩
  have hrec : Run (Scheduler.State.stepTraffic cfg) (.init, ⟨[], [], []⟩) ds (s.sched, g) :=
    hrec.mono fun _ _ _ => trivial
  have hcons := Scheduler.State.conserved_of_run hrec
  have hname : ∀ {a : Scheduler.Answer}, a ∈ s.sched.answers → a.request.conn = conn → a.request.name = p.name := by
    intro a ha hc
    obtain ⟨q, hq, hn⟩ := hinv.named conn a.request.name (.inr (.inr ⟨a, ha, hc, rfl⟩))
    rw [hp] at hq
    cases hq
    exact hn.symm
  refine ⟨ds, g, hrec, fun e he => ?_, fun h0 => ?_⟩
  · obtain ⟨a, ha, hc, hid, hq⟩ := hpod.entries e he
    obtain ⟨tok, ht, htn, htq⟩ := token_of_answer hcons ha
    exact ⟨a, ha, hc, hname ha hc, hid, tok, ht, htn.trans (hname ha hc), htq.trans hq⟩
  · obtain ⟨reqId, a, ha, hc, -, hq⟩ := hpod.quota.resolve_left h0
    obtain ⟨tok, ht, htn, htq⟩ := token_of_answer hcons ha
    exact ⟨tok, ht, htn.trans (hname ha hc), htq.trans hq⟩

/-- The quota of the round trip. -/
theorem quota_end_to_end_of_round_trip : ∃ s p, RunWhere (step Scheduler.defaultConfig) ClosesIdle init
    oneRoundTrip s ∧ s.pods 0 = some p ∧ p.manager.podQuota = 255 / 2 ∧
    ∃ ds g, Run (Scheduler.State.stepTraffic Scheduler.defaultConfig) (.init, ⟨[], [], []⟩) ds (s.sched, g) ∧
      ∃ tok ∈ g.tokens, tok.name = p.name ∧ tok.end - tok.start = 255 / 2 := by
  have hrun : ∃ s, RunWhere (step Scheduler.defaultConfig) ClosesIdle init oneRoundTrip s ∧
      (s.pods 0).any (fun p => decide (p.manager.podQuota = 255 / 2)) = true := exists_runWhere (by decide +kernel)
  obtain ⟨s, hrun, hany⟩ := hrun
  obtain ⟨p, hp, hq⟩ := (Option.any_eq_true ..).1 hany
  have hq := of_decide_eq_true hq
  obtain ⟨ds, g, hrec, -, htok⟩ := quota_end_to_end hrun hp
  refine ⟨s, p, hrun, hp, hq, ds, g, hrec, ?_⟩
  rw [← hq]
  exact htok (by rw [hq]; norm_num)

end Gemini.System.State
