/-
Which thread waits for which request. Whatever the threads of a pod manager do, and also where two
of them ask at once, a request id is given out once and answered once, the ids that are queued, with
the scheduler or in `response_map` are those that a thread waits for, one thread for each, and what a
thread finds in `response_map` is what the scheduler has answered to its own request.
-/
import Gemini.Lib.Ghost
import Gemini.PodManager.Exclusion

namespace Gemini.PodManager

open Gemini.Lib

namespace State

variable {s s' : State} {t : ℕ} {now : ℤ} {e : Event} {g : List (ℕ × ℚ)}

/-- The ids whose responses are not consumed: queued, with the scheduler, or in `response_map`. -/
def tickets (s : State) : List ℕ := s.unanswered.map Request.reqId ++ keys s.responseMap

/-- The responses that have come, in their order (a history variable). -/
def noteReplies (_ : State) : Event → List (ℕ × ℚ) → List (ℕ × ℚ)
  | .reply reqId quota, g => g ++ [(reqId, quota)]
  | _, g => g

def stepReplies : State × List (ℕ × ℚ) → Event → Option (State × List (ℕ × ℚ)) := withHistory step noteReplies

/-- The ids that were given out are unanswered or answered, each once; responses are kept as they
came; and threads and ids that wait for each other are paired. -/
structure TicketInv (s : State) (g : List (ℕ × ℚ)) : Prop where
  conserved : (s.unanswered.map Request.reqId : Multiset ℕ) + (keys g : Multiset ℕ) = Multiset.range s.reqCnt
  kept : ∀ e ∈ s.responseMap, e ∈ g
  distinct : (keys s.responseMap).Nodup
  waited : ∀ reqId, (∃ t, (s.threads t).awaiting = some reqId) ↔ reqId ∈ s.tickets
  alone : ∀ t u reqId, (s.threads t).awaiting = some reqId → (s.threads u).awaiting = some reqId → t = u

theorem ticketInv_init : TicketInv init [] := by
  refine ⟨rfl, nofun, List.nodup_nil, fun reqId => ?_, nofun⟩
  simp [init, tickets, unanswered, keys, HookThread.awaiting]

/-! ## What the ids of a state are -/

theorem TicketInv.nodup (h : TicketInv s g) : (s.unanswered.map Request.reqId ++ keys g).Nodup := by
  rw [← Multiset.coe_nodup, ← Multiset.coe_add, h.conserved]
  exact Multiset.nodup_range _

/-- An id was given out before the counter came to where it is. -/
theorem TicketInv.issued (h : TicketInv s g) {reqId : ℕ} (hr : reqId ∈ s.unanswered.map Request.reqId ++ keys g) :
    reqId < s.reqCnt := by
  rw [← Multiset.mem_range, ← h.conserved, Multiset.coe_add]
  exact hr

theorem TicketInv.keys_subset (h : TicketInv s g) {reqId : ℕ} (hr : reqId ∈ keys s.responseMap) : reqId ∈ keys g := by
  obtain ⟨e, he, rfl⟩ := mem_keys.1 hr
  exact mem_keys.2 ⟨e, h.kept e he, rfl⟩

/-- A request without a response has none in `response_map`. -/
theorem TicketInv.disjoint (h : TicketInv s g) {reqId : ℕ} (hr : reqId ∈ s.unanswered.map Request.reqId) :
    reqId ∉ keys g := fun hk => (List.nodup_append.1 h.nodup).2.2 reqId hr reqId hk rfl

theorem TicketInv.nodup_tickets (h : TicketInv s g) : s.tickets.Nodup :=
  List.nodup_append.2 ⟨(List.nodup_append.1 h.nodup).1, h.distinct, fun _ ha _ hb hab =>
    h.disjoint ha (hab ▸ h.keys_subset hb)⟩

theorem TicketInv.mem_tickets_lt (h : TicketInv s g) {reqId : ℕ} (hr : reqId ∈ s.tickets) : reqId < s.reqCnt :=
  h.issued ((List.mem_append.1 hr).elim (List.mem_append_left _) fun hk => List.mem_append_right _ (h.keys_subset hk))

/-- A step that changes neither who waits nor what for. -/
theorem TicketInv.of_frame (h : TicketInv s g) (ha : ∀ u, (s'.threads u).awaiting = (s.threads u).awaiting)
    (hr : s'.unanswered.Perm s.unanswered) (hm : s'.responseMap = s.responseMap) (hc : s'.reqCnt = s.reqCnt) :
    TicketInv s' g := by
  have hids : (s'.unanswered.map Request.reqId).Perm (s.unanswered.map Request.reqId) := hr.map _
  refine ⟨?_, hm ▸ h.kept, hm ▸ h.distinct, fun reqId => ?_, fun t u reqId => ?_⟩
  · rw [Multiset.coe_eq_coe.2 hids, hc]
    exact h.conserved
  · simp only [ha, h.waited, tickets, hm, List.mem_append, hids.mem_iff]
  · simp only [ha]
    exact h.alone t u reqId

/-- A thread that moves on and waits for what it did before. -/
theorem TicketInv.of_goto (h : TicketInv s g) {d : HookThread} (ht : s'.threads = Function.update s.threads t d)
    (ha : d.awaiting = (s.threads t).awaiting) (hr : s'.unanswered = s.unanswered) (hm : s'.responseMap = s.responseMap)
    (hc : s'.reqCnt = s.reqCnt) : TicketInv s' g := by
  refine h.of_frame (fun u => ?_) (hr ▸ List.Perm.refl _) hm hc
  rw [ht]
  by_cases hut : u = t
  · rw [hut, Function.update_self, ha]
  · rw [Function.update_of_ne hut]

/-! ## A request and its response -/

/-- The thread that asks waits for an id that nobody has. -/
theorem ticketInv_enqueue (h : TicketInv s g) {burst : ℚ} (ht : s.threads t = .enqueue burst) :
    TicketInv { s.goto t (.await s.reqCnt) with
      requestQueue := s.requestQueue ++ [⟨s.reqCnt, s.podOveruseMs, burst⟩]
      reqCnt := s.reqCnt + 1
      sender := s.sender.signal } g := by
  have hnone : (s.threads t).awaiting = none := by rw [ht]; rfl
  have hold : ∀ {u reqId}, (Function.update s.threads t (.await s.reqCnt) u).awaiting = some reqId →
      (u = t ∧ reqId = s.reqCnt) ∨ (u ≠ t ∧ (s.threads u).awaiting = some reqId ∧ reqId < s.reqCnt) := by
    intro u reqId hu
    by_cases hut : u = t
    · rw [hut, Function.update_self] at hu
      cases hu
      exact .inl ⟨hut, rfl⟩
    · rw [Function.update_of_ne hut] at hu
      exact .inr ⟨hut, hu, h.mem_tickets_lt ((h.waited reqId).1 ⟨u, hu⟩)⟩
  refine ⟨?_, h.kept, h.distinct, fun reqId => ?_, fun u v reqId hu hv => ?_⟩
  · have hperm :
      ((s.requestQueue ++ [(⟨s.reqCnt, s.podOveruseMs, burst⟩ : Request)] ++ s.inFlight).map Request.reqId).Perm
        (s.reqCnt :: s.unanswered.map Request.reqId) := by
      simp only [unanswered, List.map_append, List.append_assoc]
      exact List.perm_middle
    show (((s.requestQueue ++ [(⟨s.reqCnt, s.podOveruseMs, burst⟩ : Request)] ++ s.inFlight).map Request.reqId :
      List ℕ) : Multiset ℕ) + _ = _
    rw [Multiset.coe_eq_coe.2 hperm, ← Multiset.cons_coe, Multiset.cons_add, h.conserved, Multiset.range_succ]
  · have hmem : reqId ∈ State.tickets { s.goto t (.await s.reqCnt) with
        requestQueue := s.requestQueue ++ [⟨s.reqCnt, s.podOveruseMs, burst⟩]
        reqCnt := s.reqCnt + 1
        sender := s.sender.signal } ↔ reqId = s.reqCnt ∨ reqId ∈ s.tickets := by
      simp only [tickets, unanswered, goto, List.map_append, List.mem_append, List.map_cons, List.map_nil,
        List.mem_singleton]
      tauto
    rw [hmem, ← h.waited]
    constructor
    · rintro ⟨u, hu⟩
      rcases hold hu with ⟨-, rfl⟩ | ⟨-, hu, -⟩
      · exact .inl rfl
      · exact .inr ⟨u, hu⟩
    · rintro (rfl | ⟨u, hu⟩)
      · exact ⟨t, by simp [goto, HookThread.awaiting]⟩
      · have hut : u ≠ t := by rintro rfl; rw [hnone] at hu; cases hu
        refine ⟨u, ?_⟩
        simpa [goto, Function.update_of_ne hut] using hu
  · rcases hold hu with ⟨rfl, rfl⟩ | ⟨-, hu, hlt⟩ <;> rcases hold hv with ⟨rfl, hr⟩ | ⟨-, hv, hlt'⟩
    · rfl
    · omega
    · omega
    · exact h.alone u v reqId hu hv

/-- The thread that finds its response takes it, and nobody else waits for it. -/
theorem ticketInv_consume (h : TicketInv s g) {reqId : ℕ} {woken : Bool} {quota : ℚ}
    (ht : s.threads t = .waitRsp reqId woken) (hl : s.responseMap.lookup reqId = some quota) :
    TicketInv { s.goto t (.finish 0 true) with
      podQuota := quota, quotaUpdatedTp := now, podOveruseMs := 0, responseMap := eraseKey reqId s.responseMap } g := by
  have hself : (s.threads t).awaiting = some reqId := by rw [ht]; rfl
  have hkey : reqId ∈ keys s.responseMap := mem_keys.2 ⟨_, mem_of_lookup hl, rfl⟩
  have hun : reqId ∉ s.unanswered.map Request.reqId := fun hr => h.disjoint hr (h.keys_subset hkey)
  have hmem : ∀ k, k ∈ s.unanswered.map Request.reqId ++ keys (eraseKey reqId s.responseMap) ↔
    k ≠ reqId ∧ k ∈ s.tickets := by
    intro k
    by_cases hk : k = reqId
    · rw [hk, List.mem_append]
      exact ⟨fun h' => (h'.elim hun (notMem_keys_eraseKey _ _)).elim, fun h' => absurd rfl h'.1⟩
    · rw [tickets, List.mem_append, List.mem_append]
      exact ⟨fun h' => ⟨hk, h'.imp_right fun hm => (keys_eraseKey_sublist _ _).subset hm⟩,
        fun h' => h'.2.imp_right fun hm => keys_eraseKey hm hk⟩
  have hold : ∀ {u k}, (Function.update s.threads t (.finish 0 true) u).awaiting = some k ↔
      u ≠ t ∧ (s.threads u).awaiting = some k := by
    intro u k
    by_cases hut : u = t
    · rw [hut, Function.update_self]
      simp [HookThread.awaiting]
    · rw [Function.update_of_ne hut]
      exact ⟨fun h' => ⟨hut, h'⟩, fun h' => h'.2⟩
  refine ⟨h.conserved, fun e he => h.kept e (mem_eraseKey he), h.distinct.sublist (keys_eraseKey_sublist _ _),
    fun k => ?_, fun u v k hu hv => h.alone u v k (hold.1 hu).2 (hold.1 hv).2⟩
  refine Iff.trans ?_ (hmem k).symm
  rw [← h.waited]
  constructor
  · rintro ⟨u, hu⟩
    obtain ⟨hut, hu⟩ := hold.1 hu
    refine ⟨fun hk => ?_, u, hu⟩
    exact hut (h.alone u t reqId (hk ▸ hu) hself)
  · rintro ⟨hk, u, hu⟩
    refine ⟨u, hold.2 ⟨?_, hu⟩⟩
    rintro rfl
    rw [hself] at hu
    cases hu
    exact hk rfl

/-- A response finds no other one under its id. -/
theorem ticketInv_reply (h : TicketInv s g) {reqId : ℕ} {quota : ℚ} (hs : s.reply reqId quota = some s') :
    TicketInv s' (g ++ [(reqId, quota)]) := by
  unfold reply at hs
  split at hs
  · rename_i hany
    have hs := Option.some.inj hs
    have hunans : s'.unanswered = s.requestQueue ++ s.inFlight.eraseP fun r => decide (r.reqId = reqId) := hs ▸ rfl
    have hmap : s'.responseMap = insertNew reqId quota s.responseMap := hs ▸ rfl
    have hthreads : ∀ u, (s'.threads u).awaiting = (s.threads u).awaiting := fun u => hs ▸ HookThread.awaiting_wakeRsp _
    have hcnt : s'.reqCnt = s.reqCnt := hs ▸ rfl
    obtain ⟨r, hr, hid⟩ := List.any_eq_true.1 hany
    have hid : r.reqId = reqId := by simpa using hid
    have hun : reqId ∈ s.unanswered.map Request.reqId := List.mem_map.2 ⟨r, List.mem_append_right _ hr, hid⟩
    have hk : reqId ∉ keys s.responseMap := fun hk => h.disjoint hun (h.keys_subset hk)
    have hperm : (s.unanswered.map Request.reqId).Perm (reqId :: s'.unanswered.map Request.reqId) := by
      obtain ⟨a, l₁, l₂, -, ha, hf, he⟩ := List.exists_of_eraseP (p := fun r => decide (r.reqId = reqId)) hr
        (by simpa using hid)
      have ha : a.reqId = reqId := by simpa using ha
      rw [hunans, unanswered, he, hf]
      simp only [List.map_append, List.map_cons, ha, ← List.append_assoc]
      exact List.perm_middle
    have hkeys : (keys s'.responseMap).Perm (reqId :: keys s.responseMap) := by
      rw [hmap, insertNew, lookup_eq_none.2 hk]
      unfold keys
      rw [if_neg (by simp), List.map_append]
      exact List.perm_append_singleton ..
    refine ⟨?_, ?_, ?_, fun k => ?_, fun u v k hu hv => ?_⟩
    · have hg : (keys (g ++ [(reqId, quota)]) : Multiset ℕ) = reqId ::ₘ (keys g : Multiset ℕ) := by
        rw [keys, List.map_append, ← Multiset.coe_add]
        exact add_comm _ _
      rw [hcnt, ← h.conserved, Multiset.coe_eq_coe.2 hperm, hg, ← Multiset.cons_coe, Multiset.cons_add,
        Multiset.add_cons]
    · intro e he
      rcases mem_insertNew (hmap ▸ he) with he | ⟨rfl, -⟩
      · exact List.mem_append_left _ (h.kept e he)
      · exact List.mem_append_right _ (List.mem_singleton_self _)
    · rw [hmap]
      exact keys_insertNew_nodup h.distinct _ _
    · simp only [hthreads, h.waited, tickets, List.mem_append, hperm.mem_iff, hkeys.mem_iff, List.mem_cons]
      tauto
    · exact h.alone u v k (hthreads u ▸ hu) (hthreads v ▸ hv)
  · cases hs

/-! ## The steps -/

theorem ticketInv_launch (h : TicketInv s g) (hs : s.launch t now = some s') : TicketInv s' g := by
  unfold launch at hs
  cases ht : s.threads t with
  | closed => rw [ht] at hs; cases hs
  | idle => rw [ht] at hs; cases hs
  | check overuse burst =>
    simp only [ht] at hs; cases hs
    split <;> exact h.of_goto rfl (by rw [ht]; rfl) rfl rfl rfl
  | waitState overuse burst woken =>
    simp only [ht] at hs; cases hs
    exact h.of_goto rfl (by rw [ht]; rfl) rfl rfl rfl
  | merge overuse burst =>
    simp only [ht] at hs; cases hs
    exact h.of_goto rfl (by rw [ht]; rfl) rfl rfl rfl
  | stat burst =>
    simp only [ht] at hs; cases hs
    exact h.of_goto rfl (by rw [ht]; rfl) rfl rfl rfl
  | decide burst =>
    simp only [ht] at hs; cases hs
    split <;> exact h.of_goto rfl (by rw [ht]; rfl) rfl rfl rfl
  | set =>
    simp only [ht] at hs; cases hs
    exact h.of_goto rfl (by rw [ht]; rfl) rfl rfl rfl
  | estimate =>
    simp only [ht] at hs; cases hs
    exact h.of_goto rfl (by rw [ht]; rfl) rfl rfl rfl
  | enqueue burst =>
    simp only [ht] at hs; cases hs
    exact ticketInv_enqueue h ht
  | await reqId =>
    simp only [ht] at hs; cases hs
    exact h.of_goto rfl (by rw [ht]; rfl) rfl rfl rfl
  | waitRsp reqId woken =>
    simp only [ht] at hs
    cases hl : s.responseMap.lookup reqId with
    | none =>
      simp only [hl] at hs; cases hs
      exact h.of_goto rfl (by rw [ht]; rfl) rfl rfl rfl
    | some quota =>
      simp only [hl] at hs; cases hs
      exact ticketInv_consume h ht hl
  | finish elapsed setter =>
    simp only [ht] at hs; cases hs
    refine h.of_frame (fun u => ?_) (List.Perm.refl _) rfl rfl
    by_cases hut : u = t
    · subst hut
      simp only [Function.update_self, ht]
      rfl
    · simp only [Function.update_of_ne hut, HookThread.awaiting_wakeState]
  | ret elapsed =>
    simp only [ht] at hs; cases hs
    exact h.of_goto rfl (by rw [ht]; rfl) rfl rfl rfl

theorem ticketInv_forward (h : TicketInv s g) (hs : s.forward = some s') : TicketInv s' g := by
  unfold forward at hs
  split at hs
  · cases hs
    exact h.of_frame (fun _ => rfl) (List.Perm.refl _) rfl rfl
  · split at hs
    · cases hs
      exact h.of_frame (fun _ => rfl) (List.Perm.refl _) rfl rfl
    · rename_i r rest hq
      cases hs
      refine h.of_frame (fun _ => rfl) ?_ rfl rfl
      show (rest ++ (s.inFlight ++ [r])).Perm (s.requestQueue ++ s.inFlight)
      rw [hq, ← List.append_assoc]
      exact List.perm_append_singleton r _

theorem ticketInv_around (h : TicketInv s g) (hs : Around t s s') : TicketInv s' g := by
  obtain ⟨hout, d, m, hout', rfl⟩ := hs
  refine h.of_goto rfl ?_ rfl rfl rfl
  rw [HookThread.awaiting_of_outside hout, HookThread.awaiting_of_outside hout']

theorem ticketInv_step (h : TicketInv s g) (hs : s.step e = some s') : TicketInv s' (s.noteReplies e g) := by
  cases e with
  | accept t => exact ticketInv_around h (accept_some hs)
  | hangUp t => exact ticketInv_around h (hangUp_some hs)
  | request t overuse burst => exact ticketInv_around h (request_some hs)
  | advance t now =>
    obtain ⟨s₁, hs₁, rfl⟩ := advance_some hs
    exact (ticketInv_launch h hs₁).of_frame (fun _ => rfl) (List.Perm.refl _) rfl rfl
  | forward => exact ticketInv_forward h hs
  | reply reqId quota => exact ticketInv_reply h hs

/-! ## Over runs -/

theorem ticketInv_of_run {es : List Event} (hrun : Run stepReplies (init, []) es (s, g)) : TicketInv s g :=
  hrun.invariant (P := fun p => TicketInv p.1 p.2) (fun p e q h _ hs => by
    obtain ⟨hs, hg⟩ := withHistory_some hs
    rw [hg]
    exact ticketInv_step h hs) ticketInv_init

/-- In every run: the ids given out are without a response, or have had one, each once; what is in
`response_map` came as a response; a thread that waits finds its id in one place, once; and an id
that is somewhere is waited for by one thread. -/
theorem tickets_paired {es : List Event} (hrun : Run stepReplies (init, []) es (s, g)) :
    (s.unanswered.map Request.reqId : Multiset ℕ) + (keys g : Multiset ℕ) = Multiset.range s.reqCnt ∧
    (∀ e ∈ s.responseMap, e ∈ g) ∧
    (∀ t reqId, (s.threads t).awaiting = some reqId → s.tickets.count reqId = 1) ∧
    ∀ reqId ∈ s.tickets, ∃! t, (s.threads t).awaiting = some reqId := by
  have h := ticketInv_of_run hrun
  refine ⟨h.conserved, h.kept, fun t reqId ht => ?_, fun reqId hr => ?_⟩
  · exact List.count_eq_one_of_mem h.nodup_tickets ((h.waited reqId).1 ⟨t, ht⟩)
  · obtain ⟨t, ht⟩ := (h.waited reqId).2 hr
    exact ⟨t, ht, fun u hu => h.alone u t reqId hu ht⟩

/-- Two threads have asked at once, and one of them is answered. -/
theorem tickets_paired_of_two_threads : ∃ s g, Run stepReplies (init, [])
    (.accept 0 :: .accept 1 :: .request 0 0 5 :: steps 0 1 (.request 1 0 5 :: steps 1 1 (steps 0 6 (steps 1 6
      [.forward, .forward, .reply 0 250])))) (s, g) ∧ g = [(0, 250)] ∧ s.tickets = [1, 0] ∧
    ∀ reqId ∈ s.tickets, ∃! t, (s.threads t).awaiting = some reqId := by
  have hrun : ∃ p : State × List (ℕ × ℚ), Run stepReplies (init, [])
      (.accept 0 :: .accept 1 :: .request 0 0 5 :: steps 0 1 (.request 1 0 5 :: steps 1 1 (steps 0 6 (steps 1 6
        [.forward, .forward, .reply 0 250])))) p ∧ p.2 = [(0, 250)] ∧ p.1.tickets = [1, 0] :=
    exists_runWhere (by decide +kernel)
  obtain ⟨⟨s, g⟩, hrun, hg, ht⟩ := hrun
  exact ⟨s, g, hrun, hg, ht, (tickets_paired hrun).2.2.2⟩

end State

end Gemini.PodManager
