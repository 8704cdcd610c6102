/-
The requests of one connection that the scheduler holds, by their ids: read and not enqueued,
queued, or selected and not answered. A request comes in when its thread has read it and goes out
with its answer; no other step of the scheduler touches it.
-/
import Gemini.Scheduler.Delivery

namespace Gemini.Scheduler

open Gemini.Lib

/-- The id of the request that a thread is about to enqueue. -/
def Handler.waiting : Option Handler → Multiset ℕ
  | some ⟨_, some (_, reqId)⟩ => {reqId.toNat}
  | _ => 0

/-- The ids of a connection's requests in a list. -/
def idsOf (conn : ℕ) (cs : List Candidate) : List ℕ := (cs.filter fun c => c.conn = conn).map fun c => c.reqId.toNat

theorem idsOf_append (conn : ℕ) (cs ds : List Candidate) : idsOf conn (cs ++ ds) = idsOf conn cs ++ idsOf conn ds := by
  simp only [idsOf, List.filter_append, List.map_append]

theorem idsOf_perm (conn : ℕ) {cs ds : List Candidate} (h : cs.Perm ds) : (idsOf conn cs).Perm (idsOf conn ds) :=
  (h.filter _).map _

theorem idsOf_singleton (conn : ℕ) (c : Candidate) :
    idsOf conn [c] = if c.conn = conn then [c.reqId.toNat] else [] := by
  by_cases hc : c.conn = conn <;> simp [idsOf, hc]

theorem mem_idsOf {conn reqId : ℕ} {cs : List Candidate} :
    reqId ∈ idsOf conn cs ↔ ∃ c ∈ cs, c.conn = conn ∧ c.reqId.toNat = reqId := by
  simp only [idsOf, List.mem_map, List.mem_filter, decide_eq_true_eq, and_assoc]

namespace State

variable {cfg : Config} {s s' : State} {conn : ℕ} {e : Event}

/-- The candidates that wait for their responses. -/
def waiting (s : State) : List Candidate := s.candidates ++ s.daemon.unanswered.toList

theorem mem_waiting {c : Candidate} : c ∈ s.waiting ↔ s.Outstanding c := by
  simp only [waiting, Outstanding, List.mem_append, Option.mem_toList]

/-- The ids of the requests of `conn` that are read and not answered. -/
def held (s : State) (conn : ℕ) : Multiset ℕ := Handler.waiting (s.handlers conn) + (idsOf conn s.waiting : Multiset ℕ)

/-- The ids of the requests of `conn` that are answered. -/
def answered (s : State) (conn : ℕ) : List ℕ := idsOf conn (s.answers.map Answer.request)

theorem held_congr (hh : Handler.waiting (s'.handlers conn) = Handler.waiting (s.handlers conn))
    (hw : s'.waiting.Perm s.waiting) : s'.held conn = s.held conn := by
  rw [held, held, hh, Multiset.coe_eq_coe.2 (idsOf_perm conn hw)]

/-- A thread that has read a request of a known client holds it. -/
theorem held_request {name : String} {reqId : ℕ} {overuse burst : ℚ} {now k : ℕ}
    (hknown : ∃ inf, s.clients name = some inf) (hs : s.request cfg conn name reqId overuse burst now = some s') :
    s'.held k = s.held k + if k = conn then {reqId} else 0 := by
  obtain ⟨-, socket, hh, ⟨hn, -⟩ | ⟨inf, -, rfl⟩⟩ := request_some hs
  · obtain ⟨inf, hi⟩ := hknown
    rw [hn] at hi
    cases hi
  · by_cases hk : k = conn
    · subst hk
      simp only [held, waiting, Function.update_self, hh, Handler.waiting, if_true, Int.toNat_natCast]
      abel
    · simp only [held, waiting, Function.update_of_ne hk, if_neg hk, add_zero]

theorem held_enqueue {now k : ℕ} (hs : s.enqueue cfg conn now = some s') : s'.held k = s.held k := by
  obtain ⟨-, -, socket, name, reqId, hh, rfl⟩ := enqueue_some hs
  have hperm : (State.waiting { s with
      candidates := s.candidates ++ [⟨socket, name, reqId, msSinceStart cfg now, conn⟩]
      daemon := s.daemon.signal
      handlers := Function.update s.handlers conn (some ⟨socket, none⟩)
      grant := s.grant.map fun g => if g.name = name then { g with returned := true } else g
      clock := now }).Perm ([⟨socket, name, reqId, msSinceStart cfg now, conn⟩] ++ s.waiting) := by
    simp only [waiting, Daemon.unanswered_signal, List.append_assoc]
    exact List.perm_middle
  rw [held, held, Multiset.coe_eq_coe.2 (idsOf_perm k hperm), idsOf_append, idsOf_singleton, ← Multiset.coe_add]
  by_cases hk : k = conn
  · subst hk
    simp only [Function.update_self, hh, Handler.waiting, if_true, zero_add]
    rfl
  · simp only [Function.update_of_ne hk, if_neg (Ne.symm hk), Multiset.coe_nil, zero_add]

/-- A response takes the request that it answers out, and nothing else. -/
theorem held_send {selected : Candidate} {quota : ℚ} (hd : s.daemon = .granted selected quota) (hs : s.send = some s')
    (k : ℕ) :
    s'.held k + (idsOf k [selected] : Multiset ℕ) = s.held k ∧ s'.answered k = s.answered k ++ idsOf k [selected] := by
  obtain ⟨c, q, hd', rfl⟩ := send_some hs
  rw [hd] at hd'
  cases hd'
  constructor
  · simp only [held, waiting, hd, Daemon.unanswered, Option.toList_none, Option.toList_some, List.append_nil,
      idsOf_append, ← Multiset.coe_add, add_assoc]
  · simp only [answered, List.map_append, idsOf_append, List.map_cons, List.map_nil]

/-- The steps that neither receive a request nor send an answer. -/
def quiet : Event → Bool
  | .accept _ | .request .. | .send => false
  | _ => true

/-- What a quiet step keeps: the requests of every connection, the answers, and the clients known. -/
theorem held_step (hq : quiet e = true) (hs : s.step cfg e = some s') :
    (∀ k, s'.held k = s.held k) ∧ s'.answers = s.answers ∧
      ∀ name, (∃ inf, s.clients name = some inf) → ∃ inf, s'.clients name = some inf := by
  have hsame : ∀ {s'' : State}, s''.handlers = s.handlers → s''.candidates = s.candidates →
      s''.daemon.unanswered = s.daemon.unanswered → ∀ k, s''.held k = s.held k :=
    fun hh hc hu k => held_congr (by rw [hh]) (by rw [waiting, waiting, hc, hu])
  cases e with
  | accept socket => cases hq
  | request conn name reqId overuse burst now => cases hq
  | enqueue conn now =>
    obtain ⟨-, -, socket, name, reqId, hh, rfl⟩ := enqueue_some hs
    exact ⟨fun k => held_enqueue hs, rfl, fun _ => id⟩
  | hangUp conn =>
    obtain ⟨socket, hh, rfl⟩ := hangUp_some hs
    refine ⟨fun k => held_congr ?_ (List.Perm.refl _), rfl, fun _ => id⟩
    show Handler.waiting (Function.update s.handlers conn none k) = _
    by_cases hk : k = conn
    · rw [hk, Function.update_self, hh]
      rfl
    · rw [Function.update_of_ne hk]
  | configure name minf maxf gpuMemLimit =>
    cases hs
    exact ⟨hsame rfl rfl rfl, rfl, fun _ => known_update⟩
  | select now ts order =>
    obtain ⟨-, hd, hcases⟩ := select_some hs
    have hnone : s.daemon.unanswered = none := by rcases hd with hd | ⟨w, b, hd⟩ <;> rw [hd] <;> rfl
    rcases hcases with ⟨-, rfl⟩ | ⟨c, rest, hp, rfl⟩ | ⟨ms, rfl⟩
    · exact ⟨hsame rfl rfl hnone.symm, rfl, fun _ => id⟩
    · refine ⟨fun k => held_congr rfl ?_, rfl, fun _ => id⟩
      obtain ⟨i, hi, rfl⟩ := selectPass_mem hp
      obtain ⟨hlt, hget⟩ := List.getElem?_eq_some_iff.1 hi
      have hperm : (c :: s.candidates.eraseIdx i).Perm s.candidates := by
        rw [← hget]
        exact List.getElem_cons_eraseIdx_perm hlt
      rw [waiting, waiting, hnone, Option.toList_none, List.append_nil]
      exact (List.perm_append_singleton c _).trans hperm
    · exact ⟨hsame rfl rfl hnone.symm, rfl, fun _ => id⟩
  | record now =>
    obtain ⟨-, selected, inf, hd, -, rfl⟩ := record_some hs
    exact ⟨hsame rfl rfl (by rw [hd]; rfl), rfl, fun _ => known_update⟩
  | send => cases hq
  | arm now =>
    obtain ⟨-, selected, quota, hd, rfl⟩ := arm_some hs
    exact ⟨hsame rfl rfl (by rw [hd]; rfl), rfl, fun _ => id⟩
  | block =>
    obtain ⟨selected, deadline, hd, rfl⟩ := block_some hs
    exact ⟨hsame rfl rfl (by rw [hd]; rfl), rfl, fun _ => id⟩
  | wake now timedOut =>
    obtain ⟨-, ⟨b, hd, rfl⟩ | ⟨selected, deadline, b, hd, ⟨-, rfl⟩ | ⟨-, rfl⟩ | ⟨-, rfl⟩⟩⟩ := wake_some hs <;>
      exact ⟨hsame rfl rfl (by rw [hd]; rfl), rfl, fun _ => id⟩

/-! ## Whose requests they are -/

/-- A request of `conn` under this name is read, queued, selected or answered. -/
def Asked (s : State) (conn : ℕ) (name : String) : Prop :=
  (∃ socket reqId, s.handlers conn = some ⟨socket, some (name, reqId)⟩) ∨
  (∃ c ∈ s.waiting, c.conn = conn ∧ c.name = name) ∨ ∃ a ∈ s.answers, a.request.conn = conn ∧ a.request.name = name

/-- A connection without a request has none that is held and none that is answered. -/
theorem held_of_not_asked (h : ∀ name, ¬ s.Asked conn name) : s.held conn = 0 ∧ s.answered conn = [] := by
  have hpending : Handler.waiting (s.handlers conn) = 0 := by
    cases hh : s.handlers conn with
    | none => rfl
    | some handler =>
      obtain ⟨socket, pending⟩ := handler
      cases pending with
      | none => rfl
      | some r => exact absurd (.inl ⟨socket, r.2, hh⟩) (h r.1)
  constructor
  · rw [held, hpending, zero_add, Multiset.coe_eq_zero, List.eq_nil_iff_forall_not_mem]
    intro reqId hr
    obtain ⟨c, hc, hconn, -⟩ := mem_idsOf.1 hr
    exact h c.name (.inr (.inl ⟨c, hc, hconn, rfl⟩))
  · rw [answered, List.eq_nil_iff_forall_not_mem]
    intro reqId hr
    obtain ⟨c, hc, hconn, -⟩ := mem_idsOf.1 hr
    obtain ⟨a, ha, rfl⟩ := List.mem_map.1 hc
    exact h a.request.name (.inr (.inr ⟨a, ha, hconn, rfl⟩))

/-- A thread that is changed and is about to enqueue nothing adds no request. -/
theorem pending_update {k socket : ℕ} {handler : Option Handler} {name : String} {reqId : ℤ}
    (hh : ∀ x ∈ handler, x.pending = none)
    (hk : Function.update s.handlers k handler conn = some ⟨socket, some (name, reqId)⟩) :
    s.handlers conn = some ⟨socket, some (name, reqId)⟩ := by
  by_cases hkc : conn = k
  · rw [hkc, Function.update_self] at hk
    cases hh _ hk
  · rwa [Function.update_of_ne hkc] at hk

/-- Requests come in as such only. -/
theorem asked_step {name : String} (hs : s.step cfg e = some s') (h : s'.Asked conn name) :
    s.Asked conn name ∨ ∃ reqId overuse burst now, e = .request conn name reqId overuse burst now := by
  have hsame : ∀ {s'' : State}, s''.Asked conn name → s''.handlers = s.handlers → s''.waiting ⊆ s.waiting →
      s''.answers = s.answers → s.Asked conn name := by
    intro s'' h hh hw ha
    rcases h with ⟨socket, reqId, hp⟩ | ⟨c, hc, h⟩ | ⟨a, hm, h⟩
    · exact .inl ⟨socket, reqId, hh ▸ hp⟩
    · exact .inr (.inl ⟨c, hw hc, h⟩)
    · exact .inr (.inr ⟨a, ha ▸ hm, h⟩)
  cases e with
  | accept socket =>
    obtain ⟨-, rfl⟩ := accept_some hs
    rcases h with ⟨so, r, hp⟩ | h
    · exact .inl (.inl ⟨so, r, pending_update (by simp) hp⟩)
    · exact .inl (.inr h)
  | request k n r overuse burst now =>
    obtain ⟨-, socket, hh, ⟨-, rfl⟩ | ⟨inf, hi, rfl⟩⟩ := request_some hs
    · exact .inl (hsame h rfl (List.Subset.refl _) rfl)
    · rcases h with ⟨so, r', hp⟩ | h
      · by_cases hk : conn = k
        · subst hk
          have hp : (some ⟨socket, some (n, r)⟩ : Option Handler) = some ⟨so, some (name, r')⟩ := by simpa using hp
          cases hp
          exact .inr ⟨r, overuse, burst, now, rfl⟩
        · exact .inl (.inl ⟨so, r', (Function.update_of_ne hk ..).symm.trans hp⟩)
      · exact .inl (.inr h)
  | enqueue k now =>
    obtain ⟨-, -, socket, n, r, hh, rfl⟩ := enqueue_some hs
    rcases h with ⟨so, r', hp⟩ | ⟨c, hc, hconn⟩ | h
    · exact .inl (.inl ⟨so, r', pending_update (by simp) hp⟩)
    · have hc : c ∈ s.waiting ∨ c = ⟨socket, n, r, msSinceStart cfg now, k⟩ := by
        simp only [waiting, Daemon.unanswered_signal, List.mem_append, List.mem_singleton] at hc ⊢
        tauto
      rcases hc with hc | rfl
      · exact .inl (.inr (.inl ⟨c, hc, hconn⟩))
      · obtain ⟨rfl, rfl⟩ := hconn
        exact .inl (.inl ⟨socket, r, hh⟩)
    · exact .inl (.inr (.inr h))
  | hangUp k =>
    obtain ⟨socket, hh, rfl⟩ := hangUp_some hs
    rcases h with ⟨so, r, hp⟩ | h
    · exact .inl (.inl ⟨so, r, pending_update (by simp) hp⟩)
    · exact .inl (.inr h)
  | configure n minf maxf gpuMemLimit => cases hs; exact .inl h
  | select now ts order =>
    obtain ⟨-, -, ⟨-, rfl⟩ | ⟨c, rest, hp, rfl⟩ | ⟨ms, rfl⟩⟩ := select_some hs
    · exact .inl (hsame h rfl (by simp [waiting, Daemon.unanswered]) rfl)
    · obtain ⟨i, hi, rfl⟩ := selectPass_mem hp
      refine .inl (hsame h rfl (fun d hd => ?_) rfl)
      rcases List.mem_append.1 hd with hd | hd
      · exact List.mem_append_left _ (List.mem_of_mem_eraseIdx hd)
      · rw [List.mem_singleton.1 hd]
        exact List.mem_append_left _ (List.mem_of_getElem? hi)
    · exact .inl (hsame h rfl (by simp [waiting, Daemon.unanswered]) rfl)
  | record now =>
    obtain ⟨-, selected, inf, hd, -, rfl⟩ := record_some hs
    exact .inl (hsame h rfl (by simp [waiting, hd, Daemon.unanswered]) rfl)
  | send =>
    obtain ⟨selected, quota, hd, rfl⟩ := send_some hs
    rcases h with h | ⟨c, hc, h⟩ | ⟨a, ha, h⟩
    · exact .inl (.inl h)
    · exact .inl (.inr (.inl ⟨c, List.mem_append_left _ (by simpa [waiting, Daemon.unanswered] using hc), h⟩))
    · rcases List.mem_append.1 ha with ha | ha
      · exact .inl (.inr (.inr ⟨a, ha, h⟩))
      · rw [List.mem_singleton.1 ha] at h
        exact .inl (.inr (.inl ⟨selected, by simp [waiting, hd, Daemon.unanswered], h⟩))
  | arm now =>
    obtain ⟨-, selected, quota, -, rfl⟩ := arm_some hs
    exact .inl (hsame h rfl (by simp [waiting, Daemon.unanswered]) rfl)
  | block =>
    obtain ⟨selected, deadline, -, rfl⟩ := block_some hs
    exact .inl (hsame h rfl (by simp [waiting, Daemon.unanswered]) rfl)
  | wake now timedOut =>
    obtain ⟨-, ⟨b, -, rfl⟩ | ⟨selected, deadline, b, -, ⟨-, rfl⟩ | ⟨-, rfl⟩ | ⟨-, rfl⟩⟩⟩ := wake_some hs <;>
      exact .inl (hsame h rfl (by simp [waiting, Daemon.unanswered]) rfl)

end State

end Gemini.Scheduler
