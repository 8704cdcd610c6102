/-
Waiting without looking. `hook_kernel_launch` blocks on `rsp_map_cond` before it looks for its
response, and `scheduler_thread_send_func` blocks on `req_queue_cond` before it looks at the queue.
A response that comes before the thread blocks, or a request that is pushed before the sender does,
wakes nobody: the thread waits for a response it already has, and the sender stands before a queue
that is not empty.

Whatever comes while they are blocked wakes them up. So as long as no wait begins too late, no
response and no request is missed.
-/
import Gemini.Lib.Wait
import Gemini.PodManager.Launch

namespace Gemini.PodManager

open Gemini.Lib

/-- The request for whose response it is about to block. -/
def HookThread.blocking : HookThread → Option ℕ
  | .await reqId => some reqId
  | _ => none

namespace State

variable {s s' : State} {e : Event}

/-! ## The response side -/

/-- The wait of thread `t` for its response. -/
def responseWait (t : ℕ) : Wait State where
  blocked s := ∃ reqId, s.threads t = .waitRsp reqId false
  due s := ∃ reqId woken, s.threads t = .waitRsp reqId woken ∧ s.responseMap.lookup reqId ≠ none

/-- A thread that is blocked on `rsp_map_cond` has no response to find. -/
def NoResponseMissed (s : State) : Prop :=
  ∀ t reqId, s.threads t = .waitRsp reqId false → s.responseMap.lookup reqId = none

/-- A thread blocks on `rsp_map_cond` only before its response has come. -/
def BlocksInTime (s : State) : Event → Prop
  | .advance t _ => ∀ reqId ∈ (s.threads t).blocking, s.responseMap.lookup reqId = none
  | _ => True

theorem not_missed_responseWait {t : ℕ} : ¬ (responseWait t).Missed s ↔
    ∀ reqId, s.threads t = .waitRsp reqId false → s.responseMap.lookup reqId = none := by
  constructor
  · intro h reqId ht
    by_contra hne
    exact h ⟨⟨reqId, ht⟩, reqId, false, ht, hne⟩
  · rintro h ⟨⟨reqId, ht⟩, r, woken, hr, hne⟩
    rw [ht] at hr; cases hr
    exact hne (h reqId ht)

/-- What becomes of a thread that another thread's step may wake up. -/
theorem waitRsp_of_wakeState {h : HookThread} {reqId : ℕ} {woken : Bool} (hw : h.wakeState = .waitRsp reqId woken) :
    h = .waitRsp reqId woken := by
  cases h <;> first | exact hw | cases hw

/-- A broadcast leaves nobody blocked. -/
theorem wakeRsp_ne_blocked (h : HookThread) (reqId : ℕ) : h.wakeRsp ≠ .waitRsp reqId false := by
  cases h <;> simp [HookThread.wakeRsp]

/-- Before a step that leaves thread `t` blocked with no wake-up pending, it was blocked so, or it
was the step by which it blocked; and no response came with it. -/
theorem blocked_before {t reqId : ℕ} (hs : s.step e = some s') (h : s'.threads t = .waitRsp reqId false) :
    (s.threads t = .waitRsp reqId false ∨ ∃ now, e = .advance t now ∧ s.threads t = .await reqId) ∧
      (s.responseMap.lookup reqId = none → s'.responseMap.lookup reqId = none) := by
  have haround : ∀ {u}, Around u s s' → s.threads t = .waitRsp reqId false ∧ s'.responseMap = s.responseMap := by
    rintro u ⟨-, h', m, hout, rfl⟩
    refine ⟨?_, rfl⟩
    by_cases hu : t = u
    · subst hu
      simp only [goto, Function.update_self] at h
      rw [h] at hout; cases hout
    · simpa only [goto, Function.update_of_ne hu] using h
  have hquiet : s.threads t = .waitRsp reqId false ∧ s'.responseMap = s.responseMap →
      (s.threads t = .waitRsp reqId false ∨ ∃ now, e = .advance t now ∧ s.threads t = .await reqId) ∧
        (s.responseMap.lookup reqId = none → s'.responseMap.lookup reqId = none) := by
    rintro ⟨ht, hm⟩
    exact ⟨.inl ht, fun hnone => hm ▸ hnone⟩
  cases e with
  | accept u => exact hquiet (haround (accept_some hs))
  | hangUp u => exact hquiet (haround (hangUp_some hs))
  | request u overuse burst => exact hquiet (haround (request_some hs))
  | advance u now =>
    obtain ⟨s₁, hs₁, rfl⟩ := advance_some hs
    have hl := launch_some hs₁
    have hmap : s.responseMap.lookup reqId = none → s₁.responseMap.lookup reqId = none := by
      rcases hl.responses with hm | ⟨r, hm⟩
      · rw [hm]; exact id
      · rw [hm]; exact lookup_eraseKey
    refine ⟨?_, hmap⟩
    by_cases hu : t = u
    · subst hu
      exact .inr ⟨now, rfl, (hl.blocks reqId false h).1⟩
    · rcases hl.threads t hu with ht | ht
      · exact .inl (ht ▸ h)
      · exact .inl (waitRsp_of_wakeState (ht ▸ h))
  | forward =>
    simp only [step, forward] at hs
    split at hs
    · cases hs; exact ⟨.inl h, id⟩
    · split at hs <;> cases hs <;> exact ⟨.inl h, id⟩
  | reply r quota =>
    simp only [step, reply] at hs
    split at hs
    · cases hs
      exact absurd h (wakeRsp_ne_blocked _ _)
    · cases hs

theorem signalled_responseWait (t : ℕ) : (responseWait t).Signalled step := by
  rintro s e s' hs ⟨reqId, ht⟩ ⟨⟨r, hr⟩, r', woken, hr', hne⟩
  rw [hr] at hr'; cases hr'
  obtain ⟨h1 | ⟨now, -, h1⟩, hmap⟩ := blocked_before hs hr
  · rw [ht] at h1; cases h1
    exact ⟨reqId, false, ht, fun hnone => hne (hmap hnone)⟩
  · rw [ht] at h1; cases h1

theorem looks_responseWait (t : ℕ) (h : s.BlocksInTime e) : (responseWait t).Looks step s e := by
  intro s' hs hb
  rw [not_missed_responseWait]
  intro reqId ht
  obtain ⟨h1 | ⟨now, rfl, h1⟩, hmap⟩ := blocked_before hs ht
  · exact absurd ⟨reqId, h1⟩ hb
  · exact hmap (h reqId (by rw [h1]; rfl))

/-- In every run in which no thread blocks after its response has come, no thread that is blocked
on `rsp_map_cond` with no wake-up pending has a response in the map. -/
theorem noResponseMissed_of_run {es : List Event} (hrun : RunWhere step BlocksInTime init es s) :
    s.NoResponseMissed := by
  intro t
  rw [← not_missed_responseWait]
  refine Wait.not_missed_of_run (signalled_responseWait t) (hrun.mono fun _ _ => looks_responseWait t) ?_
  rintro ⟨⟨reqId, h⟩, -⟩
  cases h

/-- A thread that blocks when its response has come misses it there and then. -/
theorem responseMissed_of_late_wait (h : ¬ s.BlocksInTime e) (hs : s.step e = some s') : ¬ s'.NoResponseMissed := by
  cases e with
  | advance t now =>
    unfold BlocksInTime at h
    push Not at h
    obtain ⟨reqId, hb, hl⟩ := h
    obtain ⟨s₁, hs₁, rfl⟩ := advance_some hs
    have ht : s.threads t = .await reqId := by
      cases ht : s.threads t <;> rw [ht] at hb <;> cases hb
      rfl
    simp only [launch, ht, Option.some.injEq] at hs₁
    rintro hmissed
    apply hl
    have := hmissed t reqId (by rw [← hs₁]; exact Function.update_self ..)
    rwa [← hs₁] at this
  | accept t => exact absurd trivial h
  | hangUp t => exact absurd trivial h
  | request t overuse burst => exact absurd trivial h
  | forward => exact absurd trivial h
  | reply reqId quota => exact absurd trivial h

instance (s : State) (e : Event) : Decidable (s.BlocksInTime e) :=
  match e with
  | .advance t _ => inferInstanceAs (Decidable (∀ reqId ∈ (s.threads t).blocking, s.responseMap.lookup reqId = none))
  | .accept .. | .hangUp .. | .request .. | .forward | .reply .. => .isTrue trivial

/-- A response to thread 0 that comes after it has blocked. -/
theorem noResponseMissed_of_late_response : ∃ s, RunWhere step BlocksInTime init
    (.accept 0 :: .forward :: .request 0 0 5 :: steps 0 8 [.forward, .reply 0 250]) s ∧
    s.threads 0 = .waitRsp 0 true ∧ s.NoResponseMissed := by
  have hrun : ∃ s, RunWhere step BlocksInTime init
      (.accept 0 :: .forward :: .request 0 0 5 :: steps 0 8 [.forward, .reply 0 250]) s ∧
      s.threads 0 = .waitRsp 0 true := exists_runWhere (by decide +kernel)
  obtain ⟨s, hrun, ht⟩ := hrun
  exact ⟨s, hrun, ht, noResponseMissed_of_run hrun⟩

/-- The response comes after the request is queued, and before the thread blocks. -/
theorem not_noResponseMissed_of_early_response : ∃ s, Run step init
    (.accept 0 :: .forward :: .request 0 0 5 :: steps 0 7 (.forward :: .reply 0 250 :: steps 0 1 [])) s ∧
    ¬ s.NoResponseMissed := by
  have hrun : ∃ s, Run step init
      (.accept 0 :: .forward :: .request 0 0 5 :: steps 0 7 (.forward :: .reply 0 250 :: steps 0 1 [])) s ∧
      s.threads 0 = .waitRsp 0 false ∧ s.responseMap.lookup 0 = some 250 := exists_runWhere (by decide +kernel)
  obtain ⟨s, hrun, ht, hl⟩ := hrun
  refine ⟨s, hrun, fun h => ?_⟩
  rw [h 0 0 ht] at hl
  cases hl

/-! ## The request side -/

/-- The wait of the sender for a request. -/
def requestWait : Wait State where
  blocked s := s.sender = .waiting false
  due s := s.requestQueue ≠ []

/-- A sender that is blocked with no wake-up pending has nothing to send. -/
def NoRequestStranded (s : State) : Prop := s.sender = .waiting false → s.requestQueue = []

/-- The sender blocks only on an empty queue. -/
def BlocksOnEmpty (s : State) : Event → Prop
  | .forward => s.sender = .top → s.requestQueue = []
  | _ => True

theorem not_missed_requestWait : ¬ requestWait.Missed s ↔ s.NoRequestStranded := by
  unfold Wait.Missed NoRequestStranded
  simp only [requestWait, not_and, not_not]

theorem Sender.signal_ne_blocked (sender : Sender) : sender.signal ≠ .waiting false := by cases sender <;> nofun

/-- Before a step that leaves the sender blocked with no wake-up pending, it was blocked so, or it
was the step by which it blocked; and no request came with it. -/
theorem sender_before (hs : s.step e = some s') (h : s'.sender = .waiting false) :
    (s.sender = .waiting false ∨ (e = .forward ∧ s.sender = .top)) ∧ s'.requestQueue = s.requestQueue := by
  have haround : ∀ {u}, Around u s s' →
      (s.sender = .waiting false ∨ (e = .forward ∧ s.sender = .top)) ∧ s'.requestQueue = s.requestQueue := by
    rintro u ⟨-, h', m, -, rfl⟩
    exact ⟨.inl h, rfl⟩
  cases e with
  | accept u => exact haround (accept_some hs)
  | hangUp u => exact haround (hangUp_some hs)
  | request u overuse burst => exact haround (request_some hs)
  | advance u now =>
    obtain ⟨s₁, hs₁, rfl⟩ := advance_some hs
    rcases (launch_some hs₁).requests with ⟨hq, hsd⟩ | ⟨burst, -, -, hsd⟩
    · exact ⟨.inl (hsd ▸ h), hq⟩
    · exact absurd (hsd ▸ h) (Sender.signal_ne_blocked _)
  | forward =>
    simp only [step, forward] at hs
    split at hs
    · rename_i htop
      cases hs; exact ⟨.inr ⟨rfl, htop⟩, rfl⟩
    · split at hs <;> cases hs <;> cases h
  | reply r quota =>
    simp only [step, reply] at hs
    split at hs
    · cases hs; exact ⟨.inl h, rfl⟩
    · cases hs

theorem signalled_requestWait : requestWait.Signalled step := by
  rintro s e s' hs - ⟨hb, hd⟩
  have hq : s'.requestQueue ≠ [] := hd
  rwa [(sender_before hs hb).2] at hq

theorem looks_requestWait (h : s.BlocksOnEmpty e) : requestWait.Looks step s e := by
  intro s' hs hb
  rw [not_missed_requestWait]
  intro hb'
  obtain ⟨h1 | ⟨rfl, htop⟩, hq⟩ := sender_before hs hb'
  · exact absurd h1 hb
  · rw [hq]
    exact h htop

/-- In every run in which the sender blocks only on an empty queue, it is never blocked with no
wake-up pending while a request is queued. -/
theorem noRequestStranded_of_run {es : List Event} (hrun : RunWhere step BlocksOnEmpty init es s) :
    s.NoRequestStranded := by
  rw [← not_missed_requestWait]
  refine Wait.not_missed_of_run signalled_requestWait (hrun.mono fun _ _ => looks_requestWait) ?_
  rintro ⟨h, -⟩
  cases h

/-- A sender that blocks before a queue that is not empty strands its requests there and then. -/
theorem requestStranded_of_late_wait (h : ¬ s.BlocksOnEmpty e) (hs : s.step e = some s') :
    ¬ s'.NoRequestStranded := by
  cases e with
  | forward =>
    unfold BlocksOnEmpty at h
    push Not at h
    obtain ⟨htop, hq⟩ := h
    simp only [step, forward, htop, Option.some.injEq] at hs
    intro hstranded
    apply hq
    have := hstranded (by rw [← hs])
    rwa [← hs] at this
  | accept t => exact absurd trivial h
  | hangUp t => exact absurd trivial h
  | request t overuse burst => exact absurd trivial h
  | advance t now => exact absurd trivial h
  | reply reqId quota => exact absurd trivial h

instance (s : State) (e : Event) : Decidable (s.BlocksOnEmpty e) :=
  match e with
  | .forward => inferInstanceAs (Decidable (s.sender = .top → s.requestQueue = []))
  | .accept .. | .hangUp .. | .request .. | .advance .. | .reply .. => .isTrue trivial

/-- The sender blocks before the first request is pushed, sends it and blocks again. -/
theorem noRequestStranded_of_one_request : ∃ s, RunWhere step BlocksOnEmpty init
    (.accept 0 :: .forward :: .request 0 0 5 :: steps 0 7 [.forward, .forward]) s ∧
    s.inFlight.length = 1 ∧ s.sender = .waiting false ∧ s.NoRequestStranded := by
  have hrun : ∃ s, RunWhere step BlocksOnEmpty init
      (.accept 0 :: .forward :: .request 0 0 5 :: steps 0 7 [.forward, .forward]) s ∧
      s.inFlight.length = 1 ∧ s.sender = .waiting false := exists_runWhere (by decide +kernel)
  obtain ⟨s, hrun, hf, hb⟩ := hrun
  exact ⟨s, hrun, hf, hb, noRequestStranded_of_run hrun⟩

/-- The first request is pushed before the sender blocks for the first time. -/
theorem not_noRequestStranded_of_start_up : ∃ s, Run step init
    (.accept 0 :: .request 0 0 5 :: steps 0 7 [.forward]) s ∧ ¬ s.NoRequestStranded := by
  have hrun : ∃ s, Run step init (.accept 0 :: .request 0 0 5 :: steps 0 7 [.forward]) s ∧
      s.sender = .waiting false ∧ s.requestQueue = [⟨0, 0, 5⟩] := exists_runWhere (by decide +kernel)
  obtain ⟨s, hrun, hb, hq⟩ := hrun
  refine ⟨s, hrun, fun h => ?_⟩
  rw [h hb] at hq
  cases hq

end State

end Gemini.PodManager
