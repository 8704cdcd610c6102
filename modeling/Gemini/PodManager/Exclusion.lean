/-
Who updates the quota. `quota_state` is tested, set and reset in separate critical sections, and a
thread whose quota suffices resets it too. So two threads can find it 0 before either sets it, and
a thread that asked for nothing can take it back while another waits for its response.

As long as nobody sets it while it is set, and nobody who has not set it resets it, at most one
request is unanswered, and `quota_state` is 1 while a thread waits for its response.
-/
import Gemini.Lib.Run
import Gemini.PodManager.Launch

namespace Gemini.PodManager

open Gemini.Lib

namespace HookThread

/-- Between `quota_state = 1` and the reset of it. -/
def updating : HookThread → Bool
  | .estimate => true
  | .enqueue _ => true
  | .await _ => true
  | .waitRsp _ _ => true
  | .finish _ setter => setter
  | _ => false

/-- About to write `quota_state` without having set it. -/
def intruding : HookThread → Bool
  | .set => true
  | .finish _ setter => !setter
  | _ => false

/-- The request it has queued and whose response it has not consumed. -/
def awaiting : HookThread → Option ℕ
  | .await reqId => some reqId
  | .waitRsp reqId _ => some reqId
  | _ => none

@[simp] theorem updating_wakeState (h : HookThread) : h.wakeState.updating = h.updating := by cases h <;> rfl
@[simp] theorem updating_wakeRsp (h : HookThread) : h.wakeRsp.updating = h.updating := by cases h <;> rfl
@[simp] theorem awaiting_wakeState (h : HookThread) : h.wakeState.awaiting = h.awaiting := by cases h <;> rfl
@[simp] theorem awaiting_wakeRsp (h : HookThread) : h.wakeRsp.awaiting = h.awaiting := by cases h <;> rfl

theorem updating_of_outside {h : HookThread} (ho : h.outside = true) : h.updating = false := by
  cases h <;> first | rfl | cases ho

theorem awaiting_of_outside {h : HookThread} (ho : h.outside = true) : h.awaiting = none := by
  cases h <;> first | rfl | cases ho

theorem updating_of_awaiting {h : HookThread} {reqId : ℕ} (ha : h.awaiting = some reqId) : h.updating = true := by
  cases h <;> first | rfl | cases ha

end HookThread

namespace State

variable {s s' : State} {t : ℕ} {now : ℤ} {e : Event}

/-- The requests without a response: in the queue, or held by the scheduler. -/
def unanswered (s : State) : List Request := s.requestQueue ++ s.inFlight

/-- At most one request is unanswered, and `quota_state` is 1 while a thread has queued a request
and has not consumed its response. -/
def QuotaExclusive (s : State) : Prop :=
  s.unanswered.length ≤ 1 ∧ ∀ t reqId, (s.threads t).awaiting = some reqId → s.quotaState = 1

/-- The quota state is set only when it is 0, and not taken back by a thread that has not set it. -/
def SetsFree (s : State) : Event → Prop
  | .advance t _ => (s.threads t).intruding = true → s.quotaState = 0
  | _ => True

/-! ## The invariant -/

/-- One thread at a time updates the quota, and the requests without a response are its own. -/
structure ExclusionInv (s : State) : Prop where
  alone : ∀ t u, (s.threads t).updating = true → (s.threads u).updating = true → t = u
  taken : ∀ t, (s.threads t).updating = true → s.quotaState = 1
  few : s.unanswered.length ≤ 1
  owned : ∀ r ∈ s.unanswered, (∃ t, (s.threads t).awaiting = some r.reqId) ∧ s.responseMap.lookup r.reqId = none
  issued : (∀ r ∈ s.unanswered, r.reqId < s.reqCnt) ∧ ∀ e ∈ s.responseMap, e.1 < s.reqCnt

theorem exclusionInv_init : ExclusionInv init := by
  refine ⟨?_, ?_, ?_, ?_, ?_⟩ <;> simp [init, unanswered, HookThread.updating]

/-- What a step has to keep that changes neither who updates nor which requests there are. -/
theorem ExclusionInv.of_frame (hinv : ExclusionInv s)
    (hu : ∀ u, (s'.threads u).updating = true → (s.threads u).updating = true)
    (ha : ∀ u, (s'.threads u).awaiting = (s.threads u).awaiting) (hq : s'.quotaState = s.quotaState)
    (hr : s'.unanswered.Perm s.unanswered) (hm : s'.responseMap = s.responseMap) (hc : s'.reqCnt = s.reqCnt) :
    ExclusionInv s' := by
  refine ⟨fun t u ht hu' => hinv.alone t u (hu t ht) (hu u hu'), fun t ht => hq ▸ hinv.taken t (hu t ht),
    hr.length_eq ▸ hinv.few, fun r h => ?_, fun r h => ?_, ?_⟩
  · obtain ⟨⟨t, ht⟩, hnone⟩ := hinv.owned r (hr.subset h)
    exact ⟨⟨t, (ha t).trans ht⟩, hm ▸ hnone⟩
  · exact hc ▸ hinv.issued.1 r (hr.subset h)
  · rw [hm, hc]; exact hinv.issued.2

/-- A thread moves on, inside or outside the update. -/
theorem ExclusionInv.of_goto (hinv : ExclusionInv s) {h : HookThread} (ht : s'.threads = Function.update s.threads t h)
    (hu : h.updating = true → (s.threads t).updating = true) (ha : h.awaiting = (s.threads t).awaiting)
    (hq : s'.quotaState = s.quotaState) (hr : s'.unanswered = s.unanswered) (hm : s'.responseMap = s.responseMap)
    (hc : s'.reqCnt = s.reqCnt) : ExclusionInv s' := by
  refine hinv.of_frame (fun u => ?_) (fun u => ?_) hq (hr ▸ List.Perm.refl _) hm hc
  · rw [ht]
    by_cases hut : u = t
    · subst hut; rw [Function.update_self]; exact hu
    · rw [Function.update_of_ne hut]; exact id
  · rw [ht]
    by_cases hut : u = t
    · subst hut; rw [Function.update_self]; exact ha
    · rw [Function.update_of_ne hut]

/-- The thread that updates has queued all there is to answer. -/
theorem ExclusionInv.unanswered_eq (hinv : ExclusionInv s) (ht : (s.threads t).updating = true)
    (ha : (s.threads t).awaiting = none) : s.unanswered = [] := by
  by_contra hne
  obtain ⟨r, hr⟩ := List.exists_mem_of_ne_nil _ hne
  obtain ⟨⟨u, hu⟩, -⟩ := hinv.owned r hr
  rw [hinv.alone t u ht (HookThread.updating_of_awaiting hu), hu] at ha
  cases ha

theorem ExclusionInv.unanswered_of_free (hinv : ExclusionInv s) (h0 : s.quotaState = 0) : s.unanswered = [] := by
  by_contra hne
  obtain ⟨r, hr⟩ := List.exists_mem_of_ne_nil _ hne
  obtain ⟨⟨u, hu⟩, -⟩ := hinv.owned r hr
  have := hinv.taken u (HookThread.updating_of_awaiting hu)
  omega

/-- The invariant when nothing is unanswered and at most one thread updates. -/
theorem ExclusionInv.of_none (hone : ∀ u, (s.threads u).updating = true → u = t)
    (hstate : (s.threads t).updating = true → s.quotaState = 1) (hr : s.unanswered = [])
    (hm : ∀ e ∈ s.responseMap, e.1 < s.reqCnt) : ExclusionInv s := by
  refine ⟨fun a b ha hb => (hone a ha).trans (hone b hb).symm, fun u hu => hstate (hone u hu ▸ hu), ?_, ?_, ?_, hm⟩
  · simp [hr]
  · simp [hr]
  · simp [hr]

/-- Wherever a thread that updates goes, no other one updates. -/
theorem ExclusionInv.eq_of_goto (hinv : ExclusionInv s) (hup : (s.threads t).updating = true) {u : ℕ} {h : HookThread}
    (hu : ((s.goto t h).threads u).updating = true) : u = t := by
  by_contra hut
  exact hut (hinv.alone u t (by simpa [goto, Function.update_of_ne hut] using hu) hup)

theorem exclusionInv_set (hinv : ExclusionInv s) (h0 : s.quotaState = 0) :
    ExclusionInv { s.goto t .estimate with quotaState := 1 } := by
  refine ExclusionInv.of_none (t := t) (fun u hu => ?_) (fun _ => rfl) (hinv.unanswered_of_free h0) hinv.issued.2
  by_contra hut
  have hu : (s.threads u).updating = true := by simpa [goto, Function.update_of_ne hut] using hu
  have := hinv.taken u hu
  omega

theorem exclusionInv_enqueue (hinv : ExclusionInv s) {burst : ℚ} (ht : s.threads t = .enqueue burst) :
    ExclusionInv { s.goto t (.await s.reqCnt) with
      requestQueue := s.requestQueue ++ [⟨s.reqCnt, s.podOveruseMs, burst⟩]
      reqCnt := s.reqCnt + 1
      sender := s.sender.signal } := by
  have hup : (s.threads t).updating = true := by rw [ht]; rfl
  have hnone := hinv.unanswered_eq hup (by rw [ht]; rfl)
  obtain ⟨hq, hf⟩ := List.append_eq_nil_iff.1 hnone
  refine ⟨fun a b ha hb => (hinv.eq_of_goto hup ha).trans (hinv.eq_of_goto hup hb).symm,
    fun u hu => hinv.taken t hup, ?_, ?_, ?_, fun e he => ?_⟩
  · simp [unanswered, hq, hf, goto]
  · intro r hr
    obtain rfl : r = ⟨s.reqCnt, s.podOveruseMs, burst⟩ := by simpa [unanswered, hq, hf, goto] using hr
    exact ⟨⟨t, by simp [goto, HookThread.awaiting]⟩, lookup_eq_none_of_lt hinv.issued.2⟩
  · intro r hr
    obtain rfl : r = ⟨s.reqCnt, s.podOveruseMs, burst⟩ := by simpa [unanswered, hq, hf, goto] using hr
    exact Nat.lt_succ_self _
  · exact (hinv.issued.2 e he).trans (Nat.lt_succ_self _)

theorem exclusionInv_consume (hinv : ExclusionInv s) {reqId : ℕ} {woken : Bool} {quota : ℚ}
    (ht : s.threads t = .waitRsp reqId woken) (hl : s.responseMap.lookup reqId = some quota) :
    ExclusionInv { s.goto t (.finish 0 true) with
      podQuota := quota, quotaUpdatedTp := now, podOveruseMs := 0, responseMap := eraseKey reqId s.responseMap } := by
  have hup : (s.threads t).updating = true := by rw [ht]; rfl
  refine ExclusionInv.of_none (fun u hu => hinv.eq_of_goto hup hu) (fun _ => hinv.taken t hup) ?_ fun e he =>
    hinv.issued.2 e (mem_eraseKey he)
  -- an unanswered request would be this thread's, which has its response
  show s.unanswered = []
  by_contra hne
  obtain ⟨r, hr⟩ := List.exists_mem_of_ne_nil _ hne
  obtain ⟨⟨u, hu⟩, hnone⟩ := hinv.owned r hr
  rw [hinv.alone u t (HookThread.updating_of_awaiting hu) hup, ht] at hu
  cases hu
  rw [hl] at hnone; cases hnone

theorem exclusionInv_finish (hinv : ExclusionInv s) {elapsed : ℚ} {setter : Bool}
    (ht : s.threads t = .finish elapsed setter) (hfree : setter = false → s.quotaState = 0) :
    ExclusionInv { s with
      quotaState := 0
      threads := Function.update (fun u => (s.threads u).wakeState) t (.ret elapsed) } := by
  -- nobody updates any more
  have hnobody : ∀ u, (Function.update (fun u => (s.threads u).wakeState) t (.ret elapsed) u).updating = false := by
    intro u
    by_cases hut : u = t
    · subst hut; rw [Function.update_self]; rfl
    · rw [Function.update_of_ne hut, HookThread.updating_wakeState]
      by_contra hc
      rw [Bool.not_eq_false] at hc
      cases setter with
      | true => exact hut (hinv.alone u t hc (by rw [ht]; rfl))
      | false => have := hinv.taken u hc; have := hfree rfl; omega
  have hnone : s.unanswered = [] := by
    cases setter with
    | true => exact ExclusionInv.unanswered_eq hinv (t := t) (by rw [ht]; rfl) (by rw [ht]; rfl)
    | false => exact hinv.unanswered_of_free (hfree rfl)
  refine ExclusionInv.of_none (t := t) (fun u hu => ?_) (fun hu => ?_) hnone hinv.issued.2
  · rw [show (_ : Bool) = false from hnobody u] at hu; cases hu
  · rw [show (_ : Bool) = false from hnobody t] at hu; cases hu

theorem exclusionInv_launch (hinv : ExclusionInv s) (hfree : s.SetsFree (.advance t now))
    (hs : s.launch t now = some s') : ExclusionInv s' := by
  unfold launch at hs
  unfold SetsFree at hfree
  cases ht : s.threads t with
  | closed => rw [ht] at hs; cases hs
  | idle => rw [ht] at hs; cases hs
  | check overuse burst =>
    simp only [ht] at hs; cases hs
    split <;> exact hinv.of_goto rfl nofun (by rw [ht]; rfl) rfl rfl rfl rfl
  | waitState overuse burst woken =>
    simp only [ht] at hs; cases hs
    exact hinv.of_goto rfl nofun (by rw [ht]; rfl) rfl rfl rfl rfl
  | merge overuse burst =>
    simp only [ht] at hs; cases hs
    exact hinv.of_goto rfl nofun (by rw [ht]; rfl) rfl rfl rfl rfl
  | stat burst =>
    simp only [ht] at hs; cases hs
    exact hinv.of_goto rfl nofun (by rw [ht]; rfl) rfl rfl rfl rfl
  | decide burst =>
    simp only [ht] at hs; cases hs
    split <;> exact hinv.of_goto rfl nofun (by rw [ht]; rfl) rfl rfl rfl rfl
  | set =>
    simp only [ht] at hs; cases hs
    exact exclusionInv_set hinv (hfree (by rw [ht]; rfl))
  | estimate =>
    simp only [ht] at hs; cases hs
    exact hinv.of_goto rfl (fun _ => by rw [ht]; rfl) (by rw [ht]; rfl) rfl rfl rfl rfl
  | enqueue burst =>
    simp only [ht] at hs; cases hs
    exact exclusionInv_enqueue hinv ht
  | await reqId =>
    simp only [ht] at hs; cases hs
    exact hinv.of_goto rfl (fun _ => by rw [ht]; rfl) (by rw [ht]; rfl) rfl rfl rfl rfl
  | waitRsp reqId woken =>
    simp only [ht] at hs
    cases hl : s.responseMap.lookup reqId with
    | none =>
      simp only [hl] at hs; cases hs
      exact hinv.of_goto rfl (fun _ => by rw [ht]; rfl) (by rw [ht]; rfl) rfl rfl rfl rfl
    | some quota =>
      simp only [hl] at hs; cases hs
      exact exclusionInv_consume hinv ht hl
  | finish elapsed setter =>
    simp only [ht] at hs; cases hs
    exact exclusionInv_finish hinv ht fun h => hfree (by rw [ht, h]; rfl)
  | ret elapsed =>
    simp only [ht] at hs; cases hs
    exact hinv.of_goto rfl nofun (by rw [ht]; rfl) rfl rfl rfl rfl

theorem exclusionInv_forward (hinv : ExclusionInv s) (hs : s.forward = some s') : ExclusionInv s' := by
  unfold forward at hs
  split at hs
  · cases hs
    exact hinv.of_frame (fun _ => id) (fun _ => rfl) rfl (List.Perm.refl _) rfl rfl
  · split at hs
    · cases hs
      exact hinv.of_frame (fun _ => id) (fun _ => rfl) rfl (List.Perm.refl _) rfl rfl
    · rename_i r rest hq
      cases hs
      refine hinv.of_frame (fun _ => id) (fun _ => rfl) rfl ?_ rfl rfl
      show (rest ++ (s.inFlight ++ [r])).Perm (s.requestQueue ++ s.inFlight)
      rw [hq, ← List.append_assoc]
      exact List.perm_append_singleton r _

theorem exclusionInv_reply (hinv : ExclusionInv s) {reqId : ℕ} {quota : ℚ} (hs : s.reply reqId quota = some s') :
    ExclusionInv s' := by
  unfold reply at hs
  split at hs
  · rename_i hany
    cases hs
    obtain ⟨r, hr, hid⟩ := List.any_eq_true.1 hany
    have hid : r.reqId = reqId := by simpa using hid
    -- the request that is answered was the only one
    have hlen : s.inFlight.length = 1 ∧ s.requestQueue = [] := by
      have h1 := hinv.few
      have h2 := List.length_pos_of_mem hr
      simp only [unanswered, List.length_append] at h1
      exact ⟨by omega, List.length_eq_zero_iff.1 (by omega)⟩
    have hnone : s.requestQueue ++ s.inFlight.eraseP (fun r => decide (r.reqId = reqId)) = [] := by
      rw [hlen.2, List.nil_append, ← List.length_eq_zero_iff, List.length_eraseP_of_mem hr (by simpa using hid), hlen.1]
    refine ⟨fun t u ht hu => hinv.alone t u (by simpa using ht) (by simpa using hu),
      fun t ht => hinv.taken t (by simpa using ht), ?_, ?_, ?_, fun e he => ?_⟩
    · simp [unanswered, hnone]
    · simp [unanswered, hnone]
    · simp [unanswered, hnone]
    · have he : e ∈ insertNew reqId quota s.responseMap := he
      unfold insertNew at he
      split at he
      · exact hinv.issued.2 e he
      · rcases List.mem_append.1 he with he | he
        · exact hinv.issued.2 e he
        · rw [List.mem_singleton.1 he]
          exact hid ▸ hinv.issued.1 r (List.mem_append_right _ hr)
  · cases hs

theorem exclusionInv_around (hinv : ExclusionInv s) (hs : Around t s s') : ExclusionInv s' := by
  obtain ⟨hout, h, m, hout', rfl⟩ := hs
  refine hinv.of_goto rfl (fun hu => ?_) ?_ rfl rfl rfl rfl
  · rw [HookThread.updating_of_outside hout'] at hu; cases hu
  · rw [HookThread.awaiting_of_outside hout, HookThread.awaiting_of_outside hout']

theorem exclusionInv_step (hinv : ExclusionInv s) (hfree : s.SetsFree e) (hs : s.step e = some s') :
    ExclusionInv s' := by
  cases e with
  | accept t => exact exclusionInv_around hinv (accept_some hs)
  | hangUp t => exact exclusionInv_around hinv (hangUp_some hs)
  | request t overuse burst => exact exclusionInv_around hinv (request_some hs)
  | advance t now =>
    obtain ⟨s₁, hs₁, rfl⟩ := advance_some hs
    exact (exclusionInv_launch hinv hfree hs₁).of_frame (fun _ => id) (fun _ => rfl) rfl (List.Perm.refl _) rfl rfl
  | forward => exact exclusionInv_forward hinv hs
  | reply reqId quota => exact exclusionInv_reply hinv hs

/-! ## Exclusion over runs -/

/-- In every run in which the quota state is set only when it is free, and taken back only by the
thread that set it, at most one request is unanswered, and only while the quota state is 1. -/
theorem quotaExclusive_of_run {es : List Event} (hrun : RunWhere step SetsFree init es s) : s.QuotaExclusive := by
  have hinv : ExclusionInv s := hrun.invariant (fun _ _ _ => exclusionInv_step) exclusionInv_init
  exact ⟨hinv.few, fun t reqId ht => hinv.taken t (HookThread.updating_of_awaiting ht)⟩

instance (s : State) (e : Event) : Decidable (s.SetsFree e) := by
  cases e <;> unfold SetsFree <;> infer_instance

/-! ## Two threads -/

/-- One thread has queued its request, and the other one waits for the quota state. -/
theorem quotaExclusive_of_waiting_thread : ∃ s, RunWhere step SetsFree init
    (.accept 0 :: .accept 1 :: .request 0 0 5 :: steps 0 7 (.request 1 0 5 :: steps 1 1 [])) s ∧
    s.threads 1 = .waitState 0 5 false ∧ s.unanswered = [⟨0, 0, 5⟩] ∧ s.QuotaExclusive := by
  have hrun : ∃ s, RunWhere step SetsFree init
      (.accept 0 :: .accept 1 :: .request 0 0 5 :: steps 0 7 (.request 1 0 5 :: steps 1 1 [])) s ∧
      s.threads 1 = .waitState 0 5 false ∧ s.unanswered = [⟨0, 0, 5⟩] := exists_runWhere (by decide +kernel)
  obtain ⟨s, hrun, ht, hr⟩ := hrun
  exact ⟨s, hrun, ht, hr, quotaExclusive_of_run hrun⟩

/-- Both threads pass the test before either sets the quota state, and both queue a request. -/
theorem not_quotaExclusive_of_two_threads : ∃ s, Run step init
    (.accept 0 :: .accept 1 :: .request 0 0 5 :: steps 0 1 (.request 1 0 5 :: steps 1 1 (steps 0 6 (steps 1 6 [])))) s ∧
    ¬ s.QuotaExclusive := by
  have hrun : ∃ s, Run step init
      (.accept 0 :: .accept 1 :: .request 0 0 5 :: steps 0 1 (.request 1 0 5 :: steps 1 1 (steps 0 6 (steps 1 6 []))))
      s ∧ s.unanswered.length = 2 := exists_runWhere (by decide +kernel)
  obtain ⟨s, hrun, hr⟩ := hrun
  refine ⟨s, hrun, fun h => ?_⟩
  have := h.1
  omega

end State

end Gemini.PodManager
