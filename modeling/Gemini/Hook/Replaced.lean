/-
What becomes of a call whose connection is replaced between its `send` and its `recv`. Its `recv` reads
the new connection, where no request was sent and no timeout is set, and never returns. As the call has
`comm_mutex`, no other call ever returns again either. Nothing else keeps a call from returning, when the
pod manager answers.
-/
import Gemini.Hook.Answers

namespace Gemini.Hook.Communicate

open Gemini.Lib

namespace State

/-- The call that has the mutex has sent its request on another connection than it reads. -/
def Doomed (s : State) : Prop := ∃ h sent, s.holder = some h ∧ h.phase.sentOn = some sent ∧ h.reads s.sockfd ≠ sent

variable {s s' : State} {thread device socketTimeout fd : ℕ} {sbuf : List UInt8} {call : Call} {e : Event}
  {es : List Event}

/-! ## Connections that are replaced -/

/-- The thread that waits on a connection it has not sent its request on goes on waiting. -/
theorem doomed_step (h : s.Inv) (hd : s.Doomed) (hs : s.step e = some s') : s'.Doomed ∧ s'.returned = s.returned ∧
    ∀ thread call, s.InCall thread call → s'.InCall thread call := by
  obtain ⟨g, sent, hg, hsent, hne⟩ := hd
  have hfresh := (h.read g sent hg hsent).resolve_left hne
  cases e with
  | establish thread device sbuf socketTimeout fd =>
    obtain ⟨hw, -, hfd, rfl⟩ := establish_some hs
    refine ⟨⟨g, sent, hg, hsent, ?_⟩, rfl, ?_⟩
    · rcases g.reads_update s.sockfd device fd with hold | hnew
      · rwa [hold]
      · rw [hnew]
        rintro rfl
        obtain ⟨conn, hc, -⟩ := h.sent g fd hg hsent
        rw [hfd] at hc
        cases hc
    · rintro t call (ht | hh)
      · refine .inl ?_
        have hne : t ≠ thread := by
          rintro rfl
          rw [hw] at ht
          cases ht
        simpa only [Function.update_of_ne hne] using ht
      · exact .inr hh
  | lock thread =>
    obtain ⟨call, -, hnone, -⟩ := lock_some hs
    rw [hnone] at hg
    cases hg
  | setsockopt =>
    obtain ⟨thread, call, conn, hh, -, -⟩ := setsockopt_some hs
    rw [hh] at hg
    cases hg
    cases hsent
  | send =>
    obtain ⟨thread, call, attempt, conn, hh, -, -⟩ := send_some hs
    rw [hh] at hg
    cases hg
    cases hsent
  | recv =>
    obtain ⟨thread, call, attempt, fd, hh, rfl⟩ := recv_some hs
    rw [hh] at hg
    cases hg
    refine ⟨⟨_, sent, rfl, hsent, hne⟩, rfl, ?_⟩
    rintro t c (ht | ⟨phase, hp⟩)
    · exact .inl ht
    · rw [hh] at hp
      cases hp
      exact .inr ⟨_, rfl⟩
  | received =>
    obtain ⟨thread, call, attempt, sent', fd, rcvTimeo, up, a, down, hh, hc, -⟩ := received_some hs
    rw [hh] at hg
    cases hg
    cases hc.symm.trans hfresh
  | timeOut =>
    obtain ⟨thread, call, attempt, sent', fd, conn, hh, hc, hne₀, -⟩ := timeOut_some hs
    rw [hh] at hg
    cases hg
    cases hc.symm.trans hfresh
    exact absurd rfl hne₀
  | answer fd rbuf =>
    obtain ⟨rcvTimeo, call, up, down, -, rfl⟩ := answer_some hs
    exact ⟨⟨g, sent, hg, hsent, hne⟩, rfl, fun _ _ hcall => hcall⟩

theorem doomed_run (h : s.Inv) (hd : s.Doomed) (hrun : Run step s es s') : s'.returned = s.returned ∧
    ∀ thread call, s.InCall thread call → s'.InCall thread call := by
  have hend := hrun.invariant (P := fun u => u.Inv ∧ u.Doomed ∧ u.returned = s.returned ∧
    ∀ thread call, s.InCall thread call → u.InCall thread call) ?_ ⟨h, hd, rfl, fun _ _ hcall => hcall⟩
  · exact hend.2.2
  · rintro u e u' ⟨hi, hu, hr, hc⟩ - hs
    obtain ⟨hu', hr', hc'⟩ := doomed_step hi hu hs
    exact ⟨inv_step hi hs, hu', hr'.trans hr, fun t c hcall => hc' t c (hc t c hcall)⟩

theorem not_doomed_step (hd : ¬ s.Doomed) (hc : Clear s e) (hs : s.step e = some s') : ¬ s'.Doomed := by
  rintro ⟨g, sent, hg, hsent, hne⟩
  cases e with
  | establish thread device sbuf socketTimeout fd =>
    obtain ⟨-, -, -, rfl⟩ := establish_some hs
    refine hd ⟨g, sent, hg, hsent, ?_⟩
    obtain ⟨t, call, phase⟩ := g
    cases phase with
    | locked | sending => cases hsent
    | receiving => exact hne
    | sent attempt fd' =>
      have hdevice : call.device ≠ device := by
        have hh : s.holder = some ⟨t, call, .sent attempt fd'⟩ := hg
        simpa only [Clear, between, hh, decide_eq_false_iff_not] using hc
      simpa only [Holder.reads, Function.update_of_ne hdevice] using hne
  | lock thread =>
    obtain ⟨call, -, -, rfl⟩ := lock_some hs
    cases hg
    cases hsent
  | setsockopt =>
    obtain ⟨thread, call, conn, -, -, rfl⟩ := setsockopt_some hs
    cases hg
    cases hsent
  | send =>
    obtain ⟨thread, call, attempt, conn, -, -, rfl⟩ := send_some hs
    cases hg
    cases hsent
    exact hne rfl
  | recv =>
    obtain ⟨thread, call, attempt, fd, hh, rfl⟩ := recv_some hs
    cases hg
    exact hd ⟨_, sent, hh, hsent, hne⟩
  | received =>
    obtain ⟨thread, call, attempt, sent', fd, rcvTimeo, up, a, down, -, -, rfl⟩ := received_some hs
    cases hg
  | timeOut =>
    obtain ⟨thread, call, attempt, sent', fd, conn, -, -, -, ⟨-, rfl⟩ | ⟨-, rfl⟩⟩ := timeOut_some hs
    · cases hg
      cases hsent
    · cases hg
  | answer fd rbuf =>
    obtain ⟨rcvTimeo, call, up, down, -, rfl⟩ := answer_some hs
    exact hd ⟨g, sent, hg, hsent, hne⟩

/-- A connection that is established between a `send` and its `recv` is what the `recv` reads. -/
theorem doomed_of_not_clear (h : s.Inv) (hc : ¬ Clear s e) (hs : s.step e = some s') : s'.Doomed := by
  cases e with
  | establish thread device sbuf socketTimeout fd =>
    obtain ⟨-, -, hfd, rfl⟩ := establish_some hs
    simp only [Clear, between] at hc
    split at hc
    · rename_i t call attempt sent hh
      obtain rfl : call.device = device := by simpa using hc
      refine ⟨_, sent, hh, rfl, ?_⟩
      simp only [Holder.reads, Function.update_self]
      rintro rfl
      obtain ⟨conn, hc, -⟩ := h.sent _ fd hh rfl
      rw [hfd] at hc
      cases hc
    · exact absurd rfl hc
  | _ => exact absurd trivial hc

theorem doomed_of_run (hrun : Run step s es s') (h : s.Inv) (hd : ¬ s.Doomed) (hc : ¬ RunWhere step Clear s es s') :
    s'.Doomed := by
  induction hrun with
  | nil s => exact absurd (.nil s) hc
  | @cons s u s' e es _ hs hrun ih =>
    by_cases he : Clear s e
    · exact ih (inv_step h hs) (not_doomed_step hd he hs) fun hclear => hc (.cons he hs hclear)
    · have hu := doomed_of_not_clear h he hs
      have hend := hrun.invariant (P := fun u => u.Inv ∧ u.Doomed) ?_ ⟨inv_step h hs, hu⟩
      · exact hend.2
      · rintro v f v' ⟨hi, hv⟩ - hf
        exact ⟨inv_step hi hf, (doomed_step hi hv hf).1⟩

/-! ## Calls that return -/

/-- Ordinary steps lead from `s` to a state in which the call has returned a response, and the mutex is free. -/
def Finishes (s : State) (call : Call) : Prop := ∃ es s', RunWhere step Ordinary s es s' ∧ s'.holder = none ∧
  s'.waiting = s.waiting ∧ ∃ r ∈ s'.returned, r.call = call ∧ r.outcome.isSome = true

theorem Finishes.of_step (hs : s.step e = some s') (he : Ordinary s e) (hw : s'.waiting = s.waiting)
    (h : s'.Finishes call) : s.Finishes call := by
  obtain ⟨es, t, hrun, hnone, hwt, hr⟩ := h
  exact ⟨e :: es, t, .cons he hs hrun, hnone, hwt.trans hw, hr⟩

theorem finishes_of_down {attempt sent rcvTimeo : ℕ} {up : List Call} {a : Answer} {down : List Answer}
    (hh : s.holder = some ⟨thread, call, .receiving attempt sent fd⟩)
    (hc : s.conns fd = some ⟨rcvTimeo, up, a :: down⟩) : s.Finishes call := by
  have hs : s.step .received = some ((s.setConn fd ⟨rcvTimeo, up, down⟩).unlock ⟨call, attempt, some (fd, a)⟩) := by
    simp only [step, State.received, hh, hc]
  exact ⟨[.received], _, .single trivial hs, rfl, rfl, _, List.mem_cons_self .., rfl, rfl⟩

/-- The pod manager answers, unless it has. -/
theorem finishes_receiving (h : s.Inv) (hd : ¬ s.Doomed) {attempt sent : ℕ}
    (hh : s.holder = some ⟨thread, call, .receiving attempt sent fd⟩) : s.Finishes call := by
  obtain rfl : fd = sent := by
    by_contra hne
    exact hd ⟨_, sent, hh, rfl, hne⟩
  obtain ⟨⟨rcvTimeo, up, down⟩, hc, hmem⟩ := h.sent _ fd hh rfl
  cases down with
  | cons a down => exact finishes_of_down hh hc
  | nil =>
    cases up with
    | nil => cases hmem
    | cons c up =>
      have hs : s.step (.answer fd []) = some (s.setConn fd ⟨rcvTimeo, up, [⟨c, []⟩]⟩) := by
        simp only [step, State.answer, hc, List.nil_append]
      exact .of_step hs trivial rfl (finishes_of_down hh (Function.update_self ..))

theorem finishes_sent (h : s.Inv) (hd : ¬ s.Doomed) {attempt : ℕ}
    (hh : s.holder = some ⟨thread, call, .sent attempt fd⟩) : s.Finishes call := by
  obtain ⟨s', hs, hh', hw⟩ : ∃ s', s.step .recv = some s' ∧
      s'.holder = some ⟨thread, call, .receiving attempt fd (s.sockfd call.device)⟩ ∧ s'.waiting = s.waiting := by
    refine ⟨_, by simp only [step, State.recv, hh]; rfl, ?_⟩
    exact ⟨rfl, rfl⟩
  exact .of_step hs trivial hw (finishes_receiving (inv_step h hs) (not_doomed_step hd (by exact trivial) hs) hh')

theorem finishes_sending (h : s.Inv) (hd : ¬ s.Doomed) {attempt : ℕ}
    (hh : s.holder = some ⟨thread, call, .sending attempt⟩) : s.Finishes call := by
  obtain ⟨conn, hc⟩ := h.sockets thread call (.inr ⟨_, hh⟩)
  obtain ⟨s', hs, hh', hw⟩ : ∃ s', s.step .send = some s' ∧
      s'.holder = some ⟨thread, call, .sent attempt (s.sockfd call.device)⟩ ∧ s'.waiting = s.waiting := by
    refine ⟨_, by simp only [step, State.send, hh, hc, Option.map_some]; rfl, ?_⟩
    exact ⟨rfl, rfl⟩
  exact .of_step hs trivial hw (finishes_sent (inv_step h hs) (not_doomed_step hd (by exact trivial) hs) hh')

theorem finishes_locked (h : s.Inv) (hd : ¬ s.Doomed) (hh : s.holder = some ⟨thread, call, .locked⟩) :
    s.Finishes call := by
  obtain ⟨conn, hc⟩ := h.sockets thread call (.inr ⟨_, hh⟩)
  obtain ⟨s', hs, hh', hw⟩ : ∃ s', s.step .setsockopt = some s' ∧
      s'.holder = some ⟨thread, call, .sending 1⟩ ∧ s'.waiting = s.waiting := by
    refine ⟨_, by simp only [step, State.setsockopt, hh, hc, Option.map_some]; rfl, ?_⟩
    exact ⟨rfl, rfl⟩
  exact .of_step hs trivial hw (finishes_sending (inv_step h hs) (not_doomed_step hd (by exact trivial) hs) hh')

theorem finishes_of_holder (h : s.Inv) (hd : ¬ s.Doomed) {phase : Phase} (hh : s.holder = some ⟨thread, call, phase⟩) :
    s.Finishes call := by
  cases phase with
  | locked => exact finishes_locked h hd hh
  | sending attempt => exact finishes_sending h hd hh
  | sent attempt fd => exact finishes_sent h hd hh
  | receiving attempt sent fd => exact finishes_receiving h hd hh

/-- A thread takes the mutex when it is free. -/
theorem exists_returned_of_free (h : s.Inv) (hnone : s.holder = none) (hw : s.waiting thread = some call) :
    ∃ es s', RunWhere step Ordinary s es s' ∧ ∃ r ∈ s'.returned, r.call = call ∧ r.outcome.isSome = true := by
  have hd : ¬ s.Doomed := by
    rintro ⟨g, sent, hg, -, -⟩
    rw [hnone] at hg
    cases hg
  obtain ⟨s', hs, hh'⟩ : ∃ s', s.step (.lock thread) = some s' ∧ s'.holder = some ⟨thread, call, .locked⟩ := by
    refine ⟨_, by simp only [step, State.lock, hw, hnone]; rfl, ?_⟩
    rfl
  obtain ⟨es, t, hrun, -, -, hr⟩ := finishes_locked (inv_step h hs) (not_doomed_step hd (by exact trivial) hs) hh'
  exact ⟨.lock thread :: es, t, .cons trivial hs hrun, hr⟩

/-- The call that has the mutex returns first. -/
theorem exists_returned (h : s.Inv) (hd : ¬ s.Doomed) (hcall : s.InCall thread call) :
    ∃ es s', RunWhere step Ordinary s es s' ∧ ∃ r ∈ s'.returned, r.call = call ∧ r.outcome.isSome = true := by
  rcases hcall with hw | ⟨phase, hh⟩
  · cases hh : s.holder with
    | none => exact exists_returned_of_free h hh hw
    | some g =>
      obtain ⟨es, s₁, hrun, hnone, hwait, -⟩ := finishes_of_holder h hd hh
      have h₁ : s₁.Inv := hrun.invariant (fun _ _ _ h _ hs => inv_step h hs) h
      obtain ⟨fs, s', hrun', hr⟩ := exists_returned_of_free h₁ hnone (hwait ▸ hw)
      exact ⟨es ++ fs, s', hrun.append hrun', hr⟩
  · obtain ⟨es, s', hrun, -, -, hr⟩ := finishes_of_holder h hd hh
    exact ⟨es, s', hrun, hr⟩

/-- In every run: if no thread has ever established a connection for the device of another that stood
between its `send` and its `recv`, every call can still return, with a response; if one has, no call
that has not returned yet ever returns. -/
theorem returns_of_run (hrun : Run step init es s) (hcall : s.InCall thread call) :
    (RunWhere step Clear init es s →
      ∃ fs s', RunWhere step Ordinary s fs s' ∧ ∃ r ∈ s'.returned, r.call = call ∧ r.outcome.isSome = true) ∧
    (¬ RunWhere step Clear init es s →
      ∀ fs s', Run step s fs s' → s'.returned = s.returned ∧ s'.InCall thread call) := by
  have hinit : ¬ init.Doomed := by
    rintro ⟨g, sent, ⟨⟩, -, -⟩
  constructor
  · intro hclear
    refine exists_returned (inv_of_run hrun) ?_ hcall
    exact hclear.invariant (fun _ _ _ hd hc hs => not_doomed_step hd hc hs) hinit
  · intro hnot fs s' hfs
    obtain ⟨hr, hc⟩ := doomed_run (inv_of_run hrun) (doomed_of_run hrun inv_init hinit hnot) hfs
    exact ⟨hr, hc thread call hcall⟩

/-- A second thread calls `communicate` between the `send` and the `recv` of the first one. -/
def replaced : List Event := [.establish 0 0 [1] 10 3, .lock 0, .setsockopt, .send, .establish 1 0 [2] 0 4, .recv]

theorem returns_of_replaced : ∃ s, Run step init replaced s ∧ s.InCall 1 ⟨1, 0, [2], 0⟩ ∧
    ∀ fs s', Run step s fs s' → s'.returned = [] ∧ s'.InCall 1 ⟨1, 0, [2], 0⟩ := by
  obtain ⟨s, hrun, hw, hr⟩ : ∃ s, Run step init replaced s ∧ s.waiting 1 = some ⟨1, 0, [2], 0⟩ ∧ s.returned = [] :=
    exists_runWhere (by decide +kernel)
  have hnot : ¬ RunWhere step Clear init replaced s := by
    intro hclear
    have hnone : (execWhere step Clear init replaced).isNone = true := by decide +kernel
    rw [execWhere_of_run hclear] at hnone
    cases hnone
  obtain ⟨-, hstuck⟩ := returns_of_run hrun (.inl hw)
  exact ⟨s, hrun, .inl hw, fun fs s' hfs => hr ▸ hstuck hnot fs s' hfs⟩

end State

end Gemini.Hook.Communicate
