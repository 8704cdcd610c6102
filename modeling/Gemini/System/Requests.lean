/-
Requests for quota from end to end. In every run of the whole system in which the scheduler closes a
connection only when no request of it waits: every request id of a pod manager is in its queue, on
the wire, held by the scheduler or answered, once; nothing that a pod manager asks is ignored as
that of an unknown client; and the quota that a pod manager works with is one that the scheduler has
recorded as a token of the client of that name.
-/
import Gemini.Scheduler.Conservation
import Gemini.System.Books

namespace Gemini.System

open Gemini.Lib

namespace State

variable {cfg : Scheduler.Config} {s s' : State} {e : Event} {conn : ℕ}

/-! ## What each event can do -/

theorem change_some {f : Pod → Option Pod} (hs : s.change conn f = some s') :
    ∃ p p', s.pods conn = some p ∧ f p = some p' ∧ s' = s.setPod conn p' := by
  simp only [change, Option.bind_eq_bind, Option.bind_eq_some_iff] at hs
  obtain ⟨p, hp, p', hf, hs⟩ := hs
  cases hs
  exact ⟨p, p', hp, hf, rfl⟩

theorem connect_some {name : String} {socket : ℕ} (hs : s.connect name socket = some s') :
    ∃ sched, s.sched.accept socket = some sched ∧ s' = ⟨Function.update s.pods s.sched.nextConn
      (some ⟨name, .asking 0, 0, 0, .init, [], []⟩), sched⟩ := by
  obtain ⟨sched, hsched, rfl⟩ := Option.map_eq_some_iff.1 hs
  exact ⟨sched, hsched, rfl⟩

/-- The scheduler's thread takes a request for quota, or one for the memory limit. -/
theorem serve_some {now : ℕ} (hs : s.serve cfg conn now = some s') : ∃ p, s.pods conn = some p ∧
    ((∃ reqId overuse burst rest sched, p.up = .quota reqId overuse burst :: rest ∧
        s.sched.request cfg conn p.name reqId overuse burst now = some sched ∧
        s' = ⟨Function.update s.pods conn (some { p with up := rest }), sched⟩) ∨
      ∃ reqId rest socket, p.up = .memLimit reqId :: rest ∧ s.sched.handlers conn = some ⟨socket, none⟩ ∧
        ((s.sched.clients p.name = none ∧ s' = s.setPod conn { p with up := rest }) ∨
          ∃ inf, s.sched.clients p.name = some inf ∧ s' = (s.setPod conn { p with up := rest }).transmit
            (s.sched.descriptors socket) (.memLimit reqId 0 inf.gpuMemLimit))) := by
  unfold serve at hs
  split at hs
  · cases hs
  · rename_i p hp
    refine ⟨p, hp, ?_⟩
    split at hs
    · cases hs
    · rename_i reqId overuse burst rest hup
      obtain ⟨sched, hsched, rfl⟩ := Option.map_eq_some_iff.1 hs
      exact .inl ⟨reqId, overuse, burst, rest, sched, hup, hsched, rfl⟩
    · rename_i reqId rest hup
      split at hs
      · rename_i socket hh
        refine .inr ⟨reqId, rest, socket, hup, hh, ?_⟩
        split at hs
        · rename_i hn; cases hs; exact .inl ⟨hn, rfl⟩
        · rename_i inf hi; cases hs; exact .inr ⟨inf, hi, rfl⟩
      · cases hs

theorem sendQuota_some (hs : s.sendQuota = some s') : ∃ selected quota sched, s.sched.daemon = .granted selected quota ∧
    s.sched.send = some sched ∧ s' = State.transmit { s with sched := sched }
      (s.sched.descriptors selected.socket) (.quota selected.reqId.toNat quota) := by
  unfold sendQuota at hs
  split at hs
  · rename_i selected quota hd
    obtain ⟨sched, hsched, rfl⟩ := Option.map_eq_some_iff.1 hs
    exact ⟨selected, quota, sched, hd, hsched, rfl⟩
  · cases hs

/-- The other steps of the scheduler leave the pod managers alone. -/
theorem schedule_some {e : Scheduler.Event} (hs : s.schedule cfg e = some s') :
    (e = .send ∧ s.sendQuota = some s') ∨
    (Scheduler.State.quiet e = true ∧ ∃ sched, s.sched.step cfg e = some sched ∧ s' = { s with sched := sched }) := by
  cases e with
  | accept socket => cases hs
  | request c name reqId overuse burst now => cases hs
  | send => exact .inl ⟨rfl, hs⟩
  | hangUp c =>
    simp only [schedule, hangUp, Option.bind_eq_bind, Option.bind_eq_some_iff] at hs
    obtain ⟨p, -, hs⟩ := hs
    split at hs
    · obtain ⟨sched, hsched, rfl⟩ := Option.map_eq_some_iff.1 hs
      exact .inr ⟨rfl, sched, hsched, rfl⟩
    · cases hs
  | configure name minf maxf gpuMemLimit => cases hs; exact .inr ⟨rfl, _, rfl, rfl⟩
  | _ =>
    change Option.map (fun sched => ({ s with sched := sched } : State)) (s.sched.step cfg _) = some s' at hs
    obtain ⟨sched, hsched, rfl⟩ := Option.map_eq_some_iff.1 hs
    exact .inr ⟨rfl, sched, hsched, rfl⟩

/-- A message to a connection in use goes to its pod manager. -/
theorem transmit_eq {p : Pod} (hp : s.pods conn = some p) (r : Response) :
    s.transmit (some conn) r = s.setPod conn { p with down := p.down ++ [r] } := by
  simp only [transmit, hp]

/-! ## The invariant -/

structure Inv (s : State) : Prop where
  delivery : s.sched.DeliveryInv
  opened : ∀ conn p, s.pods conn = some p → conn < s.sched.nextConn
  named : ∀ conn name, s.sched.Asked conn name → ∃ p, s.pods conn = some p ∧ p.name = name
  pods : ∀ conn p, s.pods conn = some p → p.Inv s.sched conn

theorem inv_init : Inv init := by
  refine ⟨Scheduler.State.deliveryInv_init, nofun, fun conn name h => ?_, nofun⟩
  rcases h with ⟨_, _, h⟩ | ⟨c, h, -⟩ | ⟨a, h, -⟩
  · cases h
  · cases h
  · cases h

/-- A pod manager changes, under its name. -/
theorem Inv.setPod (h : Inv s) {p p' : Pod} (hp : s.pods conn = some p) (hn : p'.name = p.name)
    (hinv : p'.Inv s.sched conn) : Inv (s.setPod conn p') := by
  refine ⟨h.delivery, fun k q hk => ?_, fun k name hk => ?_, fun k q hk => ?_⟩
  · by_cases hkc : k = conn
    · exact hkc ▸ h.opened conn p hp
    · exact h.opened k q (by simpa only [State.setPod, Function.update_of_ne hkc] using hk)
  · obtain ⟨q, hq, hqn⟩ := h.named k name hk
    by_cases hkc : k = conn
    · subst hkc
      rw [hp] at hq
      cases hq
      exact ⟨p', Function.update_self .., hn.trans hqn⟩
    · exact ⟨q, (Function.update_of_ne hkc ..).trans hq, hqn⟩
  · by_cases hkc : k = conn
    · subst hkc
      obtain rfl : p' = q := by simpa [State.setPod] using hk
      exact hinv
    · exact h.pods k q (by simpa only [State.setPod, Function.update_of_ne hkc] using hk)

/-- The scheduler makes a step that the books of every connection agree with. -/
theorem Inv.of_sched (h : Inv s) {sched : Scheduler.State} (hd : sched.DeliveryInv)
    (hn : sched.nextConn = s.sched.nextConn) (ha : ∀ conn name, sched.Asked conn name → s.sched.Asked conn name)
    (hp : ∀ conn p, s.pods conn = some p → p.Inv sched conn) : Inv { s with sched := sched } :=
  ⟨hd, fun conn p hc => hn ▸ h.opened conn p hc, fun conn name hc => h.named conn name (ha conn name hc), hp⟩

theorem inv_connect (h : Inv s) {name : String} {socket : ℕ} (hs : s.connect name socket = some s') : Inv s' := by
  obtain ⟨sched, hsched, rfl⟩ := connect_some hs
  have hasked : ∀ {k n}, sched.Asked k n → s.sched.Asked k n := fun hk =>
    (Scheduler.State.asked_step (show s.sched.step ⟨0, 0, 0, 0⟩ (.accept socket) = _ from hsched) hk).resolve_right
      nofun
  have hdel := Scheduler.State.deliveryInv_accept h.delivery hsched
  obtain ⟨-, rfl⟩ := Scheduler.State.accept_some hsched
  have hfresh : ∀ {k p}, s.pods k = some p → k ≠ s.sched.nextConn := fun hk => (h.opened _ _ hk).ne
  refine ⟨hdel, fun k p hk => ?_, fun k n hk => ?_, fun k p hk => ?_⟩
  · by_cases hkc : k = s.sched.nextConn
    · exact hkc ▸ Nat.lt_succ_self _
    · simp only [Function.update_of_ne hkc] at hk
      exact (h.opened k p hk).trans (Nat.lt_succ_self _)
  · obtain ⟨p, hp, hpn⟩ := h.named k n (hasked hk)
    exact ⟨p, (Function.update_of_ne (hfresh hp) ..).trans hp, hpn⟩
  · by_cases hkc : k = s.sched.nextConn
    · subst hkc
      simp only [Function.update_self, Option.some.injEq] at hk
      subst hk
      obtain ⟨hh, ha⟩ := Scheduler.State.held_of_not_asked (s := { s.sched with
        descriptors := Function.update s.sched.descriptors socket (some s.sched.nextConn)
        handlers := Function.update s.sched.handlers s.sched.nextConn (some ⟨socket, none⟩)
        nextConn := s.sched.nextConn + 1 }) fun n hk => by
          obtain ⟨p, hp, -⟩ := h.named _ n (hasked hk)
          exact hfresh hp rfl
      exact Pod.Inv.connect name hh ha
    · simp only [Function.update_of_ne hkc] at hk
      refine (h.pods k p hk).of_sched ?_ rfl (fun _ => id) fun _ => id
      exact Scheduler.State.held_congr (by simp only [Function.update_of_ne hkc]) (List.Perm.refl _)

theorem inv_change (h : Inv s) {f : Pod → Option Pod} (hs : s.change conn f = some s')
    (hf : ∀ {p p' : Pod}, f p = some p' → p'.name = p.name ∧ (p.Inv s.sched conn → p'.Inv s.sched conn)) : Inv s' := by
  obtain ⟨p, p', hp, hfp, rfl⟩ := change_some hs
  exact h.setPod hp (hf hfp).1 ((hf hfp).2 (h.pods conn p hp))

theorem inv_serve (h : Inv s) {now : ℕ} (hs : s.serve cfg conn now = some s') : Inv s' := by
  obtain ⟨p, hp, ⟨reqId, overuse, burst, rest, sched, hup, hreq, rfl⟩ | ⟨reqId, rest, socket, hup, hh, hcases⟩⟩ :=
    serve_some hs
  · have hpod := h.pods conn p hp
    have hknown : ∃ inf, s.sched.clients p.name = some inf := by
      have hmem : reqId ∈ p.upIds := by
        rw [Pod.upIds, hup]
        exact List.mem_cons_self ..
      exact hpod.known (.inr (.inl (hpod.issued_pos hmem)))
    have hheld := fun k => Scheduler.State.held_request (k := k) hknown hreq
    have hdel := Scheduler.State.deliveryInv_request h.delivery hreq
    have hasked : ∀ k name, sched.Asked k name → s.sched.Asked k name ∨ (k = conn ∧ name = p.name) := by
      intro k name hk
      rcases Scheduler.State.asked_step (e := .request conn p.name reqId overuse burst now) hreq hk with
        hk | ⟨_, _, _, _, he⟩
      · exact .inl hk
      · cases he
        exact .inr ⟨rfl, rfl⟩
    obtain ⟨-, so, hh, ⟨hn, -⟩ | ⟨inf, hi, rfl⟩⟩ := Scheduler.State.request_some hreq
    · obtain ⟨inf, hi⟩ := hknown
      rw [hn] at hi
      cases hi
    · refine ⟨hdel, fun k q hk => ?_, fun k name hk => ?_, fun k q hk => ?_⟩
      · by_cases hkc : k = conn
        · exact hkc ▸ h.opened conn p hp
        · exact h.opened k q ((Function.update_of_ne hkc ..).symm.trans hk)
      · rcases hasked k name hk with hk | ⟨rfl, rfl⟩
        · obtain ⟨q, hq, hqn⟩ := h.named k name hk
          by_cases hkc : k = conn
          · subst hkc
            rw [hp] at hq
            cases hq
            exact ⟨_, Function.update_self .., hqn⟩
          · exact ⟨q, (Function.update_of_ne hkc ..).trans hq, hqn⟩
        · exact ⟨_, Function.update_self .., rfl⟩
      · by_cases hkc : k = conn
        · subst hkc
          obtain rfl : { p with up := rest } = q := by simpa using hk
          exact hpod.request hup ((hheld k).trans (by rw [if_pos rfl])) rfl fun _ => Scheduler.State.known_update
        · refine (h.pods k q ((Function.update_of_ne hkc ..).symm.trans hk)).of_sched ((hheld k).trans ?_) rfl
            (fun _ => id)
            fun _ => Scheduler.State.known_update
          rw [if_neg hkc, add_zero]
  · have hpod := h.pods conn p hp
    rcases hcases with ⟨-, rfl⟩ | ⟨inf, hi, rfl⟩
    · have := hpod.memLimit hup [] (by simp)
      simp only [List.append_nil] at this
      exact h.setPod hp rfl this
    · -- the descriptor that the thread sends to is that of its connection
      rw [h.delivery.owned conn _ hh, transmit_eq (p := { p with up := rest }) (Function.update_self ..)]
      simp only [State.setPod, Function.update_idem]
      exact h.setPod hp rfl (hpod.memLimit hup [.memLimit reqId 0 inf.gpuMemLimit] fun r hr =>
        ⟨inf, hi, List.mem_singleton.1 hr⟩)

/-- A quota goes to the pod manager that has asked for it. -/
theorem inv_sendQuota (h : Inv s) (hs : s.sendQuota = some s') : Inv s' := by
  obtain ⟨selected, quota, sched, hd, hsched, rfl⟩ := sendQuota_some hs
  have hheld := Scheduler.State.held_send hd hsched
  have hdel := Scheduler.State.deliveryInv_send h.delivery hsched
  have hasked : ∀ k name, sched.Asked k name → s.sched.Asked k name := fun k name hk =>
    (Scheduler.State.asked_step (show s.sched.step ⟨0, 0, 0, 0⟩ .send = _ from hsched) hk).resolve_right nofun
  have hout : s.sched.Outstanding selected := .inr (by rw [hd]; rfl)
  obtain ⟨pending, hserved⟩ := h.delivery.served selected hout
  obtain ⟨p, hp, -⟩ := h.named selected.conn selected.name
    (.inr (.inl ⟨selected, Scheduler.State.mem_waiting.2 hout, rfl, rfl⟩))
  rw [h.delivery.owned _ _ hserved, transmit_eq (s := { s with sched := sched }) hp]
  have hpod := h.pods _ p hp
  obtain ⟨c, q, hd', rfl⟩ := Scheduler.State.send_some hsched
  rw [hd] at hd'
  cases hd'
  have hsub : s.sched.answers ⊆ s.sched.answers ++ [⟨selected, quota, s.sched.descriptors selected.socket⟩] :=
    List.subset_append_left ..
  obtain ⟨hh, ha⟩ := hheld selected.conn
  rw [Scheduler.idsOf_singleton, if_pos rfl] at hh ha
  have hnew := hpod.send hh ha hsub ⟨_, List.mem_append_right _ (List.mem_singleton_self _), rfl, rfl, rfl⟩ rfl
  refine ⟨hdel, fun k q hk => ?_, fun k name hk => ?_, fun k q hk => ?_⟩
  · by_cases hkc : k = selected.conn
    · exact hkc ▸ h.opened selected.conn p hp
    · exact h.opened k q ((Function.update_of_ne hkc ..).symm.trans hk)
  · obtain ⟨q, hq, hqn⟩ := h.named k name (hasked k name hk)
    by_cases hkc : k = selected.conn
    · subst hkc
      rw [hp] at hq
      cases hq
      exact ⟨_, Function.update_self .., hqn⟩
    · exact ⟨q, (Function.update_of_ne hkc ..).trans hq, hqn⟩
  · by_cases hkc : k = selected.conn
    · subst hkc
      obtain rfl : _ = q := by simpa [State.setPod] using hk
      exact hnew
    · refine (h.pods k q ((Function.update_of_ne hkc ..).symm.trans hk)).of_sched ?_ ?_ hsub fun _ => id
      · have := (hheld k).1
        rwa [Scheduler.idsOf_singleton, if_neg (Ne.symm hkc), Multiset.coe_nil, add_zero] at this
      · have := (hheld k).2
        rwa [Scheduler.idsOf_singleton, if_neg (Ne.symm hkc), List.append_nil] at this

/-- No quiet step gives a connection number out. -/
theorem nextConn_of_quiet {sched sched' : Scheduler.State} {e : Scheduler.Event} (hq : Scheduler.State.quiet e = true)
    (hs : sched.step cfg e = some sched') : sched'.nextConn = sched.nextConn := by
  cases e with
  | accept socket => cases hq
  | request c name reqId overuse burst now => cases hq
  | send => cases hq
  | enqueue c now => obtain ⟨-, -, socket, name, reqId, -, rfl⟩ := Scheduler.State.enqueue_some hs; rfl
  | hangUp c => obtain ⟨socket, -, rfl⟩ := Scheduler.State.hangUp_some hs; rfl
  | configure name minf maxf gpuMemLimit => cases hs; rfl
  | select now ts order => obtain ⟨-, -, ⟨-, rfl⟩ | ⟨c, rest, -, rfl⟩ | ⟨ms, rfl⟩⟩ :=
      Scheduler.State.select_some hs <;> rfl
  | record now => obtain ⟨-, selected, inf, -, -, rfl⟩ := Scheduler.State.record_some hs; rfl
  | arm now => obtain ⟨-, selected, quota, -, rfl⟩ := Scheduler.State.arm_some hs; rfl
  | block => obtain ⟨selected, deadline, -, rfl⟩ := Scheduler.State.block_some hs; rfl
  | wake now timedOut =>
    obtain ⟨-, ⟨b, -, rfl⟩ | ⟨selected, deadline, b, -, ⟨-, rfl⟩ | ⟨-, rfl⟩ | ⟨-, rfl⟩⟩⟩ :=
      Scheduler.State.wake_some hs <;> rfl

theorem inv_schedule (h : Inv s) {e : Scheduler.Event} (hidle : s.sched.ClosesIdle e)
    (hs : s.schedule cfg e = some s') : Inv s' := by
  rcases schedule_some hs with ⟨rfl, hs⟩ | ⟨hq, sched, hsched, rfl⟩
  · exact inv_sendQuota h hs
  · obtain ⟨hheld, ha, hk⟩ := Scheduler.State.held_step hq hsched
    refine h.of_sched (Scheduler.State.deliveryInv_step h.delivery hidle hsched) (nextConn_of_quiet hq hsched)
      (fun k name hn => (Scheduler.State.asked_step hsched hn).resolve_right ?_) fun k p hp => ?_
    · rintro ⟨_, _, _, _, rfl⟩
      cases hq
    · refine (h.pods k p hp).of_sched (hheld k) ?_ (by rw [ha]; exact fun _ => id) hk
      rw [Scheduler.State.answered, Scheduler.State.answered, ha]

theorem inv_step (h : Inv s) (hidle : s.ClosesIdle e) (hs : s.step cfg e = some s') : Inv s' := by
  cases e with
  | connect name socket => exact inv_connect h hs
  | ask conn =>
    refine inv_change h hs fun hf => ⟨?_, fun hp => hp.ask hf⟩
    obtain ⟨-, k, rfl⟩ := Pod.ask_some hf
    rfl
  | learn conn =>
    refine inv_change h hs fun hf => ⟨?_, fun hp => hp.learn hf⟩
    obtain ⟨-, _, _, _, _, -, rfl⟩ := Pod.learn_some hf
    rfl
  | exit conn =>
    refine inv_change h hs fun hf => ⟨?_, fun hp => hp.exit hf⟩
    unfold Pod.exit at hf
    split at hf <;> cases hf
    rfl
  | act conn e =>
    refine inv_change h hs fun hf => ⟨?_, fun hp => hp.act hf⟩
    obtain ⟨-, -, m, -, rfl⟩ := Pod.act_some hf
    rfl
  | receive conn =>
    refine inv_change h hs fun hf => ⟨?_, fun hp => hp.receive hf⟩
    obtain ⟨-, ⟨_, _, _, -, rfl⟩ | ⟨_, _, _, -, rfl⟩⟩ := Pod.receive_some hf <;> rfl
  | serve conn now => exact inv_serve h hs
  | schedule e => exact inv_schedule h hidle hs

theorem inv_of_run {es : List Event} (hrun : RunWhere (step cfg) ClosesIdle init es s) : Inv s :=
  hrun.invariant (fun _ _ _ => inv_step) inv_init

end State

end Gemini.System
