/-
Progress of the whole system. Once a pod manager serves, no request that it has sent can be stuck:
from every state of every run the scheduler and the receiving threads alone, without another launch
or a spurious wake-up of the scheduler's daemon, bring the responses back that its hook threads wait
for, and wake up the threads that wait.
-/
import Gemini.Scheduler.Progress
import Gemini.System.Handshake

namespace Gemini.Scheduler.State

variable {cfg : Config} {s s' : State} {e : Event} {conn : ℕ}

/-- The thread of a connection ends with its connection only. -/
theorem handler_step (hs : s.step cfg e = some s') (he : e ≠ .hangUp conn)
    (h : ∃ handler, s.handlers conn = some handler) : ∃ handler, s'.handlers conn = some handler := by
  have hupdate : ∀ {k : ℕ} {handler : Handler}, ∃ handler',
      Function.update s.handlers k (some handler) conn = some handler' := by
    intro k handler
    by_cases hk : conn = k
    · exact ⟨handler, by rw [hk, Function.update_self]⟩
    · rwa [Function.update_of_ne hk]
  cases e with
  | accept socket => obtain ⟨-, rfl⟩ := accept_some hs; exact hupdate
  | request k name reqId overuse burst now =>
    obtain ⟨-, socket, -, ⟨-, rfl⟩ | ⟨inf, -, rfl⟩⟩ := request_some hs
    · exact h
    · exact hupdate
  | enqueue k now => obtain ⟨-, -, socket, name, reqId, -, rfl⟩ := enqueue_some hs; exact hupdate
  | hangUp k =>
    obtain ⟨socket, -, rfl⟩ := hangUp_some hs
    have hk : conn ≠ k := by
      rintro rfl
      exact he rfl
    simpa only [Function.update_of_ne hk] using h
  | configure name minf maxf gpuMemLimit => cases hs; exact h
  | select now ts order =>
    obtain ⟨-, -, ⟨-, rfl⟩ | ⟨c, rest, -, rfl⟩ | ⟨ms, rfl⟩⟩ := select_some hs <;> exact h
  | record now => obtain ⟨-, selected, inf, -, -, rfl⟩ := record_some hs; exact h
  | send => obtain ⟨selected, quota, -, rfl⟩ := send_some hs; exact h
  | arm now => obtain ⟨-, selected, quota, -, rfl⟩ := arm_some hs; exact h
  | block => obtain ⟨selected, deadline, -, rfl⟩ := block_some hs; exact h
  | wake now timedOut =>
    obtain ⟨-, ⟨b, -, rfl⟩ | ⟨selected, deadline, b, -, ⟨-, rfl⟩ | ⟨-, rfl⟩ | ⟨-, rfl⟩⟩⟩ := wake_some hs <;> exact h

end Gemini.Scheduler.State

namespace Gemini.System.State

open Gemini.Lib

variable {cfg : Scheduler.Config} {s s' t : State} {conn : ℕ} {p : Pod} {e : Event} {es : List Event}

/-- A step in which no hook library, no user and no new pod manager has a part: the scheduler handles
what it has been sent, on wake-ups that are due, and pod managers take what they have been sent. -/
def Unaided (s : State) : Event → Prop
  | .serve .. | .receive _ => True
  | .schedule (.enqueue ..) => True
  | .schedule e => s.sched.Due e
  | _ => False

theorem unaided_of_due {e : Scheduler.Event} (h : s.sched.Due e) : s.Unaided (.schedule e) := by
  cases e <;> first | exact h | trivial

theorem closesIdle_of_unaided (h : s.Unaided e) : s.ClosesIdle e := by
  cases e with
  | schedule e =>
    cases e with
    | hangUp k => cases h
    | _ => trivial
  | _ => trivial

/-! ## What progress rests on -/

/-- A pod manager that has not ended has its thread in the scheduler. -/
structure Live (s : State) : Prop where
  inv : Inv s
  progress : s.sched.ProgressInv
  served : ∀ conn p, s.pods conn = some p → p.phase ≠ .exited → ∃ handler, s.sched.handlers conn = some handler

theorem live_init : Live init := ⟨inv_init, Scheduler.State.progressInv_init, nofun⟩

theorem progress_step (h : s.sched.ProgressInv) (hidle : s.ClosesIdle e) (hs : s.step cfg e = some s') :
    s'.sched.ProgressInv := by
  obtain ⟨ds, t, hds, rfl⟩ := simulates_scheduler cfg s s.sched e s' rfl hidle hs
  exact hds.invariant (fun _ _ _ h _ => Scheduler.State.progressInv_step h) h

theorem served_change (h : Live s) {f : Pod → Option Pod} (hs : s.change conn f = some s')
    (hf : ∀ {p p' : Pod}, f p = some p' → p'.phase ≠ .exited → p.phase ≠ .exited) {k : ℕ} {q : Pod}
    (hk : s'.pods k = some q) (hq : q.phase ≠ .exited) : ∃ handler, s'.sched.handlers k = some handler := by
  obtain ⟨p, p', hp, hfp, rfl⟩ := change_some hs
  by_cases hkc : k = conn
  · subst hkc
    obtain rfl : p' = q := by simpa [setPod] using hk
    exact h.served k p hp (hf hfp hq)
  · exact h.served k q ((Function.update_of_ne hkc ..).symm.trans hk) hq

/-- A message to a pod manager does not end it. -/
theorem pods_transmit {receiver : Option ℕ} {r : Response} {q : Pod} (hq : (s.transmit receiver r).pods conn = some q) :
    ∃ p, s.pods conn = some p ∧ q.phase = p.phase := by
  unfold transmit at hq
  split at hq
  · exact ⟨q, hq, rfl⟩
  · rename_i k
    split at hq
    · exact ⟨q, hq, rfl⟩
    · rename_i p hp
      by_cases hk : conn = k
      · subst hk
        obtain rfl : _ = q := by simpa [setPod] using hq
        exact ⟨p, hp, rfl⟩
      · exact ⟨q, (Function.update_of_ne hk ..).symm.trans hq, rfl⟩

theorem live_step (h : Live s) (hidle : s.ClosesIdle e) (hs : s.step cfg e = some s') : Live s' := by
  refine ⟨inv_step h.inv hidle hs, progress_step h.progress hidle hs, fun k q hk hq => ?_⟩
  have hserving : ∀ {p : Pod}, p.phase = .serving → p.phase ≠ .exited := fun hp => by rw [hp]; exact nofun
  have hasking : ∀ {p : Pod} {n : ℕ}, p.phase = .asking n → p.phase ≠ .exited := fun hp => by rw [hp]; exact nofun
  cases e with
  | connect name socket =>
    obtain ⟨sched, hsched, rfl⟩ := connect_some hs
    by_cases hkc : k = s.sched.nextConn
    · obtain ⟨-, rfl⟩ := Scheduler.State.accept_some hsched
      exact ⟨⟨socket, none⟩, by rw [hkc]; exact Function.update_self ..⟩
    · have hp := h.served k q ((Function.update_of_ne hkc ..).symm.trans hk) hq
      exact Scheduler.State.handler_step (show s.sched.step cfg (.accept socket) = _ from hsched) nofun hp
  | ask conn =>
    refine served_change h hs (fun hf _ => ?_) hk hq
    obtain ⟨⟨n, hp⟩, -⟩ := Pod.ask_some hf
    exact hasking hp
  | learn conn =>
    refine served_change h hs (fun hf _ => ?_) hk hq
    obtain ⟨⟨n, hp⟩, -⟩ := Pod.learn_some hf
    exact hasking hp
  | exit conn =>
    refine served_change h hs (fun hf _ => ?_) hk hq
    unfold Pod.exit at hf
    split at hf
    · cases hf
    · assumption
  | act conn e => exact served_change h hs (fun hf _ => hserving (Pod.act_some hf).1) hk hq
  | receive conn => exact served_change h hs (fun hf _ => hserving (Pod.receive_some hf).1) hk hq
  | serve conn now =>
    have hset : ∀ {p : Pod} {rest : List Request} {q : Pod}, s.pods conn = some p →
        Function.update s.pods conn (some { p with up := rest }) k = some q → ∃ p', s.pods k = some p' ∧
          q.phase = p'.phase := by
      intro p rest q hp hk
      by_cases hkc : k = conn
      · subst hkc
        obtain rfl : _ = q := by simpa using hk
        exact ⟨p, hp, rfl⟩
      · exact ⟨q, (Function.update_of_ne hkc ..).symm.trans hk, rfl⟩
    obtain ⟨p, hp,
      ⟨reqId, overuse, burst, rest, sched, -, hreq, rfl⟩ | ⟨reqId, rest, socket, -, -, ⟨-, rfl⟩ | ⟨inf, -, rfl⟩⟩⟩ :=
      serve_some hs
    · obtain ⟨p', hp', hphase⟩ := hset hp hk
      have hh := h.served k p' hp' (hphase ▸ hq)
      exact Scheduler.State.handler_step
        (show s.sched.step cfg (.request conn p.name reqId overuse burst now) = _ from hreq) nofun hh
    · obtain ⟨p', hp', hphase⟩ := hset hp hk
      exact h.served k p' hp' (hphase ▸ hq)
    · obtain ⟨r, hr, hphase⟩ := pods_transmit hk
      obtain ⟨p', hp', hphase'⟩ := hset hp hr
      rw [sched_transmit]
      exact h.served k p' hp' (hphase' ▸ hphase ▸ hq)
  | schedule e =>
    rcases schedule_some hs with ⟨rfl, hs⟩ | ⟨-, sched, hsched, rfl⟩
    · obtain ⟨selected, quota, sched, -, hsched, rfl⟩ := sendQuota_some hs
      obtain ⟨p', hp', hphase⟩ := pods_transmit hk
      rw [sched_transmit]
      exact Scheduler.State.handler_step (show s.sched.step cfg .send = _ from hsched) nofun
        (h.served k p' hp' (hphase ▸ hq))
    · refine Scheduler.State.handler_step hsched ?_ (h.served k q hk hq)
      -- the scheduler finds a connection closed when its pod manager has ended
      rintro rfl
      simp only [step, schedule, hangUp, Option.bind_eq_bind, Option.bind_eq_some_iff] at hs
      obtain ⟨p', hp', hs⟩ := hs
      have hp : s.pods k = some q := hk
      rw [hp] at hp'
      cases hp'
      rw [if_neg hq] at hs
      cases hs

theorem live_of_run (hrun : RunWhere (step cfg) ClosesIdle init es s) : Live s :=
  hrun.invariant (fun _ _ _ => live_step) live_init

/-! ## Unaided runs -/

/-- There are unaided steps from `s` to `s'`. -/
def Reaches (cfg : Scheduler.Config) (s s' : State) : Prop := ∃ es, RunWhere (step cfg) Unaided s es s'

theorem Reaches.refl (s : State) : Reaches cfg s s := ⟨[], .nil s⟩

theorem Reaches.trans (h : Reaches cfg s t) (h' : Reaches cfg t s') : Reaches cfg s s' := by
  obtain ⟨es, hes⟩ := h
  obtain ⟨fs, hfs⟩ := h'
  exact ⟨es ++ fs, hes.append hfs⟩

theorem Reaches.single (hs : s.step cfg e = some s') (hg : s.Unaided e) : Reaches cfg s s' := ⟨[e], .single hg hs⟩

theorem Live.reaches (h : Live s) (hr : Reaches cfg s s') : Live s' := by
  obtain ⟨es, hes⟩ := hr
  exact hes.invariant (fun _ _ _ h hg hs => live_step h (closesIdle_of_unaided hg) hs) h

/-! ## The thread of a connection -/

variable (cfg) in
/-- The daemon gives the mutex back. -/
theorem exists_unlocked (h : Live s) : ∃ s', Reaches cfg s s' ∧ s'.sched.daemon.unlocked = true ∧ s'.pods = s.pods ∧
    s'.sched.handlers = s.sched.handlers := by
  cases hd : s.sched.daemon with
  | chosen selected =>
    obtain ⟨inf, hi⟩ := h.progress.chosen selected hd
    obtain ⟨s', hs, hframe⟩ : ∃ s', s.step cfg (.schedule (.record s.sched.clock)) = some s' ∧
        s'.sched.daemon.unlocked = true ∧ s'.pods = s.pods ∧ s'.sched.handlers = s.sched.handlers := by
      refine ⟨_, by
        simp only [step, schedule, Scheduler.State.step, Scheduler.State.record, hd, le_refl, if_true, hi,
          Option.map_some]
        rfl, ?_⟩
      exact ⟨rfl, rfl, rfl⟩
    exact ⟨s', .single hs trivial, hframe⟩
  | _ => exact ⟨s, .refl s, by rw [hd]; rfl, rfl, rfl⟩

variable (cfg) in
/-- The thread enqueues what it has read and is ready for the next message. -/
theorem exists_idle (h : Live s) {handler : Scheduler.Handler} (hh : s.sched.handlers conn = some handler) :
    ∃ s' socket, Reaches cfg s s' ∧ s'.pods = s.pods ∧ s'.sched.handlers conn = some ⟨socket, none⟩ := by
  obtain ⟨s₁, hr₁, hu, hp₁, hh₁⟩ := exists_unlocked cfg h
  have hs₁ : s₁.sched.handlers conn = some handler := by rw [hh₁, hh]
  obtain ⟨socket, pending⟩ := handler
  cases pending with
  | none => exact ⟨s₁, socket, hr₁, hp₁, hs₁⟩
  | some request =>
    obtain ⟨name, reqId⟩ := request
    obtain ⟨s', hs, hp', hh'⟩ : ∃ s', s₁.step cfg (.schedule (.enqueue conn s₁.sched.clock)) = some s' ∧
      s'.pods = s₁.pods ∧ s'.sched.handlers conn = some ⟨socket, none⟩ := by
      refine ⟨_, by
        simp only [step, schedule, Scheduler.State.step, Scheduler.State.enqueue, hs₁, le_refl, hu, and_self, if_true,
          Option.map_some]
        rfl, ?_⟩
      exact ⟨rfl, Function.update_self ..⟩
    exact ⟨s', socket, hr₁.trans (.single hs trivial), hp'.trans hp₁, hh'⟩

variable (cfg) in
/-- A thread that is ready takes the next message. -/
theorem exists_serve (h : Live s) {socket : ℕ} (hh : s.sched.handlers conn = some ⟨socket, none⟩)
    (hp : s.pods conn = some p) {r : Request} {rest : List Request} (hup : p.up = r :: rest) :
    ∃ s' down, Reaches cfg s s' ∧ s'.pods conn = some { p with up := rest, down := p.down ++ down } := by
  suffices ∃ s' down, s.serve cfg conn s.sched.clock = some s' ∧
      s'.pods conn = some { p with up := rest, down := p.down ++ down } by
    obtain ⟨s', down, hs, hp'⟩ := this
    exact ⟨s', down, .single (e := .serve conn s.sched.clock) hs trivial, hp'⟩
  have hnone : ({ p with up := rest } : Pod) = { p with up := rest, down := p.down ++ [] } := by rw [List.append_nil]
  cases r with
  | quota reqId overuse burst =>
    obtain ⟨sched, hsched⟩ : ∃ sched, s.sched.request cfg conn p.name reqId overuse burst s.sched.clock =
      some sched := by
      cases hi : s.sched.clients p.name with
      | none => exact ⟨_, by simp only [Scheduler.State.request, hh, le_refl, if_true, hi]; rfl⟩
      | some inf => exact ⟨_, by simp only [Scheduler.State.request, hh, le_refl, if_true, hi]; rfl⟩
    refine ⟨_, [], by simp only [serve, hp, hup, hsched, Option.map_some]; rfl, ?_⟩
    exact hnone ▸ Function.update_self ..
  | memLimit reqId =>
    cases hi : s.sched.clients p.name with
    | none =>
      refine ⟨_, [], by simp only [serve, hp, hup, hh, hi]; rfl, ?_⟩
      exact hnone ▸ Function.update_self ..
    | some inf =>
      refine ⟨_, [.memLimit reqId 0 inf.gpuMemLimit], by simp only [serve, hp, hup, hh, hi]; rfl, ?_⟩
      rw [h.inv.delivery.owned conn _ hh, transmit_eq (p := { p with up := rest }) (Function.update_self ..)]
      exact Function.update_self ..

variable (cfg) in
/-- All that is on its way to the scheduler is read. -/
theorem exists_read : ∀ (up : List Request) {s : State} {p : Pod}, Live s → s.pods conn = some p → p.phase ≠ .exited →
    p.up = up → ∃ s' socket down, Reaches cfg s s' ∧ s'.pods conn = some { p with up := [], down := p.down ++ down } ∧
      s'.sched.handlers conn = some ⟨socket, none⟩
  | [], s, p, h, hp, hn, hup => by
    obtain ⟨handler, hh⟩ := h.served conn p hp hn
    obtain ⟨s', socket, hr, hpods, hidle⟩ := exists_idle cfg h hh
    refine ⟨s', socket, [], hr, ?_, hidle⟩
    rw [hpods, hp, ← hup, List.append_nil]
  | r :: rest, s, p, h, hp, hn, hup => by
    obtain ⟨handler, hh⟩ := h.served conn p hp hn
    obtain ⟨s₁, socket, hr₁, hpods, hidle⟩ := exists_idle cfg h hh
    obtain ⟨s₂, down, hr₂, hp₂⟩ := exists_serve cfg (h.reaches hr₁) hidle (hpods ▸ hp) hup
    obtain ⟨s', socket', down', hr', hp', hidle'⟩ := exists_read rest (h.reaches (hr₁.trans hr₂)) hp₂ hn rfl
    refine ⟨s', socket', down ++ down', (hr₁.trans hr₂).trans hr', ?_, hidle'⟩
    rw [hp', List.append_assoc]

/-! ## The daemon -/

/-- A pod manager is sent a message, or is not. -/
theorem exists_transmit (hp : s.pods conn = some p) (receiver : Option ℕ) (r : Response) :
    ∃ down, (s.transmit receiver r).pods conn = some { p with down := p.down ++ down } := by
  have hnone : ∃ down, s.pods conn = some { p with down := p.down ++ down } := ⟨[], by rw [List.append_nil]; exact hp⟩
  unfold transmit
  split
  · exact hnone
  · rename_i k
    split
    · exact hnone
    · rename_i q hq
      by_cases hk : conn = k
      · subst hk
        rw [hp] at hq
        cases hq
        exact ⟨[r], Function.update_self ..⟩
      · simpa only [setPod, Function.update_of_ne hk] using hnone

/-- What the daemon does on its own it does in the system, where its quotas go to the pod managers. -/
theorem exists_schedule {e : Scheduler.Event} {t : Scheduler.State} (hdue : s.sched.Due e)
    (hs : s.sched.step cfg e = some t)
    (hp : s.pods conn = some p) : ∃ s' down, s.step cfg (.schedule e) = some s' ∧ s'.sched = t ∧
      s'.pods conn = some { p with down := p.down ++ down } := by
  have hmap : s.schedule cfg e = (s.sched.step cfg e).map (fun sched => ({ s with sched := sched } : State)) →
      ∃ s' down, s.step cfg (.schedule e) = some s' ∧ s'.sched = t ∧
        s'.pods conn = some { p with down := p.down ++ down } := by
    intro he
    refine ⟨{ s with sched := t }, [], ?_, rfl, by rw [List.append_nil]; exact hp⟩
    rw [step, he, hs, Option.map_some]
  cases e with
  | accept socket => cases hdue
  | request conn name reqId overuse burst now => cases hdue
  | enqueue conn now => cases hdue
  | hangUp conn => cases hdue
  | configure name minf maxf gpuMemLimit => cases hdue
  | send =>
    obtain ⟨selected, quota, hd, -⟩ := Scheduler.State.send_some hs
    have hsend : s.sched.send = some t := hs
    obtain ⟨down, hdown⟩ := exists_transmit (s := { s with sched := t }) hp (s.sched.descriptors selected.socket)
      (.quota selected.reqId.toNat quota)
    refine ⟨_, down, ?_, sched_transmit _ _, hdown⟩
    simp only [step, schedule, sendQuota, hd, hsend, Option.map_some]
  | select now ts order => exact hmap rfl
  | record now => exact hmap rfl
  | arm now => exact hmap rfl
  | block => exact hmap rfl
  | wake now timedOut => exact hmap rfl

theorem exists_scheduled {u t : Scheduler.State} {ds : List Scheduler.Event}
    (hrun : RunWhere (Scheduler.State.step cfg) Scheduler.State.Due u ds t) : ∀ {s : State} {p : Pod}, s.sched = u →
      s.pods conn = some p → ∃ s' down, Reaches cfg s s' ∧ s'.sched = t ∧
        s'.pods conn = some { p with down := p.down ++ down } := by
  induction hrun with
  | nil u => exact fun {s} {p} hu hp => ⟨s, [], .refl s, hu, by rw [List.append_nil]; exact hp⟩
  | cons hdue hs _ ih =>
    rintro s p rfl hp
    obtain ⟨s₁, down, hs₁, hu, hp₁⟩ := exists_schedule hdue hs hp
    obtain ⟨s', down', hr, ht, hp'⟩ := ih hu hp₁
    refine ⟨s', down ++ down', (Reaches.single hs₁ (unaided_of_due hdue)).trans hr, ht, ?_⟩
    rw [hp', List.append_assoc]

/-! ## The receiving thread -/

/-- What responses do to a pod manager: they fill `response_map` and wake up all that wait. -/
structure Woken (m m' : PodManager.State) : Prop where
  queue : m'.requestQueue = m.requestQueue
  threads : m' = m ∨ m'.threads = fun t => (m.threads t).wakeRsp

theorem wakeRsp_wakeRsp (h : PodManager.HookThread) : h.wakeRsp.wakeRsp = h.wakeRsp := by cases h <;> rfl

/-- One more response. -/
theorem Woken.cons {m m₁ m' : PodManager.State} (hq : m₁.requestQueue = m.requestQueue)
    (ht : m₁.threads = fun t => (m.threads t).wakeRsp) (h : Woken m₁ m') : Woken m m' := by
  refine ⟨h.queue.trans hq, .inr ?_⟩
  rcases h.threads with rfl | h'
  · exact ht
  · rw [h', ht]
    exact funext fun t => wakeRsp_wakeRsp _

theorem Woken.awaiting {m m' : PodManager.State} (h : Woken m m') (t : ℕ) :
    (m'.threads t).awaiting = (m.threads t).awaiting := by
  rcases h.threads with rfl | h'
  · rfl
  · rw [h']
    exact PodManager.HookThread.awaiting_wakeRsp _

variable (cfg) in
/-- All that is on its way to a pod manager that serves is received. -/
theorem exists_received : ∀ (down : List Response) {s : State} {p : Pod}, Live s → s.pods conn = some p →
    p.phase = .serving →
    p.down = down → ∃ s' m, Reaches cfg s s' ∧ s'.sched = s.sched ∧
      s'.pods conn = some { p with manager := m, down := [] } ∧ Woken p.manager m
  | [], s, p, _, hp, _, hd => by
    refine ⟨s, p.manager, .refl s, rfl, ?_, rfl, .inl rfl⟩
    rw [hp, ← hd]
  | r :: rest, s, p, h, hp, hs, hd => by
    obtain ⟨p₁, hp₁⟩ := receive_of_inv (h.inv.pods conn p hp) hs (by rw [hd]; exact nofun)
    have hstep : s.step cfg (.receive conn) = some (s.setPod conn p₁) := by
      simp only [step, change, hp, hp₁, Option.bind_eq_bind, Option.bind_some, Option.pure_def]
    obtain ⟨m₁, rfl, hq, ht⟩ : ∃ m₁, p₁ = { p with manager := m₁, down := rest } ∧
        m₁.requestQueue = p.manager.requestQueue ∧ m₁.threads = fun t => (p.manager.threads t).wakeRsp := by
      obtain ⟨-, ⟨reqId, quota, rest', hd', rfl⟩ | ⟨used, total, rest', hd', rfl⟩⟩ := Pod.receive_some hp₁
      · rw [hd] at hd'
        cases hd'
        exact ⟨_, rfl, rfl, rfl⟩
      · rw [hd] at hd'
        cases hd'
        exact ⟨_, rfl, rfl, rfl⟩
    have hr₁ := Reaches.single hstep trivial
    obtain ⟨s', m, hr, hsched, hp', hw⟩ := exists_received rest (h.reaches hr₁) (Function.update_self ..) hs rfl
    exact ⟨s', m, hr₁.trans hr, hsched, hp', .cons hq ht hw⟩

/-! ## Over runs -/

/-- What is left to do of a connection, when its requests are read and nothing waits in the scheduler. -/
theorem held_eq_zero {sched : Scheduler.State} {socket : ℕ} (hh : sched.handlers conn = some ⟨socket, none⟩)
    (hw : sched.waiting = []) : sched.held conn = 0 := by
  rw [Scheduler.State.held, hh, hw]
  rfl

/-- From every state of every run, for every pod manager that serves, unaided steps lead to a state in
which nothing of its connection is on its way or with the scheduler. Every hook thread that waits for
a response then has it in `response_map`, unless its request has not been sent; and if it was blocked
and the response not there before, it has been woken up. -/
theorem delivers_all_of_run (hrun : RunWhere (step cfg) ClosesIdle init es s) (hp : s.pods conn = some p)
    (hs : p.phase = .serving) : ∃ fs s' p', RunWhere (step cfg) Unaided s fs s' ∧ s'.pods conn = some p' ∧
      p'.phase = .serving ∧ p'.up = [] ∧ s'.sched.held conn = 0 ∧ p'.down = [] ∧
      p'.manager.requestQueue = p.manager.requestQueue ∧
      ∀ t reqId, (p.manager.threads t).awaiting = some reqId → (∃ r ∈ p.manager.requestQueue, r.reqId = reqId) ∨
        reqId ∈ keys p'.manager.responseMap ∧
          ∀ woken, p.manager.threads t = .waitRsp reqId woken → reqId ∉ keys p.manager.responseMap →
            p'.manager.threads t = .waitRsp reqId true := by
  have hlive := live_of_run hrun
  obtain ⟨s₁, socket, down₁, hr₁, hp₁, hidle⟩ := exists_read cfg p.up hlive hp (by rw [hs]; exact nofun) rfl
  have hlive₁ := hlive.reaches hr₁
  obtain ⟨ds, t, hds, hempty, -⟩ := Scheduler.State.exists_quiet cfg hlive₁.progress
  have hhandlers : t.handlers = s₁.sched.handlers :=
    hds.invariant (P := fun u => u.handlers = s₁.sched.handlers)
      (fun u e u' h hdue hu => (Scheduler.State.handlers_of_due hdue hu).trans h) rfl
  obtain ⟨s₂, down₂, hr₂, rfl, hp₂⟩ := exists_scheduled hds rfl hp₁
  obtain ⟨s', m, hr₃, hsched, hp', hw⟩ := exists_received cfg _ (hlive₁.reaches hr₂) hp₂ hs rfl
  have hw : Woken p.manager m := hw
  obtain ⟨fs, hfs⟩ := (hr₁.trans hr₂).trans hr₃
  have hrun' := hrun.append (hfs.mono fun _ _ => closesIdle_of_unaided)
  have hheld : s'.sched.held conn = 0 := by
    rw [hsched]
    exact held_eq_zero (by rw [hhandlers]; exact hidle) hempty
  refine ⟨fs, s', _, hfs, hp', hs, rfl, hheld, rfl, hw.queue, fun u reqId hu => ?_⟩
  have hmem := Multiset.one_le_count_iff_mem.1 (count_places hrun' hp' ((hw.awaiting u).trans hu)).ge
  simp only [places, Pod.upIds, Pod.downIds, hheld, List.filterMap_nil, Multiset.coe_nil, add_zero, Multiset.mem_add,
    Multiset.mem_coe, List.mem_map, Nat.add_right_cancel_iff, exists_eq_right] at hmem
  rcases hmem with hqueue | hkey
  · exact .inl (hw.queue ▸ hqueue)
  · refine .inr ⟨hkey, fun woken hwait hnew => ?_⟩
    rcases hw.threads with rfl | hthreads
    · exact absurd hkey hnew
    · simp only [hthreads, hwait]
      rfl

/-- The request of the round trip has just been sent. -/
theorem delivers_all_of_round_trip : ∃ s p fs s' p', RunWhere (step Scheduler.defaultConfig) ClosesIdle init
    (oneRoundTrip.take 20) s ∧ s.pods 0 = some p ∧ p.manager.threads 9 = .waitRsp 0 false ∧
    RunWhere (step Scheduler.defaultConfig) Unaided s fs s' ∧ s'.pods 0 = some p' ∧
    0 ∈ keys p'.manager.responseMap ∧ p'.manager.threads 9 = .waitRsp 0 true := by
  have hrun : ∃ s, RunWhere (step Scheduler.defaultConfig) ClosesIdle init (oneRoundTrip.take 20) s ∧
      (s.pods 0).any (fun p => decide (p.phase = .serving ∧ p.manager.threads 9 = .waitRsp 0 false ∧
        p.manager.requestQueue = [] ∧ p.manager.responseMap = [])) = true := exists_runWhere (by decide +kernel)
  obtain ⟨s, hrun, hany⟩ := hrun
  obtain ⟨p, hp, h⟩ := (Option.any_eq_true ..).1 hany
  obtain ⟨hs, hwait, hqueue, hnone⟩ := of_decide_eq_true h
  obtain ⟨fs, s', p', hfs, hp', -, -, -, -, -, hall⟩ := delivers_all_of_run hrun hp hs
  rcases hall 9 0 (by rw [hwait]; rfl) with ⟨r, hr, -⟩ | ⟨hkey, hwoken⟩
  · rw [hqueue] at hr
    cases hr
  · exact ⟨s, p, fs, s', p', hrun, hp, hwait, hfs, hp', hkey, hwoken false hwait
      (by rw [hnone]; exact List.not_mem_nil)⟩

end Gemini.System.State
