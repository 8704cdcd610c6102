/-
`retrieve_mem_info` in the whole system. A pod manager asks for its memory limit up to five times, so
more than one response can come; it takes the first and leaves the others to
`scheduler_thread_recv_func`, which takes them for responses to requests for quota. In every run in
which connections close idle this goes well: what is received is of the type that its reader takes it
for, the assertion on the bytes in use holds, and the limit that a pod manager has learned is one
that was configured under its name.
-/
import Gemini.System.EndToEnd

namespace Gemini.System.State

open Gemini.Lib

variable {cfg : Scheduler.Config} {s s' : State} {conn : ℕ} {p p' : Pod} {e : Event} {es : List Event}

/-! ## Types of messages -/

/-- Before a pod manager serves, nothing but responses to `retrieve_mem_info` comes. -/
theorem downIds_of_asking (h : p.Inv s.sched conn) {n : ℕ} (hp : p.phase = .asking n) : p.downIds = [] := by
  have ho := h.outstanding
  rw [h.idle n hp] at ho
  have hz := ho.symm
  simp only [books, PodManager.State.init, List.map_nil, Multiset.coe_nil, add_eq_zero] at hz
  exact (Multiset.coe_eq_zero _).1 hz.2

theorem memLimit_of_downIds (h : p.downIds = []) {r : Response} (hr : r ∈ p.down) :
    ∃ reqId used total, r = .memLimit reqId used total := by
  cases r with
  | memLimit reqId used total => exact ⟨reqId, used, total, rfl⟩
  | quota reqId quota =>
    have hmem : reqId ∈ p.downIds := List.mem_filterMap.2 ⟨_, hr, rfl⟩
    rw [h] at hmem
    cases hmem

/-- The first response that `retrieve_mem_info` finds makes the pod manager serve. -/
theorem learn_of_inv (h : p.Inv s.sched conn) {n : ℕ} (hp : p.phase = .asking (n + 1)) (hd : p.down ≠ []) :
    ∃ p', p.learn = some p' ∧ p'.phase = .serving ∧ p'.gpuMemUsed = 0 := by
  cases hdown : p.down with
  | nil => exact absurd hdown hd
  | cons r rest =>
    have hmem : r ∈ p.down := by rw [hdown]; exact List.mem_cons_self ..
    obtain ⟨reqId, used, total, rfl⟩ := memLimit_of_downIds (downIds_of_asking h hp) hmem
    obtain ⟨-, rfl⟩ := h.limits reqId used total hmem
    refine ⟨{ p with phase := .serving, gpuMemUsed := 0, gpuMemLimit := total, down := rest }, ?_, rfl, rfl⟩
    simp only [Pod.learn, hp, hdown, if_true]

/-- Whatever a serving pod manager receives answers a request for quota, or is late. -/
theorem receive_of_inv (h : p.Inv s.sched conn) (hp : p.phase = .serving) (hd : p.down ≠ []) :
    ∃ p', p.receive = some p' := by
  cases hdown : p.down with
  | nil => exact absurd hdown hd
  | cons r rest =>
    have hmem : r ∈ p.down := by rw [hdown]; exact List.mem_cons_self ..
    cases r with
    | memLimit reqId used total =>
      obtain ⟨rfl, -⟩ := h.limits reqId used total hmem
      exact ⟨_, by simp only [Pod.receive, if_pos hp, hdown]; rfl⟩
    | quota reqId quota =>
      have hid : reqId ∈ ((books p.manager).inFlight.map (· + 1) : Multiset ℕ) := by
        rw [h.outstanding]
        simp only [Multiset.mem_add, Multiset.mem_coe]
        exact .inr (List.mem_filterMap.2 ⟨_, hmem, rfl⟩)
      obtain ⟨n, -, rfl⟩ := List.mem_map.1 (Multiset.mem_coe.1 hid)
      exact ⟨_, by simp only [Pod.receive, if_pos hp, hdown]; rfl⟩

/-! ## Configured limits -/

/-- A line of the configuration in the run. -/
def Configured (es : List Event) (name : String) (limit : UInt64) : Prop :=
  ∃ minf maxf, .schedule (.configure name minf maxf limit) ∈ es

/-- The limits that are anywhere in the system were configured. -/
structure Limits (es : List Event) (s : State) : Prop where
  clients : ∀ name inf, s.sched.clients name = some inf → Configured es name inf.gpuMemLimit
  sentBack : ∀ conn p, s.pods conn = some p → ∀ reqId used total, .memLimit reqId used total ∈ p.down →
    Configured es p.name total
  learned : ∀ conn p, s.pods conn = some p → p.phase = .serving → Configured es p.name p.gpuMemLimit

/-- A pod manager changes and finds nothing new about limits but what is configured. -/
theorem Limits.setPod (h : Limits es s)
    (hd : ∀ reqId used total, .memLimit reqId used total ∈ p.down → Configured es p.name total)
    (hl : p.phase = .serving → Configured es p.name p.gpuMemLimit) : Limits es (s.setPod conn p) := by
  refine ⟨h.clients, fun k q hk => ?_, fun k q hk => ?_⟩
  · by_cases hkc : k = conn
    · subst hkc
      obtain rfl : p = q := by simpa [State.setPod] using hk
      exact hd
    · exact h.sentBack k q ((Function.update_of_ne hkc ..).symm.trans hk)
  · by_cases hkc : k = conn
    · subst hkc
      obtain rfl : p = q := by simpa [State.setPod] using hk
      exact hl
    · exact h.learned k q ((Function.update_of_ne hkc ..).symm.trans hk)

theorem Limits.transmit (h : Limits es s) (receiver : Option ℕ) {r : Response}
    (hr : ∀ conn p, receiver = some conn → s.pods conn = some p → ∀ reqId used total, r = .memLimit reqId used total →
      Configured es p.name total) : Limits es (s.transmit receiver r) := by
  unfold State.transmit
  split
  · exact h
  · rename_i k
    split
    · exact h
    · rename_i p hp
      refine h.setPod (fun reqId used total hm => ?_) (h.learned k p hp)
      rcases List.mem_append.1 hm with hm | hm
      · exact h.sentBack k p hp reqId used total hm
      · exact hr k p rfl hp reqId used total (List.mem_singleton.1 hm).symm

theorem Limits.of_sched (h : Limits es s) {sched : Scheduler.State} {e : Scheduler.Event}
    (hs : s.sched.step cfg e = some sched)
    (hconf : ∀ name minf maxf limit, e = .configure name minf maxf limit → Configured es name limit) :
    Limits es { s with sched := sched } := by
  refine ⟨fun name inf hi => ?_, h.sentBack, h.learned⟩
  rcases Scheduler.State.clients_step hs hi with ⟨old, hold, hl⟩ | ⟨minf, maxf, limit, he, hl⟩
  · rw [← show old.gpuMemLimit = inf.gpuMemLimit from congrArg (fun x => x.2.2) hl]
    exact h.clients name old hold
  · rw [show inf.gpuMemLimit = limit from congrArg (fun x => x.2.2) hl]
    exact hconf name minf maxf limit he

theorem limits_change (h : Limits es s) {f : Pod → Option Pod} (hs : s.change conn f = some s')
    (hf : ∀ {p p' : Pod}, f p = some p' → p'.name = p.name ∧ (∀ r ∈ p'.down, r ∈ p.down) ∧
      (p'.phase = .serving → (p.phase = .serving ∧ p'.gpuMemLimit = p.gpuMemLimit) ∨
        ∃ reqId used, .memLimit reqId used p'.gpuMemLimit ∈ p.down)) : Limits es s' := by
  obtain ⟨p, p', hp, hfp, rfl⟩ := change_some hs
  obtain ⟨hn, hsub, hl⟩ := hf hfp
  refine h.setPod (fun reqId used total hm => ?_) fun hserve => ?_
  · rw [hn]
    exact h.sentBack conn p hp reqId used total (hsub _ hm)
  · rw [hn]
    rcases hl hserve with ⟨hs, hsame⟩ | ⟨reqId, used, hm⟩
    · rw [hsame]
      exact h.learned conn p hp hs
    · exact h.sentBack conn p hp reqId used _ hm

theorem limits_step (h : Limits es s) (hinv : Inv s) (he : e ∈ es) (hs : s.step cfg e = some s') : Limits es s' := by
  cases e with
  | connect name socket =>
    obtain ⟨sched, hsched, rfl⟩ := connect_some hs
    have hl := h.of_sched (show s.sched.step cfg (.accept socket) = _ from hsched) (by simp)
    have hpod :
      Limits es (State.setPod { s with sched := sched } s.sched.nextConn ⟨name, .asking 0, 0, 0, .init, [], []⟩) :=
      hl.setPod (by simp) (by simp)
    exact hpod
  | ask conn =>
    refine limits_change h hs fun hf => ?_
    obtain ⟨-, n, rfl⟩ := Pod.ask_some hf
    exact ⟨rfl, fun _ => id, by simp⟩
  | learn conn =>
    refine limits_change h hs fun hf => ?_
    obtain ⟨-, reqId, used, total, rest, hd, rfl⟩ := Pod.learn_some hf
    refine ⟨rfl, fun r hr => by rw [hd]; exact List.mem_cons_of_mem _ hr, fun _ => .inr ⟨reqId, used, ?_⟩⟩
    rw [hd]
    exact List.mem_cons_self ..
  | exit conn =>
    refine limits_change h hs fun hf => ?_
    unfold Pod.exit at hf
    split at hf <;> cases hf
    exact ⟨rfl, fun _ => id, by simp⟩
  | act conn e =>
    refine limits_change h hs fun hf => ?_
    obtain ⟨hp, -, m, -, rfl⟩ := Pod.act_some hf
    exact ⟨rfl, fun _ => id, fun _ => .inl ⟨hp, rfl⟩⟩
  | receive conn =>
    refine limits_change h hs fun hf => ?_
    obtain ⟨hp, ⟨_, _, rest, hd, rfl⟩ | ⟨_, _, rest, hd, rfl⟩⟩ := Pod.receive_some hf
    · exact ⟨rfl, fun r hr => by rw [hd]; exact List.mem_cons_of_mem _ hr, fun _ => .inl ⟨hp, rfl⟩⟩
    · exact ⟨rfl, fun r hr => by rw [hd]; exact List.mem_cons_of_mem _ hr, fun _ => .inl ⟨hp, rfl⟩⟩
  | serve conn now =>
    obtain ⟨p, hp, ⟨reqId, overuse, burst, rest, sched, -, hreq, rfl⟩ | ⟨reqId, rest, socket, -, hh, hcases⟩⟩ :=
      serve_some hs
    · have hl := h.of_sched (show s.sched.step cfg (.request conn p.name reqId overuse burst now) = _ from hreq)
        (by simp)
      exact hl.setPod (p := { p with up := rest }) (h.sentBack conn p hp) (h.learned conn p hp)
    · have hl : Limits es (s.setPod conn { p with up := rest }) := h.setPod (h.sentBack conn p hp) (h.learned conn p hp)
      rcases hcases with ⟨-, rfl⟩ | ⟨inf, hi, rfl⟩
      · exact hl
      · refine hl.transmit _ fun k q hk hq r u l hr => ?_
        rw [hinv.delivery.owned conn _ hh] at hk
        cases hk
        obtain rfl : { p with up := rest } = q := by simpa [State.setPod] using hq
        cases hr
        exact h.clients p.name inf hi
  | schedule e =>
    rcases schedule_some hs with ⟨rfl, hs⟩ | ⟨-, sched, hsched, rfl⟩
    · obtain ⟨selected, quota, sched, -, hsched, rfl⟩ := sendQuota_some hs
      exact (h.of_sched (show s.sched.step cfg .send = _ from hsched) (by simp)).transmit _ (by simp)
    · refine h.of_sched hsched fun name minf maxf limit hc => ⟨minf, maxf, ?_⟩
      rw [← hc]
      exact he

theorem limits_init : Limits es init := ⟨nofun, nofun, nofun⟩

/-! ## Over runs -/

/-- In every run: a pod manager that receives something goes on, from `retrieve_mem_info` with no
bytes in use; and the limit that a serving pod manager has learned was configured under its name. -/
theorem handshake_of_run (hrun : RunWhere (step cfg) ClosesIdle init es s) (hp : s.pods conn = some p) :
    (p.phase = .serving → Configured es p.name p.gpuMemLimit) ∧
    (p.down ≠ [] → (p.phase = .serving → ∃ p', p.receive = some p') ∧
      ∀ n, p.phase = .asking (n + 1) → ∃ p', p.learn = some p' ∧ p'.phase = .serving ∧ p'.gpuMemUsed = 0) := by
  have hpod := (inv_of_run hrun).pods conn p hp
  have hlimits : Inv s ∧ Limits es s := by
    refine hrun.labelled.invariant (P := fun s => Inv s ∧ Limits es s) (fun s e s' h hg hs => ?_)
      ⟨inv_init, limits_init⟩
    exact ⟨inv_step h.1 hg.1 hs, limits_step h.2 h.1 hg.2 hs⟩
  exact ⟨hlimits.2.learned conn p hp, fun hd =>
    ⟨fun hs => receive_of_inv hpod hs hd, fun n ha => learn_of_inv hpod ha hd⟩⟩

/-- The limit of the round trip, and a second response that is still on its way. -/
theorem handshake_of_round_trip : ∃ s p, RunWhere (step Scheduler.defaultConfig) ClosesIdle init
    (oneRoundTrip.take 7) s ∧ s.pods 0 = some p ∧ p.phase = .serving ∧ p.gpuMemLimit = 7 ∧
    Configured (oneRoundTrip.take 7) p.name 7 ∧ ∃ p', p.receive = some p' := by
  have hrun : ∃ s, RunWhere (step Scheduler.defaultConfig) ClosesIdle init (oneRoundTrip.take 7) s ∧
      (s.pods 0).any (fun p => decide (p.phase = .serving ∧ p.gpuMemLimit = 7 ∧ p.down ≠ [])) = true :=
    exists_runWhere (by decide +kernel)
  obtain ⟨s, hrun, hany⟩ := hrun
  obtain ⟨p, hp, h⟩ := (Option.any_eq_true ..).1 hany
  obtain ⟨hs, hl, hd⟩ := of_decide_eq_true h
  have hhand := handshake_of_run hrun hp
  exact ⟨s, p, hrun, hp, hs, hl, hl ▸ hhand.1 hs, (hhand.2 hd).1 hs⟩

end Gemini.System.State
