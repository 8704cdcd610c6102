/-
The whole system refines its parts. The scheduler in it makes a run of the scheduler on its own, and
every pod manager a run of the pod manager on its own, where a response is always one to a request
that the scheduler holds. A late response with the memory limit wakes up threads of a pod manager that
nothing on its own would wake up, so the two are the same but for that. What was proved of either holds
in the system, where it does not hang on which of the waiting threads have been woken up.
-/
import Gemini.Lib.Simulation
import Gemini.System.Requests

namespace Gemini.System

open Gemini.Lib

/-! ## A pod manager with early wake-ups -/

/-- `f` is `g`, but that it may have woken up a thread that waits for its response. -/
def Roused (f g : ℕ → PodManager.HookThread) : Prop :=
  ∀ u, f u = g u ∨ ∃ reqId, f u = .waitRsp reqId true ∧ g u = .waitRsp reqId false

theorem Roused.refl (f : ℕ → PodManager.HookThread) : Roused f f := fun _ => .inl rfl

variable {f g : ℕ → PodManager.HookThread} {m m' n : PodManager.State} {t : ℕ}

/-- Thread `t` goes to `h` in both. -/
theorem Roused.update (hf : Roused f g) (t : ℕ) (h : PodManager.HookThread) :
    Roused (Function.update f t h) (Function.update g t h) := by
  intro u
  by_cases hu : u = t
  · rw [hu, Function.update_self, Function.update_self]
    exact .inl rfl
  · rw [Function.update_of_ne hu, Function.update_of_ne hu]
    exact hf u

theorem Roused.wakeState (hf : Roused f g) : Roused (fun u => (f u).wakeState) fun u => (g u).wakeState := by
  intro u
  rcases hf u with he | ⟨r, hfu, hgu⟩
  · exact .inl (congrArg _ he)
  · exact .inr ⟨r, congrArg PodManager.HookThread.wakeState hfu, congrArg PodManager.HookThread.wakeState hgu⟩

/-- After a broadcast there is no difference. -/
theorem Roused.wakeRsp (hf : Roused f g) : (fun u => (f u).wakeRsp) = fun u => (g u).wakeRsp := by
  funext u
  rcases hf u with he | ⟨r, hfu, hgu⟩
  · rw [he]
  · rw [hfu, hgu]
    rfl

/-- A broadcast that only one of them sees. -/
theorem Roused.rouse (hf : Roused f g) : Roused (fun u => (f u).wakeRsp) g := by
  intro u
  show (f u).wakeRsp = g u ∨ ∃ reqId, (f u).wakeRsp = .waitRsp reqId true ∧ g u = .waitRsp reqId false
  rw [show (f u).wakeRsp = (g u).wakeRsp from congrFun hf.wakeRsp u]
  cases hg : g u with
  | waitRsp reqId woken =>
    cases woken with
    | true => exact .inl rfl
    | false => exact .inr ⟨reqId, rfl, rfl⟩
  | _ => exact .inl rfl

/-- A thread stands at the same point in both, or waits for its response. -/
theorem Roused.at (hf : Roused f g) {h : PodManager.HookThread} (ht : f t = h)
    (hw : ∀ reqId woken, h ≠ .waitRsp reqId woken) : g t = h := by
  rcases hf t with he | ⟨reqId, he, -⟩
  · rw [← he, ht]
  · rw [ht] at he
    exact absurd he (hw _ _)

theorem Roused.awaiting (hf : Roused f g) (t : ℕ) : (f t).awaiting = (g t).awaiting := by
  rcases hf t with he | ⟨reqId, hfu, hgu⟩
  · rw [he]
  · rw [hfu, hgu]
    rfl

/-- The same pod manager, but for early wake-ups. -/
def Similar (m n : PodManager.State) : Prop := ∃ f, Roused f n.threads ∧ m = { n with threads := f }

theorem Similar.refl (m : PodManager.State) : Similar m m := ⟨m.threads, .refl _, rfl⟩

/-- Which thread has been woken up makes no difference to a step of `hook_kernel_launch`. -/
theorem Roused.launch (hf : Roused f n.threads) {now : ℤ}
    (hs : PodManager.State.launch { n with threads := f } t now = some m') :
    ∃ n', n.launch t now = some n' ∧ Similar m' n' := by
  unfold PodManager.State.launch at hs
  cases ht : f t with
  | closed => simp only [ht] at hs; cases hs
  | idle => simp only [ht] at hs; cases hs
  | check overuse burst =>
    have hn := hf.at ht nofun
    simp only [ht] at hs; cases hs
    refine ⟨_, by simp only [PodManager.State.launch, hn]; rfl, ?_⟩
    split <;> exact ⟨_, hf.update t _, rfl⟩
  | waitState overuse burst woken =>
    have hn := hf.at ht nofun
    simp only [ht] at hs; cases hs
    refine ⟨_, by simp only [PodManager.State.launch, hn]; rfl, ?_⟩
    exact ⟨_, hf.update t _, rfl⟩
  | merge overuse burst =>
    have hn := hf.at ht nofun
    simp only [ht] at hs; cases hs
    refine ⟨_, by simp only [PodManager.State.launch, hn]; rfl, ?_⟩
    exact ⟨_, hf.update t _, rfl⟩
  | stat burst =>
    have hn := hf.at ht nofun
    simp only [ht] at hs; cases hs
    refine ⟨_, by simp only [PodManager.State.launch, hn]; rfl, ?_⟩
    exact ⟨_, hf.update t _, rfl⟩
  | decide burst =>
    have hn := hf.at ht nofun
    simp only [ht] at hs; cases hs
    refine ⟨_, by simp only [PodManager.State.launch, hn]; rfl, ?_⟩
    split <;> exact ⟨_, hf.update t _, rfl⟩
  | set =>
    have hn := hf.at ht nofun
    simp only [ht] at hs; cases hs
    refine ⟨_, by simp only [PodManager.State.launch, hn]; rfl, ?_⟩
    exact ⟨_, hf.update t _, rfl⟩
  | estimate =>
    have hn := hf.at ht nofun
    simp only [ht] at hs; cases hs
    refine ⟨_, by simp only [PodManager.State.launch, hn]; rfl, ?_⟩
    exact ⟨_, hf.update t _, rfl⟩
  | enqueue burst =>
    have hn := hf.at ht nofun
    simp only [ht] at hs; cases hs
    refine ⟨_, by simp only [PodManager.State.launch, hn]; rfl, ?_⟩
    exact ⟨_, hf.update t _, rfl⟩
  | await reqId =>
    have hn := hf.at ht nofun
    simp only [ht] at hs; cases hs
    refine ⟨_, by simp only [PodManager.State.launch, hn]; rfl, ?_⟩
    exact ⟨_, hf.update t _, rfl⟩
  | waitRsp reqId woken =>
    obtain ⟨w, hn⟩ : ∃ w, n.threads t = .waitRsp reqId w := by
      rcases hf t with he | ⟨r, he, hn⟩
      · exact ⟨woken, by rw [← he, ht]⟩
      · rw [ht] at he; cases he
        exact ⟨false, hn⟩
    simp only [ht] at hs
    cases hl : n.responseMap.lookup reqId with
    | none =>
      simp only [hl] at hs; cases hs
      refine ⟨_, by simp only [PodManager.State.launch, hn, hl]; rfl, ?_⟩
      exact ⟨_, hf.update t _, rfl⟩
    | some quota =>
      simp only [hl] at hs; cases hs
      refine ⟨_, by simp only [PodManager.State.launch, hn, hl]; rfl, ?_⟩
      exact ⟨_, hf.update t _, rfl⟩
  | finish elapsed setter =>
    have hn := hf.at ht nofun
    simp only [ht] at hs; cases hs
    refine ⟨_, by simp only [PodManager.State.launch, hn]; rfl, ?_⟩
    exact ⟨_, hf.wakeState.update t _, rfl⟩
  | ret elapsed =>
    have hn := hf.at ht nofun
    simp only [ht] at hs; cases hs
    refine ⟨_, by simp only [PodManager.State.launch, hn]; rfl, ?_⟩
    exact ⟨_, hf.update t _, rfl⟩

/-- Nor to any other step of its threads. -/
theorem Similar.step (hsim : Similar m n) {e : PodManager.Event} (he : ∀ reqId quota, e ≠ .reply reqId quota)
    (hs : m.step e = some m') : ∃ n', n.step e = some n' ∧ Similar m' n' := by
  obtain ⟨f, hf, rfl⟩ := hsim
  cases e with
  | accept t =>
    simp only [PodManager.State.step, PodManager.State.accept] at hs
    split at hs
    · rename_i ht; cases hs
      have hn := hf.at ht (by simp)
      refine ⟨_, by simp only [PodManager.State.step, PodManager.State.accept, if_pos hn]; rfl, ?_⟩
      exact ⟨_, hf.update t _, rfl⟩
    · cases hs
  | hangUp t =>
    simp only [PodManager.State.step, PodManager.State.hangUp] at hs
    split at hs
    · rename_i ht; cases hs
      have hn := hf.at ht (by simp)
      refine ⟨_, by simp only [PodManager.State.step, PodManager.State.hangUp, if_pos hn]; rfl, ?_⟩
      exact ⟨_, hf.update t _, rfl⟩
    · cases hs
  | request t overuse burst =>
    simp only [PodManager.State.step, PodManager.State.request] at hs
    split at hs
    · rename_i ht; cases hs
      have hn := hf.at ht (by simp)
      refine ⟨_, by simp only [PodManager.State.step, PodManager.State.request, if_pos hn]; rfl, ?_⟩
      exact ⟨_, hf.update t _, rfl⟩
    · cases hs
  | advance t now =>
    simp only [PodManager.State.step, PodManager.State.advance] at hs
    split at hs
    · rename_i hc
      obtain ⟨m₁, hm₁, rfl⟩ := Option.map_eq_some_iff.1 hs
      obtain ⟨n₁, hn₁, f₁, hf₁, rfl⟩ := hf.launch hm₁
      refine ⟨{ n₁ with clock := now }, ?_, f₁, hf₁, rfl⟩
      simp only [PodManager.State.step, PodManager.State.advance, if_pos (show n.clock ≤ now from hc), hn₁,
        Option.map_some]
    · cases hs
  | forward =>
    simp only [PodManager.State.step, PodManager.State.forward] at hs
    split at hs
    · rename_i hsd; cases hs
      refine ⟨_, by simp only [PodManager.State.step, PodManager.State.forward, show n.sender = .top from hsd]; rfl, ?_⟩
      exact ⟨_, hf, rfl⟩
    · rename_i w hsd
      have hsd : n.sender = .waiting w := hsd
      split at hs
      · rename_i hq; cases hs
        have hq : n.requestQueue = [] := hq
        refine ⟨_, by simp only [PodManager.State.step, PodManager.State.forward, hsd, hq]; rfl, ?_⟩
        exact ⟨_, hf, by rw [hq]⟩
      · rename_i r rest hq; cases hs
        have hq : n.requestQueue = r :: rest := hq
        refine ⟨_, by simp only [PodManager.State.step, PodManager.State.forward, hsd, hq]; rfl, ?_⟩
        exact ⟨_, hf, rfl⟩
  | reply reqId quota => exact absurd rfl (he reqId quota)

/-- A response to a request that the scheduler holds is a reply. -/
theorem Similar.insertResponse (hsim : Similar m n) {reqId : ℕ} (hin : reqId ∈ (books m).inFlight) (quota : ℚ) :
    ∃ n', n.step (.reply reqId quota) = some n' ∧ Similar (System.insertResponse m reqId quota) n' := by
  obtain ⟨f, hf, rfl⟩ := hsim
  have hany : n.inFlight.any (fun r => decide (r.reqId = reqId)) = true := by
    obtain ⟨r, hr, hid⟩ := List.mem_map.1 hin
    exact List.any_eq_true.2 ⟨r, hr, by simpa using hid⟩
  refine ⟨_, by simp only [PodManager.State.step, PodManager.State.reply, if_pos hany]; rfl, _, .refl _, ?_⟩
  simp only [System.insertResponse, hf.wakeRsp]

theorem Similar.rouse (hsim : Similar m n) : Similar (System.rouse m) n := by
  obtain ⟨f, hf, rfl⟩ := hsim
  exact ⟨_, hf.rouse, rfl⟩

namespace State

variable {cfg : Scheduler.Config} {s s' : State} {e : Event} {conn : ℕ}

/-! ## The steps of a pod manager in the system -/

/-- The state of the pod manager of a connection, which starts when it connects. -/
def managerAt (s : State) (conn : ℕ) : PodManager.State :=
  match s.pods conn with
  | none => .init
  | some p => p.manager

theorem managerAt_eq {p : Pod} (hp : s.pods conn = some p) : s.managerAt conn = p.manager := by
  simp only [managerAt, hp]

theorem managerAt_setPod_self (p : Pod) : (s.setPod conn p).managerAt conn = p.manager :=
  managerAt_eq (Function.update_self ..)

theorem managerAt_setPod_of_ne {k : ℕ} (h : conn ≠ k) (p : Pod) : (s.setPod k p).managerAt conn = s.managerAt conn := by
  simp only [managerAt, setPod, Function.update_of_ne h]

/-- Messages do not move a pod manager. -/
theorem managerAt_setPod {k : ℕ} {p q : Pod} (hp : s.pods k = some p) (hm : q.manager = p.manager) :
    (s.setPod k q).managerAt conn = s.managerAt conn := by
  by_cases hk : conn = k
  · subst hk
    rw [managerAt_setPod_self, managerAt_eq hp, hm]
  · exact managerAt_setPod_of_ne hk q

theorem managerAt_transmit (receiver : Option ℕ) (r : Response) :
    (s.transmit receiver r).managerAt conn = s.managerAt conn := by
  unfold transmit
  split
  · rfl
  · rename_i k
    split
    · rfl
    · rename_i p hp
      exact managerAt_setPod hp rfl

theorem managerAt_connect (h : Inv s) {name : String} {socket : ℕ} (hs : s.connect name socket = some s') :
    s'.managerAt conn = s.managerAt conn := by
  obtain ⟨sched, -, rfl⟩ := connect_some hs
  by_cases hk : conn = s.sched.nextConn
  · subst hk
    have hnone : s.pods s.sched.nextConn = none := by
      rw [Option.eq_none_iff_forall_ne_some]
      intro p hp
      exact (h.opened _ p hp).ne rfl
    simp only [managerAt, Function.update_self, hnone]
  · simp only [managerAt, Function.update_of_ne hk]

theorem managerAt_serve {k now : ℕ} (hs : s.serve cfg k now = some s') : s'.managerAt conn = s.managerAt conn := by
  obtain ⟨p, hp,
    ⟨reqId, overuse, burst, rest, sched, -, -, rfl⟩ | ⟨reqId, rest, socket, -, -, ⟨-, rfl⟩ | ⟨inf, -, rfl⟩⟩⟩ :=
    serve_some hs
  · exact managerAt_setPod (q := { p with up := rest }) hp rfl
  · exact managerAt_setPod hp rfl
  · exact (managerAt_transmit _ _).trans (managerAt_setPod hp rfl)

theorem managerAt_schedule {e : Scheduler.Event} (hs : s.schedule cfg e = some s') :
    s'.managerAt conn = s.managerAt conn := by
  rcases schedule_some hs with ⟨-, hs⟩ | ⟨-, sched, -, rfl⟩
  · obtain ⟨selected, quota, sched, -, -, rfl⟩ := sendQuota_some hs
    exact managerAt_transmit _ _
  · rfl

/-- The pod manager of a connection makes the steps of the pod manager on its own. -/
theorem simulates_manager (cfg : Scheduler.Config) (conn : ℕ) : Simulates (step cfg) (fun s e => Inv s ∧ s.ClosesIdle e)
    PodManager.State.step (fun _ _ => True) fun s m => Similar (s.managerAt conn) m := by
  rintro s m e s' hsim ⟨hinv, -⟩ hs
  have hstay : s'.managerAt conn = s.managerAt conn → ∃ ds m', Run PodManager.State.step m ds m' ∧
      Similar (s'.managerAt conn) m' := fun he => ⟨[], m, .nil m, he ▸ hsim⟩
  have hchange : ∀ {k : ℕ} {f : Pod → Option Pod}, s.change k f = some s' →
      (∀ p p', f p = some p' → p'.manager = p.manager) → s'.managerAt conn = s.managerAt conn := by
    intro k f hs hf
    obtain ⟨p, p', hp, hfp, rfl⟩ := change_some hs
    exact managerAt_setPod hp (hf p p' hfp)
  -- its own steps, and those of others
  have hmove : ∀ {k : ℕ} {p p' : Pod}, s.pods k = some p → s' = s.setPod k p' →
      (Similar p.manager m → ∃ ds m', Run PodManager.State.step m ds m' ∧ Similar p'.manager m') →
      ∃ ds m', Run PodManager.State.step m ds m' ∧ Similar (s'.managerAt conn) m' := by
    rintro k p p' hp rfl hown
    by_cases hk : conn = k
    · subst hk
      rw [managerAt_setPod_self]
      exact hown (managerAt_eq hp ▸ hsim)
    · exact hstay (managerAt_setPod_of_ne hk p')
  cases e with
  | connect name socket => exact hstay (managerAt_connect hinv hs)
  | ask k =>
    refine hstay (hchange hs fun p p' hf => ?_)
    obtain ⟨-, n, rfl⟩ := Pod.ask_some hf
    rfl
  | learn k =>
    refine hstay (hchange hs fun p p' hf => ?_)
    obtain ⟨-, _, _, _, _, -, rfl⟩ := Pod.learn_some hf
    rfl
  | exit k =>
    refine hstay (hchange hs fun p p' hf => ?_)
    unfold Pod.exit at hf
    split at hf <;> cases hf
    rfl
  | act k e =>
    obtain ⟨p, p', hp, hf, rfl⟩ := change_some hs
    refine hmove hp rfl fun hsim => ?_
    obtain ⟨-, he, m₁, hm₁, rfl⟩ := Pod.act_some hf
    obtain ⟨m', hm', hsim'⟩ := hsim.step he hm₁
    exact ⟨[e], m', .single trivial hm', hsim'⟩
  | receive k =>
    obtain ⟨p, p', hp, hf, rfl⟩ := change_some hs
    refine hmove hp rfl fun hsim => ?_
    obtain ⟨-, ⟨reqId, quota, rest, hd, rfl⟩ | ⟨used, total, rest, hd, rfl⟩⟩ := Pod.receive_some hf
    · have hin : reqId ∈ (books p.manager).inFlight := by
        refine (hinv.pods k p hp).mem_inFlight ?_
        rw [Pod.downIds, hd]
        exact List.mem_cons_self ..
      obtain ⟨m', hm', hsim'⟩ := hsim.insertResponse hin quota
      exact ⟨[.reply reqId quota], m', .single trivial hm', hsim'⟩
    · exact ⟨[], m, .nil m, hsim.rouse⟩
  | serve k now => exact hstay (managerAt_serve hs)
  | schedule e => exact hstay (managerAt_schedule hs)

/-! ## The steps of the scheduler in the system -/

theorem sched_transmit (receiver : Option ℕ) (r : Response) : (s.transmit receiver r).sched = s.sched := by
  unfold transmit
  split
  · rfl
  · split <;> rfl

/-- The scheduler makes the steps of the scheduler on its own. -/
theorem simulates_scheduler (cfg : Scheduler.Config) : Simulates (step cfg) ClosesIdle
    (Scheduler.State.step cfg) Scheduler.State.ClosesIdle fun s t => s.sched = t := by
  rintro s t e s' rfl hidle hs
  have hstay : s'.sched = s.sched →
    ∃ ds t', RunWhere (Scheduler.State.step cfg) Scheduler.State.ClosesIdle s.sched ds t' ∧
      s'.sched = t' := fun he => ⟨[], s.sched, .nil _, he⟩
  have hchange : ∀ {k : ℕ} {f : Pod → Option Pod}, s.change k f = some s' → s'.sched = s.sched := by
    intro k f hs
    obtain ⟨p, p', -, -, rfl⟩ := change_some hs
    rfl
  cases e with
  | connect name socket =>
    obtain ⟨sched, hsched, rfl⟩ := connect_some hs
    exact ⟨[.accept socket], sched, .single trivial hsched, rfl⟩
  | ask k => exact hstay (hchange hs)
  | learn k => exact hstay (hchange hs)
  | exit k => exact hstay (hchange hs)
  | act k e => exact hstay (hchange hs)
  | receive k => exact hstay (hchange hs)
  | serve k now =>
    obtain ⟨p, -,
      ⟨reqId, overuse, burst, rest, sched, -, hreq, rfl⟩ | ⟨reqId, rest, socket, -, -, ⟨-, rfl⟩ | ⟨inf, -, rfl⟩⟩⟩ :=
      serve_some hs
    · exact ⟨[.request k p.name reqId overuse burst now], sched, .single trivial hreq, rfl⟩
    · exact hstay rfl
    · exact hstay (sched_transmit _ _)
  | schedule e =>
    rcases schedule_some hs with ⟨rfl, hs⟩ | ⟨-, sched, hsched, rfl⟩
    · obtain ⟨selected, quota, sched, -, hsched, rfl⟩ := sendQuota_some hs
      exact ⟨[.send], sched, .single trivial hsched, sched_transmit _ _⟩
    · exact ⟨[e], sched, .single hidle hsched, rfl⟩

end State

end Gemini.System
