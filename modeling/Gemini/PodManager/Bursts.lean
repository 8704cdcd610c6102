/-
The burst that is forwarded to the scheduler. A hook process sends each of its requests through a
connection of its own, which stays open until the process exits; the pod manager keeps the last burst
of each connection, until its hook thread finds the connection closed, and forwards their maximum. So
what it forwards also covers the earlier requests of a process, and those of processes that are gone.
-/
import Gemini.Lib.Run
import Gemini.PodManager.Launch

namespace Gemini.PodManager

open Gemini.Lib

namespace HookThread

/-- The burst of a request that is not in `client_burst_map` yet. -/
def pending : HookThread → Option ℚ
  | .check _ burst => some burst
  | .waitState _ burst _ => some burst
  | .merge _ burst => some burst
  | .stat burst => some burst
  | _ => none

theorem pending_wakeState (h : HookThread) : h.wakeState.pending = h.pending := by cases h <;> rfl

theorem pending_wakeRsp (h : HookThread) : h.wakeRsp.pending = h.pending := by cases h <;> rfl

/-- The burst of the request that is about to be queued. -/
def forwarding : HookThread → Option ℚ
  | .enqueue burst => some burst
  | _ => none

theorem forwarding_wakeState (h : HookThread) : h.wakeState.forwarding = h.forwarding := by cases h <;> rfl

theorem forwarding_wakeRsp (h : HookThread) : h.wakeRsp.forwarding = h.forwarding := by cases h <;> rfl

end HookThread

namespace Bursts

/-! ## States and steps -/

/-- A connection, with the hook process at its other end. -/
inductive Conn where
  /-- no REQ_QUOTA has been sent through it -/
  | connected (process : ℕ)
  /-- a REQ_QUOTA has; `stored` says that its burst is in `client_burst_map` -/
  | requested (process : ℕ) (overuse burst : ℚ) (stored : Bool)
deriving DecidableEq, Repr

namespace Conn

def process : Conn → ℕ
  | .connected process => process
  | .requested process _ _ _ => process

/-- The burst that has been stored. -/
def stored : Conn → Option ℚ
  | .requested _ _ burst true => some burst
  | _ => none

/-- The entry of `client_burst_map`. -/
def recorded (c : Conn) : ℚ := c.stored.getD 0

def store : Conn → Conn
  | .connected process => .connected process
  | .requested process overuse burst _ => .requested process overuse burst true

end Conn

/-- A pod manager and its hook processes. `reports` has the connection and the burst of the last request
of each living process. Ghosts are `reportsOf`, the bursts of these requests when a hook thread has last
taken the maximum, and `queued`, all requests to the scheduler with the bursts of then. -/
structure State where
  pod : PodManager.State
  conns : List (ℕ × Conn)
  exited : List ℕ
  reports : List (ℕ × ℕ × ℚ)
  reportsOf : ℕ → List ℚ
  queued : List (Request × List ℚ)

inductive Event where
  /-- a process establishes a connection, and it is accepted -/
  | connect (process sockfd : ℕ)
  /-- `communicate` sends a REQ_QUOTA through a connection -/
  | send (sockfd : ℕ) (overuse burst : ℚ)
  /-- the hook thread of a connection receives the request, or another copy of it -/
  | receive (sockfd : ℕ)
  /-- the next step of `hook_kernel_launch` -/
  | advance (sockfd : ℕ) (now : ℤ)
  | forward
  | reply (reqId : ℕ) (quota : ℚ)
  /-- a process exits, which closes its connections -/
  | exit (process : ℕ)
  /-- the hook thread of a connection finds it closed by its peer -/
  | hangUp (sockfd : ℕ)
deriving DecidableEq, Repr

namespace State

def init : State := ⟨PodManager.State.init, [], [], [], fun _ => [], []⟩

variable (s : State)

/-- The most recent burst of every living process that has made a request. -/
def latest : List ℚ := s.reports.map fun e => e.2.2

def connect (process sockfd : ℕ) : Option State :=
  if process ∈ s.exited then none
  else (s.pod.accept sockfd).map fun pod => { s with pod, conns := insertNew sockfd (.connected process) s.conns }

def send (sockfd : ℕ) (overuse burst : ℚ) : Option State :=
  match s.conns.lookup sockfd with
  | some (.connected process) =>
    if process ∈ s.exited then none
    else some { s with
      conns := assign sockfd (.requested process overuse burst false) s.conns
      reports := assign process (sockfd, burst) s.reports }
  | _ => none

def receive (sockfd : ℕ) : Option State :=
  match s.conns.lookup sockfd with
  | some (.requested _ overuse burst _) => (s.pod.request sockfd overuse burst).map fun pod => { s with pod }
  | _ => none

/-- `client_burst_map[sockfd] = burst`, seen from the connections. -/
def storeBurst (sockfd : ℕ) : List (ℕ × Conn) :=
  match s.conns.lookup sockfd with
  | some c => assign sockfd c.store s.conns
  | none => s.conns

def advance (sockfd : ℕ) (now : ℤ) : Option State :=
  (s.pod.advance sockfd now).map fun pod => { s with
    pod
    conns := match s.pod.threads sockfd with
      | .stat _ => s.storeBurst sockfd
      | _ => s.conns
    reportsOf := if s.pod.threads sockfd = .estimate then Function.update s.reportsOf sockfd s.latest else s.reportsOf
    queued := s.queued ++
      (pod.requestQueue.drop s.pod.requestQueue.length).map fun r => (r, s.reportsOf sockfd) }

def exit (process : ℕ) : Option State :=
  if process ∈ s.exited then none
  else some { s with exited := process :: s.exited, reports := eraseKey process s.reports }

def hangUp (sockfd : ℕ) : Option State :=
  match s.conns.lookup sockfd with
  | some c =>
    if c.process ∈ s.exited then
      (s.pod.hangUp sockfd).map fun pod => { s with pod, conns := eraseKey sockfd s.conns }
    else none
  | none => none

def step : Event → Option State
  | .connect process sockfd => s.connect process sockfd
  | .send sockfd overuse burst => s.send sockfd overuse burst
  | .receive sockfd => s.receive sockfd
  | .advance sockfd now => s.advance sockfd now
  | .forward => s.pod.forward.map fun pod => { s with pod }
  | .reply reqId quota => (s.pod.reply reqId quota).map fun pod => { s with pod }
  | .exit process => s.exit process
  | .hangUp sockfd => s.hangUp sockfd

/-! ## What a step of a hook thread does to the bursts -/

section

variable {p p' : PodManager.State} {t : ℕ} {now : ℤ}

/-- A step of `hook_kernel_launch` on thread `t`. -/
structure Forwards (t : ℕ) (p p' : PodManager.State) : Prop where
  bursts : p'.clientBurstMap = match p.threads t with
    | .stat burst => assign t burst p.clientBurstMap
    | _ => p.clientBurstMap
  pending : ∀ fd b, (p'.threads fd).pending = some b → (p.threads fd).pending = some b
  forwarding : ∀ fd b, (p'.threads fd).forwarding = some b →
    (p.threads fd).forwarding = some b ∧ fd ≠ t ∨ fd = t ∧ p.threads t = .estimate ∧ b = maxBurst p.clientBurstMap
  queue : p'.requestQueue = p.requestQueue ∨
    ∃ r, (p.threads t).forwarding = some r.burst ∧ p'.requestQueue = p.requestQueue ++ [r]

/-- What becomes of the thread itself. -/
theorem launch_self (hs : p.launch t now = some p') :
    (p'.clientBurstMap = match p.threads t with
      | .stat burst => assign t burst p.clientBurstMap
      | _ => p.clientBurstMap) ∧
    (∀ b, (p'.threads t).pending = some b → (p.threads t).pending = some b) ∧
    ∀ b, (p'.threads t).forwarding = some b → p.threads t = .estimate ∧ b = maxBurst p.clientBurstMap := by
  unfold PodManager.State.launch at hs
  cases ht : p.threads t with
  | closed => rw [ht] at hs; cases hs
  | idle => rw [ht] at hs; cases hs
  | check overuse burst =>
    simp only [ht] at hs; cases hs
    split <;> simp [PodManager.State.goto, HookThread.pending, HookThread.forwarding]
  | decide burst =>
    simp only [ht] at hs; cases hs
    split <;> simp [PodManager.State.goto, HookThread.pending, HookThread.forwarding]
  | waitRsp reqId woken =>
    simp only [ht] at hs
    split at hs <;> cases hs <;> simp [PodManager.State.goto, HookThread.pending, HookThread.forwarding]
  | estimate =>
    simp only [ht] at hs; cases hs
    simp [PodManager.State.goto, HookThread.pending, HookThread.forwarding, eq_comm]
  | _ =>
    simp only [ht] at hs; cases hs
    simp [PodManager.State.goto, HookThread.pending, HookThread.forwarding]

theorem launch_forwards (hs : p.launch t now = some p') : Forwards t p p' := by
  obtain ⟨hbursts, hpending, hforwarding⟩ := launch_self hs
  have hl := PodManager.State.launch_some hs
  -- another thread is at most woken up
  have hother (fd : ℕ) (hne : fd ≠ t) :
      (p'.threads fd).pending = (p.threads fd).pending ∧ (p'.threads fd).forwarding = (p.threads fd).forwarding := by
    rcases hl.threads fd hne with h | h
    · rw [h]
      exact ⟨rfl, rfl⟩
    · rw [h]
      exact ⟨HookThread.pending_wakeState _, HookThread.forwarding_wakeState _⟩
  refine ⟨hbursts, fun fd b h => ?_, fun fd b h => ?_, ?_⟩
  · by_cases hne : fd = t
    · subst hne; exact hpending b h
    · rw [← (hother fd hne).1]; exact h
  · by_cases hne : fd = t
    · subst hne; exact .inr ⟨rfl, hforwarding b h⟩
    · rw [(hother fd hne).2] at h
      exact .inl ⟨h, hne⟩
  · rcases hl.requests with ⟨h, -⟩ | ⟨burst, ht, h, -⟩
    · exact .inl h
    · exact .inr ⟨_, by rw [ht]; rfl, h⟩

end

/-! ## Other steps of the pod manager -/

section

variable {p p' : PodManager.State} {t : ℕ}

/-- A step around `hook_kernel_launch` brings no thread to the push. -/
theorem forwarding_around (h : PodManager.State.Around t p p') {fd : ℕ} {b : ℚ}
    (hb : (p'.threads fd).forwarding = some b) : (p.threads fd).forwarding = some b := by
  obtain ⟨d, m, hd, rfl⟩ := h.after
  by_cases hne : fd = t
  · subst hne
    simp only [PodManager.State.goto, Function.update_self] at hb
    cases d with
    | closed => cases hb
    | idle => cases hb
    | check overuse burst => cases hb
    | _ => cases hd
  · simpa only [PodManager.State.goto, Function.update_of_ne hne] using hb

/-- A request that is pending after a jump of thread `t` is that of its goal, or of another thread. -/
theorem pending_goto {d : HookThread} {fd : ℕ} {b : ℚ} (h : ((p.goto t d).threads fd).pending = some b) :
    fd = t ∧ d.pending = some b ∨ fd ≠ t ∧ (p.threads fd).pending = some b := by
  by_cases hne : fd = t
  · subst hne
    simp only [PodManager.State.goto, Function.update_self] at h
    exact .inl ⟨rfl, h⟩
  · simp only [PodManager.State.goto, Function.update_of_ne hne] at h
    exact .inr ⟨hne, h⟩

theorem forward_some (hs : p.forward = some p') :
    p'.clientBurstMap = p.clientBurstMap ∧ p'.threads = p.threads := by
  unfold PodManager.State.forward at hs
  cases hsend : p.sender with
  | top =>
    rw [hsend] at hs
    cases hs
    exact ⟨rfl, rfl⟩
  | waiting woken =>
    cases hq : p.requestQueue with
    | nil =>
      simp only [hsend, hq] at hs
      cases hs
      exact ⟨rfl, rfl⟩
    | cons r rest =>
      simp only [hsend, hq] at hs
      cases hs
      exact ⟨rfl, rfl⟩

theorem reply_some {reqId : ℕ} {quota : ℚ} (hs : p.reply reqId quota = some p') :
    p'.clientBurstMap = p.clientBurstMap ∧ p'.threads = fun fd => (p.threads fd).wakeRsp := by
  unfold PodManager.State.reply at hs
  split at hs
  · cases hs
    exact ⟨rfl, rfl⟩
  · cases hs

end

/-! ## What a step can do -/

section

variable {s} {s' : State} {sockfd process : ℕ}

theorem connect_some (h : s.connect process sockfd = some s') : ∃ pod, s.pod.accept sockfd = some pod ∧
    s' = { s with pod, conns := insertNew sockfd (.connected process) s.conns } := by
  unfold State.connect at h
  split at h
  · cases h
  · obtain ⟨pod, hpod, rfl⟩ := Option.map_eq_some_iff.1 h
    exact ⟨pod, hpod, rfl⟩

theorem send_some {overuse burst : ℚ} (h : s.send sockfd overuse burst = some s') :
    ∃ process, s.conns.lookup sockfd = some (.connected process) ∧ process ∉ s.exited ∧ s' = { s with
      conns := assign sockfd (.requested process overuse burst false) s.conns
      reports := assign process (sockfd, burst) s.reports } := by
  unfold State.send at h
  split at h
  · rename_i process hconn
    split at h
    · cases h
    · rename_i hlive; cases h; exact ⟨process, hconn, hlive, rfl⟩
  · cases h

theorem receive_some (h : s.receive sockfd = some s') : ∃ process overuse burst stored pod,
    s.conns.lookup sockfd = some (.requested process overuse burst stored) ∧
      s.pod.request sockfd overuse burst = some pod ∧
    s' = { s with pod } := by
  unfold State.receive at h
  split at h
  · rename_i process overuse burst stored hconn
    obtain ⟨pod, hpod, rfl⟩ := Option.map_eq_some_iff.1 h
    exact ⟨process, overuse, burst, stored, pod, hconn, hpod, rfl⟩
  · cases h

theorem exit_some (h : s.exit process = some s') :
    s' = { s with exited := process :: s.exited, reports := eraseKey process s.reports } := by
  unfold State.exit at h
  split at h
  · cases h
  · cases h; rfl

theorem hangUp_some (h : s.hangUp sockfd = some s') : ∃ c pod, s.conns.lookup sockfd = some c ∧ c.process ∈ s.exited ∧
    s.pod.hangUp sockfd = some pod ∧ s' = { s with pod, conns := eraseKey sockfd s.conns } := by
  unfold State.hangUp at h
  split at h
  · rename_i c hconn
    split at h
    · rename_i hexited
      obtain ⟨pod, hpod, rfl⟩ := Option.map_eq_some_iff.1 h
      exact ⟨c, pod, hconn, hexited, hpod, rfl⟩
    · cases h
  · cases h

end

/-! ## The map and the connections -/

/-- `client_burst_map` has what is stored of each connection, and every report of a living process came
through a connection that is open. -/
structure Inv (s : State) : Prop where
  bursts : s.pod.clientBurstMap = mapValues Conn.recorded s.conns
  distinct : (keys s.conns).Nodup
  pending : ∀ fd b, (s.pod.threads fd).pending = some b →
    ∃ process overuse stored, s.conns.lookup fd = some (.requested process overuse b stored)
  reports : ∀ e ∈ s.reports, ∃ overuse stored, s.conns.lookup e.2.1 = some (.requested e.1 overuse e.2.2 stored)
  living : ∀ e ∈ s.reports, e.1 ∉ s.exited

variable {s} {s' : State} {sockfd process : ℕ}

theorem inv_init : Inv init := by
  refine ⟨rfl, List.nodup_nil, ?_, ?_, ?_⟩
  · intro fd b h
    cases h
  · intro e he
    cases he
  · intro e he
    cases he

/-- A step of the pod manager that leaves the map alone. -/
theorem Inv.of_pod (h : Inv s) {pod : PodManager.State} (hb : pod.clientBurstMap = s.pod.clientBurstMap)
    (hp : ∀ fd b, (pod.threads fd).pending = some b → (s.pod.threads fd).pending = some b) : Inv { s with pod } :=
  ⟨hb.trans h.bursts, h.distinct, fun fd b hfd => h.pending fd b (hp fd b hfd), h.reports, h.living⟩

theorem Inv.connect (h : Inv s) (hs : s.connect process sockfd = some s') : Inv s' := by
  obtain ⟨pod, hpod, rfl⟩ := connect_some hs
  unfold PodManager.State.accept at hpod
  split at hpod
  · cases hpod
    refine ⟨?_, keys_insertNew_nodup h.distinct .., fun fd b hfd => ?_, fun e he => ?_, h.living⟩
    · rw [mapValues_insertNew, ← h.bursts]
      rfl
    · rcases pending_goto hfd with ⟨-, hidle⟩ | ⟨-, hfd⟩
      · cases hidle
      · obtain ⟨p, o, st, hlook⟩ := h.pending fd b hfd
        exact ⟨p, o, st, lookup_insertNew_of_some hlook⟩
    · obtain ⟨o, st, hlook⟩ := h.reports e he
      exact ⟨o, st, lookup_insertNew_of_some hlook⟩
  · cases hpod

theorem Inv.send (h : Inv s) {overuse burst : ℚ} (hs : s.send sockfd overuse burst = some s') : Inv s' := by
  obtain ⟨process, hconn, hlive, rfl⟩ := send_some hs
  -- a request that is pending, or has been reported, came through another connection
  have hother {fd : ℕ} {c : Conn} (hlook : s.conns.lookup fd = some c) (hc : c ≠ .connected process) :
      (assign sockfd (.requested process overuse burst false) s.conns).lookup fd = some c := by
    have hne : fd ≠ sockfd := by
      rintro rfl
      exact hc (Option.some.inj (hlook.symm.trans hconn))
    rw [lookup_assign_of_ne hne]
    exact hlook
  refine ⟨?_, keys_assign_nodup h.distinct .., fun fd b hfd => ?_, fun e he => ?_, fun e he => ?_⟩
  · -- the entry stays 0 until the burst is stored
    have hzero : s.pod.clientBurstMap.lookup sockfd = some 0 := by
      rw [h.bursts, lookup_mapValues, hconn]
      rfl
    have hdistinct : (keys s.pod.clientBurstMap).Nodup := by
      rw [h.bursts, keys_mapValues]
      exact h.distinct
    rw [mapValues_assign, ← h.bursts]
    exact (assign_lookup_self hdistinct hzero).symm
  · obtain ⟨p, o, st, hlook⟩ := h.pending fd b hfd
    exact ⟨p, o, st, hother hlook nofun⟩
  · rcases mem_assign he with rfl | ⟨he, -⟩
    · exact ⟨overuse, false, lookup_assign_self ..⟩
    · obtain ⟨o, st, hlook⟩ := h.reports e he
      exact ⟨o, st, hother hlook nofun⟩
  · rcases mem_assign he with rfl | ⟨he, -⟩
    · exact hlive
    · exact h.living e he

theorem Inv.receive (h : Inv s) (hs : s.receive sockfd = some s') : Inv s' := by
  obtain ⟨process, overuse, burst, stored, pod, hconn, hpod, rfl⟩ := receive_some hs
  unfold PodManager.State.request at hpod
  split at hpod
  · cases hpod
    refine ⟨h.bursts, h.distinct, fun fd b hfd => ?_, h.reports, h.living⟩
    rcases pending_goto hfd with ⟨rfl, hcheck⟩ | ⟨-, hfd⟩
    · cases hcheck
      exact ⟨process, overuse, stored, hconn⟩
    · exact h.pending fd b hfd
  · cases hpod

theorem Inv.exit (h : Inv s) (hs : s.exit process = some s') : Inv s' := by
  obtain rfl := exit_some hs
  refine ⟨h.bursts, h.distinct, h.pending, fun e he => h.reports e (mem_eraseKey he), fun e he hmem => ?_⟩
  have hne : e.1 ≠ process := by simpa using (List.mem_filter.1 he).2
  exact h.living e (mem_eraseKey he) ((List.mem_cons.1 hmem).resolve_left hne)

theorem Inv.hangUp (h : Inv s) (hs : s.hangUp sockfd = some s') : Inv s' := by
  obtain ⟨c, pod, hconn, hexited, hpod, rfl⟩ := hangUp_some hs
  unfold PodManager.State.hangUp at hpod
  split at hpod
  · cases hpod
    refine ⟨?_, h.distinct.sublist (keys_eraseKey_sublist ..), fun fd b hfd => ?_, fun e he => ?_, h.living⟩
    · rw [mapValues_eraseKey, ← h.bursts]
    · rcases pending_goto hfd with ⟨-, hclosed⟩ | ⟨hne, hfd⟩
      · cases hclosed
      · obtain ⟨p, o, st, hlook⟩ := h.pending fd b hfd
        exact ⟨p, o, st, by rw [lookup_eraseKey_of_ne hne]; exact hlook⟩
    · obtain ⟨o, st, hlook⟩ := h.reports e he
      -- the process of the report lives
      have hne : e.2.1 ≠ sockfd := by
        rintro heq
        rw [heq, hconn] at hlook
        cases hlook
        exact h.living e he hexited
      exact ⟨o, st, by rw [lookup_eraseKey_of_ne hne]; exact hlook⟩
  · cases hpod

/-- The burst of a request is stored on both sides. -/
theorem Inv.advance (h : Inv s) {now : ℤ} (hs : s.advance sockfd now = some s') : Inv s' := by
  unfold State.advance at hs
  obtain ⟨pod, hpod, rfl⟩ := Option.map_eq_some_iff.1 hs
  obtain ⟨p, hlaunch, rfl⟩ := PodManager.State.advance_some hpod
  have hf := launch_forwards hlaunch
  have hbursts := hf.bursts
  cases ht : s.pod.threads sockfd with
  | stat burst =>
    obtain ⟨process, overuse, stored, hconn⟩ := h.pending sockfd burst (by rw [ht]; rfl)
    have hstore : s.storeBurst sockfd = assign sockfd (.requested process overuse burst true) s.conns := by
      unfold storeBurst
      rw [hconn]
      rfl
    rw [ht] at hbursts
    simp only [hstore]
    refine ⟨?_, keys_assign_nodup h.distinct .., fun fd b hfd => ?_, fun e he => ?_, h.living⟩
    · rw [mapValues_assign, ← h.bursts]
      exact hbursts
    · obtain ⟨p', o, st, hlook⟩ := h.pending fd b (hf.pending fd b hfd)
      by_cases hne : fd = sockfd
      · subst hne
        rw [hconn] at hlook
        cases hlook
        exact ⟨_, _, _, lookup_assign_self ..⟩
      · exact ⟨p', o, st, by rw [lookup_assign_of_ne hne]; exact hlook⟩
    · obtain ⟨o, st, hlook⟩ := h.reports e he
      by_cases hne : e.2.1 = sockfd
      · rw [hne, hconn] at hlook
        cases hlook
        exact ⟨overuse, true, by rw [hne]; exact lookup_assign_self ..⟩
      · exact ⟨o, st, by rw [lookup_assign_of_ne hne]; exact hlook⟩
  | _ =>
    rw [ht] at hbursts
    exact ⟨hbursts.trans h.bursts, h.distinct, fun fd b hfd => h.pending fd b (hf.pending fd b hfd), h.reports,
      h.living⟩

theorem inv_step {e : Event} (h : Inv s) (hs : s.step e = some s') : Inv s' := by
  cases e with
  | connect process sockfd => exact h.connect hs
  | send sockfd overuse burst => exact h.send hs
  | receive sockfd => exact h.receive hs
  | advance sockfd now => exact h.advance hs
  | exit process => exact h.exit hs
  | hangUp sockfd => exact h.hangUp hs
  | forward =>
    obtain ⟨pod, hpod, rfl⟩ := Option.map_eq_some_iff.1 hs
    obtain ⟨hb, ht⟩ := forward_some hpod
    apply h.of_pod hb
    intro fd b hfd
    rwa [ht] at hfd
  | reply reqId quota =>
    obtain ⟨pod, hpod, rfl⟩ := Option.map_eq_some_iff.1 hs
    obtain ⟨hb, ht⟩ := reply_some hpod
    apply h.of_pod hb
    intro fd b hfd
    rwa [ht, HookThread.pending_wakeRsp] at hfd

/-! ## The maximum -/

/-- The maximum of a map is one of its bursts or 0, and above all of them. -/
theorem maxBurst_spec (m : List (ℕ × ℚ)) :
    0 ≤ maxBurst m ∧ (∀ e ∈ m, e.2 ≤ maxBurst m) ∧ (maxBurst m = 0 ∨ ∃ e ∈ m, maxBurst m = e.2) := by
  have hfold (m : List (ℕ × ℚ)) : ∀ b : ℚ,
      b ≤ m.foldl (fun b e => max e.2 b) b ∧ (∀ e ∈ m, e.2 ≤ m.foldl (fun b e => max e.2 b) b) ∧
        (m.foldl (fun b e => max e.2 b) b = b ∨ ∃ e ∈ m, m.foldl (fun b e => max e.2 b) b = e.2) := by
    induction m with
    | nil => intro b; simp
    | cons d m ih =>
      intro b
      obtain ⟨hle, hall, hone⟩ := ih (max d.2 b)
      rw [List.foldl_cons]
      refine ⟨(le_max_right ..).trans hle, fun e he => ?_, ?_⟩
      · rcases List.mem_cons.1 he with rfl | he
        · exact (le_max_left ..).trans hle
        · exact hall e he
      · rcases hone with hone | ⟨e, he, hone⟩
        · rcases max_choice d.2 b with hmax | hmax
          · exact .inr ⟨d, List.mem_cons_self .., hone.trans hmax⟩
          · exact .inl (hone.trans hmax)
        · exact .inr ⟨e, List.mem_cons_of_mem _ he, hone⟩
  exact hfold m 0

/-- No stored burst is above all the latest ones of living processes, of which one is not negative, and
none of these that is not stored yet is above all that are. -/
structure Covered (s : State) : Prop where
  nonneg : ∃ c ∈ s.latest, 0 ≤ c
  stored : ∀ e ∈ s.conns, ∀ b ∈ e.2.stored, ∃ c ∈ s.latest, b ≤ c
  waiting : ∀ e ∈ s.reports, (s.conns.lookup e.2.1).bind Conn.stored = none →
    e.2.2 ≤ 0 ∨ ∃ d ∈ s.conns, ∃ b ∈ d.2.stored, e.2.2 ≤ b

/-- The entries of the map. -/
theorem Inv.mem_bursts (h : Inv s) {v : ℚ} :
    (∃ e ∈ s.pod.clientBurstMap, e.2 = v) ↔ ∃ e ∈ s.conns, e.2.recorded = v := by
  rw [h.bursts]
  unfold mapValues
  simp

/-- The maximum of the map is that of the latest bursts if and only if these cover the others. -/
theorem Inv.estimate_iff (h : Inv s) : IsGreatest {b | b ∈ s.latest} (maxBurst s.pod.clientBurstMap) ↔ s.Covered := by
  obtain ⟨hnonneg, hall, hone⟩ := maxBurst_spec s.pod.clientBurstMap
  have hstored (e) (he : e ∈ s.conns) (b : ℚ) (hb : b ∈ e.2.stored) : b ≤ maxBurst s.pod.clientBurstMap := by
    obtain ⟨d, hd, hdb⟩ := h.mem_bursts.2 ⟨e, he, rfl⟩
    have hle := hall d hd
    have hb : e.2.stored = some b := hb
    rw [hdb, Conn.recorded, hb] at hle
    exact hle
  -- it is 0 or a stored burst
  have hfrom : maxBurst s.pod.clientBurstMap = 0 ∨
      ∃ e ∈ s.conns, e.2.stored = some (maxBurst s.pod.clientBurstMap) := by
    rcases hone with hone | ⟨d, hd, hone⟩
    · exact .inl hone
    · obtain ⟨e, he, hrec⟩ := h.mem_bursts.1 ⟨d, hd, rfl⟩
      rw [← hone] at hrec
      cases hst : e.2.stored with
      | none =>
        rw [Conn.recorded, hst] at hrec
        exact .inl hrec.symm
      | some b =>
        rw [Conn.recorded, hst] at hrec
        exact .inr ⟨e, he, by rw [← hrec]; exact hst⟩
  constructor
  · rintro ⟨hmem, hub⟩
    refine ⟨⟨_, hmem, hnonneg⟩, fun e he b hb => ⟨_, hmem, hstored e he b hb⟩, fun e he _ => ?_⟩
    have hle : e.2.2 ≤ maxBurst s.pod.clientBurstMap := hub (List.mem_map.2 ⟨e, he, rfl⟩)
    rcases hfrom with hzero | ⟨d, hd, hdb⟩
    · exact .inl (hzero ▸ hle)
    · exact .inr ⟨d, hd, _, hdb, hle⟩
  · rintro ⟨⟨c, hc, hc0⟩, hcov, hwait⟩
    have hub : ∀ b ∈ s.latest, b ≤ maxBurst s.pod.clientBurstMap := by
      intro b hb
      obtain ⟨e, he, rfl⟩ := List.mem_map.1 hb
      obtain ⟨overuse, stored, hconn⟩ := h.reports e he
      cases stored with
      | true => exact hstored _ (mem_of_lookup hconn) _ rfl
      | false =>
        rcases hwait e he (by rw [hconn]; rfl) with hle | ⟨d, hd, b, hb, hle⟩
        · exact hle.trans hnonneg
        · exact hle.trans (hstored d hd b hb)
    obtain ⟨c', hc', hle⟩ : ∃ c ∈ s.latest, maxBurst s.pod.clientBurstMap ≤ c := by
      rcases hfrom with hzero | ⟨d, hd, hdb⟩
      · exact ⟨c, hc, hzero ▸ hc0⟩
      · exact hcov d hd _ hdb
    have heq : maxBurst s.pod.clientBurstMap = c' := le_antisymm hle (hub c' hc')
    exact ⟨heq ▸ hc', hub⟩

/-! ## Runs -/

/-- Every request to the scheduler carries the maximum of the latest bursts of the living processes when
it was taken. -/
structure Forwarded (s : State) : Prop where
  pushing : ∀ fd b, (s.pod.threads fd).forwarding = some b → IsGreatest {c | c ∈ s.reportsOf fd} b
  queued : ∀ q ∈ s.queued, IsGreatest {c | c ∈ q.2} q.1.burst

theorem forwarded_init : Forwarded init := by
  constructor
  · intro fd b h
    cases h
  · intro q hq
    cases hq

theorem Forwarded.of_pushing (h : Forwarded s) (hr : s'.reportsOf = s.reportsOf) (hq : s'.queued = s.queued)
    (hp : ∀ fd b, (s'.pod.threads fd).forwarding = some b → (s.pod.threads fd).forwarding = some b) : Forwarded s' := by
  constructor
  · intro fd b hfd
    rw [hr]
    exact h.pushing fd b (hp fd b hfd)
  · rw [hq]
    exact h.queued

/-- The latest bursts cover the others when the maximum is taken. -/
def CoveredAt (s : State) : Event → Prop
  | .advance sockfd _ => s.pod.threads sockfd = .estimate → s.Covered
  | _ => True

theorem Forwarded.advance (h : Forwarded s) (hinv : Inv s) {now : ℤ}
    (hcov : s.pod.threads sockfd = .estimate → s.Covered) (hs : s.advance sockfd now = some s') : Forwarded s' := by
  unfold State.advance at hs
  obtain ⟨pod, hpod, rfl⟩ := Option.map_eq_some_iff.1 hs
  obtain ⟨p, hlaunch, rfl⟩ := PodManager.State.advance_some hpod
  have hf := launch_forwards hlaunch
  constructor
  · intro fd b hfd
    rcases hf.forwarding fd b hfd with ⟨hfd, hne⟩ | ⟨rfl, ht, rfl⟩
    · have hsame : (if s.pod.threads sockfd = .estimate then Function.update s.reportsOf sockfd s.latest
          else s.reportsOf) fd = s.reportsOf fd := by
        split
        · exact Function.update_of_ne hne ..
        · rfl
      simp only [hsame]
      exact h.pushing fd b hfd
    · simp only [ht, if_true, Function.update_self]
      exact hinv.estimate_iff.2 (hcov ht)
  · intro q hq
    rcases List.mem_append.1 hq with hq | hq
    · exact h.queued q hq
    · obtain ⟨r, hr, rfl⟩ := List.mem_map.1 hq
      rcases hf.queue with heq | ⟨r', ht, heq⟩
      · simp only [heq, List.drop_length] at hr
        cases hr
      · simp only [heq, List.drop_left] at hr
        obtain rfl := List.mem_singleton.1 hr
        exact h.pushing sockfd _ ht

theorem forwarded_step {e : Event} (h : Forwarded s) (hinv : Inv s) (hcov : s.CoveredAt e) (hs : s.step e = some s') :
    Forwarded s' := by
  cases e with
  | advance sockfd now => exact h.advance hinv hcov hs
  | connect process sockfd =>
    obtain ⟨pod, hpod, rfl⟩ := connect_some hs
    exact h.of_pushing rfl rfl fun _ _ => forwarding_around (PodManager.State.accept_some hpod)
  | send sockfd overuse burst =>
    obtain ⟨process, -, -, rfl⟩ := send_some hs
    exact h.of_pushing rfl rfl fun _ _ => id
  | receive sockfd =>
    obtain ⟨process, overuse, burst, stored, pod, -, hpod, rfl⟩ := receive_some hs
    exact h.of_pushing rfl rfl fun _ _ => forwarding_around (PodManager.State.request_some hpod)
  | exit process =>
    obtain rfl := exit_some hs
    exact h.of_pushing rfl rfl fun _ _ => id
  | hangUp sockfd =>
    obtain ⟨c, pod, -, -, hpod, rfl⟩ := hangUp_some hs
    exact h.of_pushing rfl rfl fun _ _ => forwarding_around (PodManager.State.hangUp_some hpod)
  | forward =>
    obtain ⟨pod, hpod, rfl⟩ := Option.map_eq_some_iff.1 hs
    obtain ⟨-, ht⟩ := forward_some hpod
    refine h.of_pushing rfl rfl fun fd b hfd => ?_
    simpa only [ht] using hfd
  | reply reqId quota =>
    obtain ⟨pod, hpod, rfl⟩ := Option.map_eq_some_iff.1 hs
    obtain ⟨-, ht⟩ := reply_some hpod
    refine h.of_pushing rfl rfl fun fd b hfd => ?_
    simpa only [ht, HookThread.forwarding_wakeRsp] using hfd

/-- In every state of every run, the maximum that is taken there is that of the latest bursts of the
living processes exactly if these cover the others. -/
theorem estimate_iff_of_run {es : List Event} (hrun : Run step init es s) :
    IsGreatest {b | b ∈ s.latest} (maxBurst s.pod.clientBurstMap) ↔ s.Covered :=
  (hrun.invariant (fun _ _ _ h _ hs => inv_step h hs) inv_init).estimate_iff

/-- In a run in which the latest bursts cover the others whenever the maximum is taken, every request to
the scheduler carries the maximum of the latest bursts of the living processes. -/
theorem forwarded_of_run {es : List Event} (hrun : RunWhere step CoveredAt init es s) :
    ∀ q ∈ s.queued, IsGreatest {b | b ∈ q.2} q.1.burst := by
  have h : Inv s ∧ Forwarded s :=
    hrun.invariant (P := fun s => Inv s ∧ Forwarded s)
      (fun _ _ _ h hg hs => ⟨inv_step h.1 hs, forwarded_step h.2 h.1 hg hs⟩) ⟨inv_init, forwarded_init⟩
  exact h.2.queued

theorem covered_iff : s.Covered ↔ (∃ c ∈ s.latest, 0 ≤ c) ∧ (∀ e ∈ s.conns, ∀ b ∈ e.2.stored, ∃ c ∈ s.latest, b ≤ c) ∧
    ∀ e ∈ s.reports, (s.conns.lookup e.2.1).bind Conn.stored = none →
      e.2.2 ≤ 0 ∨ ∃ d ∈ s.conns, ∃ b ∈ d.2.stored, e.2.2 ≤ b := by
  constructor
  · rintro ⟨h1, h2, h3⟩
    exact ⟨h1, h2, h3⟩
  · rintro ⟨h1, h2, h3⟩
    exact ⟨h1, h2, h3⟩

instance (s : State) : Decidable s.Covered := decidable_of_iff _ covered_iff.symm

instance (s : State) (e : Event) : Decidable (s.CoveredAt e) :=
  match e with
  | .advance sockfd _ => inferInstanceAs (Decidable (s.pod.threads sockfd = .estimate → s.Covered))
  | .connect .. | .send .. | .receive _ | .forward | .reply .. | .exit _ | .hangUp _ => .isTrue trivial

/-- A request through a connection of its own, up to the return of `hook_kernel_launch`. -/
def roundTrip (process sockfd : ℕ) (burst : ℚ) (reqId : ℕ) (quota : ℚ) : List Event :=
  [.connect process sockfd, .send sockfd 0 burst, .receive sockfd, .advance sockfd 0, .advance sockfd 0,
    .advance sockfd 0,
    .advance sockfd 0, .advance sockfd 0, .advance sockfd 0, .forward, .advance sockfd 0, .advance sockfd 0, .forward,
    .reply reqId quota, .advance sockfd 0, .advance sockfd 0, .advance sockfd 0]

/-- A process whose bursts grow. -/
theorem forwarded_of_growing : ∃ s, RunWhere step CoveredAt init (roundTrip 1 4 10 0 5 ++ roundTrip 1 5 50 1 100) s ∧
    s.queued = [(⟨0, 0, 10⟩, [10]), (⟨1, 0, 50⟩, [50])] ∧ ∀ q ∈ s.queued, IsGreatest {b | b ∈ q.2} q.1.burst := by
  obtain ⟨s, hrun, hq⟩ : ∃ s, RunWhere step CoveredAt init (roundTrip 1 4 10 0 5 ++ roundTrip 1 5 50 1 100) s ∧
      s.queued = [(⟨0, 0, 10⟩, [10]), (⟨1, 0, 50⟩, [50])] := exists_runWhere (by decide +kernel)
  exact ⟨s, hrun, hq, forwarded_of_run hrun⟩

/-- A process asks for a burst of 50, and then for one of 10: the pod manager forwards 50 twice. -/
theorem not_forwarded_of_shrinking : ∃ s, Run step init (roundTrip 1 4 50 0 5 ++ roundTrip 1 5 10 1 100) s ∧
    ∃ q ∈ s.queued, ¬ IsGreatest {b | b ∈ q.2} q.1.burst := by
  obtain ⟨s, hrun, hq⟩ : ∃ s, Run step init (roundTrip 1 4 50 0 5 ++ roundTrip 1 5 10 1 100) s ∧
      (⟨1, 0, 50⟩, [10]) ∈ s.queued := exists_runWhere (by decide +kernel)
  refine ⟨s, hrun, _, hq, ?_⟩
  rintro ⟨hmem, -⟩
  exact absurd (List.mem_singleton.1 hmem) (by norm_num)

end State

end Bursts

end Gemini.PodManager
