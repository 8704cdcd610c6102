/-
Where the quota responses go. A candidate keeps the descriptor its request came from, and it stays
in the queue when `pod_client_func` closes that descriptor. If the operating system then gives the
number to another connection, the response goes there.

As long as no connection is closed while a request of it waits for its response, every response
reaches the connection that asked, and every token is granted to an open connection.
-/
import Gemini.Lib.Run
import Gemini.Scheduler.Daemon

namespace Gemini.Scheduler

open Gemini.Lib

/-- The selected candidate whose response is not sent yet. -/
def Daemon.unanswered : Daemon → Option Candidate
  | .chosen selected => some selected
  | .granted selected _ => some selected
  | _ => none

@[simp] theorem Daemon.unanswered_signal (d : Daemon) : d.signal.unanswered = d.unanswered := by cases d <;> rfl

namespace State

variable {cfg : Config} {s s' : State} {e : Event}

/-- A request that waits for its response: it is queued, or selected and not answered. -/
def Outstanding (s : State) (c : Candidate) : Prop := c ∈ s.candidates ∨ s.daemon.unanswered = some c

/-- Every response went to the connection that asked, and the token is being granted to a
connection that is open. -/
def Delivered (s : State) : Prop :=
  (∀ a ∈ s.answers, a.receiver = some a.request.conn) ∧
  ∀ c, s.daemon.unanswered = some c → ∃ h, s.handlers c.conn = some h

/-- No connection is closed while a request of it waits for its response. -/
def ClosesIdle (s : State) : Event → Prop
  | .hangUp conn => ∀ c, s.Outstanding c → c.conn ≠ conn
  | _ => True

/-! ## The invariant -/

/-- The connection of a request is open, and the descriptor in the request is still its own. -/
def Served (s : State) (c : Candidate) : Prop := ∃ pending, s.handlers c.conn = some ⟨c.socket, pending⟩

structure DeliveryInv (s : State) : Prop where
  owned : ∀ conn h, s.handlers conn = some h → s.descriptors h.socket = some conn
  fresh : ∀ conn, s.nextConn ≤ conn → s.handlers conn = none
  served : ∀ c, s.Outstanding c → s.Served c
  delivered : ∀ a ∈ s.answers, a.receiver = some a.request.conn

theorem deliveryInv_init : DeliveryInv init :=
  ⟨by simp [init], by simp [init], by simp [Outstanding, init, Daemon.unanswered], by simp [init]⟩

/-- The invariant speaks of the connections, the outstanding requests and the answers only. -/
theorem DeliveryInv.of_frame (hinv : DeliveryInv s) (hd : s'.descriptors = s.descriptors)
    (hh : s'.handlers = s.handlers) (hn : s'.nextConn = s.nextConn) (ha : s'.answers = s.answers)
    (ho : ∀ c, s'.Outstanding c → s.Outstanding c) : DeliveryInv s' := by
  refine ⟨?_, ?_, fun c hc => ?_, ?_⟩
  · rw [hd, hh]; exact hinv.owned
  · rw [hn, hh]; exact hinv.fresh
  · unfold Served; rw [hh]; exact hinv.served c (ho c hc)
  · rw [ha]; exact hinv.delivered

/-- A thread that changes what it is about to enqueue keeps its descriptor. -/
theorem handlers_update {conn socket : ℕ} {p q : Option (String × ℤ)} (hh : s.handlers conn = some ⟨socket, p⟩)
    {k : ℕ} {h : Handler} (hk : Function.update s.handlers conn (some ⟨socket, q⟩) k = some h) :
    ∃ h', s.handlers k = some h' ∧ h'.socket = h.socket := by
  by_cases hkc : k = conn
  · subst hkc
    rw [Function.update_self] at hk; cases hk
    exact ⟨_, hh, rfl⟩
  · rw [Function.update_of_ne hkc] at hk
    exact ⟨h, hk, rfl⟩

theorem served_update {conn socket : ℕ} {p q : Option (String × ℤ)} (hh : s.handlers conn = some ⟨socket, p⟩)
    {c : Candidate} (hc : s.Served c) :
    ∃ r, Function.update s.handlers conn (some ⟨socket, q⟩) c.conn = some ⟨c.socket, r⟩ := by
  obtain ⟨r, hr⟩ := hc
  by_cases hkc : c.conn = conn
  · rw [hkc, hh] at hr; cases hr
    exact ⟨q, by rw [hkc, Function.update_self]⟩
  · exact ⟨r, by rw [Function.update_of_ne hkc]; exact hr⟩

theorem deliveryInv_accept (hinv : DeliveryInv s) {socket : ℕ} (hs : s.accept socket = some s') :
    DeliveryInv s' := by
  obtain ⟨hfree, rfl⟩ := accept_some hs
  have hnew : ∀ {conn h}, s.handlers conn = some h → conn ≠ s.nextConn := by
    intro conn h hc he
    rw [hinv.fresh _ he.ge] at hc; cases hc
  refine ⟨fun conn h hh => ?_, fun conn hc => ?_, fun c hc => ?_, hinv.delivered⟩
  · by_cases hcn : conn = s.nextConn
    · subst hcn
      simp only [Function.update_self, Option.some.injEq] at hh
      subst hh
      exact Function.update_self ..
    · simp only [Function.update_of_ne hcn] at hh
      have hne : h.socket ≠ socket := by
        intro he
        have := hinv.owned conn h hh
        rw [he, hfree] at this; cases this
      simp only [Function.update_of_ne hne]
      exact hinv.owned conn h hh
  · simp only [Function.update_of_ne (show conn ≠ s.nextConn by have : s.nextConn + 1 ≤ conn := hc; omega)]
    exact hinv.fresh conn (by have : s.nextConn + 1 ≤ conn := hc; omega)
  · obtain ⟨p, hp⟩ := hinv.served c hc
    exact ⟨p, by simp only [Function.update_of_ne (hnew hp)]; exact hp⟩

theorem deliveryInv_request (hinv : DeliveryInv s) {conn : ℕ} {name : String} {reqId : ℤ} {overuse burst : ℚ}
    {now : ℕ} (hs : s.request cfg conn name reqId overuse burst now = some s') : DeliveryInv s' := by
  obtain ⟨-, socket, hh, ⟨-, rfl⟩ | ⟨inf, -, rfl⟩⟩ := request_some hs
  · exact hinv.of_frame rfl rfl rfl rfl fun _ => id
  · refine ⟨fun k h hk => ?_, fresh_update hinv.fresh hh _, fun c hc => served_update hh (hinv.served c hc),
      hinv.delivered⟩
    obtain ⟨h', hk', he⟩ := handlers_update hh hk
    exact he ▸ hinv.owned k h' hk'

theorem deliveryInv_enqueue (hinv : DeliveryInv s) {conn now : ℕ} (hs : s.enqueue cfg conn now = some s') :
    DeliveryInv s' := by
  obtain ⟨-, -, socket, name, reqId, hh, rfl⟩ := enqueue_some hs
  refine ⟨fun k h hk => ?_, fresh_update hinv.fresh hh _, fun c hc => ?_, hinv.delivered⟩
  · obtain ⟨h', hk', he⟩ := handlers_update hh hk
    exact he ▸ hinv.owned k h' hk'
  · rcases hc with hc | hc
    · rcases List.mem_append.1 hc with hc | hc
      · exact served_update hh (hinv.served c (.inl hc))
      · -- the request that is just enqueued
        obtain rfl := List.mem_singleton.1 hc
        exact ⟨none, Function.update_self ..⟩
    · exact served_update hh (hinv.served c (.inr (by simpa using hc)))

theorem deliveryInv_hangUp (hinv : DeliveryInv s) {conn : ℕ} (hidle : ∀ c, s.Outstanding c → c.conn ≠ conn)
    (hs : s.hangUp conn = some s') : DeliveryInv s' := by
  obtain ⟨socket, hh, rfl⟩ := hangUp_some hs
  refine ⟨fun k h hk => ?_, fresh_update hinv.fresh hh _, fun c hc => ?_, hinv.delivered⟩
  · by_cases hkc : k = conn
    · subst hkc; simp only [Function.update_self, reduceCtorEq] at hk
    · simp only [Function.update_of_ne hkc] at hk
      have hne : h.socket ≠ socket := fun he => hkc <| by
        have h1 := hinv.owned k h hk
        rw [he, hinv.owned conn _ hh] at h1
        exact (Option.some.inj h1).symm
      simp only [Function.update_of_ne hne]
      exact hinv.owned k h hk
  · obtain ⟨p, hp⟩ := hinv.served c hc
    exact ⟨p, (Function.update_of_ne (hidle c hc) ..).trans hp⟩

theorem deliveryInv_select (hinv : DeliveryInv s) {now : ℕ} {ts : List ContainerTimestamp}
    {order : List ValidCandidate} (hs : s.select cfg now ts order = some s') : DeliveryInv s' := by
  obtain ⟨-, -, ⟨-, rfl⟩ | ⟨c, rest, hp, rfl⟩ | ⟨ms, rfl⟩⟩ := select_some hs
  · exact hinv.of_frame rfl rfl rfl rfl fun d hd => hd.imp_right (by simp [Daemon.unanswered])
  · obtain ⟨i, hi, rfl⟩ := selectPass_mem hp
    refine hinv.of_frame rfl rfl rfl rfl fun d hd => .inl ?_
    rcases hd with hd | hd
    · exact List.mem_of_mem_eraseIdx hd
    · cases hd; exact List.mem_of_getElem? hi
  · exact hinv.of_frame rfl rfl rfl rfl fun d hd => hd.imp_right (by simp [Daemon.unanswered])

theorem deliveryInv_send (hinv : DeliveryInv s) (hs : s.send = some s') : DeliveryInv s' := by
  obtain ⟨selected, quota, hd, rfl⟩ := send_some hs
  refine ⟨hinv.owned, hinv.fresh, fun c hc => hinv.served c (hc.imp_right (by simp [Daemon.unanswered])),
    fun a ha => ?_⟩
  rcases List.mem_append.1 ha with ha | ha
  · exact hinv.delivered a ha
  · obtain rfl := List.mem_singleton.1 ha
    obtain ⟨p, hp⟩ := hinv.served selected (.inr (by rw [hd]; rfl))
    exact hinv.owned _ _ hp

theorem deliveryInv_step (hinv : DeliveryInv s) (hidle : s.ClosesIdle e) (hs : s.step cfg e = some s') :
    DeliveryInv s' := by
  cases e with
  | accept socket => exact deliveryInv_accept hinv hs
  | request conn name reqId overuse burst now => exact deliveryInv_request hinv hs
  | enqueue conn now => exact deliveryInv_enqueue hinv hs
  | hangUp conn => exact deliveryInv_hangUp hinv hidle hs
  | configure name minf maxf gpuMemLimit => cases hs; exact hinv.of_frame rfl rfl rfl rfl fun _ => id
  | select now ts order => exact deliveryInv_select hinv hs
  | record now =>
    obtain ⟨-, selected, inf, hd, -, rfl⟩ := record_some hs
    exact hinv.of_frame rfl rfl rfl rfl fun c hc => hc.imp_right fun h => by rw [hd]; exact h
  | send => exact deliveryInv_send hinv hs
  | arm now =>
    obtain ⟨-, selected, quota, -, rfl⟩ := arm_some hs
    exact hinv.of_frame rfl rfl rfl rfl fun c hc => hc.imp_right (by simp [Daemon.unanswered])
  | block =>
    obtain ⟨selected, deadline, -, rfl⟩ := block_some hs
    exact hinv.of_frame rfl rfl rfl rfl fun c hc => hc.imp_right (by simp [Daemon.unanswered])
  | wake now timedOut =>
    obtain ⟨-, ⟨b, -, rfl⟩ | ⟨selected, deadline, b, -, ⟨-, rfl⟩ | ⟨-, rfl⟩ | ⟨-, rfl⟩⟩⟩ := wake_some hs <;>
      exact hinv.of_frame rfl rfl rfl rfl fun c hc => hc.imp_right (by simp [Daemon.unanswered])

/-! ## Delivery over runs -/

/-- In every run in which connections close only without outstanding requests, every response goes
to the connection that asked, and tokens are granted to open connections. -/
theorem delivered_of_run {es : List Event} (hrun : RunWhere (step cfg) ClosesIdle init es s) : s.Delivered := by
  have hinv : DeliveryInv s := hrun.invariant (fun _ _ _ => deliveryInv_step) deliveryInv_init
  refine ⟨hinv.delivered, fun c hc => ?_⟩
  obtain ⟨p, hp⟩ := hinv.served c (.inr hc)
  exact ⟨_, hp⟩

instance (s : State) (c : Candidate) : Decidable (s.Outstanding c) := by unfold Outstanding; infer_instance

instance (s : State) (e : Event) : Decidable (s.ClosesIdle e) :=
  match e with
  | .hangUp conn =>
    decidable_of_iff ((∀ c ∈ s.candidates, c.conn ≠ conn) ∧ ∀ c ∈ s.daemon.unanswered, c.conn ≠ conn)
      ⟨fun h c hc => hc.elim (h.1 c) (h.2 c), fun h => ⟨fun c hc => h c (.inl hc), fun c hc => h c (.inr hc)⟩⟩
  | .accept .. | .request .. | .enqueue .. | .configure .. | .select .. | .record .. | .send .. | .arm .. | .block ..
  | .wake .. => .isTrue trivial

/-! ## A response to a stranger -/

/-- The client connects and asks. -/
def connectAndAsk : List Event :=
  [.configure "a" (1 / 2) 1 0, .accept 4, .request 0 "a" 0 0 0 1000000, .enqueue 0 1000000]

/-- The token is granted and the quota sent. -/
def grantToken : List Event := [.select 2000000 [] [], .record 2000000, .send]

theorem delivered_of_one_request : ∃ s, RunWhere (step defaultConfig) ClosesIdle init
    (connectAndAsk ++ grantToken ++ [.hangUp 0]) s ∧ s.answers.length = 1 ∧ s.Delivered := by
  have hrun : ∃ s, RunWhere (step defaultConfig) ClosesIdle init (connectAndAsk ++ grantToken ++ [.hangUp 0]) s ∧
      s.answers.length = 1 := exists_runWhere (by decide +kernel)
  obtain ⟨s, hrun, ha⟩ := hrun
  exact ⟨s, hrun, ha, delivered_of_run hrun⟩

/-- The client hangs up with its request queued, and the next connection is given its descriptor:
the response to connection 0 goes to connection 1. -/
theorem delivers_to_stranger : ∃ s, Run (step defaultConfig) init
    (connectAndAsk ++ [.hangUp 0, .accept 4] ++ grantToken) s ∧ ¬ s.Delivered := by
  have hrun : ∃ s, Run (step defaultConfig) init (connectAndAsk ++ [.hangUp 0, .accept 4] ++ grantToken) s ∧
      s.answers = [⟨⟨4, "a", 0, 1, 0⟩, 250, some 1⟩] := exists_runWhere (by decide +kernel)
  obtain ⟨s, hrun, ha⟩ := hrun
  refine ⟨s, hrun, fun h => ?_⟩
  have := h.1 ⟨⟨4, "a", 0, 1, 0⟩, 250, some 1⟩ (by rw [ha]; exact List.mem_singleton_self _)
  cases this

end State

end Gemini.Scheduler
