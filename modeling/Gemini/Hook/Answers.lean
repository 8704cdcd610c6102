/-
Whose response a call of `communicate` returns. A call whose `recv` times out sends its request again on
the same connection, so that responses are left behind, and another call that uses the connection reads
one of these. Where no other call has timed out, a call returns the response to its own request, in
every interleaving of the calls, however their connections replace each other.
Its attempts are those of the loop of `multiple_attempt`.
-/
import Gemini.Hook.Communicate
import Gemini.Hook.Retry

namespace Gemini.Hook.Communicate

open Gemini.Lib Gemini.Comm

/-! ## The attempts of a call that has returned -/

namespace Return

variable (r : Return)

/-- What has become of the attempts: those before the last have timed out, and the last too if the call
has returned no response. -/
def tried (i : ℕ) : Attempt :=
  if r.outcome.isSome = true ∧ r.attempts ≤ i then .received else .recvFails Retry.eagain

/-- What `communicate` returns. -/
def rc : ℤ := if r.outcome.isSome = true then 0 else Retry.eagain.value

/-- The attempts are at most `NET_OP_MAX_ATTEMPT`, and as many if none has succeeded. -/
structure Complete : Prop where
  pos : 0 < r.attempts
  le : r.attempts ≤ netOpMaxAttempt
  all : r.outcome.isSome = false → r.attempts = netOpMaxAttempt

variable {r}

theorem tried_of_lt {i : ℕ} (h : i < r.attempts) : r.tried i = .recvFails Retry.eagain :=
  if_neg fun hi => absurd hi.2 (not_le.2 h)

/-- An attempt that times out takes the loop to the next one. -/
theorem multipleAttempt_recvFails (r : Return) {left attempt : ℕ} (rc : ℤ) (copies : ℕ)
    (h : r.tried attempt = .recvFails Retry.eagain) :
    multipleAttempt (fun i => Retry.transmit (r.tried i)) (left + 1) attempt rc copies =
      multipleAttempt (fun i => Retry.transmit (r.tried i)) left (attempt + 1) Retry.eagain.value (copies + 1) := by
  simp [multipleAttempt, h, Retry.transmit]

/-- The loop from an attempt on that the call makes, with `left` attempts to go. -/
theorem multipleAttempt_tried (r : Return) : ∀ (left attempt : ℕ) (rc : ℤ) (copies : ℕ), attempt ≤ r.attempts →
    r.attempts < attempt + left → (r.outcome.isSome = false → r.attempts + 1 = attempt + left) →
    multipleAttempt (fun i => Retry.transmit (r.tried i)) left attempt rc copies =
      (r.rc, copies + (r.attempts + 1 - attempt))
  | 0, attempt, rc, copies, hle, hlt, _ => absurd hlt (by omega)
  | left + 1, attempt, rc, copies, hle, hlt, hall => by
    rcases Nat.eq_or_lt_of_le hle with rfl | hless
    · cases ho : r.outcome.isSome with
      | true =>
        have htried : r.tried r.attempts = .received := if_pos ⟨ho, le_rfl⟩
        simp [multipleAttempt, htried, Retry.transmit, Return.rc, ho]
      | false =>
        have hleft : left = 0 := by
          have := hall ho
          omega
        have htried : r.tried r.attempts = .recvFails Retry.eagain := if_neg (by simp [ho])
        rw [multipleAttempt_recvFails r rc copies htried, hleft]
        simp [multipleAttempt, Return.rc, ho]
    · rw [multipleAttempt_recvFails r rc copies (tried_of_lt hless)]
      rw [multipleAttempt_tried r left (attempt + 1) _ _ hless (by omega) fun ho => (hall ho).trans (by omega)]
      congr 1
      omega

/-- What the call returns, and the number of copies it has sent, are those of the loop. -/
theorem communicate_tried (h : r.Complete) (rc : ℤ) : Retry.communicate r.tried rc = (r.rc, r.attempts) := by
  have hle := h.le
  have hloop := multipleAttempt_tried r netOpMaxAttempt 1 rc 0 h.pos (by omega) fun ho => by
    rw [h.all ho, Nat.add_comm]
  rw [Retry.communicate, hloop]
  simp

end Return

/-! ## What is on its way -/

/-- The number of the attempt, of the first one before it begins. -/
def Phase.attempt : Phase → ℕ
  | .locked => 1
  | .sending attempt | .sent attempt _ | .receiving attempt .. => attempt

/-- The connection that the request of the attempt is on. -/
def Phase.sentOn : Phase → Option ℕ
  | .sent _ fd | .receiving _ fd _ => some fd
  | _ => none

/-- The connection that the `recv` of the attempt reads. -/
def Holder.reads (h : Holder) (sockfd : ℕ → ℕ) : ℕ :=
  match h.phase with
  | .receiving _ _ fd => fd
  | _ => sockfd h.call.device

/-- A new connection replaces the one that a `recv` for its device would read. -/
theorem Holder.reads_update (h : Holder) (sockfd : ℕ → ℕ) (device fd : ℕ) :
    h.reads (Function.update sockfd device fd) = h.reads sockfd ∨ h.reads (Function.update sockfd device fd) = fd := by
  unfold reads
  split
  · exact .inl rfl
  · by_cases hd : h.call.device = device
    · rw [hd, Function.update_self]
      exact .inr rfl
    · rw [Function.update_of_ne hd]
      exact .inl rfl

namespace State

/-- The request of the call that has the mutex, if it is on the connection. -/
def pending (s : State) (fd : ℕ) : List Call :=
  match s.holder with
  | some h => if h.phase.sentOn = some fd then [h.call] else []
  | none => []

/-- A call that waits for the mutex is not one of those that have had it. -/
structure Numbered (s : State) : Prop where
  holder : ∀ h, s.holder = some h → h.call.number < s.calls
  timedOut : ∀ call fd, (call, fd) ∈ s.timedOut → call.number < s.calls
  waiting : ∀ thread call, s.waiting thread = some call → call.number < s.calls ∧
    (∀ h, s.holder = some h → h.call.number ≠ call.number) ∧
    (∀ c fd, (c, fd) ∈ s.timedOut → c.number ≠ call.number) ∧
    ∀ other c, s.waiting other = some c → c.number = call.number → other = thread

/-- As long as no call has timed out on a connection, it carries at most the request of the call that has
the mutex, or its response. A call that waits on a connection it has not sent its request on waits on a
fresh one. -/
structure Inv (s : State) : Prop where
  numbered : s.Numbered
  sockets : ∀ thread call, s.InCall thread call → ∃ conn, s.conns (s.sockfd call.device) = some conn
  sent : ∀ h sent, s.holder = some h → h.phase.sentOn = some sent →
    ∃ conn, s.conns sent = some conn ∧ h.call ∈ conn.owed
  read : ∀ h sent, s.holder = some h → h.phase.sentOn = some sent →
    h.reads s.sockfd = sent ∨ s.conns (h.reads s.sockfd) = some .fresh
  owed : ∀ fd conn, s.conns fd = some conn → (∀ call, (call, fd) ∉ s.timedOut) → conn.owed = s.pending fd
  own : ∀ h fd conn, s.holder = some h → s.conns fd = some conn → (∀ call, (call, fd) ∈ s.timedOut → call = h.call) →
    ∀ call ∈ conn.owed, call = h.call
  returned : ∀ r ∈ s.returned, ∀ fd a, r.outcome = some (fd, a) →
    a.call = r.call ∨ ∃ call ≠ r.call, (call, fd) ∈ s.timedOut

variable {s s' : State} {thread device socketTimeout fd : ℕ} {sbuf : List UInt8} {call : Call} {e : Event}
  {es : List Event}

/-! ## Calls and their sockets -/

/-- What a step of the call that has the mutex, or of the pod manager, leaves of the calls. -/
structure Within (s s' : State) : Prop where
  waiting : s'.waiting = s.waiting
  calls : s'.calls = s.calls
  sockfd : s'.sockfd = s.sockfd
  holder : ∀ h', s'.holder = some h' → ∃ h, s.holder = some h ∧ h'.thread = h.thread ∧ h'.call = h.call
  timedOut : ∀ call fd, (call, fd) ∈ s'.timedOut → (call, fd) ∈ s.timedOut ∨ ∃ h, s.holder = some h ∧ h.call = call
  conns : ∀ k, (∃ conn, s.conns k = some conn) → ∃ conn, s'.conns k = some conn

theorem exists_update {conns : ℕ → Option Conn} (conn : Conn) {k : ℕ} (h : ∃ conn, conns k = some conn) :
    ∃ conn', Function.update conns fd (some conn) k = some conn' := by
  by_cases hk : k = fd
  · subst hk
    exact ⟨conn, Function.update_self ..⟩
  · rwa [Function.update_of_ne hk]

theorem within_step (hs : s.step e = some s') : (∃ thread device sbuf socketTimeout fd,
    e = .establish thread device sbuf socketTimeout fd) ∨ (∃ thread, e = .lock thread) ∨ Within s s' := by
  have hsame : ∀ {conns : ℕ → Option Conn} k, (∃ conn, conns k = some conn) → ∃ conn, conns k = some conn :=
    fun _ h => h
  cases e with
  | establish thread device sbuf socketTimeout fd => exact .inl ⟨_, _, _, _, _, rfl⟩
  | lock thread => exact .inr (.inl ⟨_, rfl⟩)
  | setsockopt =>
    obtain ⟨thread, call, conn, hh, -, rfl⟩ := setsockopt_some hs
    refine .inr (.inr ⟨rfl, rfl, rfl, ?_, fun _ _ => .inl, fun _ => exists_update _⟩)
    rintro _ ⟨⟩
    exact ⟨_, hh, rfl, rfl⟩
  | send =>
    obtain ⟨thread, call, attempt, conn, hh, -, rfl⟩ := send_some hs
    refine .inr (.inr ⟨rfl, rfl, rfl, ?_, fun _ _ => .inl, fun _ => exists_update _⟩)
    rintro _ ⟨⟩
    exact ⟨_, hh, rfl, rfl⟩
  | recv =>
    obtain ⟨thread, call, attempt, fd, hh, rfl⟩ := recv_some hs
    refine .inr (.inr ⟨rfl, rfl, rfl, ?_, fun _ _ => .inl, hsame⟩)
    rintro _ ⟨⟩
    exact ⟨_, hh, rfl, rfl⟩
  | received =>
    obtain ⟨thread, call, attempt, sent, fd, rcvTimeo, up, a, down, -, -, rfl⟩ := received_some hs
    refine .inr (.inr ⟨rfl, rfl, rfl, ?_, fun _ _ => .inl, fun _ => exists_update _⟩)
    rintro _ ⟨⟩
  | timeOut =>
    obtain ⟨thread, call, attempt, sent, fd, conn, hh, -, -, hor⟩ := timeOut_some hs
    have htimed : ∀ c k, (c, k) ∈ (call, fd) :: s.timedOut →
        (c, k) ∈ s.timedOut ∨ ∃ h, s.holder = some h ∧ h.call = c := by
      intro c k hc
      rcases List.mem_cons.1 hc with heq | hc
      · cases heq
        exact .inr ⟨_, hh, rfl⟩
      · exact .inl hc
    rcases hor with ⟨-, rfl⟩ | ⟨-, rfl⟩
    · refine .inr (.inr ⟨rfl, rfl, rfl, ?_, htimed, hsame⟩)
      rintro _ ⟨⟩
      exact ⟨_, hh, rfl, rfl⟩
    · refine .inr (.inr ⟨rfl, rfl, rfl, ?_, htimed, hsame⟩)
      rintro _ ⟨⟩
  | answer fd rbuf =>
    obtain ⟨rcvTimeo, call, up, down, -, rfl⟩ := answer_some hs
    exact .inr (.inr ⟨rfl, rfl, rfl, fun h hh => ⟨h, hh, rfl, rfl⟩, fun _ _ => .inl, fun _ => exists_update _⟩)

theorem numbered_within (h : s.Numbered) (hw : Within s s') : s'.Numbered := by
  refine ⟨?_, ?_, ?_⟩
  · intro h' hh'
    obtain ⟨g, hg, -, hcall⟩ := hw.holder h' hh'
    rw [hcall, hw.calls]
    exact h.holder g hg
  · intro call fd hc
    rw [hw.calls]
    rcases hw.timedOut call fd hc with hc | ⟨g, hg, rfl⟩
    · exact h.timedOut call fd hc
    · exact h.holder g hg
  · intro thread call ht
    rw [hw.waiting] at ht
    obtain ⟨hlt, hholder, htimed, hunique⟩ := h.waiting thread call ht
    rw [hw.calls, hw.waiting]
    refine ⟨hlt, ?_, ?_, hunique⟩
    · intro h' hh'
      obtain ⟨g, hg, -, hcall⟩ := hw.holder h' hh'
      rw [hcall]
      exact hholder g hg
    · intro c fd hc
      rcases hw.timedOut c fd hc with hc | ⟨g, hg, rfl⟩
      · exact htimed c fd hc
      · exact hholder g hg

theorem numbered_establish (h : s.Numbered) (hs : s.establish thread device sbuf socketTimeout fd = some s') :
    s'.Numbered := by
  obtain ⟨-, -, -, rfl⟩ := establish_some hs
  refine ⟨fun g hg => (h.holder g hg).trans (Nat.lt_succ_self _), fun c k hc => (h.timedOut c k hc).trans
    (Nat.lt_succ_self _), ?_⟩
  intro t c ht
  by_cases htt : t = thread
  · subst htt
    simp only [Function.update_self, Option.some.injEq] at ht
    subst ht
    refine ⟨Nat.lt_succ_self _, fun g hg => (h.holder g hg).ne, fun c k hc => (h.timedOut c k hc).ne, ?_⟩
    intro other c hother hnumber
    by_contra hne
    simp only [Function.update_of_ne hne] at hother
    exact absurd hnumber (h.waiting other c hother).1.ne
  · simp only [Function.update_of_ne htt] at ht
    obtain ⟨hlt, hholder, htimed, hunique⟩ := h.waiting t c ht
    refine ⟨hlt.trans (Nat.lt_succ_self _), hholder, htimed, ?_⟩
    intro other d hother hnumber
    by_cases ho : other = thread
    · subst ho
      simp only [Function.update_self, Option.some.injEq] at hother
      subst hother
      exact absurd hnumber hlt.ne'
    · simp only [Function.update_of_ne ho] at hother
      exact hunique other d hother hnumber

/-- Those that still wait when a thread has taken the mutex. -/
theorem waiting_of_lock {waiting : ℕ → Option Call} {t : ℕ} (h : Function.update waiting thread none t = some call) :
    t ≠ thread ∧ waiting t = some call := by
  by_cases htt : t = thread
  · subst htt
    rw [Function.update_self] at h
    cases h
  · rw [Function.update_of_ne htt] at h
    exact ⟨htt, h⟩

theorem numbered_lock (h : s.Numbered) (hs : s.lock thread = some s') : s'.Numbered := by
  obtain ⟨call, ht, -, rfl⟩ := lock_some hs
  obtain ⟨hlt, -, -, hunique⟩ := h.waiting thread call ht
  refine ⟨?_, h.timedOut, ?_⟩
  · rintro _ ⟨⟩
    exact hlt
  · intro t c hc
    obtain ⟨hne, hc⟩ := waiting_of_lock hc
    obtain ⟨hlt', -, htimed', hunique'⟩ := h.waiting t c hc
    refine ⟨hlt', ?_, htimed', fun other d hd hnumber => hunique' other d (waiting_of_lock hd).2 hnumber⟩
    rintro _ ⟨⟩ hnumber
    exact hne (hunique t c hc hnumber.symm)

theorem numbered_step (h : s.Numbered) (hs : s.step e = some s') : s'.Numbered := by
  rcases within_step hs with ⟨thread, device, sbuf, socketTimeout, fd, rfl⟩ | ⟨thread, rfl⟩ | hw
  · exact numbered_establish h hs
  · exact numbered_lock h hs
  · exact numbered_within h hw

/-- The thread of a step of the call that has the mutex stays in its call until the call returns. -/
theorem Within.inCall (hw : Within s s') (h : s'.InCall thread call) : s.InCall thread call := by
  rcases h with h | ⟨phase, h⟩
  · exact .inl (hw.waiting ▸ h)
  · obtain ⟨⟨t, c, phase'⟩, hg, ht, hc⟩ := hw.holder _ h
    cases ht
    cases hc
    exact .inr ⟨phase', hg⟩

theorem sockets_step (h : s.Inv) (hs : s.step e = some s') (thread : ℕ) (call : Call) (hcall : s'.InCall thread call) :
    ∃ conn, s'.conns (s'.sockfd call.device) = some conn := by
  rcases within_step hs with ⟨t, device, sbuf, socketTimeout, fd, rfl⟩ | ⟨t, rfl⟩ | hw
  · obtain ⟨-, -, -, rfl⟩ := establish_some hs
    by_cases hd : call.device = device
    · refine ⟨.fresh, ?_⟩
      simp only [setConn, hd, Function.update_self]
    · simp only [setConn, Function.update_of_ne hd]
      refine exists_update _ (h.sockets thread call ?_)
      rcases hcall with hcall | hcall
      · refine .inl ?_
        by_cases htt : thread = t
        · subst htt
          simp only [Function.update_self, Option.some.injEq] at hcall
          subst hcall
          exact absurd rfl hd
        · simpa only [Function.update_of_ne htt] using hcall
      · exact .inr hcall
  · obtain ⟨c, hc, -, rfl⟩ := lock_some hs
    refine h.sockets thread call (.inl ?_)
    rcases hcall with hcall | ⟨phase, ⟨⟩⟩
    · exact (waiting_of_lock hcall).2
    · exact hc
  · rw [hw.sockfd]
    exact hw.conns _ (h.sockets thread call (hw.inCall hcall))

/-! ## What the connections carry -/

theorem inv_init : init.Inv where
  numbered := ⟨by rintro _ ⟨⟩, by rintro _ _ ⟨⟩, by rintro _ _ ⟨⟩⟩
  sockets := by rintro _ _ (⟨⟨⟩⟩ | ⟨_, ⟨⟩⟩)
  sent := by rintro _ _ ⟨⟩
  read := by rintro _ _ ⟨⟩
  owed := by rintro _ _ ⟨⟩
  own := by rintro _ _ _ ⟨⟩
  returned := by rintro _ ⟨⟩

theorem pending_eq_nil (h : ∀ g, s.holder = some g → g.phase.sentOn ≠ some fd) : s.pending fd = [] := by
  unfold pending
  split
  · rename_i g hg
    exact if_neg (h g hg)
  · rfl

theorem pending_eq {g : Holder} (hg : s.holder = some g) (hsent : g.phase.sentOn = some fd) :
    s.pending fd = [g.call] := by
  simp only [pending, hg, hsent, if_true]

/-- A connection that is not used and on which no call has timed out carries nothing. -/
theorem Inv.owed_eq_nil (h : s.Inv) {conn : Conn} (hc : s.conns fd = some conn)
    (hclean : ∀ call, (call, fd) ∉ s.timedOut)
    (hnone : ∀ g, s.holder = some g → g.phase.sentOn ≠ some fd) : conn.owed = [] := by
  rw [h.owed fd conn hc hclean, pending_eq_nil hnone]

theorem update_some {conns : ℕ → Option Conn} {conn conn' : Conn} {k : ℕ}
    (h : Function.update conns fd (some conn') k = some conn) :
    (k = fd ∧ conn = conn') ∨ (k ≠ fd ∧ conns k = some conn) := by
  by_cases hk : k = fd
  · subst hk
    rw [Function.update_self] at h
    cases h
    exact .inl ⟨rfl, rfl⟩
  · rw [Function.update_of_ne hk] at h
    exact .inr ⟨hk, h⟩

theorem inv_establish (h : s.Inv) (hs : s.establish thread device sbuf socketTimeout fd = some s') : s'.Inv := by
  have hnumbered := numbered_establish h.numbered hs
  have hsockets := sockets_step (e := .establish thread device sbuf socketTimeout fd) h hs
  obtain ⟨-, -, hfd, rfl⟩ := establish_some hs
  have hopen : ∀ {k conn}, s.conns k = some conn → Function.update s.conns fd (some .fresh) k = some conn := by
    intro k conn hk
    rw [Function.update_of_ne, hk]
    rintro rfl
    rw [hfd] at hk
    cases hk
  refine ⟨hnumbered, hsockets, ?_, ?_, ?_, ?_, h.returned⟩
  · intro g sent hg hsent
    obtain ⟨conn, hc, hmem⟩ := h.sent g sent hg hsent
    exact ⟨conn, hopen hc, hmem⟩
  · intro g sent hg hsent
    rcases g.reads_update s.sockfd device fd with hold | hnew
    · have hread := h.read g sent hg hsent
      rw [← hold] at hread
      exact hread.imp_right hopen
    · refine .inr ?_
      simp only [hnew, setConn, Function.update_self]
  · intro k conn hk hclean
    rcases update_some hk with ⟨rfl, rfl⟩ | ⟨-, hk⟩
    · refine (pending_eq_nil ?_).symm
      intro g hg hsent
      obtain ⟨conn, hc, -⟩ := h.sent g k hg hsent
      rw [hfd] at hc
      cases hc
    · exact h.owed k conn hk hclean
  · intro g k conn hg hk honly
    rcases update_some hk with ⟨rfl, rfl⟩ | ⟨-, hk⟩
    · rintro _ ⟨⟩
    · exact h.own g k conn hg hk honly

/-- A call that takes the mutex has timed out on no connection. -/
theorem inv_lock (h : s.Inv) (hs : s.lock thread = some s') : s'.Inv := by
  have hnumbered := numbered_lock h.numbered hs
  have hsockets := sockets_step (e := .lock thread) h hs
  obtain ⟨call, ht, hnone, rfl⟩ := lock_some hs
  obtain ⟨-, -, htimed, -⟩ := h.numbered.waiting thread call ht
  have hidle : ∀ g fd, s.holder = some g → g.phase.sentOn ≠ some fd := by
    intro g fd hg
    rw [hnone] at hg
    cases hg
  refine ⟨hnumbered, hsockets, by rintro _ _ ⟨⟩ ⟨⟩, by rintro _ _ ⟨⟩ ⟨⟩, ?_, ?_, h.returned⟩
  · intro k conn hk hclean
    rw [h.owed_eq_nil hk hclean fun g => hidle g k]
    refine (pending_eq_nil ?_).symm
    rintro _ ⟨⟩ ⟨⟩
  · rintro _ k conn ⟨⟩ hk honly c hc
    have hclean : ∀ c, (c, k) ∉ s.timedOut := by
      intro c hc
      have hnumber := htimed c k hc
      rw [honly c hc] at hnumber
      exact hnumber rfl
    rw [h.owed_eq_nil hk hclean fun g => hidle g k] at hc
    cases hc

theorem inv_setsockopt (h : s.Inv) (hs : s.setsockopt = some s') : s'.Inv := by
  have hnumbered := numbered_step (e := .setsockopt) h.numbered hs
  have hsockets := sockets_step (e := .setsockopt) h hs
  obtain ⟨thread, call, conn₀, hh, hc₀, rfl⟩ := setsockopt_some hs
  have hidle : ∀ g fd, s.holder = some g → g.phase.sentOn ≠ some fd := by
    intro g fd hg
    rw [hh] at hg
    cases hg
    rintro ⟨⟩
  refine ⟨hnumbered, hsockets, by rintro _ _ ⟨⟩ ⟨⟩, by rintro _ _ ⟨⟩ ⟨⟩, ?_, ?_, h.returned⟩
  · intro k conn hk hclean
    have hnil : conn.owed = [] := by
      rcases update_some hk with ⟨rfl, rfl⟩ | ⟨-, hk⟩
      · have hnil := h.owed_eq_nil hc₀ hclean fun g => hidle g _
        exact hnil
      · exact h.owed_eq_nil hk hclean fun g => hidle g k
    rw [hnil]
    refine (pending_eq_nil ?_).symm
    rintro _ ⟨⟩ ⟨⟩
  · rintro _ k conn ⟨⟩ hk honly
    have hown := fun conn => h.own _ k conn hh
    rcases update_some hk with ⟨rfl, rfl⟩ | ⟨-, hk⟩
    · exact hown conn₀ hc₀ honly
    · exact hown conn hk honly

theorem inv_send (h : s.Inv) (hs : s.send = some s') : s'.Inv := by
  have hnumbered := numbered_step (e := .send) h.numbered hs
  have hsockets := sockets_step (e := .send) h hs
  obtain ⟨thread, call, attempt, conn₀, hh, hc₀, rfl⟩ := send_some hs
  have hidle : ∀ g fd, s.holder = some g → g.phase.sentOn ≠ some fd := by
    intro g fd hg
    rw [hh] at hg
    cases hg
    rintro ⟨⟩
  have howed : ({ conn₀ with up := conn₀.up ++ [call] } : Conn).owed = conn₀.owed ++ [call] := by
    simp only [Conn.owed, List.append_assoc]
  refine ⟨hnumbered, hsockets, ?_, ?_, ?_, ?_, h.returned⟩
  · rintro _ sent ⟨⟩ ⟨⟩
    refine ⟨_, Function.update_self .., ?_⟩
    rw [howed]
    exact List.mem_append_right _ (List.mem_singleton_self call)
  · rintro _ sent ⟨⟩ ⟨⟩
    exact .inl rfl
  · intro k conn hk hclean
    rcases update_some hk with ⟨rfl, rfl⟩ | ⟨hne, hk⟩
    · rw [howed, h.owed_eq_nil hc₀ hclean fun g => hidle g _, List.nil_append]
      exact (pending_eq (g := ⟨thread, call, .sent attempt _⟩) rfl rfl).symm
    · rw [h.owed_eq_nil hk hclean fun g => hidle g k]
      refine (pending_eq_nil ?_).symm
      rintro _ ⟨⟩ ⟨⟩
      exact hne rfl
  · rintro _ k conn ⟨⟩ hk honly c hc
    have hown := fun conn => h.own _ k conn hh
    rcases update_some hk with ⟨rfl, rfl⟩ | ⟨-, hk⟩
    · rw [howed] at hc
      rcases List.mem_append.1 hc with hc | hc
      · exact hown conn₀ hc₀ honly c hc
      · exact List.mem_singleton.1 hc
    · exact hown conn hk honly c hc

theorem inv_recv (h : s.Inv) (hs : s.recv = some s') : s'.Inv := by
  have hnumbered := numbered_step (e := .recv) h.numbered hs
  have hsockets := sockets_step (e := .recv) h hs
  obtain ⟨thread, call, attempt, fd, hh, rfl⟩ := recv_some hs
  refine ⟨hnumbered, hsockets, ?_, ?_, ?_, ?_, h.returned⟩
  · rintro _ sent ⟨⟩ hsent
    have hold := h.sent _ sent hh hsent
    exact hold
  · rintro _ sent ⟨⟩ hsent
    have hold := h.read _ sent hh hsent
    exact hold
  · intro k conn hk hclean
    have hpending : s.pending k = if (some fd : Option ℕ) = some k then [call] else [] := by
      unfold pending
      rw [hh]
      rfl
    exact (h.owed k conn hk hclean).trans hpending
  · rintro _ k conn ⟨⟩ hk honly
    have hown := h.own _ k conn hh hk
    exact hown honly

/-- A `recv` that has something to read, or that can time out, reads the connection of the request. -/
theorem Inv.reads_sent (h : s.Inv) {g : Holder} {sent fd : ℕ} {conn : Conn} (hg : s.holder = some g)
    (hsent : g.phase.sentOn = some sent) (hfd : g.reads s.sockfd = fd) (hc : s.conns fd = some conn)
    (hne : conn ≠ .fresh) : fd = sent := by
  rw [← hfd]
  refine (h.read g sent hg hsent).resolve_right ?_
  intro hfresh
  rw [hfd, hc] at hfresh
  cases hfresh
  exact hne rfl

theorem inv_received (h : s.Inv) (hs : s.received = some s') : s'.Inv := by
  have hnumbered := numbered_step (e := .received) h.numbered hs
  have hsockets := sockets_step (e := .received) h hs
  obtain ⟨thread, call, attempt, sent, fd, rcvTimeo, up, a, down, hh, hc, rfl⟩ := received_some hs
  obtain rfl : fd = sent := h.reads_sent hh rfl rfl hc (by rintro ⟨⟩)
  refine ⟨hnumbered, hsockets, by rintro _ _ ⟨⟩, by rintro _ _ ⟨⟩, ?_, by rintro _ _ _ ⟨⟩, ?_⟩
  · intro k conn hk hclean
    rcases update_some hk with ⟨rfl, rfl⟩ | ⟨hne, hk⟩
    · have howed := h.owed _ _ hc hclean
      rw [pending_eq hh rfl] at howed
      exact (List.cons.inj howed).2
    · refine h.owed_eq_nil hk hclean ?_
      intro g hg hsent
      rw [hh] at hg
      cases hg
      cases hsent
      exact hne rfl
  · intro r hr k b hrb
    rcases List.mem_cons.1 hr with rfl | hr
    · cases hrb
      by_cases hother : ∃ c ≠ call, (c, fd) ∈ s.timedOut
      · exact .inr hother
      · refine .inl (h.own _ fd _ hh hc ?_ a.call (List.mem_cons_self ..))
        intro c hc
        by_contra hne
        exact hother ⟨c, hne, hc⟩
    · exact h.returned r hr k b hrb

theorem inv_timeOut (h : s.Inv) (hs : s.timeOut = some s') : s'.Inv := by
  have hnumbered := numbered_step (e := .timeOut) h.numbered hs
  have hsockets := sockets_step (e := .timeOut) h hs
  obtain ⟨thread, call, attempt, sent, fd, conn₀, hh, hc₀, hne₀, hor⟩ := timeOut_some hs
  obtain rfl : fd = sent := h.reads_sent hh rfl rfl hc₀ (by rintro rfl; exact hne₀ rfl)
  have howed : ∀ k conn, s.conns k = some conn → (∀ c, (c, k) ∉ (call, fd) :: s.timedOut) → conn.owed = [] := by
    intro k conn hk hclean
    refine h.owed_eq_nil hk (fun c hc => hclean c (List.mem_cons_of_mem _ hc)) ?_
    intro g hg hsent
    rw [hh] at hg
    cases hg
    cases hsent
    exact hclean call (List.mem_cons_self ..)
  have hreturned : ∀ r ∈ s.returned, ∀ k a, r.outcome = some (k, a) →
      a.call = r.call ∨ ∃ c ≠ r.call, (c, k) ∈ (call, fd) :: s.timedOut := by
    intro r hr k a hra
    refine (h.returned r hr k a hra).imp_right ?_
    rintro ⟨c, hc, hmem⟩
    exact ⟨c, hc, List.mem_cons_of_mem _ hmem⟩
  rcases hor with ⟨-, rfl⟩ | ⟨-, rfl⟩
  · refine ⟨hnumbered, hsockets, by rintro _ _ ⟨⟩ ⟨⟩, by rintro _ _ ⟨⟩ ⟨⟩, ?_, ?_, hreturned⟩
    · intro k conn hk hclean
      rw [howed k conn hk hclean]
      refine (pending_eq_nil ?_).symm
      rintro _ ⟨⟩ ⟨⟩
    · rintro _ k conn ⟨⟩ hk honly
      have hown := h.own _ k conn hh hk
      exact hown fun c hc => honly c (List.mem_cons_of_mem _ hc)
  · refine ⟨hnumbered, hsockets, by rintro _ _ ⟨⟩, by rintro _ _ ⟨⟩, howed, by rintro _ _ _ ⟨⟩, ?_⟩
    intro r hr k a hra
    rcases List.mem_cons.1 hr with rfl | hr
    · cases hra
    · exact hreturned r hr k a hra

theorem inv_answer {rbuf : List UInt8} (h : s.Inv) (hs : s.answer fd rbuf = some s') : s'.Inv := by
  have hnumbered := numbered_step (e := .answer fd rbuf) h.numbered hs
  have hsockets := sockets_step (e := .answer fd rbuf) h hs
  obtain ⟨rcvTimeo, call, up, down, hc₀, rfl⟩ := answer_some hs
  -- the response of a request takes its place
  have howed : (⟨rcvTimeo, up, down ++ [⟨call, rbuf⟩]⟩ : Conn).owed = (⟨rcvTimeo, call :: up, down⟩ : Conn).owed := by
    simp only [Conn.owed, List.map_append, List.map_cons, List.map_nil, List.append_assoc, List.singleton_append]
  have hconns : ∀ {k conn}, Function.update s.conns fd (some ⟨rcvTimeo, up, down ++ [⟨call, rbuf⟩]⟩) k = some conn →
      ∃ conn', s.conns k = some conn' ∧ conn.owed = conn'.owed := by
    intro k conn hk
    rcases update_some hk with ⟨rfl, rfl⟩ | ⟨-, hk⟩
    · exact ⟨_, hc₀, howed⟩
    · exact ⟨conn, hk, rfl⟩
  refine ⟨hnumbered, hsockets, ?_, ?_, ?_, ?_, h.returned⟩
  · intro g sent hg hsent
    obtain ⟨conn, hc, hmem⟩ := h.sent g sent hg hsent
    by_cases hk : sent = fd
    · subst hk
      rw [hc₀] at hc
      cases hc
      exact ⟨_, Function.update_self .., howed ▸ hmem⟩
    · refine ⟨conn, ?_, hmem⟩
      simpa only [setConn, Function.update_of_ne hk] using hc
  · intro g sent hg hsent
    refine (h.read g sent hg hsent).imp_right ?_
    intro hfresh
    have hk : g.reads s.sockfd ≠ fd := by
      intro hk
      rw [hk, hc₀] at hfresh
      cases hfresh
    simpa only [setConn, Function.update_of_ne hk] using hfresh
  · intro k conn hk hclean
    obtain ⟨conn', hk', heq⟩ := hconns hk
    rw [heq]
    exact h.owed k conn' hk' hclean
  · intro g k conn hg hk honly
    obtain ⟨conn', hk', heq⟩ := hconns hk
    rw [heq]
    exact h.own g k conn' hg hk' honly

theorem inv_step (h : s.Inv) (hs : s.step e = some s') : s'.Inv := by
  cases e with
  | establish thread device sbuf socketTimeout fd => exact inv_establish h hs
  | lock thread => exact inv_lock h hs
  | setsockopt => exact inv_setsockopt h hs
  | send => exact inv_send h hs
  | recv => exact inv_recv h hs
  | received => exact inv_received h hs
  | timeOut => exact inv_timeOut h hs
  | answer fd rbuf => exact inv_answer h hs

theorem inv_of_run (hrun : Run step init es s) : s.Inv :=
  hrun.invariant (fun _ _ _ h _ hs => inv_step h hs) inv_init

/-! ## The attempts of the calls in a run -/

/-- How often the call has timed out. -/
def timeouts (s : State) (call : Call) : ℕ := s.timedOut.countP fun p => p.1 = call

/-- No call that has still to return has the number of this one. -/
structure Retired (s : State) (call : Call) : Prop where
  lt : call.number < s.calls
  holder : ∀ h, s.holder = some h → h.call.number ≠ call.number
  waiting : ∀ thread c, s.waiting thread = some c → c.number ≠ call.number

/-- The attempts are counted as in the loop, by the timeouts of the call. -/
structure Counted (s : State) : Prop where
  attempt : ∀ h, s.holder = some h → h.phase.attempt ≤ netOpMaxAttempt ∧ s.timeouts h.call + 1 = h.phase.attempt
  complete : ∀ r ∈ s.returned, r.Complete
  timeouts : ∀ r ∈ s.returned, s.timeouts r.call + (if r.outcome.isSome = true then 1 else 0) = r.attempts
  retired : ∀ r ∈ s.returned, s.Retired r.call

theorem retired_step (h : s.Retired call) (hs : s.step e = some s') : s'.Retired call := by
  rcases within_step hs with ⟨thread, device, sbuf, socketTimeout, fd, rfl⟩ | ⟨thread, rfl⟩ | hw
  · obtain ⟨-, -, -, rfl⟩ := establish_some hs
    refine ⟨h.lt.trans (Nat.lt_succ_self _), h.holder, ?_⟩
    intro t c hc
    by_cases ht : t = thread
    · subst ht
      simp only [Function.update_self, Option.some.injEq] at hc
      subst hc
      exact h.lt.ne'
    · simp only [Function.update_of_ne ht] at hc
      exact h.waiting t c hc
  · obtain ⟨c, hc, -, rfl⟩ := lock_some hs
    refine ⟨h.lt, ?_, fun t d hd => h.waiting t d (waiting_of_lock hd).2⟩
    rintro _ ⟨⟩
    exact h.waiting thread c hc
  · refine ⟨hw.calls ▸ h.lt, ?_, hw.waiting ▸ h.waiting⟩
    intro g hg
    obtain ⟨g', hg', -, hcall⟩ := hw.holder g hg
    exact hcall ▸ h.holder g' hg'

/-- The call that has the mutex returns. -/
theorem retired_of_holder {phase : Phase} (hn : s.Numbered) (hh : s.holder = some ⟨thread, call, phase⟩)
    (hnone : s'.holder = none) (hw : s'.waiting = s.waiting) (hc : s'.calls = s.calls) : s'.Retired call where
  lt := hc ▸ hn.holder _ hh
  holder g hg := by
    rw [hnone] at hg
    cases hg
  waiting t c ht := ((hn.waiting t c (hw ▸ ht)).2.1 _ hh).symm

theorem counted_step (h : s.Counted) (hn : s.Numbered) (hs : s.step e = some s') : s'.Counted := by
  have hretired : ∀ r ∈ s.returned, s'.Retired r.call := fun r hr => retired_step (h.retired r hr) hs
  cases e with
  | establish thread device sbuf socketTimeout fd =>
    obtain ⟨-, -, -, rfl⟩ := establish_some hs
    exact ⟨h.attempt, h.complete, h.timeouts, hretired⟩
  | lock thread =>
    obtain ⟨call, ht, -, rfl⟩ := lock_some hs
    refine ⟨?_, h.complete, h.timeouts, hretired⟩
    rintro _ ⟨⟩
    refine ⟨by rw [netOpMaxAttempt, Phase.attempt]; omega, ?_⟩
    have hnone : s.timeouts call = 0 := by
      rw [State.timeouts, List.countP_eq_zero]
      rintro ⟨c, fd⟩ hc
      simp only [decide_eq_true_eq]
      rintro rfl
      exact (hn.waiting thread c ht).2.2.1 c fd hc rfl
    exact congrArg (· + 1) hnone
  | setsockopt =>
    obtain ⟨thread, call, conn, hh, -, rfl⟩ := setsockopt_some hs
    refine ⟨?_, h.complete, h.timeouts, hretired⟩
    have hattempt := h.attempt _ hh
    rintro _ ⟨⟩
    exact hattempt
  | send =>
    obtain ⟨thread, call, attempt, conn, hh, -, rfl⟩ := send_some hs
    refine ⟨?_, h.complete, h.timeouts, hretired⟩
    have hattempt := h.attempt _ hh
    rintro _ ⟨⟩
    exact hattempt
  | recv =>
    obtain ⟨thread, call, attempt, fd, hh, rfl⟩ := recv_some hs
    refine ⟨?_, h.complete, h.timeouts, hretired⟩
    have hattempt := h.attempt _ hh
    rintro _ ⟨⟩
    exact hattempt
  | received =>
    obtain ⟨thread, call, attempt, sent, fd, rcvTimeo, up, a, down, hh, -, rfl⟩ := received_some hs
    obtain ⟨hle, htimeouts⟩ : attempt ≤ netOpMaxAttempt ∧ s.timeouts call + 1 = attempt := h.attempt _ hh
    have hpos : 0 < attempt := by omega
    refine ⟨by rintro _ ⟨⟩, ?_, ?_, ?_⟩
    · exact List.forall_mem_cons.2 ⟨⟨hpos, hle, by rintro ⟨⟩⟩, h.complete⟩
    · exact List.forall_mem_cons.2 ⟨htimeouts, h.timeouts⟩
    · exact List.forall_mem_cons.2 ⟨retired_of_holder hn hh rfl rfl rfl, hretired⟩
  | timeOut =>
    obtain ⟨thread, call, attempt, sent, fd, conn, hh, -, -, hor⟩ := timeOut_some hs
    obtain ⟨hle, htimeouts⟩ : attempt ≤ netOpMaxAttempt ∧ s.timeouts call + 1 = attempt := h.attempt _ hh
    have hpos : 0 < attempt := by omega
    have hone : (((call, fd) :: s.timedOut).countP fun p => p.1 = call) = s.timeouts call + 1 :=
      List.countP_cons_of_pos (by simp)
    have hold : ∀ r ∈ s.returned, (((call, fd) :: s.timedOut).countP fun p => p.1 = r.call) +
        (if r.outcome.isSome = true then 1 else 0) = r.attempts := by
      intro r hr
      rw [List.countP_cons_of_neg]
      · exact h.timeouts r hr
      · simp only [decide_eq_true_eq]
        rintro rfl
        exact (h.retired r hr).holder _ hh rfl
    rcases hor with ⟨hlt, rfl⟩ | ⟨hge, rfl⟩
    · refine ⟨?_, h.complete, hold, hretired⟩
      rintro _ ⟨⟩
      exact ⟨hlt, congrArg (· + 1) (hone.trans htimeouts)⟩
    · refine ⟨by rintro _ ⟨⟩, ?_, ?_, ?_⟩
      · exact List.forall_mem_cons.2 ⟨⟨hpos, hle, fun _ => le_antisymm hle hge⟩, h.complete⟩
      · exact List.forall_mem_cons.2 ⟨hone.trans htimeouts, hold⟩
      · exact List.forall_mem_cons.2 ⟨retired_of_holder hn hh rfl rfl rfl, hretired⟩
  | answer fd rbuf =>
    obtain ⟨rcvTimeo, call, up, down, -, rfl⟩ := answer_some hs
    exact ⟨h.attempt, h.complete, h.timeouts, hretired⟩

theorem counted_of_run (hrun : Run step init es s) : s.Counted := by
  have hinit : init.Counted := ⟨by rintro _ ⟨⟩, by rintro _ ⟨⟩, by rintro _ ⟨⟩, by rintro _ ⟨⟩⟩
  have hall := hrun.invariant (P := fun s => s.Inv ∧ s.Counted) ?_ ⟨inv_init, hinit⟩
  · exact hall.2
  · rintro s e s' ⟨hi, hc⟩ - hs
    exact ⟨inv_step hi hs, counted_step hc hi.numbered hs⟩

/-! ## The response of a call -/

/-- In every run: a call makes an attempt for each of its timeouts, and one more if it returns a response;
what it returns, and the number of copies of its request, are those of the loop of `multiple_attempt` over
these attempts; and a response is the response to its own request, unless another call has timed out on
the connection. -/
theorem answer_of_run (hrun : Run step init es s) {r : Return} (hr : r ∈ s.returned) :
    s.timeouts r.call + (if r.outcome.isSome = true then 1 else 0) = r.attempts ∧
      (∀ rc, Retry.communicate r.tried rc = (r.rc, r.attempts)) ∧
      ∀ fd a, r.outcome = some (fd, a) → a.call = r.call ∨ ∃ call ≠ r.call, (call, fd) ∈ s.timedOut := by
  have h := counted_of_run hrun
  exact ⟨h.timeouts r hr, Return.communicate_tried (h.complete r hr), (inv_of_run hrun).returned r hr⟩

/-- Two calls for a device, of which the second has established its connection last. The first one times
out once, and reads the response to its first copy. -/
def crossed : List Event :=
  [.establish 0 0 [1] 10 3, .establish 1 0 [2] 10 4, .lock 0, .setsockopt, .send, .recv, .timeOut,
  .send, .recv, .answer 4 [1], .received, .lock 1, .setsockopt, .send, .recv, .answer 4 [1], .received]

/-- The second one reads the response to the other copy. -/
theorem answer_of_crossed : ∃ s r a, Run step init crossed s ∧ r ∈ s.returned ∧ r.outcome = some (4, a) ∧
    a.call ≠ r.call ∧ (∀ rc, Retry.communicate r.tried rc = (0, 1)) ∧ ∃ call ≠ r.call, (call, 4) ∈ s.timedOut := by
  obtain ⟨s, hrun, hr⟩ : ∃ s, Run step init crossed s ∧
      s.returned.head? = some ⟨⟨1, 0, [2], 10⟩, 1, some (4, ⟨⟨0, 0, [1], 10⟩, [1]⟩)⟩ :=
        exists_runWhere (by decide +kernel)
  have hmem := List.mem_of_head? hr
  obtain ⟨-, hloop, hanswer⟩ := answer_of_run hrun hmem
  refine ⟨s, _, _, hrun, hmem, rfl, by decide, hloop, ?_⟩
  exact (hanswer 4 _ rfl).resolve_left (by decide)

end State

end Gemini.Hook.Communicate
