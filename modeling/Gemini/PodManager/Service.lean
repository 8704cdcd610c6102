/-
The pod manager as a server. A hook library puts each of its requests on a connection of its own; the
thread of the connection parses the bytes, acts and sends bytes back, and the library parses them.
Beside this stands the service without bytes: calls that are asked, served and answered by value.

The two have the same runs, as long as the clients' names leave room for the largest payload, and in
matching states: nobody is served twice, reads what was not sent or waits for a response that cannot
be parsed. Calls whose `recv` times out are not modelled here, nor is what `hook_kernel_launch` does
between its call and its return.
-/
import Gemini.Comm.Parsing
import Gemini.Comm.Response
import Gemini.Lib.Simulation
import Gemini.PodManager.Memory

namespace Gemini.PodManager.Service

open Gemini.Lib Gemini.Comm

inductive Event where
  /-- a process connects through the descriptor `sockfd` and sends its request -/
  | connect (sockfd process : ℕ) (p : Payload)
  /-- the thread of the connection receives the request and handles it -/
  | serve (sockfd : ℕ)
  /-- `hook_kernel_launch` returns -/
  | launched (sockfd : ℕ) (quotaRemain : Double)
  /-- the process receives the response -/
  | receive (sockfd : ℕ)
  /-- the connection is closed by the process -/
  | hangUp (sockfd : ℕ)
deriving DecidableEq, Repr

/-- What `hook_thread_func` does for a request about memory: the response, and `gpu_mem_used` and
`allocation_map` after it. -/
def respond (sockfd : ℕ) (m : MemInfo) : Payload → Option (Reply × MemInfo)
  | .memLimit => some (.memLimit m.gpuMemUsed.toBitVec m.gpuMemLimit.toBitVec, m)
  | .memUpdate bytes isAllocate =>
    let (ok, m) := m.hookUpdateMemoryUsage ⟨bytes⟩ (isAllocate ≠ 0) sockfd
    some (.memUpdate (if ok then 1 else 0), m)
  | .quota .. => none

/-! ## Calls by value -/

/-- Where a call stands. -/
inductive Phase where
  | asked (p : Payload)
  | launching (overuse burst : Double)
  | answered (r : Reply)
  | returned (r : Reply)
deriving DecidableEq, Repr

structure Direct where
  calls : ℕ → Option Phase
  mem : MemInfo

namespace Direct

variable (t : Direct)

def init (limit : Size) : Direct := ⟨fun _ => none, ⟨0, limit, []⟩⟩

def goto (sockfd : ℕ) (phase : Phase) (m : MemInfo) : Direct := ⟨Function.update t.calls sockfd (some phase), m⟩

def close (sockfd : ℕ) : Direct := ⟨Function.update t.calls sockfd none, t.mem.recoverMemoryUsage sockfd⟩

def serve (sockfd : ℕ) : Option Direct :=
  match t.calls sockfd with
  | some (.asked (.quota overuse burst)) => some (t.goto sockfd (.launching overuse burst) t.mem)
  | some (.asked p) => (respond sockfd t.mem p).map fun (r, m) => t.goto sockfd (.answered r) m
  | _ => none

def step : Event → Option Direct
  | .connect sockfd _ p => if t.calls sockfd = none then some (t.goto sockfd (.asked p) (t.mem.accept sockfd)) else none
  | .serve sockfd => t.serve sockfd
  | .launched sockfd quotaRemain =>
    match t.calls sockfd with
    | some (.launching ..) => some (t.goto sockfd (.answered (.quota quotaRemain)) t.mem)
    | _ => none
  | .receive sockfd =>
    match t.calls sockfd with
    | some (.answered r) => some (t.goto sockfd (.returned r) t.mem)
    | _ => none
  | .hangUp sockfd =>
    match t.calls sockfd with
    | some (.answered _) | some (.returned _) => some (t.close sockfd)
    | _ => none

end Direct

/-! ## Calls by bytes -/

/-- What is on a connection, or what its thread is doing. -/
inductive Stage where
  | request (msg : Parsing.Message)
  /-- in `hook_kernel_launch` -/
  | launching (rid : BitVec 32) (overuse burst : Double)
  /-- nothing was sent back -/
  | silent
  | response (msg : List UInt8)
  | returned (r : Reply)
deriving DecidableEq

/-- A connection, and the type of the request that its process has made. -/
structure Link where
  caller : CommRequest
  stage : Stage
deriving DecidableEq

/-- The connections, the processes with the statics of their `prepare_request`, and the account. -/
structure State where
  links : ℕ → Option Link
  statics : ℕ → Statics
  mem : MemInfo

namespace State

variable (s : State)

def init (statics : ℕ → Statics) (limit : Size) : State := ⟨fun _ => none, statics, ⟨0, limit, []⟩⟩

def goto (sockfd : ℕ) (caller : CommRequest) (stage : Stage) (m : MemInfo) : State :=
  { s with links := Function.update s.links sockfd (some ⟨caller, stage⟩), mem := m }

def close (sockfd : ℕ) : State :=
  { s with links := Function.update s.links sockfd none, mem := s.mem.recoverMemoryUsage sockfd }

/-- `prepare_request` into a buffer that was zeroed, and `send`. -/
def connect (sockfd process : ℕ) (p : Payload) : Option State :=
  if s.links sockfd = none then
    match prepareRequest (s.statics process) p.type p.args (List.replicate reqMsgLen 0) with
    | some (_, bytes, statics) =>
      if h : bytes.length = reqMsgLen then
        some { s.goto sockfd p.type (.request ⟨bytes, h⟩) (s.mem.accept sockfd) with
          statics := Function.update s.statics process statics }
      else none
    | none => none
  else none

/-- `prepare_response` into a buffer that was zeroed, and `send` if there is something to send. -/
def answer (sockfd : ℕ) (caller : CommRequest) (rid : BitVec 32) (r : Reply) (m : MemInfo) : Option State :=
  (prepareResponse r.type rid r.args (List.replicate rspMsgLen 0)).map fun (len, msg) =>
    s.goto sockfd caller (if 0 < len then .response msg else .silent) m

/-- The body of the loop of `hook_thread_func`, up to the call of `hook_kernel_launch`. -/
def serve (sockfd : ℕ) : Option State :=
  match s.links sockfd with
  | some ⟨caller, .request msg⟩ =>
    match Parsing.hookThreadFunc msg with
    | some (rid, some (.quota overuse burst)) => some (s.goto sockfd caller (.launching rid overuse burst) s.mem)
    | some (rid, some p) => (respond sockfd s.mem p).bind fun (r, m) => s.answer sockfd caller rid r m
    | some (_, none) => some (s.goto sockfd caller .silent s.mem)
    | none => none
  | _ => none

def launched (sockfd : ℕ) (quotaRemain : Double) : Option State :=
  match s.links sockfd with
  | some ⟨caller, .launching rid _ _⟩ => s.answer sockfd caller rid (.quota quotaRemain) s.mem
  | _ => none

/-- `parse_response`, and the reads of the caller. -/
def receive (sockfd : ℕ) : Option State :=
  match s.links sockfd with
  | some ⟨caller, .response msg⟩ =>
    (parseResponse msg).bind fun (_, attached) =>
      (readReply caller attached).map fun r => s.goto sockfd caller (.returned r) s.mem
  | _ => none

def hangUp (sockfd : ℕ) : Option State :=
  match s.links sockfd with
  | some ⟨_, .response _⟩ | some ⟨_, .returned _⟩ | some ⟨_, .silent⟩ => some (s.close sockfd)
  | _ => none

def step : Event → Option State
  | .connect sockfd process p => s.connect sockfd process p
  | .serve sockfd => s.serve sockfd
  | .launched sockfd quotaRemain => s.launched sockfd quotaRemain
  | .receive sockfd => s.receive sockfd
  | .hangUp sockfd => s.hangUp sockfd

end State

/-! ## What the bytes stand for -/

/-- A connection and the call on it. -/
inductive Link.Matches : Link → Phase → Prop
  | asked {p : Payload} {msg : Parsing.Message} {rid : BitVec 32}
      (h : Parsing.hookThreadFunc msg = some (rid, some p)) : Matches ⟨p.type, .request msg⟩ (.asked p)
  | launching (rid : BitVec 32) (overuse burst : Double) :
      Matches ⟨.reqQuota, .launching rid overuse burst⟩ (.launching overuse burst)
  | answered (rid : BitVec 32) (r : Reply) : Matches ⟨r.type, .response (responseBytes rid r)⟩ (.answered r)
  | returned (caller : CommRequest) (r : Reply) : Matches ⟨caller, .returned r⟩ (.returned r)

/-- The same account, and the same calls on the connections. -/
structure Matches (s : State) (t : Direct) : Prop where
  mem : s.mem = t.mem
  links : ∀ sockfd, Option.Rel Link.Matches (s.links sockfd) (t.calls sockfd)

/-- The names of the clients leave room for every payload. -/
def NamesFit (s : State) : Prop := ∀ process, (s.statics process).clientName.bytes.length ≤ 47

section

variable {s s' : State} {t t' : Direct} {e : Event} {sockfd : ℕ}

theorem matches_init (statics : ℕ → Statics) (limit : Size) : Matches (.init statics limit) (.init limit) :=
  ⟨rfl, fun _ => .none⟩

theorem Matches.goto (h : Matches s t) (sockfd : ℕ) {caller : CommRequest} {stage : Stage} {phase : Phase}
    (hl : Link.Matches ⟨caller, stage⟩ phase) (m : MemInfo) :
    Matches (s.goto sockfd caller stage m) (t.goto sockfd phase m) := by
  refine ⟨rfl, fun k => ?_⟩
  simp only [State.goto, Direct.goto]
  by_cases hk : k = sockfd
  · rw [hk, Function.update_self, Function.update_self]
    exact .some hl
  · rw [Function.update_of_ne hk, Function.update_of_ne hk]
    exact h.links k

theorem Matches.close (h : Matches s t) (sockfd : ℕ) : Matches (s.close sockfd) (t.close sockfd) := by
  refine ⟨by simp only [State.close, Direct.close, h.mem], fun k => ?_⟩
  simp only [State.close, Direct.close]
  by_cases hk : k = sockfd
  · rw [hk, Function.update_self, Function.update_self]
    exact .none
  · rw [Function.update_of_ne hk, Function.update_of_ne hk]
    exact h.links k

/-! ## Requests -/

/-- The thread of the connection knows what the handlers know of a message. -/
theorem hookThreadFunc_of_readRequest {msg : Parsing.Message} {r : Received} (h : readRequest msg.bytes = some r) :
    Parsing.hookThreadFunc msg = some (r.id, some r.payload) := by
  simp only [readRequest, Option.bind_eq_bind, Option.bind_eq_some_iff, Option.pure_def, Option.some.injEq] at h
  obtain ⟨p, hp, name, -, payload, hpay, rfl⟩ := h
  unfold readPayload at hpay
  simp only [Parsing.hookThreadFunc, hp, Option.bind_eq_bind, Option.bind_some]
  split
  · rename_i htype
    rw [if_pos htype] at hpay
    cases hpay
    rfl
  · rename_i hlimit
    rw [if_neg hlimit] at hpay
    split
    · rename_i htype
      rw [if_pos htype] at hpay
      simp only [Option.bind_eq_bind, Option.bind_eq_some_iff, Option.pure_def, Option.some.injEq] at hpay
      obtain ⟨⟨bytes, m⟩, h1, ⟨isAllocate, m'⟩, h2, rfl⟩ := hpay
      simp only [h1, h2, Option.bind_some]
      rfl
    · rename_i hupdate
      rw [if_neg hupdate] at hpay
      split
      · rename_i htype
        rw [if_pos htype] at hpay
        simp only [Option.bind_eq_bind, Option.bind_eq_some_iff, Option.pure_def, Option.some.injEq] at hpay
        obtain ⟨⟨overuse, m⟩, h1, ⟨burst, m'⟩, h2, rfl⟩ := hpay
        simp only [h1, h2, Option.bind_some]
        rfl
      · rename_i hquota
        rw [if_neg hquota] at hpay
        cases hpay

/-- What `prepare_request` has made is read by the thread of the connection. -/
theorem hookThreadFunc_of_prepareRequest {st st' : Statics} {p : Payload} {id : BitVec 32} {bytes : List UInt8}
    (h : prepareRequest st p.type p.args (List.replicate reqMsgLen 0) = some (id, bytes, st')) :
    ∃ hlen : bytes.length = reqMsgLen, Parsing.hookThreadFunc ⟨bytes, hlen⟩ = some (st.id, some p) := by
  have hfit := prepareRequest_fits h
  rw [List.length_replicate] at hfit
  obtain ⟨msg, st'', hmsg, hlen, hread⟩ := (roundTrips_iff st p).2 hfit
  rw [h] at hmsg
  cases hmsg
  exact ⟨hlen, @hookThreadFunc_of_readRequest ⟨bytes, hlen⟩ _ hread⟩

theorem Payload.size_le (p : Payload) : p.size ≤ 16 := by cases p <;> simp [Payload.size]

/-- A name that fits is no obstacle. -/
theorem exists_prepareRequest {st : Statics} (hname : st.clientName.bytes.length ≤ 47) (p : Payload) :
    ∃ bytes, prepareRequest st p.type p.args (List.replicate reqMsgLen 0) =
      some (st.id, bytes, { st with id := st.id + 1 }) := by
  have hsize := Payload.size_le p
  obtain ⟨msg, st', hmsg, -, -⟩ := (roundTrips_iff st p).2 (by simp only [reqMsgLen]; omega)
  refine ⟨msg, ?_⟩
  have hst : st' = { st with id := st.id + 1 } := by
    simp only [prepareRequest, Option.bind_eq_bind, Option.bind_eq_some_iff, Option.pure_def, Option.some.injEq,
      Prod.mk.injEq] at hmsg
    obtain ⟨_, -, _, -, _, -, _, -, _, -, _, -, -, -, rfl⟩ := hmsg
    rfl
  rw [hmsg, hst]

/-! ## The two services go together -/

theorem answer_eq (s : State) (sockfd : ℕ) (caller : CommRequest) (rid : BitVec 32) (r : Reply) (m : MemInfo) :
    s.answer sockfd caller rid r m = some (s.goto sockfd caller (.response (responseBytes rid r)) m) := by
  simp only [State.answer, prepareResponse_eq, Option.map_some]
  rw [if_pos (by omega)]

theorem matches_serve (h : Matches s t) (sockfd : ℕ) : Option.Rel Matches (s.serve sockfd) (t.serve sockfd) := by
  have hl := h.links sockfd
  unfold State.serve Direct.serve
  generalize s.links sockfd = l at hl ⊢
  generalize t.calls sockfd = c at hl ⊢
  cases hl with
  | none => exact .none
  | some hm =>
    cases hm with
    | launching rid overuse burst => exact .none
    | answered rid r => exact .none
    | returned caller r => exact .none
    | @asked p msg rid hparse =>
      cases p with
      | quota overuse burst =>
        simp only [hparse, h.mem]
        exact .some (h.goto sockfd (.launching rid overuse burst) t.mem)
      | memLimit =>
        simp only [hparse, respond, Option.bind_some, Option.map_some, answer_eq, h.mem]
        exact .some (h.goto sockfd (.answered rid (.memLimit _ _)) t.mem)
      | memUpdate bytes isAllocate =>
        simp only [hparse, respond, Option.bind_some, Option.map_some, answer_eq, h.mem]
        exact .some (h.goto sockfd (.answered rid (.memUpdate _)) _)

theorem matches_launched (h : Matches s t) (sockfd : ℕ) (quotaRemain : Double) :
    Option.Rel Matches (s.step (.launched sockfd quotaRemain)) (t.step (.launched sockfd quotaRemain)) := by
  have hl := h.links sockfd
  simp only [State.step, State.launched, Direct.step]
  generalize s.links sockfd = l at hl ⊢
  generalize t.calls sockfd = c at hl ⊢
  cases hl with
  | none => exact .none
  | some hm =>
    cases hm with
    | launching rid overuse burst =>
      simp only [answer_eq, h.mem]
      exact .some (h.goto sockfd (.answered rid (.quota quotaRemain)) t.mem)
    | asked hparse => exact .none
    | answered rid r => exact .none
    | returned caller r => exact .none

theorem matches_receive (h : Matches s t) (sockfd : ℕ) :
    Option.Rel Matches (s.step (.receive sockfd)) (t.step (.receive sockfd)) := by
  have hl := h.links sockfd
  simp only [State.step, State.receive, Direct.step]
  generalize s.links sockfd = l at hl ⊢
  generalize t.calls sockfd = c at hl ⊢
  cases hl with
  | none => exact .none
  | some hm =>
    cases hm with
    | answered rid r =>
      have hread : readReply r.type ⟨responseBytes rid r, (Layout.toBytes rid).length⟩ = some r := readReply_eq r
      simp only [parseResponse_eq, Option.bind_some, hread, Option.map_some, h.mem]
      exact .some (h.goto sockfd (.returned r.type r) t.mem)
    | asked hparse => exact .none
    | launching rid overuse burst => exact .none
    | returned caller r => exact .none

theorem matches_hangUp (h : Matches s t) (sockfd : ℕ) :
    Option.Rel Matches (s.step (.hangUp sockfd)) (t.step (.hangUp sockfd)) := by
  have hl := h.links sockfd
  simp only [State.step, State.hangUp, Direct.step]
  generalize s.links sockfd = l at hl ⊢
  generalize t.calls sockfd = c at hl ⊢
  cases hl with
  | none => exact .none
  | some hm =>
    cases hm with
    | answered rid r => exact .some (h.close sockfd)
    | returned caller r => exact .some (h.close sockfd)
    | asked hparse => exact .none
    | launching rid overuse burst => exact .none

theorem matches_connect (h : Matches s t) {process : ℕ} (hname : (s.statics process).clientName.bytes.length ≤ 47)
    (sockfd : ℕ)
    (p : Payload) : Option.Rel Matches (s.step (.connect sockfd process p)) (t.step (.connect sockfd process p)) := by
  have hl := h.links sockfd
  simp only [State.step, State.connect, Direct.step]
  obtain ⟨bytes, hprep⟩ := exists_prepareRequest hname p
  obtain ⟨hlen, hparse⟩ := hookThreadFunc_of_prepareRequest hprep
  cases hs : s.links sockfd with
  | none =>
    rw [hs] at hl
    cases hc : t.calls sockfd with
    | some c => rw [hc] at hl; cases hl
    | none =>
      simp only [hprep, if_true, dif_pos hlen, h.mem]
      have hgoto := h.goto sockfd (.asked hparse) (t.mem.accept sockfd)
      exact .some ⟨hgoto.mem, hgoto.links⟩
  | some l =>
    rw [hs] at hl
    cases hc : t.calls sockfd with
    | none => rw [hc] at hl; cases hl
    | some c => exact .none

/-- Either service makes a step exactly if the other one does. -/
theorem matches_step (h : Matches s t) (hfit : NamesFit s) (e : Event) : Option.Rel Matches (s.step e) (t.step e) := by
  cases e with
  | connect sockfd process p => exact matches_connect h (hfit process) sockfd p
  | serve sockfd => exact matches_serve h sockfd
  | launched sockfd quotaRemain => exact matches_launched h sockfd quotaRemain
  | receive sockfd => exact matches_receive h sockfd
  | hangUp sockfd => exact matches_hangUp h sockfd

/-! ## Over runs -/

/-- A process keeps its name. -/
theorem clientName_step (hs : s.step e = some s') (process : ℕ) :
    (s'.statics process).clientName = (s.statics process).clientName := by
  cases e with
  | connect sockfd k p =>
    simp only [State.step, State.connect] at hs
    split at hs
    · split at hs
      · rename_i id bytes statics hprep
        split at hs
        · cases hs
          have hname : statics.clientName = (s.statics k).clientName := by
            simp only [prepareRequest, Option.bind_eq_bind, Option.bind_eq_some_iff, Option.pure_def, Option.some.injEq,
              Prod.mk.injEq] at hprep
            obtain ⟨_, -, _, -, _, -, _, -, _, -, _, -, -, -, rfl⟩ := hprep
            rfl
          by_cases hk : process = k
          · rw [hk]
            simpa only [Function.update_self] using hname
          · simp only [Function.update_of_ne hk]
        · cases hs
      · cases hs
    · cases hs
  | serve sockfd =>
    simp only [State.step, State.serve] at hs
    split at hs
    · split at hs
      · cases hs; rfl
      · simp only [answer_eq, Option.bind_eq_some_iff, Option.some.injEq] at hs
        obtain ⟨_, -, rfl⟩ := hs
        rfl
      · cases hs; rfl
      · cases hs
    · cases hs
  | launched sockfd quotaRemain =>
    simp only [State.step, State.launched, answer_eq] at hs
    split at hs <;> cases hs
    rfl
  | receive sockfd =>
    simp only [State.step, State.receive] at hs
    split at hs
    · simp only [Option.bind_eq_some_iff, Option.map_eq_some_iff] at hs
      obtain ⟨_, -, _, -, rfl⟩ := hs
      rfl
    · cases hs
  | hangUp sockfd =>
    simp only [State.step, State.hangUp] at hs
    split at hs <;> cases hs <;> rfl

theorem namesFit_step (hfit : NamesFit s) (hs : s.step e = some s') : NamesFit s' := fun process => by
  rw [clientName_step hs]
  exact hfit process

/-- Where the names of the clients leave room for every payload, the service by bytes and the service
by value have the same runs, to matching states: the same account, and on every connection the
request that was made and the response that was given. -/
theorem service_runs_iff {statics : ℕ → Statics} (hname : ∀ process, (statics process).clientName.bytes.length ≤ 47)
    (limit : Size) (es : List Event) :
    (∀ s, Run State.step (.init statics limit) es s → ∃ t, Run Direct.step (.init limit) es t ∧ Matches s t) ∧
      ∀ t, Run Direct.step (.init limit) es t → ∃ s, Run State.step (.init statics limit) es s ∧ Matches s t := by
  have hinit : Matches (.init statics limit) (.init limit) ∧ NamesFit (.init statics limit) :=
    ⟨matches_init statics limit, hname⟩
  have hforth : ∀ s t e s', Matches s t ∧ NamesFit s → True → s.step e = some s' →
      ∃ t', True ∧ t.step e = some t' ∧ Matches s' t' ∧ NamesFit s' := by
    intro s t e s' h _ hs
    have hrel := matches_step h.1 h.2 e
    rw [hs] at hrel
    generalize ht : t.step e = o at hrel
    cases hrel with
    | some hm => exact ⟨_, trivial, rfl, hm, namesFit_step h.2 hs⟩
  have hback : ∀ t s e t', Matches s t ∧ NamesFit s → True → t.step e = some t' →
      ∃ s', True ∧ s.step e = some s' ∧ Matches s' t' ∧ NamesFit s' := by
    intro t s e t' h _ ht
    have hrel := matches_step h.1 h.2 e
    rw [ht] at hrel
    generalize hs : s.step e = o at hrel
    cases hrel with
    | some hm => exact ⟨_, trivial, rfl, hm, namesFit_step h.2 hs⟩
  refine ⟨fun s hrun => ?_, fun t hrun => ?_⟩
  · obtain ⟨t, ht, h⟩ := hrun.lockstep hforth hinit
    exact ⟨t, ht, h.1⟩
  · obtain ⟨s, hs, h⟩ := hrun.lockstep hback hinit
    exact ⟨s, hs, h.1⟩

end

/-- A process asks for 10 bytes and another one for what is in use, on two connections at once. -/
def twoCalls : List Event :=
  [.connect 4 0 (.memUpdate 10 1), .connect 5 1 .memLimit, .serve 4, .serve 5, .receive 5, .receive 4]

/-- Both are named `pod`. -/
def named : ℕ → Statics := fun _ => ⟨⟨[112, 111, 100], by decide⟩, 0⟩

theorem service_runs_iff_of_two_calls :
    ∃ s t, Run State.step (.init named 100) twoCalls s ∧ Run Direct.step (.init 100) twoCalls t ∧
    Matches s t ∧ s.links 5 = some ⟨.reqMemLimit, .returned (.memLimit 10 100)⟩ ∧
    s.links 4 = some ⟨.reqMemUpdate, .returned (.memUpdate 1)⟩ := by
  have hrun : ∃ s, Run State.step (.init named 100) twoCalls s ∧
      (s.links 5 = some ⟨.reqMemLimit, .returned (.memLimit 10 100)⟩ ∧
        s.links 4 = some ⟨.reqMemUpdate, .returned (.memUpdate 1)⟩) := exists_runWhere (by decide +kernel)
  obtain ⟨s, hrun, h5, h4⟩ := hrun
  have hname : ∀ process, (named process).clientName.bytes.length ≤ 47 := fun _ => by simp [named]
  obtain ⟨t, ht, hm⟩ := (service_runs_iff hname 100 twoCalls).1 s hrun
  exact ⟨s, t, hrun, ht, hm, h5, h4⟩

end Gemini.PodManager.Service
