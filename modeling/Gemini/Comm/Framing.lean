/-
Messages on a TCP stream. The receive loops of the scheduler and of the pod manager take what every
`recv` returns for one whole message, and `communicate` and `retrieve_mem_info` take any return of
`recv` but -1 for a whole response. The loops handle the messages sent exactly if no `recv` returns
less than a message; a request is answered by a whole response exactly if the first `recv` that does
not fail returns all of it.
-/
import Gemini.Comm.Wire
import Gemini.Lib.Chunks

namespace Gemini.Comm

open Gemini.Lib

/-- `RSP_MSG_LEN`. -/
def rspMsgLen : ℕ := 40

/-- An array of bytes. -/
structure Buffer (n : ℕ) where
  bytes : List UInt8
  length : bytes.length = n
deriving DecidableEq

/-- What `recv` leaves in a buffer of `n` bytes when it returns a chunk: the bytes behind the chunk
stay what they were. -/
def Buffer.recv {n : ℕ} (rbuf : Buffer n) (chunk : List UInt8) : Buffer n where
  bytes := chunk.take n ++ rbuf.bytes.drop chunk.length
  length := by rw [List.length_append, List.length_take, List.length_drop, rbuf.length]; omega

/-! ## The receive loops -/

section

variable {σ : Type} {n : ℕ}

/-- `while (recv(sockfd, rbuf, n, 0) > 0) body(rbuf)`. The last `recv` returns 0. -/
def recvLoop (body : σ → Buffer n → σ) : σ → Buffer n → List (List UInt8) → σ
  | s, _, [] => s
  | s, rbuf, chunk :: chunks => recvLoop body (body s (rbuf.recv chunk)) (rbuf.recv chunk) chunks

/-- The loop of `pod_client_func`. -/
def podClientFunc (handleMessage : σ → Buffer reqMsgLen → σ) (s : σ) (rbuf : Buffer reqMsgLen)
    (chunks : List (List UInt8)) : σ := recvLoop handleMessage s rbuf chunks

/-- The loop of `hook_thread_func`; `serve` is its body, from `parse_request` to `send`. -/
def hookThreadFunc (serve : σ → Buffer reqMsgLen → σ) (s : σ) (rbuf : Buffer reqMsgLen)
    (chunks : List (List UInt8)) : σ := recvLoop serve s rbuf chunks

/-- `parse_response`: the request id, and the position of the attached data. -/
def parseResponse (buf : List UInt8) : Option (BitVec 32 × Cursor) := getMsgData (BitVec 32) ⟨buf, 0⟩

/-- The loop of `scheduler_thread_recv_func`: the attached data of a response goes to `insert`, which
places it into the response map under the request id. -/
def schedulerThreadRecvFunc (insert : σ → BitVec 32 → List UInt8 → σ) (s : σ) (buf : Buffer rspMsgLen)
    (chunks : List (List UInt8)) : σ :=
  recvLoop (fun s buf =>
    match parseResponse buf.bytes with
    | some (reqId, attached) => insert s reqId (attached.buf.drop attached.pos)
    | none => s) s buf chunks

/-- The buffers that the body of a loop runs on. -/
def buffers : Buffer n → List (List UInt8) → List (Buffer n)
  | _, [] => []
  | rbuf, chunk :: chunks => rbuf.recv chunk :: buffers (rbuf.recv chunk) chunks

theorem recvLoop_eq (body : σ → Buffer n → σ) : ∀ (s : σ) (rbuf : Buffer n) (chunks : List (List UInt8)),
    recvLoop body s rbuf chunks = (buffers rbuf chunks).foldl body s
  | _, _, [] => rfl
  | s, rbuf, chunk :: chunks => recvLoop_eq body (body s (rbuf.recv chunk)) (rbuf.recv chunk) chunks

@[simp] theorem length_buffers : ∀ (rbuf : Buffer n) (chunks : List (List UInt8)),
    (buffers rbuf chunks).length = chunks.length
  | _, [] => rfl
  | rbuf, chunk :: chunks => by simp [buffers, length_buffers (rbuf.recv chunk) chunks]

theorem Buffer.recv_bytes {rbuf : Buffer n} {chunk : List UInt8} (h : chunk.length = n) :
    (rbuf.recv chunk).bytes = chunk := by
  have hrest : rbuf.bytes.drop chunk.length = [] := List.drop_eq_nil_of_le (by rw [rbuf.length, h])
  show chunk.take n ++ rbuf.bytes.drop chunk.length = chunk
  rw [hrest, List.take_of_length_le h.le, List.append_nil]

/-- Whole chunks are what the body sees. -/
theorem buffers_bytes : ∀ {rbuf : Buffer n} {chunks : List (List UInt8)}, (∀ c ∈ chunks, c.length = n) →
    (buffers rbuf chunks).map Buffer.bytes = chunks
  | _, [], _ => rfl
  | rbuf, chunk :: chunks, h => by
    have hrec : (buffers (rbuf.recv chunk) chunks).map Buffer.bytes = chunks :=
      buffers_bytes fun c hc => h c (List.mem_cons_of_mem _ hc)
    rw [buffers, List.map_cons, hrec, Buffer.recv_bytes (h chunk (by simp))]

end

/-- The messages of `n` bytes that arrive whole. -/
def completeMessages {n : ℕ} {messages chunks : List (List UInt8)} (h : Chunked n messages chunks) : List (Buffer n) :=
  (completeRecords n messages chunks).attach.map fun m => ⟨m.1, h.sizes _ (List.mem_of_mem_take m.2)⟩

section

variable {n : ℕ} {messages chunks : List (List UInt8)} (h : Chunked n messages chunks)

theorem map_completeMessages : (completeMessages h).map Buffer.bytes = completeRecords n messages chunks := by
  rw [completeMessages, List.map_map]
  exact List.attach_map_subtype_val _

theorem length_completeMessages : (completeMessages h).length = (completeRecords n messages chunks).length := by
  rw [← map_completeMessages h, List.length_map]

/-- A loop runs on the messages that arrive exactly if no chunk is short. -/
theorem buffers_eq_iff (hn : 0 < n) (rbuf : Buffer n) :
    buffers rbuf chunks = completeMessages h ↔ ∀ c ∈ chunks, c.length = n := by
  constructor
  · intro heq
    apply h.sizes_of_length
    rw [← length_completeMessages h, ← heq, length_buffers]
  · intro hfull
    have hinj : Function.Injective (Buffer.bytes (n := n)) := by
      rintro ⟨bytes, -⟩ ⟨bytes', -⟩ rfl
      rfl
    apply hinj.list_map
    rw [buffers_bytes hfull, map_completeMessages, ← h.eq_completeRecords hn hfull]

/-- A loop that, for every body, ends as if it had run on the messages that arrive, ran on them. -/
theorem recvLoop_eq_iff (hn : 0 < n) (rbuf : Buffer n) :
    (∀ (σ : Type) (body : σ → Buffer n → σ) (s : σ), recvLoop body s rbuf chunks = (completeMessages h).foldl body s) ↔
      ∀ c ∈ chunks, c.length = n := by
  rw [← buffers_eq_iff h hn rbuf]
  constructor
  · intro hall
    have hlog := hall (List (Buffer n)) (fun s b => b :: s) []
    rw [recvLoop_eq, List.foldl_flip_cons_eq_append, List.foldl_flip_cons_eq_append] at hlog
    simpa using hlog
  · intro heq σ body s
    rw [recvLoop_eq, heq]

end

theorem parseResponse_buffer (buf : Buffer rspMsgLen) :
    parseResponse buf.bytes = some (Layout.ofBytes (buf.bytes.take 4), ⟨buf.bytes, 4⟩) := by
  have hlen : buf.bytes.length = 40 := buf.length
  rw [parseResponse, getMsgData_of_le (by simp only [hlen, Layout.size]; omega)]
  rfl

/-- The request id and the data of a response. -/
def Buffer.response (buf : Buffer rspMsgLen) : BitVec 32 × List UInt8 :=
  (Layout.ofBytes (buf.bytes.take 4), buf.bytes.drop 4)

theorem schedulerThreadRecvFunc_eq {σ : Type} (insert : σ → BitVec 32 → List UInt8 → σ) (s : σ) (buf : Buffer rspMsgLen)
    (chunks : List (List UInt8)) : schedulerThreadRecvFunc insert s buf chunks =
      (buffers buf chunks).foldl (fun s b => insert s b.response.1 b.response.2) s := by
  rw [schedulerThreadRecvFunc, recvLoop_eq]
  congr 1
  funext s b
  rw [parseResponse_buffer]
  rfl

/-! ## Requests and their responses -/

/-- What `errno` holds after a call that has failed. -/
structure Errno where
  value : ℤ
  pos : 0 < value
deriving DecidableEq

/-- What becomes of one attempt to send a request and to receive its response. A `recv` that does
not fail returns the next chunk, or 0 behind the last one. -/
inductive Attempt where
  | sendFails (errno : Errno)
  | recvFails (errno : Errno)
  | received
deriving DecidableEq

/-- A connection: the chunks that are still to be received, and the buffer of the caller. -/
structure Socket where
  chunks : List (List UInt8)
  rbuf : Buffer rspMsgLen
deriving DecidableEq

/-- The function that both callers pass to `multiple_attempt`: what it returns, `errno`, and the
connection after it. -/
def exchange : Attempt → Socket → (ℤ × ℤ) × Socket
  | .sendFails errno, c => ((-1, errno.value), c)
  | .recvFails errno, c => ((-1, errno.value), c)
  | .received, c => ((0, 0), ⟨c.chunks.tail, c.rbuf.recv (c.chunks.headD [])⟩)

/-- The loop of `multiple_attempt`, with `left` attempts to go. The interval is not modelled. -/
def multipleAttempt {α : Type} (func : ℕ → α → (ℤ × ℤ) × α) (left attempt : ℕ) (rc : ℤ) (c : α) : ℤ × α :=
  match left with
  | 0 => (rc, c)
  | left + 1 =>
    match func attempt c with
    | ((rc, errno), c) =>
      if rc = 0 then (rc, c)
      else multipleAttempt func left (attempt + 1) (if rc = -1 then errno else rc) c

/-- `NET_OP_MAX_ATTEMPT`. -/
def netOpMaxAttempt : ℕ := 5

/-- `communicate`, on a connection of its own. `rc` and the buffer are not initialised. -/
def communicate (attempts : ℕ → Attempt) (rc : ℤ) (c : Socket) : ℤ × Socket :=
  multipleAttempt (fun i => exchange (attempts i)) netOpMaxAttempt 1 rc c

/-- `retrieve_mem_info`, as `main` calls it: what it returns, `gpu_mem_used` and `gpu_mem_limit` where it
sets them, and the connection. The assertion on `gpu_mem_used` ends the program. -/
def retrieveMemInfo (attempts : ℕ → Attempt) (rc : ℤ) (c : Socket) :
    Option (ℤ × Option (BitVec 64 × BitVec 64) × Socket) :=
  match multipleAttempt (fun i => exchange (attempts i)) netOpMaxAttempt 1 rc c with
  | (rc, c) =>
    if rc ≠ 0 then some (rc, none, c)
    else do
      let (_, m) ← parseResponse c.rbuf.bytes
      let (gpuMemUsed, m) ← getMsgData (BitVec 64) m
      let (gpuMemLimit, _) ← getMsgData (BitVec 64) m
      if gpuMemUsed = 0 then return (0, some (gpuMemUsed, gpuMemLimit), c) else none

/-- An attempt in which nothing fails. -/
def Answered (attempts : ℕ → Attempt) : Prop := ∃ i, 1 ≤ i ∧ i ≤ netOpMaxAttempt ∧ attempts i = .received

/-- The buffer holds the response that arrives first. -/
def HoldsResponse (responses : List (List UInt8)) (rbuf : Buffer rspMsgLen) : Prop :=
  responses.head? = some rbuf.bytes

/-- The attempts end with the first in which nothing fails, or with an error. `I` is what the ones before
it keep. -/
theorem multipleAttempt_cases {α : Type} {attempts : ℕ → Attempt} {func : ℕ → α → (ℤ × ℤ) × α} {I : α → Prop}
    (hreceived : ∀ i c, attempts i = .received → (func i c).1.1 = 0)
    (hfails : ∀ i c, attempts i ≠ .received → I c → (func i c).1.1 = -1 ∧ 0 < (func i c).1.2 ∧ I (func i c).2) :
    ∀ (left attempt : ℕ) (rc : ℤ) (c : α), (left = 0 → rc ≠ 0) → I c →
      (∃ i c', (attempt ≤ i ∧ i < attempt + left ∧ attempts i = .received) ∧ I c' ∧
        multipleAttempt func left attempt rc c = (0, (func i c').2)) ∨
      ((∀ i, attempt ≤ i → i < attempt + left → attempts i ≠ .received) ∧
      (multipleAttempt func left attempt rc c).1 ≠ 0)
  | 0, attempt, rc, c, hrc, _ => Or.inr ⟨fun i h1 h2 => absurd h2 (by omega), hrc rfl⟩
  | left + 1, attempt, rc, c, _, hc => by
    by_cases ha : attempts attempt = .received
    · have hzero : (func attempt c).1.1 = 0 := hreceived attempt c ha
      refine Or.inl ⟨attempt, c, ⟨le_rfl, by omega, ha⟩, hc, ?_⟩
      simp [multipleAttempt, hzero]
    · obtain ⟨hrc, hpos, hkeep⟩ := hfails attempt c ha hc
      have hstep : multipleAttempt func (left + 1) attempt rc c =
          multipleAttempt func left (attempt + 1) (func attempt c).1.2 (func attempt c).2 := by
        simp [multipleAttempt, hrc]
      rw [hstep]
      rcases multipleAttempt_cases hreceived hfails left (attempt + 1) (func attempt c).1.2 (func attempt c).2
        (fun _ => hpos.ne') hkeep with ⟨i, c', ⟨h1, h2, hi⟩, hc', heq⟩ | ⟨hnone, hne⟩
      · exact Or.inl ⟨i, c', ⟨by omega, by omega, hi⟩, hc', heq⟩
      · refine Or.inr ⟨fun i h1 h2 => ?_, hne⟩
        rcases Nat.eq_or_lt_of_le h1 with rfl | h1
        · exact ha
        · exact hnone i h1 (by omega)

/-- The same for `NET_OP_MAX_ATTEMPT` attempts. -/
theorem multipleAttempt_answered {α : Type} {attempts : ℕ → Attempt} {func : ℕ → α → (ℤ × ℤ) × α} {I : α → Prop}
    (hreceived : ∀ i c, attempts i = .received → (func i c).1.1 = 0)
    (hfails : ∀ i c, attempts i ≠ .received → I c → (func i c).1.1 = -1 ∧ 0 < (func i c).1.2 ∧ I (func i c).2)
    (rc : ℤ) {c : α} (hc : I c) :
    (Answered attempts ∧ ∃ i c', attempts i = .received ∧ I c' ∧
      multipleAttempt func netOpMaxAttempt 1 rc c = (0, (func i c').2)) ∨
    (¬ Answered attempts ∧ (multipleAttempt func netOpMaxAttempt 1 rc c).1 ≠ 0) := by
  rcases multipleAttempt_cases hreceived hfails netOpMaxAttempt 1 rc c (by simp [netOpMaxAttempt]) hc with
    ⟨i, c', ⟨h1, h2, hi⟩, hc', heq⟩ | ⟨hnone, hne⟩
  · exact Or.inl ⟨⟨i, h1, by omega, hi⟩, i, c', hi, hc', heq⟩
  · refine Or.inr ⟨?_, hne⟩
    rintro ⟨i, h1, h2, hi⟩
    exact hnone i h1 (by omega) hi

/-- The attempts end with the first chunk, or with an error. -/
theorem communicate_cases (attempts : ℕ → Attempt) (rc : ℤ) (c : Socket) :
    (Answered attempts ∧ communicate attempts rc c = (0, ⟨c.chunks.tail, c.rbuf.recv (c.chunks.headD [])⟩)) ∨
      (¬ Answered attempts ∧ (communicate attempts rc c).1 ≠ 0) := by
  -- an attempt that fails receives nothing
  have hfails : ∀ i c', attempts i ≠ .received → c' = c → (exchange (attempts i) c').1.1 = -1 ∧
      0 < (exchange (attempts i) c').1.2 ∧ (exchange (attempts i) c').2 = c := by
    rintro i c' ha rfl
    cases h : attempts i with
    | received => exact absurd h ha
    | sendFails errno | recvFails errno => exact ⟨rfl, errno.pos, rfl⟩
  have hreceived : ∀ i c, attempts i = .received → (exchange (attempts i) c).1.1 = 0 := fun i c ha => by rw [ha]; rfl
  rcases multipleAttempt_answered hreceived hfails rc rfl with ⟨ha, i, c', hi, rfl, heq⟩ | hnone
  · rw [hi] at heq
    exact Or.inl ⟨ha, heq⟩
  · exact Or.inr hnone

/-- The bytes that `retrieve_mem_info` reads `gpu_mem_used` from. -/
def usedBytes (buf : List UInt8) : List UInt8 := (buf.drop 4).take 8

/-- `gpu_mem_used` is read as 0 if all of its bytes are. -/
theorem used_eq_zero (rbuf : Buffer rspMsgLen) :
    (Layout.ofBytes (usedBytes rbuf.bytes) : BitVec 64) = 0 ↔ ∀ b ∈ usedBytes rbuf.bytes, b = 0 := by
  have hlen : rbuf.bytes.length = 40 := rbuf.length
  apply ofBytes_eq_zero
  rw [usedBytes, List.length_take, List.length_drop]; omega

theorem retrieveMemInfo_eq (attempts : ℕ → Attempt) (rc : ℤ) (c : Socket) :
    retrieveMemInfo attempts rc c =
      if (communicate attempts rc c).1 ≠ 0 then
        some ((communicate attempts rc c).1, none, (communicate attempts rc c).2)
      else if (Layout.ofBytes (usedBytes (communicate attempts rc c).2.rbuf.bytes) : BitVec 64) = 0 then
        some (0, some (0, Layout.ofBytes (((communicate attempts rc c).2.rbuf.bytes.drop 12).take 8)),
          (communicate attempts rc c).2)
      else none := by
  have hcomm : multipleAttempt (fun i => exchange (attempts i)) netOpMaxAttempt 1 rc c = communicate attempts rc c :=
    rfl
  rw [retrieveMemInfo, hcomm]
  obtain ⟨rc', c'⟩ := communicate attempts rc c
  have hlen : c'.rbuf.bytes.length = 40 := c'.rbuf.length
  by_cases hrc : rc' = 0
  · subst hrc
    simp only [ne_eq, not_true_eq_false, if_false, parseResponse_buffer, Option.bind_eq_bind, Option.bind_some]
    rw [getMsgData_of_le (by simp only [hlen, Layout.size]; omega), Option.bind_some,
      getMsgData_of_le (by simp only [hlen, Layout.size]; omega), Option.bind_some]
    rw [show usedBytes c'.rbuf.bytes = (c'.rbuf.bytes.drop 4).take (Layout.size (BitVec 64)) from rfl]
    by_cases h0 : (Layout.ofBytes ((c'.rbuf.bytes.drop 4).take (Layout.size (BitVec 64))) : BitVec 64) = 0
    · rw [if_pos h0, if_pos h0, h0]
      rfl
    · rw [if_neg h0, if_neg h0]
  · simp [hrc]

/-! ## Short responses -/

/-- A buffer that is not initialised, and happens to end with `x`. -/
def garbage (x : UInt8) : Buffer rspMsgLen := ⟨List.replicate 39 0 ++ [x], by rfl⟩

section

variable {responses chunks : List (List UInt8)} {chunk : List UInt8}

/-- A chunk that is short leaves the end of the buffer as it was. -/
theorem garbage_recv_last (x : UInt8) (h : chunk.length < rspMsgLen) :
    ((garbage x).recv chunk).bytes[39]? = some x := by
  rw [rspMsgLen] at h
  show (chunk.take rspMsgLen ++ (List.replicate 39 0 ++ [x]).drop chunk.length)[39]? = some x
  rw [List.getElem?_append_right (by rw [List.length_take, rspMsgLen]; omega), List.getElem?_drop, List.length_take,
    show chunk.length + (39 - min rspMsgLen chunk.length) = 39 by rw [rspMsgLen]; omega]
  rfl

/-- Not every such buffer ends as the response does. -/
theorem exists_garbage (responses : List (List UInt8)) (h : chunk.length < rspMsgLen) :
    ∃ x, ¬ HoldsResponse responses ((garbage x).recv chunk) := by
  by_contra hall
  push Not at hall
  have heq : some ((garbage 0).recv chunk).bytes = some ((garbage 1).recv chunk).bytes := (hall 0).symm.trans (hall 1)
  have hlast := garbage_recv_last 0 h
  rw [Option.some.inj heq, garbage_recv_last 1 h] at hlast
  exact absurd hlast (by decide)

/-- What has arrived of the used memory is read. -/
theorem usedBytes_recv (rbuf : Buffer rspMsgLen) (h : chunk.length ≤ rspMsgLen) {b : UInt8} (hb : b ∈ usedBytes chunk) :
    b ∈ usedBytes (rbuf.recv chunk).bytes := by
  have hpre : chunk <+: (rbuf.recv chunk).bytes := by
    show chunk <+: chunk.take rspMsgLen ++ rbuf.bytes.drop chunk.length
    rw [List.take_of_length_le h]
    exact List.prefix_append chunk _
  exact ((hpre.drop 4).take 8).subset hb

/-- What `retrieve_mem_info` reads of such a buffer is zero if what has arrived of it is. -/
theorem usedBytes_garbage (x : UInt8) (h : ∀ b ∈ usedBytes chunk, b = 0) :
    ∀ b ∈ usedBytes ((garbage x).recv chunk).bytes, b = 0 := by
  intro b hb
  obtain ⟨i, hi⟩ := List.mem_iff_getElem?.1 hb
  rw [usedBytes, List.getElem?_take, List.getElem?_drop] at hi
  split at hi
  · rename_i hi8
    change (chunk.take rspMsgLen ++ (List.replicate 39 0 ++ [x]).drop chunk.length)[4 + i]? = some b at hi
    have hmin : (chunk.take rspMsgLen).length = min 40 chunk.length := by rw [List.length_take]; rfl
    by_cases hlt : 4 + i < chunk.length
    · rw [List.getElem?_append_left (by omega), List.getElem?_take, if_pos (by rw [rspMsgLen]; omega)] at hi
      apply h
      apply List.mem_iff_getElem?.2
      exact ⟨i, by rw [usedBytes, List.getElem?_take, if_pos hi8, List.getElem?_drop, hi]⟩
    · have hpos : chunk.length + (4 + i - (chunk.take rspMsgLen).length) = 4 + i := by omega
      rw [List.getElem?_append_right (by omega), List.getElem?_drop, hpos,
        List.getElem?_append_left (by rw [List.length_replicate]; omega), List.getElem?_replicate,
          if_pos (by omega)] at hi
      exact (Option.some.inj hi).symm
  · cases hi

theorem holdsResponse_of_full (h : Chunked rspMsgLen responses chunks) (rbuf : Buffer rspMsgLen)
    (hc : chunks.head? = some chunk)
    (hlen : chunk.length = rspMsgLen) : HoldsResponse responses (rbuf.recv (chunks.headD [])) := by
  obtain ⟨cs, rfl⟩ := List.head?_eq_some_iff.1 hc
  obtain ⟨r, rs, rfl, hr⟩ := h.head_prefix
  have hlen' : chunk.length = r.length := by rw [hlen, h.sizes r (by simp)]
  rw [HoldsResponse, List.headD_cons, Buffer.recv_bytes hlen, hr.eq_of_length hlen']
  rfl

/-- Whatever the buffer holds at first, `communicate` reports success only with a whole response
exactly if the first chunk is one, or no attempt gets to it. -/
theorem communicate_iff (h : Chunked rspMsgLen responses chunks) (attempts : ℕ → Attempt) :
    (∀ rc rbuf, (communicate attempts rc ⟨chunks, rbuf⟩).1 = 0 →
      HoldsResponse responses (communicate attempts rc ⟨chunks, rbuf⟩).2.rbuf) ↔
    (Answered attempts → ∃ c ∈ chunks.head?, c.length = rspMsgLen) := by
  constructor
  · intro hall ha
    by_contra hfull
    have hshort : (chunks.headD []).length < rspMsgLen := by
      cases chunks with
      | nil => decide
      | cons c cs =>
        refine lt_of_le_of_ne (h.le c (by simp)) fun hc => hfull ⟨c, rfl, hc⟩
    obtain ⟨x, hx⟩ := exists_garbage responses hshort
    rcases communicate_cases attempts 0 ⟨chunks, garbage x⟩ with ⟨-, heq⟩ | ⟨hna, -⟩
    · have := hall 0 (garbage x)
      rw [heq] at this
      exact hx (this rfl)
    · exact hna ha
  · intro hcond rc rbuf hrc
    rcases communicate_cases attempts rc ⟨chunks, rbuf⟩ with ⟨ha, heq⟩ | ⟨-, hne⟩
    · obtain ⟨c, hc, hlen⟩ := hcond ha
      rw [heq]
      exact holdsResponse_of_full h rbuf hc hlen
    · exact absurd hrc hne

/-- The same for `retrieve_mem_info`, whose assertion ends the program if the used memory is not 0. -/
theorem retrieveMemInfo_iff (h : Chunked rspMsgLen responses chunks) (attempts : ℕ → Attempt) :
    (∀ rc rbuf info c', retrieveMemInfo attempts rc ⟨chunks, rbuf⟩ = some (0, info, c') →
    HoldsResponse responses c'.rbuf) ↔
    (Answered attempts → ∃ c ∈ chunks.head?, c.length = rspMsgLen ∨ ∃ b ∈ usedBytes c, b ≠ 0) := by
  constructor
  · intro hall ha
    by_contra hfull
    have hhead : (chunks.headD []).length < rspMsgLen ∧ ∀ b ∈ usedBytes (chunks.headD []), b = 0 := by
      cases chunks with
      | nil => exact ⟨by decide, fun b hb => absurd hb List.not_mem_nil⟩
      | cons c cs =>
        refine ⟨lt_of_le_of_ne (h.le c (by simp)) fun hc => hfull ⟨c, rfl, Or.inl hc⟩, fun b hb => ?_⟩
        by_contra hne
        exact hfull ⟨c, rfl, Or.inr ⟨b, hb, hne⟩⟩
    obtain ⟨x, hx⟩ := exists_garbage responses hhead.1
    rcases communicate_cases attempts 0 ⟨chunks, garbage x⟩ with ⟨-, heq⟩ | ⟨hna, -⟩
    · have hret := retrieveMemInfo_eq attempts 0 ⟨chunks, garbage x⟩
      rw [heq, if_neg (by simp), if_pos ((used_eq_zero _).2 (usedBytes_garbage x hhead.2))] at hret
      exact hx (hall 0 (garbage x) _ _ hret)
    · exact hna ha
  · intro hcond rc rbuf info c' hret
    rw [retrieveMemInfo_eq] at hret
    rcases communicate_cases attempts rc ⟨chunks, rbuf⟩ with ⟨ha, heq⟩ | ⟨-, hne⟩
    · rw [heq] at hret
      simp only [ne_eq, not_true_eq_false, if_false] at hret
      split at hret
      · rename_i hzero
        obtain ⟨-, rfl⟩ := Prod.mk.inj (Prod.mk.inj (Option.some.inj hret)).2
        obtain ⟨c, hc, hlen | ⟨b, hb, hne⟩⟩ := hcond ha
        · exact holdsResponse_of_full h rbuf hc hlen
        · obtain ⟨cs, rfl⟩ := List.head?_eq_some_iff.1 hc
          exact absurd ((used_eq_zero _).1 hzero b (usedBytes_recv rbuf (h.le c (by simp)) hb)) hne
      · cases hret
    · rw [if_pos hne] at hret
      exact absurd (Prod.mk.inj (Option.some.inj hret)).1 hne

end

/-! ## Framing -/

/-- A receive loop, whatever its body and the buffer at first, runs on the messages that arrive whole. -/
def HandlesComplete {n : ℕ} {messages chunks : List (List UInt8)} (h : Chunked n messages chunks)
    (loop : ∀ {σ : Type}, (σ → Buffer n → σ) → σ → Buffer n → List (List UInt8) → σ) : Prop :=
  ∀ (σ : Type) (body : σ → Buffer n → σ) (s : σ) (rbuf : Buffer n),
    loop body s rbuf chunks = (completeMessages h).foldl body s

theorem handlesComplete_iff {n : ℕ} {messages chunks : List (List UInt8)} (h : Chunked n messages chunks) (hn : 0 < n) :
    HandlesComplete h recvLoop ↔ ∀ c ∈ chunks, c.length = n := by
  constructor
  · intro hall
    apply (recvLoop_eq_iff h hn ⟨List.replicate n 0, List.length_replicate⟩).1
    intro σ body s
    exact hall σ body s _
  · intro hfull σ body s rbuf
    exact (recvLoop_eq_iff h hn rbuf).2 hfull σ body s

/-- Every response that arrives whole is placed into the response map, and nothing else. -/
def InsertsComplete {responses chunks : List (List UInt8)} (h : Chunked rspMsgLen responses chunks) : Prop :=
  ∀ (σ : Type) (insert : σ → BitVec 32 → List UInt8 → σ) (s : σ) (buf : Buffer rspMsgLen),
    schedulerThreadRecvFunc insert s buf chunks = (completeMessages h).foldl
      (fun s m => insert s m.response.1 m.response.2) s

theorem insertsComplete_iff {responses chunks : List (List UInt8)} (h : Chunked rspMsgLen responses chunks) :
    InsertsComplete h ↔ ∀ c ∈ chunks, c.length = rspMsgLen := by
  constructor
  · intro hall
    have hlog := hall (List (BitVec 32 × List UInt8)) (fun s id data => (id, data) :: s) [] (garbage 0)
    rw [schedulerThreadRecvFunc_eq] at hlog
    have hlen := congrArg List.length hlog
    simp only [List.foldl_flip_cons_eq_append, List.append_nil, List.length_reverse, List.length_map, length_buffers,
      length_completeMessages] at hlen
    exact h.sizes_of_length hlen.symm
  · intro hfull σ insert s buf
    rw [schedulerThreadRecvFunc_eq, (buffers_eq_iff h (by decide) buf).2 hfull]

/-- The loops handle the messages that arrive exactly if no chunk is short, and a response is taken for
whole exactly if the first chunk is, unless no attempt or an assertion lets the caller get to it. -/
theorem framing_iff {requests responses reqChunks rspChunks : List (List UInt8)}
    (hreq : Chunked reqMsgLen requests reqChunks) (hrsp : Chunked rspMsgLen responses rspChunks)
    (attempts : ℕ → Attempt) :
    (HandlesComplete hreq podClientFunc ↔ ∀ c ∈ reqChunks, c.length = reqMsgLen) ∧
    (HandlesComplete hreq hookThreadFunc ↔ ∀ c ∈ reqChunks, c.length = reqMsgLen) ∧
    (InsertsComplete hrsp ↔ ∀ c ∈ rspChunks, c.length = rspMsgLen) ∧
    ((∀ rc rbuf, (communicate attempts rc ⟨rspChunks, rbuf⟩).1 = 0 →
        HoldsResponse responses (communicate attempts rc ⟨rspChunks, rbuf⟩).2.rbuf) ↔
      (Answered attempts → ∃ c ∈ rspChunks.head?, c.length = rspMsgLen)) ∧
    ((∀ rc rbuf info c', retrieveMemInfo attempts rc ⟨rspChunks, rbuf⟩ = some (0, info, c') →
        HoldsResponse responses c'.rbuf) ↔
      (Answered attempts → ∃ c ∈ rspChunks.head?, c.length = rspMsgLen ∨ ∃ b ∈ usedBytes c, b ≠ 0)) :=
  ⟨handlesComplete_iff hreq (by decide), handlesComplete_iff hreq (by decide), insertsComplete_iff hrsp,
    communicate_iff hrsp attempts, retrieveMemInfo_iff hrsp attempts⟩

/-- A byte, `n` times. -/
def repeated (n : ℕ) (b : UInt8) : List UInt8 := List.replicate n b

/-- Two requests and a response, each in a chunk of its own. -/
theorem framing_iff_whole :
    ∃ (hreq : Chunked reqMsgLen [repeated 80 1, repeated 80 2] [repeated 80 1, repeated 80 2])
      (hrsp : Chunked rspMsgLen [repeated 40 3] [repeated 40 3]),
      HandlesComplete hreq podClientFunc ∧ HandlesComplete hreq hookThreadFunc ∧ InsertsComplete hrsp ∧
      (∀ rc rbuf, (communicate (fun _ => .received) rc ⟨[repeated 40 3], rbuf⟩).1 = 0 →
        HoldsResponse [repeated 40 3] (communicate (fun _ => .received) rc ⟨[repeated 40 3], rbuf⟩).2.rbuf) := by
  have hreq : Chunked reqMsgLen [repeated 80 1, repeated 80 2] [repeated 80 1, repeated 80 2] :=
    ⟨by decide, by decide, by decide, List.prefix_refl _⟩
  have hrsp : Chunked rspMsgLen [repeated 40 3] [repeated 40 3] :=
    ⟨by decide, by decide, by decide, List.prefix_refl _⟩
  obtain ⟨hpod, hhook, hrecv, hcomm, -⟩ := framing_iff hreq hrsp fun _ => .received
  exact ⟨hreq, hrsp, hpod.2 (by decide), hhook.2 (by decide), hrecv.2 (by decide),
    hcomm.2 fun _ => ⟨repeated 40 3, rfl, by decide⟩⟩

/-- A request that arrives in two halves is not handled as one, and three bytes of a response are
taken for all of it. -/
theorem framing_short_read :
    ∃ (hreq : Chunked reqMsgLen [repeated 80 1] [repeated 40 1, repeated 40 1]),
      ¬ HandlesComplete hreq podClientFunc ∧ ¬ HandlesComplete hreq hookThreadFunc ∧
      Chunked rspMsgLen [repeated 40 7] [repeated 3 7] ∧
      (communicate (fun _ => .received) 0 ⟨[repeated 3 7], garbage 0⟩).1 = 0 ∧
      ¬ HoldsResponse [repeated 40 7] (communicate (fun _ => .received) 0 ⟨[repeated 3 7], garbage 0⟩).2.rbuf := by
  have hreq : Chunked reqMsgLen [repeated 80 1] [repeated 40 1, repeated 40 1] :=
    ⟨by decide, by decide, by decide, by decide⟩
  have hshort : ¬ HandlesComplete hreq recvLoop :=
    fun h => absurd ((handlesComplete_iff hreq (by decide)).1 h) (by decide)
  refine ⟨hreq, hshort, hshort, ⟨by decide, by decide, by decide, by decide⟩, rfl, ?_⟩
  unfold HoldsResponse
  decide

end Gemini.Comm
