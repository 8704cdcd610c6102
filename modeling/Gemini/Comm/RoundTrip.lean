/-
Whole requests across the wire: the payload of each type as the call sites pass it, and what
`hook_thread_func` and `handle_message` read of a message. The buffers are `REQ_MSG_LEN` bytes. A
request comes back as it was sent exactly if its header, with the name in it, and its payload fit
into the buffer; otherwise `prepare_request` writes past its end.
-/
import Gemini.Comm.Wire

namespace Gemini.Comm

open Gemini.Lib

/-! ## Payloads -/

/-- The extra information of a request. -/
inductive Payload where
  | quota (overuse burst : Double)
  | memLimit
  | memUpdate (bytes : BitVec 64) (isAllocate : BitVec 32)
deriving DecidableEq, Repr

namespace Payload

def type : Payload → CommRequest
  | .quota .. => .reqQuota
  | .memLimit => .reqMemLimit
  | .memUpdate .. => .reqMemUpdate

/-- The variable arguments of the call. -/
def args : Payload → List VarArg
  | .quota overuse burst => [.double overuse, .double burst]
  | .memLimit => []
  | .memUpdate bytes isAllocate => [.sizeT bytes, .int isAllocate]

/-- Its bytes on the wire. -/
def toBytes : Payload → List UInt8
  | .quota overuse burst => Layout.toBytes overuse ++ Layout.toBytes burst
  | .memLimit => []
  | .memUpdate bytes isAllocate => Layout.toBytes bytes ++ Layout.toBytes isAllocate

/-- Their number. -/
def size : Payload → ℕ
  | .quota .. => 16
  | .memLimit => 0
  | .memUpdate .. => 12

@[simp] theorem length_toBytes (p : Payload) :
    p.toBytes.length = p.size := by cases p <;> simp [toBytes, size, Layout.size]

end Payload

/-- The reads of `hook_thread_func` after `parse_request`. -/
def readPayload (type : BitVec 32) (m : Cursor) : Option Payload :=
  if type = CommRequest.reqMemLimit.code then some .memLimit
  else if type = CommRequest.reqMemUpdate.code then do
    let (memSize, m) ← getMsgData (BitVec 64) m
    let (allocate, _) ← getMsgData (BitVec 32) m
    return .memUpdate memSize allocate
  else if type = CommRequest.reqQuota.code then do
    let (overuseMs, m) ← getMsgData Double m
    let (burst, _) ← getMsgData Double m
    return .quota overuseMs burst
  else none

/-- `string(client_name)`: the bytes up to the terminator. -/
def readName (pos : ℕ) (buf : List UInt8) : Option (List UInt8) :=
  if 0 ∈ buf.drop pos then some ((buf.drop pos).takeWhile fun b => b ≠ 0) else none

/-- What the handlers know of a request. -/
structure Received where
  name : List UInt8
  nameLen : BitVec 64
  id : BitVec 32
  payload : Payload
deriving DecidableEq, Repr

def readRequest (buf : List UInt8) : Option Received := do
  let p ← parseRequest buf
  let name ← readName p.name buf
  let payload ← readPayload p.type p.attached
  return ⟨name, p.nameLen, p.id, payload⟩

/-- The request stays inside the buffer of its caller, and the handlers read what was sent. -/
def RoundTrips (st : Statics) (p : Payload) : Prop :=
  ∃ msg st', prepareRequest st p.type p.args (List.replicate reqMsgLen 0) = some (st.id, msg, st') ∧
    msg.length = reqMsgLen ∧
    readRequest msg = some ⟨st.clientName.bytes, BitVec.ofNat 64 st.clientName.bytes.length, st.id, p⟩

/-! ## What is written -/

section

variable {bytes buf : List UInt8} {m m' : Cursor}

/-- What is written lies inside the buffer. -/
theorem appendBytes_some (h : appendBytes bytes m = some m') :
    m.pos + bytes.length ≤ m.buf.length ∧ m'.pos = m.pos + bytes.length ∧ m'.buf.length = m.buf.length := by
  obtain ⟨buf, hw, rfl⟩ := Option.map_eq_some_iff.1 h
  unfold writeAt at hw
  split at hw
  · rename_i hfit
    cases hw
    refine ⟨hfit, rfl, ?_⟩
    simp only [List.length_append, List.length_take, List.length_drop]
    omega
  · cases hw

theorem appendMsgData_some {α : Type} [Layout α] {data : α} (h : appendMsgData data m = some m') :
    m.pos + Layout.size α ≤ m.buf.length ∧ m'.pos = m.pos + Layout.size α ∧ m'.buf.length = m.buf.length := by
  have := appendBytes_some h
  rwa [Layout.length_toBytes] at this

theorem appendPayload_some {p : Payload} (hpos : m.pos ≤ m.buf.length) (h : appendPayload p.type p.args m = some m') :
    m.pos + p.size ≤ m.buf.length := by
  cases p with
  | quota overuse burst =>
    simp only [appendPayload, Payload.type, Payload.args, vaDouble, Option.bind_eq_bind, Option.bind_some,
      Option.bind_eq_some_iff] at h
    obtain ⟨m₁, h₁, h⟩ := h
    obtain ⟨-, hp, hl⟩ := appendMsgData_some h₁
    obtain ⟨hfit, -, -⟩ := appendMsgData_some h
    simp only [Layout.size] at hp hfit
    simp only [Payload.size]
    omega
  | memLimit => exact hpos
  | memUpdate bytes isAllocate =>
    simp only [appendPayload, Payload.type, Payload.args, vaSizeT, vaInt, Option.bind_eq_bind, Option.bind_some,
      Option.bind_eq_some_iff] at h
    obtain ⟨m₁, h₁, h⟩ := h
    obtain ⟨-, hp, hl⟩ := appendMsgData_some h₁
    obtain ⟨hfit, -, -⟩ := appendMsgData_some h
    simp only [Layout.size] at hp hfit
    simp only [Payload.size]
    omega

/-- A request that stays inside the buffer fits into it. -/
theorem prepareRequest_fits {st st' : Statics} {p : Payload} {id : BitVec 32} {msg : List UInt8}
    (h : prepareRequest st p.type p.args buf = some (id, msg, st')) :
    st.clientName.bytes.length + 17 + p.size ≤ buf.length := by
  simp only [prepareRequest, Option.bind_eq_bind, Option.bind_eq_some_iff] at h
  obtain ⟨m₁, h₁, m₂, h₂, m₃, h₃, m₄, h₄, m₅, h₅, m₆, h₆, -⟩ := h
  obtain ⟨f₁, p₁, l₁⟩ := appendMsgData_some h₁
  obtain ⟨f₂, p₂, l₂⟩ := appendBytes_some h₂
  obtain ⟨f₃, p₃, l₃⟩ := appendMsgData_some h₃
  obtain ⟨f₄, p₄, l₄⟩ := appendMsgData_some h₄
  obtain ⟨f₅, p₅, l₅⟩ := appendMsgData_some h₅
  simp only [Layout.size] at f₁ p₁ l₁ f₃ p₃ f₄ p₄ f₅ p₅
  have := appendPayload_some (by omega) h₆
  omega

/-! ## What is read -/

/-- The payload is written behind what is written. -/
theorem appendPayload_eq {done rest : List UInt8} {p : Payload} (h : p.size ≤ rest.length) :
    appendPayload p.type p.args ⟨done ++ rest, done.length⟩ =
      some ⟨(done ++ p.toBytes) ++ rest.drop p.size, (done ++ p.toBytes).length⟩ := by
  cases p with
  | quota overuse burst =>
    simp only [Payload.size] at h
    simp only [appendPayload, Payload.type, Payload.args, vaDouble, Option.bind_eq_bind, Option.bind_some]
    rw [appendMsgData_eq _ (by simp only [Layout.size]; omega), Option.bind_some,
      appendMsgData_eq _ (by simp only [List.length_drop, Layout.size]; omega), List.drop_drop]
    simp only [Payload.toBytes, List.append_assoc]
    rfl
  | memLimit => simp [appendPayload, Payload.type, Payload.toBytes, Payload.size]
  | memUpdate bytes isAllocate =>
    simp only [Payload.size] at h
    simp only [appendPayload, Payload.type, Payload.args, vaSizeT, vaInt, Option.bind_eq_bind, Option.bind_some]
    rw [appendMsgData_eq _ (by simp only [Layout.size]; omega), Option.bind_some,
      appendMsgData_eq _ (by simp only [List.length_drop, Layout.size]; omega), List.drop_drop]
    simp only [Payload.toBytes, List.append_assoc]
    rfl

/-- The handlers read the payload that was written. -/
theorem readPayload_eq {done rest : List UInt8} (p : Payload) :
    readPayload p.type.code ⟨done ++ (p.toBytes ++ rest), done.length⟩ = some p := by
  cases p with
  | quota overuse burst =>
    have hfirst : done ++ (Layout.toBytes overuse ++ Layout.toBytes burst ++ rest) =
        done ++ (Layout.toBytes overuse ++ (Layout.toBytes burst ++ rest)) := by simp only [List.append_assoc]
    have hsecond : done ++ (Layout.toBytes overuse ++ Layout.toBytes burst ++ rest) =
        (done ++ Layout.toBytes overuse) ++ (Layout.toBytes burst ++ rest) := by simp only [List.append_assoc]
    simp only [readPayload, Payload.type, Payload.toBytes, Option.bind_eq_bind]
    rw [if_neg (by decide), if_neg (by decide), if_pos trivial,
      getMsgData_eq hfirst rfl, Option.bind_some,
      getMsgData_eq hsecond (by simp), Option.bind_some]
    rfl
  | memLimit => rfl
  | memUpdate bytes isAllocate =>
    have hfirst : done ++ (Layout.toBytes bytes ++ Layout.toBytes isAllocate ++ rest) =
        done ++ (Layout.toBytes bytes ++ (Layout.toBytes isAllocate ++ rest)) := by simp only [List.append_assoc]
    have hsecond : done ++ (Layout.toBytes bytes ++ Layout.toBytes isAllocate ++ rest) =
        (done ++ Layout.toBytes bytes) ++ (Layout.toBytes isAllocate ++ rest) := by simp only [List.append_assoc]
    simp only [readPayload, Payload.type, Payload.toBytes, Option.bind_eq_bind]
    rw [if_neg (by decide), if_pos trivial,
      getMsgData_eq hfirst rfl, Option.bind_some,
      getMsgData_eq hsecond (by simp), Option.bind_some]
    rfl

/-- The name ends at the terminator that the header has behind it. -/
theorem readName_header (st : Statics) (type : CommRequest) (rest : List UInt8) :
    readName 8 (header st type ++ rest) = some st.clientName.bytes := by
  have hlen : (Layout.toBytes (BitVec.ofNat 64 st.clientName.bytes.length)).length = 8 := by
    rw [Layout.length_toBytes]; rfl
  obtain ⟨tail, htail⟩ : ∃ tail, (header st type ++ rest).drop 8 = st.clientName.bytes ++ (0 :: tail) := by
    refine ⟨Layout.toBytes st.id ++ Layout.toBytes type.code ++ rest, ?_⟩
    simp only [header, List.nil_append, List.append_assoc]
    rw [List.drop_left' hlen]
    rfl
  have hname : ∀ b ∈ st.clientName.bytes, decide (b ≠ 0) = true := by
    intro b hb
    rw [decide_eq_true_eq]
    rintro rfl
    exact st.clientName.noNul hb
  rw [readName, htail, if_pos (by simp), List.takeWhile_append_of_pos hname]
  simp

/-! ## The round trip -/

/-- A request round-trips exactly if the name and the payload fit into the buffer with the rest of
the header. -/
theorem roundTrips_iff (st : Statics) (p : Payload) :
    RoundTrips st p ↔ st.clientName.bytes.length + 17 + p.size ≤ reqMsgLen := by
  constructor
  · rintro ⟨msg, st', hmsg, -, -⟩
    simpa using prepareRequest_fits hmsg
  · intro hfit
    have hheader := length_header st p.type
    have hbuf : (List.replicate reqMsgLen (0 : UInt8)).length = reqMsgLen := List.length_replicate ..
    obtain ⟨rest, hrest⟩ : ∃ rest, rest = (List.replicate reqMsgLen (0 : UInt8)).drop (header st p.type).length :=
      ⟨_, rfl⟩
    have hrl : rest.length = reqMsgLen - (header st p.type).length := by rw [hrest, List.length_drop, hbuf]
    refine ⟨header st p.type ++ p.toBytes ++ rest.drop p.size, { st with id := st.id + 1 }, ?_, ?_, ?_⟩
    · rw [prepareRequest_eq _ (by rw [hbuf]; omega), ← hrest, appendPayload_eq (by omega)]
      rfl
    · simp only [List.length_append, Payload.length_toBytes, List.length_drop, hrl]
      omega
    · have hlen : st.clientName.bytes.length + 9 < 2 ^ 64 := by simp only [reqMsgLen] at hfit; omega
      unfold readRequest
      rw [List.append_assoc, parseRequest_eq hlen]
      simp only [Option.bind_eq_bind, Option.bind_some]
      rw [readName_header, readPayload_eq]
      rfl

end

/-- A name of 48 bytes, which the documentation admits, and a request for quota: 81 bytes. -/
theorem not_roundTrips_of_long_name :
    ∃ st : Statics, st.clientName.bytes.length < 63 ∧ ¬ RoundTrips st (.quota 0 0) := by
  refine ⟨⟨⟨List.replicate 48 97, by decide⟩, 0⟩, by decide, ?_⟩
  rintro ⟨msg, st', hmsg, -⟩
  have hnone : prepareRequest ⟨⟨List.replicate 48 97, by decide⟩, 0⟩ .reqQuota [.double 0, .double 0]
      (List.replicate reqMsgLen 0) = none := by decide +kernel
  rw [show Payload.type (.quota 0 0) = .reqQuota from rfl,
    show Payload.args (.quota 0 0) = [.double 0, .double 0] from rfl, hnone] at hmsg
  cases hmsg

end Gemini.Comm
