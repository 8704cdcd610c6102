/-
Responses across the wire. `prepare_response` takes its payload from a variable argument list, as
`prepare_request` does. A response is read where it was received, or behind the copy that
`scheduler_thread_recv_func` places into `response_map`. The buffers are `RSP_MSG_LEN` bytes, enough
for every response, so each comes back as it was sent.
-/
import Gemini.Comm.Framing
import Gemini.Comm.RoundTrip

namespace Gemini.Comm

open Gemini.Lib

/-! ## Replies -/

/-- The extra information of a response. -/
inductive Reply where
  | quota (value : Double)
  | memUpdate (verdict : BitVec 32)
  | memLimit (used total : BitVec 64)
deriving DecidableEq, Repr

namespace Reply

def type : Reply → CommRequest
  | .quota _ => .reqQuota
  | .memUpdate _ => .reqMemUpdate
  | .memLimit .. => .reqMemLimit

/-- The variable arguments of the call. -/
def args : Reply → List VarArg
  | .quota value => [.double value]
  | .memUpdate verdict => [.int verdict]
  | .memLimit used total => [.sizeT used, .sizeT total]

/-- Its bytes on the wire. -/
def toBytes : Reply → List UInt8
  | .quota value => Layout.toBytes value
  | .memUpdate verdict => Layout.toBytes verdict
  | .memLimit used total => Layout.toBytes used ++ Layout.toBytes total

/-- Their number. -/
def size : Reply → ℕ
  | .quota _ => 8
  | .memUpdate _ => 4
  | .memLimit .. => 16

@[simp] theorem length_toBytes (r : Reply) :
    r.toBytes.length = r.size := by cases r <;> simp [toBytes, size, Layout.size]

theorem size_le (r : Reply) : r.size ≤ 16 := by cases r <;> simp [size]

end Reply

/-! ## `prepare_response` and its readers -/

/-- Extra information for specific types. -/
def appendReply (type : CommRequest) (vl : List VarArg) (m : Cursor) : Option Cursor :=
  match type with
  | .reqQuota => do
    let (quota, _) ← vaDouble vl
    appendMsgData quota m
  | .reqMemUpdate => do
    let (verdict, _) ← vaInt vl
    appendMsgData verdict m
  | .reqMemLimit => do
    let (used, vl) ← vaSizeT vl
    let m ← appendMsgData used m
    let (total, _) ← vaSizeT vl
    appendMsgData total m

/-- `prepare_response`: the length it returns, and the message. -/
def prepareResponse (type : CommRequest) (id : BitVec 32) (vl : List VarArg) (buf : List UInt8) :
    Option (ℕ × List UInt8) := do
  let m ← appendMsgData id ⟨buf, 0⟩
  let m ← appendReply type vl m
  return (m.pos, m.buf)

/-- What the caller of a request of this type reads of the data attached to the response. -/
def readReply (type : CommRequest) (attached : Cursor) : Option Reply :=
  match type with
  | .reqQuota => do
    let (quota, _) ← getMsgData Double attached
    return .quota quota
  | .reqMemUpdate => do
    let (verdict, _) ← getMsgData (BitVec 32) attached
    return .memUpdate verdict
  | .reqMemLimit => do
    let (used, m) ← getMsgData (BitVec 64) attached
    let (total, _) ← getMsgData (BitVec 64) m
    return .memLimit used total

/-- `scheduler_thread_recv_func`: `memcpy(rsp.data, attached, RSP_MSG_LEN - sizeof(reqid_t))`. -/
def responseData (attached : Cursor) : Option (List UInt8) :=
  readAt attached.pos (rspMsgLen - Layout.size (BitVec 32)) attached.buf

/-! ## Round trips -/

section

variable {done rest : List UInt8} {r : Reply}

/-- The reply is written behind what is written. -/
theorem appendReply_eq (h : r.size ≤ rest.length) : appendReply r.type r.args ⟨done ++ rest, done.length⟩ =
    some ⟨(done ++ r.toBytes) ++ rest.drop r.size, (done ++ r.toBytes).length⟩ := by
  cases r with
  | quota value => exact appendMsgData_eq value h
  | memUpdate verdict => exact appendMsgData_eq verdict h
  | memLimit used total =>
    simp only [Reply.size] at h
    simp only [appendReply, Reply.type, Reply.args, vaSizeT, Option.bind_eq_bind, Option.bind_some]
    rw [appendMsgData_eq _ (by simp only [Layout.size]; omega), Option.bind_some,
      appendMsgData_eq _ (by simp only [List.length_drop, Layout.size]; omega), List.drop_drop]
    simp only [Reply.toBytes, List.append_assoc]
    rfl

/-- The caller reads the reply that was written. -/
theorem readReply_eq (r : Reply) : readReply r.type ⟨done ++ (r.toBytes ++ rest), done.length⟩ = some r := by
  cases r with
  | quota value =>
    simp only [readReply, Reply.type, Reply.toBytes, Option.bind_eq_bind]
    rw [getMsgData_eq rfl rfl]
    rfl
  | memUpdate verdict =>
    simp only [readReply, Reply.type, Reply.toBytes, Option.bind_eq_bind]
    rw [getMsgData_eq rfl rfl]
    rfl
  | memLimit used total =>
    have hfirst : done ++ (Layout.toBytes used ++ Layout.toBytes total ++ rest) =
        done ++ (Layout.toBytes used ++ (Layout.toBytes total ++ rest)) := by simp only [List.append_assoc]
    have hsecond : done ++ (Layout.toBytes used ++ Layout.toBytes total ++ rest) =
        (done ++ Layout.toBytes used) ++ (Layout.toBytes total ++ rest) := by simp only [List.append_assoc]
    simp only [readReply, Reply.type, Reply.toBytes, Option.bind_eq_bind]
    rw [getMsgData_eq hfirst rfl, Option.bind_some, getMsgData_eq hsecond (by simp), Option.bind_some]
    rfl

/-- The data attached to a response: the reply and zeros. -/
def attachedBytes (r : Reply) : List UInt8 :=
  r.toBytes ++ (List.replicate (rspMsgLen - Layout.size (BitVec 32)) 0).drop r.size

/-- The message of a response. -/
def responseBytes (id : BitVec 32) (r : Reply) : List UInt8 := Layout.toBytes id ++ attachedBytes r

theorem length_attachedBytes (r : Reply) : (attachedBytes r).length = rspMsgLen - Layout.size (BitVec 32) := by
  have hsize := r.size_le
  simp only [attachedBytes, List.length_append, Reply.length_toBytes, List.length_drop, List.length_replicate,
    Layout.size, rspMsgLen]
  omega

theorem length_responseBytes (id : BitVec 32) (r : Reply) : (responseBytes id r).length = rspMsgLen := by
  rw [responseBytes, List.length_append, Layout.length_toBytes, length_attachedBytes]
  rfl

theorem prepareResponse_eq (id : BitVec 32) (r : Reply) :
    prepareResponse r.type id r.args (List.replicate rspMsgLen 0) = some (4 + r.size, responseBytes id r) := by
  have hsize := r.size_le
  unfold prepareResponse
  rw [show (⟨List.replicate rspMsgLen 0, 0⟩ : Cursor) =
    ⟨[] ++ List.replicate rspMsgLen 0, ([] : List UInt8).length⟩ from rfl]
  simp only [Option.bind_eq_bind]
  rw [appendMsgData_eq id (by simp only [List.length_replicate]; decide), Option.bind_some, List.drop_replicate,
    List.nil_append,
    appendReply_eq (by simp only [List.length_replicate, Layout.size, rspMsgLen]; omega), Option.bind_some,
      List.append_assoc]
  simp only [List.length_append, Layout.length_toBytes, Reply.length_toBytes]
  rfl

theorem parseResponse_eq (id : BitVec 32) (r : Reply) :
    parseResponse (responseBytes id r) = some (id, ⟨responseBytes id r, (Layout.toBytes id).length⟩) := by
  have hbuf : responseBytes id r = [] ++ (Layout.toBytes id ++ attachedBytes r) := rfl
  rw [parseResponse, getMsgData_eq hbuf List.length_nil.symm, Layout.length_toBytes, Nat.zero_add]

theorem responseData_eq (id : BitVec 32) (r : Reply) :
    responseData ⟨responseBytes id r, (Layout.toBytes id).length⟩ = some (attachedBytes r) := by
  have hread := @readAt_append (Layout.toBytes id) _ [] _ (length_attachedBytes r)
  rwa [List.append_nil] at hread

/-- Every response: `prepare_response` stays inside the buffer and has something to send, and
whoever waits for it finds its id and its values, also in the copy of the data attached to it. -/
theorem response_round_trip (id : BitVec 32) (r : Reply) :
    ∃ len msg, prepareResponse r.type id r.args (List.replicate rspMsgLen 0) = some (len, msg) ∧ 0 < len ∧
      msg.length = rspMsgLen ∧ ∃ attached data, parseResponse msg = some (id, attached) ∧
        readReply r.type attached = some r ∧ responseData attached = some data ∧ readReply r.type ⟨data, 0⟩ = some r :=
  ⟨4 + r.size, responseBytes id r, prepareResponse_eq id r, by omega, length_responseBytes id r, _, _,
    parseResponse_eq id r, readReply_eq r, responseData_eq id r, @readReply_eq [] _ r⟩

end

end Gemini.Comm
