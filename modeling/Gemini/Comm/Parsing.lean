/-
What the handlers read of a message of arbitrary content. The position of everything behind the name is
computed from a length in the message, which nobody compares with the size of the buffer, and the sum
may wrap around; the scheduler also reads the name up to a terminator that may not be there. A read
outside of the buffer has no result: nothing is rejected before it.
-/
import Gemini.Comm.RoundTrip

namespace Gemini.Comm.Parsing

open Gemini.Lib

/-- What `recv` has put into the buffer. -/
structure Message where
  bytes : List UInt8
  length_bytes : bytes.length = reqMsgLen
deriving DecidableEq

/-! ## The reads of the handlers -/

/-- `hook_thread_func`: the request id, and the payload if the type is known. -/
def hookThreadFunc (msg : Message) : Option (BitVec 32 × Option Payload) := do
  let p ← parseRequest msg.bytes
  if p.type = CommRequest.reqMemLimit.code then return (p.id, some .memLimit)
  else if p.type = CommRequest.reqMemUpdate.code then do
    let (memSize, m) ← getMsgData (BitVec 64) p.attached
    let (allocate, _) ← getMsgData (BitVec 32) m
    return (p.id, some (.memUpdate memSize allocate))
  else if p.type = CommRequest.reqQuota.code then do
    let (overuseMs, m) ← getMsgData Double p.attached
    let (burst, _) ← getMsgData Double m
    return (p.id, some (.quota overuseMs burst))
  else return (p.id, none)

/-- What `handle_message` makes of a message. -/
inductive Handled where
  /-- the client is unknown: the request is ignored -/
  | ignored
  | quota (name : List UInt8) (id : BitVec 32) (overuse burst : Double)
  | memLimit (name : List UInt8) (id : BitVec 32)
  | memUpdate (id : BitVec 32)
  | unknownRequest
deriving DecidableEq, Repr

/-- `handle_message`, where `known` are the names in `client_info_map`. -/
def handleMessage (known : List UInt8 → Bool) (msg : Message) : Option Handled := do
  let p ← parseRequest msg.bytes
  let name ← readName p.name msg.bytes
  if known name = false then return .ignored
  else if p.type = CommRequest.reqQuota.code then do
    let (overuse, m) ← getMsgData Double p.attached
    let (burst, _) ← getMsgData Double m
    return .quota name p.id overuse burst
  else if p.type = CommRequest.reqMemLimit.code then return .memLimit name p.id
  -- the payload is not read: memory is only tracked on the side of the hook library
  else if p.type = CommRequest.reqMemUpdate.code then return .memUpdate p.id
  else return .unknownRequest

/-! ## Messages that are read inside of the buffer -/

namespace Message

variable (msg : Message)

def nameLen : BitVec 64 := Layout.ofBytes (msg.bytes.take 8)

/-- Where the request id is read: behind the length, the name and its terminator, modulo 2^64. -/
def idPos : ℕ := (msg.nameLen.toNat + 9) % 2 ^ 64

def id : BitVec 32 := Layout.ofBytes ((msg.bytes.drop msg.idPos).take 4)

def type : BitVec 32 := Layout.ofBytes ((msg.bytes.drop (msg.idPos + 4)).take 4)

/-- The bytes behind the length, up to the first terminator. -/
def clientName : List UInt8 := (msg.bytes.drop 8).takeWhile fun b => b ≠ 0

end Message

/-- The bytes of payload that `hook_thread_func` reads. -/
def hookPayload (type : BitVec 32) : ℕ :=
  if type = CommRequest.reqMemUpdate.code then 12 else if type = CommRequest.reqQuota.code then 16 else 0

/-- The bytes of payload that `handle_message` reads. -/
def schedulerPayload (type : BitVec 32) : ℕ := if type = CommRequest.reqQuota.code then 16 else 0

/-- The request id, the type and the payload end inside of the buffer. -/
def FitsHookThread (msg : Message) : Prop := msg.idPos + 8 + hookPayload msg.type ≤ reqMsgLen

/-- So they do for the scheduler, which reads no payload of an unknown client; and its name is terminated. -/
def FitsScheduler (known : List UInt8 → Bool) (msg : Message) : Prop :=
  0 ∈ msg.bytes.drop 8 ∧
    msg.idPos + 8 + (if known msg.clientName = true then schedulerPayload msg.type else 0) ≤ reqMsgLen

/-- Two values in a row. -/
theorem isSome_getMsgData_two {α β γ : Type} [Layout α] [Layout β] (f : α → β → γ) (buf : List UInt8) (pos : ℕ) :
    ((getMsgData α ⟨buf, pos⟩).bind fun a => (getMsgData β a.2).bind fun b => some (f a.1 b.1)).isSome = true ↔
      pos + Layout.size α + Layout.size β ≤ buf.length := by
  rw [getMsgData_ite]
  split
  · rw [Option.bind_some, getMsgData_ite]
    split
    · exact iff_of_true rfl ‹_›
    · exact iff_of_false Bool.false_ne_true ‹_›
  · exact iff_of_false Bool.false_ne_true (by omega)

/-- `parse_request` reads inside of the buffer exactly if the type ends there. -/
theorem parseRequest_ite (msg : Message) : parseRequest msg.bytes =
    if msg.idPos + 8 ≤ reqMsgLen then
      some ⟨8, msg.nameLen, msg.id, msg.type, ⟨msg.bytes, msg.idPos + 8⟩⟩ else none := by
  have hlen := msg.length_bytes
  have hname : getMsgData (BitVec 64) ⟨msg.bytes, 0⟩ = some (msg.nameLen, ⟨msg.bytes, 8⟩) := by
    rw [getMsgData_of_le (by rw [hlen]; decide)]
    rfl
  have hpos : (8 + msg.nameLen.toNat + 1) % 2 ^ 64 = msg.idPos := by
    unfold Message.idPos
    congr 1
    omega
  have hsize : Layout.size (BitVec 32) = 4 := rfl
  unfold parseRequest
  simp only [Option.bind_eq_bind, hname, Option.bind_some, hpos]
  rw [getMsgData_ite, hlen, hsize]
  split
  · simp only [Option.bind_some]
    rw [getMsgData_ite, hlen, hsize]
    split <;> rfl
  · rw [if_neg (by omega)]
    rfl

/-- The name ends inside of the buffer if there is a terminator behind its begin. -/
theorem readName_ite (msg : Message) :
    readName 8 msg.bytes = if 0 ∈ msg.bytes.drop 8 then some msg.clientName else none := rfl

theorem hookThreadFunc_isSome (msg : Message) : (hookThreadFunc msg).isSome = true ↔ FitsHookThread msg := by
  have hlen := msg.length_bytes
  have hdouble : Layout.size Double = 8 := rfl
  have hsize : Layout.size (BitVec 64) = 8 ∧ Layout.size (BitVec 32) = 4 := ⟨rfl, rfl⟩
  unfold hookThreadFunc FitsHookThread hookPayload
  rw [parseRequest_ite]
  simp only [Option.bind_eq_bind]
  split
  · simp only [Option.bind_some]
    by_cases hlimit : msg.type = CommRequest.reqMemLimit.code
    · rw [if_pos hlimit, hlimit]
      exact iff_of_true rfl ‹_›
    rw [if_neg hlimit]
    by_cases hupdate : msg.type = CommRequest.reqMemUpdate.code
    · rw [if_pos hupdate, if_pos hupdate]
      refine (isSome_getMsgData_two (fun a b => (msg.id, some (Payload.memUpdate a b))) msg.bytes
        (msg.idPos + 8)).trans ?_
      rw [hlen, hsize.1, hsize.2, add_assoc (msg.idPos + 8)]
    rw [if_neg hupdate, if_neg hupdate]
    by_cases hquota : msg.type = CommRequest.reqQuota.code
    · rw [if_pos hquota, if_pos hquota]
      refine (isSome_getMsgData_two (fun a b => (msg.id, some (Payload.quota a b))) msg.bytes (msg.idPos + 8)).trans ?_
      rw [hlen, hdouble, add_assoc (msg.idPos + 8)]
    · rw [if_neg hquota, if_neg hquota]
      exact iff_of_true rfl ‹_›
  · exact iff_of_false Bool.false_ne_true (by omega)

theorem handleMessage_isSome (known : List UInt8 → Bool) (msg : Message) :
    (handleMessage known msg).isSome = true ↔ FitsScheduler known msg := by
  have hlen := msg.length_bytes
  have hdouble : Layout.size Double = 8 := rfl
  unfold handleMessage FitsScheduler schedulerPayload
  rw [parseRequest_ite]
  simp only [Option.bind_eq_bind]
  split
  · simp only [Option.bind_some]
    rw [readName_ite]
    by_cases hnul : 0 ∈ msg.bytes.drop 8
    · rw [if_pos hnul, Option.bind_some]
      cases hknown : known msg.clientName with
      | false => exact iff_of_true rfl ⟨hnul, ‹_›⟩
      | true =>
        rw [if_neg Bool.noConfusion, if_pos rfl]
        by_cases hquota : msg.type = CommRequest.reqQuota.code
        · rw [if_pos hquota, if_pos hquota]
          refine (isSome_getMsgData_two (Handled.quota msg.clientName msg.id) msg.bytes (msg.idPos + 8)).trans ?_
          rw [hlen, hdouble, add_assoc (msg.idPos + 8)]
          exact ⟨fun h => ⟨hnul, h⟩, fun h => h.2⟩
        · rw [if_neg hquota, if_neg hquota]
          split_ifs <;> exact iff_of_true rfl ⟨hnul, ‹_›⟩
    · rw [if_neg hnul]
      exact iff_of_false Bool.false_ne_true fun h => hnul h.1
  · exact iff_of_false Bool.false_ne_true fun h => by have := h.2; omega

/-- Whatever a message holds, the pod manager and the scheduler read inside of it exactly if its own length
field and type keep the reads there, and for the scheduler a terminator ends the name. -/
theorem reads_contained_iff (known : List UInt8 → Bool) (msg : Message) :
    ((hookThreadFunc msg).isSome = true ↔ FitsHookThread msg) ∧
    ((handleMessage known msg).isSome = true ↔ FitsScheduler known msg) :=
  ⟨hookThreadFunc_isSome msg, handleMessage_isSome known msg⟩

/-- A message that claims a name of 1000 bytes. -/
def longName : Message := ⟨[232, 3, 0, 0, 0, 0, 0, 0] ++ List.replicate 72 0, rfl⟩

/-- A message without a terminator in it. -/
def unterminated : Message := ⟨List.replicate 8 0 ++ List.replicate 72 97, rfl⟩

/-- Neither receiver rejects the first message, and the scheduler not the second: both are read outside of the
buffer. -/
theorem reads_outside : hookThreadFunc longName = none ∧ handleMessage (fun _ => false) longName = none ∧
    handleMessage (fun _ => false) unterminated = none := by
  decide

end Gemini.Comm.Parsing
