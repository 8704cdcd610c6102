/-
`comm.cpp`: requests as bytes on the wire. `prepare_request` takes its payload from a variable
argument list, whose entries have the types that the call site passed; `va_arg` at another type has
no result. Neither has an access outside of the message buffer. Doubles are their 64 bits.
-/
import Gemini.Lib.Layout

namespace Gemini.Comm

open Gemini.Lib

/-! ## Messages -/

/-- `comm_request_t`. -/
inductive CommRequest where
  | reqQuota
  | reqMemLimit
  | reqMemUpdate
deriving DecidableEq, Repr

def CommRequest.code : CommRequest → BitVec 32
  | .reqQuota => 0
  | .reqMemLimit => 1
  | .reqMemUpdate => 2

/-- The bits of a `double`. -/
abbrev Double := BitVec 64

/-- `REQ_MSG_LEN`. -/
def reqMsgLen : ℕ := 80

/-- A C string, without its terminator. -/
structure CString where
  bytes : List UInt8
  noNul : 0 ∉ bytes
deriving DecidableEq

/-- A variable argument, with the type it was passed at. -/
inductive VarArg where
  | int (v : BitVec 32)
  | sizeT (v : BitVec 64)
  | double (v : Double)
  | pointer (addr : BitVec 64)
deriving DecidableEq, Repr

/-- `va_arg(vl, double)`. -/
def vaDouble : List VarArg → Option (Double × List VarArg)
  | .double v :: vl => some (v, vl)
  | _ => none

/-- `va_arg(vl, size_t)`. -/
def vaSizeT : List VarArg → Option (BitVec 64 × List VarArg)
  | .sizeT v :: vl => some (v, vl)
  | _ => none

/-- `va_arg(vl, int)`. -/
def vaInt : List VarArg → Option (BitVec 32 × List VarArg)
  | .int v :: vl => some (v, vl)
  | _ => none

/-- A buffer and a position in it. -/
structure Cursor where
  buf : List UInt8
  pos : ℕ
deriving DecidableEq, Repr

/-- Copies bytes to the position. -/
def appendBytes (bytes : List UInt8) (m : Cursor) : Option Cursor :=
  (writeAt m.pos bytes m.buf).map fun buf => ⟨buf, m.pos + bytes.length⟩

/-- `append_msg_data`. -/
def appendMsgData {α : Type} [Layout α] (data : α) (m : Cursor) : Option Cursor := appendBytes (Layout.toBytes data) m

/-- `get_msg_data`. -/
def getMsgData (α : Type) [Layout α] (m : Cursor) : Option (α × Cursor) :=
  (readAt m.pos (Layout.size α) m.buf).map fun bytes => (Layout.ofBytes bytes, { m with pos := m.pos + Layout.size α })

theorem getMsgData_ite (α : Type) [Layout α] (buf : List UInt8) (pos : ℕ) :
    getMsgData α ⟨buf, pos⟩ = if pos + Layout.size α ≤ buf.length then
      some (Layout.ofBytes ((buf.drop pos).take (Layout.size α)), ⟨buf, pos + Layout.size α⟩) else none := by
  unfold getMsgData readAt
  split <;> rfl

theorem getMsgData_of_le {α : Type} [Layout α] {buf : List UInt8} {pos : ℕ} (h : pos + Layout.size α ≤ buf.length) :
    getMsgData α ⟨buf, pos⟩ =
      some (Layout.ofBytes ((buf.drop pos).take (Layout.size α)), ⟨buf, pos + Layout.size α⟩) := by
  rw [getMsgData_ite, if_pos h]

/-! ## `prepare_request` and `parse_request` -/

/-- The static variables of `prepare_request`. -/
structure Statics where
  clientName : CString
  id : BitVec 32
deriving DecidableEq

/-- Extra information for specific types. -/
def appendPayload (type : CommRequest) (vl : List VarArg) (m : Cursor) : Option Cursor :=
  match type with
  | .reqQuota => do
    let (overuse, vl) ← vaDouble vl
    let m ← appendMsgData overuse m
    let (burst, _) ← vaDouble vl
    appendMsgData burst m
  | .reqMemUpdate => do
    let (bytes, vl) ← vaSizeT vl
    let m ← appendMsgData bytes m
    let (isAllocate, _) ← vaInt vl
    appendMsgData isAllocate m
  | .reqMemLimit => some m

/-- `prepare_request`: the request id it returns, the message, and the statics after it. -/
def prepareRequest (st : Statics) (type : CommRequest) (vl : List VarArg) (buf : List UInt8) :
    Option (BitVec 32 × List UInt8 × Statics) := do
  let m ← appendMsgData (BitVec.ofNat 64 st.clientName.bytes.length) ⟨buf, 0⟩
  let m ← appendBytes st.clientName.bytes m
  -- the terminator
  let m ← appendMsgData (0 : UInt8) m
  let m ← appendMsgData st.id m
  let m ← appendMsgData type.code m
  let m ← appendPayload type vl m
  return (st.id, m.buf, { st with id := st.id + 1 })

/-- What `parse_request` fills in, and the position of the attached data. -/
structure Parsed where
  name : ℕ
  nameLen : BitVec 64
  id : BitVec 32
  type : BitVec 32
  attached : Cursor
deriving DecidableEq, Repr

/-- `parse_request`. -/
def parseRequest (buf : List UInt8) : Option Parsed := do
  let (nameLen, m) ← getMsgData (BitVec 64) ⟨buf, 0⟩
  -- 1 for the terminator
  let m := { m with pos := (m.pos + nameLen.toNat + 1) % 2 ^ 64 }
  let (id, m) ← getMsgData (BitVec 32) m
  let (type, m) ← getMsgData (BitVec 32) m
  return ⟨Layout.size (BitVec 64), nameLen, id, type, m⟩

/-- What `hook_thread_func` and `handle_message` read of a REQ_QUOTA: overuse and burst. -/
def readQuotaRequest (buf : List UInt8) : Option (Double × Double) := do
  let p ← parseRequest buf
  if p.type = CommRequest.reqQuota.code then
    let (overuse, m) ← getMsgData Double p.attached
    let (burst, _) ← getMsgData Double m
    return (overuse, burst)
  else none

/-! ## Round trips -/

section

variable {done rest bytes buf : List UInt8}

theorem appendBytes_eq (h : bytes.length ≤ rest.length) :
    appendBytes bytes ⟨done ++ rest, done.length⟩ =
      some ⟨(done ++ bytes) ++ rest.drop bytes.length, (done ++ bytes).length⟩ := by
  simp [appendBytes, writeAt_append h]

theorem appendMsgData_eq {α : Type} [Layout α] (data : α) (h : Layout.size α ≤ rest.length) :
    appendMsgData data ⟨done ++ rest, done.length⟩ =
      some ⟨(done ++ Layout.toBytes data) ++ rest.drop (Layout.size α), (done ++ Layout.toBytes data).length⟩ := by
  rw [appendMsgData, appendBytes_eq (by simpa using h), Layout.length_toBytes]

theorem getMsgData_eq {α : Type} [Layout α] {data : α} {pos : ℕ} (hbuf : buf = done ++ (Layout.toBytes data ++ rest))
    (hpos : pos = done.length) : getMsgData α ⟨buf, pos⟩ = some (data, ⟨buf, pos + Layout.size α⟩) := by
  subst hbuf hpos
  simp [getMsgData, readAt_append (Layout.length_toBytes data)]

/-- What every request begins with. -/
def header (st : Statics) (type : CommRequest) : List UInt8 :=
  [] ++ Layout.toBytes (BitVec.ofNat 64 st.clientName.bytes.length) ++ st.clientName.bytes ++
    Layout.toBytes (0 : UInt8) ++ Layout.toBytes st.id ++ Layout.toBytes type.code

theorem length_header (st : Statics) (type : CommRequest) :
    (header st type).length = st.clientName.bytes.length + 17 := by
  simp only [header, List.length_append, Layout.length_toBytes, List.length_nil, Layout.size]
  omega

variable {st : Statics} {type : CommRequest}

/-- `prepare_request` writes the header, then the payload behind it. -/
theorem prepareRequest_eq (vl : List VarArg) (h : (header st type).length ≤ buf.length) :
    prepareRequest st type vl buf =
      (appendPayload type vl ⟨header st type ++ buf.drop (header st type).length, (header st type).length⟩).map
        fun m => (st.id, m.buf, { st with id := st.id + 1 }) := by
  have hlen := length_header st type
  rw [hlen] at h
  unfold prepareRequest
  rw [show (⟨buf, 0⟩ : Cursor) = ⟨[] ++ buf, ([] : List UInt8).length⟩ from rfl]
  simp only [Option.bind_eq_bind]
  rw [appendMsgData_eq _ (by simp only [Layout.size]; omega), Option.bind_some,
    appendBytes_eq (by simp only [List.length_drop, Layout.size]; omega), Option.bind_some,
    appendMsgData_eq _ (by simp only [List.length_drop, Layout.size]; omega), Option.bind_some,
    appendMsgData_eq _ (by simp only [List.length_drop, Layout.size]; omega), Option.bind_some,
    appendMsgData_eq _ (by simp only [List.length_drop, Layout.size]; omega), Option.bind_some]
  simp only [List.drop_drop]
  rw [show Layout.size (BitVec 64) + st.clientName.bytes.length + Layout.size UInt8 + Layout.size (BitVec 32) +
    Layout.size (BitVec 32) = (header st type).length by rw [hlen]; simp only [Layout.size]; omega]
  rw [Option.map_eq_bind]
  rfl

/-- `parse_request` finds the header that `prepare_request` has written. -/
theorem parseRequest_eq (hlen : st.clientName.bytes.length + 9 < 2 ^ 64) :
    parseRequest (header st type ++ rest) = some ⟨8, BitVec.ofNat 64 st.clientName.bytes.length, st.id, type.code,
      ⟨header st type ++ rest, (header st type).length⟩⟩ := by
  have hheader := length_header st type
  generalize hbuf : header st type ++ rest = buf
  -- the same bytes, split before each field that is read
  have hname : buf = [] ++ (Layout.toBytes (BitVec.ofNat 64 st.clientName.bytes.length) ++
      (st.clientName.bytes ++ Layout.toBytes (0 : UInt8) ++ Layout.toBytes st.id ++
      Layout.toBytes type.code ++ rest)) := by
    rw [← hbuf]; simp only [header, List.append_assoc]
  have hid : buf = ([] ++ Layout.toBytes (BitVec.ofNat 64 st.clientName.bytes.length) ++ st.clientName.bytes ++
      Layout.toBytes (0 : UInt8)) ++ (Layout.toBytes st.id ++ (Layout.toBytes type.code ++ rest)) := by
    rw [← hbuf]; simp only [header, List.append_assoc]
  have htype : buf = ([] ++ Layout.toBytes (BitVec.ofNat 64 st.clientName.bytes.length) ++ st.clientName.bytes ++
      Layout.toBytes (0 : UInt8) ++ Layout.toBytes st.id) ++ (Layout.toBytes type.code ++ rest) := by
    rw [← hbuf]; simp only [header, List.append_assoc]
  have hpos : (0 + Layout.size (BitVec 64) + (BitVec.ofNat 64 st.clientName.bytes.length).toNat + 1) % 2 ^ 64 =
      st.clientName.bytes.length + 9 := by
    simp only [Layout.size, BitVec.toNat_ofNat]
    omega
  unfold parseRequest
  simp only [Option.bind_eq_bind]
  rw [getMsgData_eq hname List.length_nil.symm, Option.bind_some]
  simp only [hpos]
  rw [getMsgData_eq hid (by simp only [List.length_append, Layout.length_toBytes, List.length_nil, Layout.size]; omega),
    Option.bind_some, getMsgData_eq htype (by
      simp only [List.length_append, Layout.length_toBytes, List.length_nil, Layout.size]; omega), Option.bind_some]
  simp only [Layout.size, hheader]
  rfl

/-- A request for quota that passes two doubles, and fits into the message, is read back. -/
theorem readQuotaRequest_prepareRequest (st : Statics) (overuse burst : Double) {buf : List UInt8}
    (hfit : st.clientName.bytes.length + 33 ≤ buf.length) (hlen : buf.length < 2 ^ 64) :
    ∃ msg st', prepareRequest st .reqQuota [.double overuse, .double burst] buf =
      some (st.id, msg, st') ∧ msg.length = buf.length ∧ readQuotaRequest msg = some (overuse, burst) := by
  have hheader := length_header st .reqQuota
  have hsize : Layout.size Double = 8 := rfl
  obtain ⟨rest, hrest⟩ : ∃ rest, rest = buf.drop (header st .reqQuota).length := ⟨_, rfl⟩
  have hrl : rest.length = buf.length - (header st .reqQuota).length := by rw [hrest, List.length_drop]
  refine ⟨header st .reqQuota ++ Layout.toBytes overuse ++ Layout.toBytes burst ++ (rest.drop 8).drop 8,
    { st with id := st.id + 1 }, ?_, ?_, ?_⟩
  · rw [prepareRequest_eq _ (by omega), ← hrest]
    simp only [appendPayload, vaDouble, Option.bind_eq_bind, Option.bind_some]
    rw [appendMsgData_eq _ (by omega), Option.bind_some, appendMsgData_eq _ (by rw [List.length_drop]; omega)]
    rfl
  · simp only [List.length_append, Layout.length_toBytes, List.length_drop, hrl, hsize]; omega
  · unfold readQuotaRequest
    rw [show header st .reqQuota ++ Layout.toBytes overuse ++ Layout.toBytes burst ++ (rest.drop 8).drop 8 =
      header st .reqQuota ++ (Layout.toBytes overuse ++ (Layout.toBytes burst ++ (rest.drop 8).drop 8)) by
        simp only [List.append_assoc], parseRequest_eq (by omega)]
    simp only [Option.bind_eq_bind, Option.bind_some, if_true]
    have hbuf : header st .reqQuota ++ (Layout.toBytes overuse ++ (Layout.toBytes burst ++ (rest.drop 8).drop 8)) =
        (header st .reqQuota ++ Layout.toBytes overuse) ++ (Layout.toBytes burst ++ (rest.drop 8).drop 8) := by
      simp only [List.append_assoc]
    rw [getMsgData_eq rfl rfl, Option.bind_some, getMsgData_eq hbuf (by simp), Option.bind_some]
    rfl

end

end Gemini.Comm
