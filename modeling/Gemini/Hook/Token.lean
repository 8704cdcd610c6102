/-
`get_token_from_scheduler`: the request for a token and the quota that comes back. The measured
overuse is an array with an entry for each device, and the call site passes the array. So the first
variable argument is a pointer, where `prepare_request` takes a double: no request tells the pod
manager the overuse of a device.
-/
import Gemini.Comm.Wire

namespace Gemini.Hook

open Gemini.Comm

/-- `max_gpu_num`. -/
abbrev maxGpuNum : ℕ := 8

/-- A global array with an entry for each device. -/
structure DeviceArray where
  addr : BitVec 64
  values : Fin maxGpuNum → Double

/-- An array as an argument: the address of its first entry. -/
def DeviceArray.decay (a : DeviceArray) : VarArg := .pointer a.addr

/-- The message of `get_token_from_scheduler`. -/
def tokenRequest (st : Statics) (overuse : DeviceArray) (nextBurst : Double) :
    Option (BitVec 32 × List UInt8 × Statics) :=
  prepareRequest st .reqQuota [overuse.decay, .double nextBurst] (List.replicate reqMsgLen 0)

/-- What the pod manager reads of the message is the device's overuse and the estimated burst. -/
def OveruseReported (st : Statics) (overuse : DeviceArray) (device : Fin maxGpuNum) (nextBurst : Double) : Prop :=
  ∃ id msg st', tokenRequest st overuse nextBurst = some (id, msg, st') ∧
    readQuotaRequest msg = some (overuse.values device, nextBurst)

/-- A payload that begins with a pointer cannot be written. -/
theorem appendPayload_pointer (addr : BitVec 64) (vl : List VarArg) (m : Cursor) :
    appendPayload .reqQuota (.pointer addr :: vl) m = none := rfl

theorem prepareRequest_pointer (st : Statics) (addr : BitVec 64) (vl : List VarArg) (buf : List UInt8) :
    prepareRequest st .reqQuota (.pointer addr :: vl) buf = none := by
  unfold prepareRequest
  simp [appendPayload_pointer]

/-- No overuse is reported, of any device. -/
theorem overuse_not_reported (st : Statics) (overuse : DeviceArray) (device : Fin maxGpuNum) (nextBurst : Double) :
    ¬ OveruseReported st overuse device nextBurst := by
  rintro ⟨id, msg, st', hmsg, -⟩
  rw [tokenRequest, DeviceArray.decay, prepareRequest_pointer] at hmsg
  cases hmsg

/-- A client named `a`. -/
def clientA : Statics := ⟨⟨[97], by decide⟩, 0⟩

/-- The first request of `a` on device 0, with an overuse of 1 ms. -/
theorem first_request_not_reported :
    ¬ OveruseReported clientA ⟨0x601080, fun _ => 0x3FF0000000000000⟩ 0 0 := by
  rintro ⟨id, msg, st', hmsg, -⟩
  have hnone : tokenRequest clientA ⟨0x601080, fun _ => 0x3FF0000000000000⟩ 0 = none := by decide +kernel
  rw [hnone] at hmsg
  cases hmsg

/-- Had the entry of the array been passed, every name that fits into the message would do. -/
theorem reported_of_entry {st : Statics} (hfit : st.clientName.bytes.length ≤ 47) (overuse : DeviceArray)
    (device : Fin maxGpuNum) (nextBurst : Double) :
    ∃ msg st', prepareRequest st .reqQuota [.double (overuse.values device), .double nextBurst]
      (List.replicate reqMsgLen 0) = some (st.id, msg, st') ∧
      readQuotaRequest msg = some (overuse.values device, nextBurst) := by
  have hfit : st.clientName.bytes.length + 33 ≤ (List.replicate reqMsgLen (0 : UInt8)).length := by
    simp only [List.length_replicate, reqMsgLen]; omega
  obtain ⟨msg, st', h1, -, h2⟩ :=
    readQuotaRequest_prepareRequest st (overuse.values device) nextBurst hfit (by simp [reqMsgLen])
  exact ⟨msg, st', h1, h2⟩

end Gemini.Hook
