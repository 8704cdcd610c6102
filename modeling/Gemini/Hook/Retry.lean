/-
Memory updates under timeouts. When its `recv` fails, `communicate` sends the request again on the same
connection, and it returns the reply that comes first; the pod manager handles every copy that it is
sent, as it keeps no record of request ids. So the call is applied once exactly if no copy after the
first takes effect, and a copy takes effect unless it is an allocation that is refused.
-/
import Mathlib.Data.UInt
import Gemini.Comm.Framing
import Gemini.PodManager.Memory

namespace Gemini.Hook.Retry

open Gemini.Comm Gemini.PodManager

/-! ## The client -/

/-- The function that `communicate` passes to `multiple_attempt`, with the number of copies that `send`
has accepted. -/
def transmit : Attempt → ℕ → (ℤ × ℤ) × ℕ
  | .sendFails errno, copies => ((-1, errno.value), copies)
  | .recvFails errno, copies => ((-1, errno.value), copies + 1)
  | .received, copies => ((0, 0), copies + 1)

/-- `communicate`: what it returns, and the number of copies. `rc` is not initialised. -/
def communicate (attempts : ℕ → Attempt) (rc : ℤ) : ℤ × ℕ :=
  multipleAttempt (fun i => transmit (attempts i)) netOpMaxAttempt 1 rc 0

/-- It returns 0 if an attempt succeeds, and has sent a copy then. -/
theorem communicate_cases (attempts : ℕ → Attempt) (rc : ℤ) :
    (Answered attempts ∧ (communicate attempts rc).1 = 0 ∧ 0 < (communicate attempts rc).2) ∨
      (¬ Answered attempts ∧ (communicate attempts rc).1 ≠ 0) := by
  have hfails : ∀ i copies, attempts i ≠ .received → True → (transmit (attempts i) copies).1.1 = -1 ∧
      0 < (transmit (attempts i) copies).1.2 ∧ True := by
    intro i copies ha _
    cases h : attempts i with
    | received => exact absurd h ha
    | sendFails errno | recvFails errno => exact ⟨rfl, errno.pos, trivial⟩
  have hreceived : ∀ i copies, attempts i = .received → (transmit (attempts i) copies).1.1 = 0 := fun i copies ha => by
    rw [ha]; rfl
  rcases multipleAttempt_answered hreceived hfails rc (c := 0) trivial with ⟨ha, i, copies, hi, -, heq⟩ | hnone
  · rw [hi] at heq
    refine Or.inl ⟨ha, ?_, ?_⟩
    · rw [communicate, heq]
    · rw [communicate, heq]
      exact Nat.succ_pos copies
  · exact Or.inr hnone

theorem communicate_eq_zero (attempts : ℕ → Attempt) (rc : ℤ) :
    (communicate attempts rc).1 = 0 ↔ Answered attempts := by
  rcases communicate_cases attempts rc with ⟨ha, hzero, -⟩ | ⟨ha, hne⟩
  · exact iff_of_true hzero ha
  · exact iff_of_false hne ha

theorem copies_pos {attempts : ℕ → Attempt} {rc : ℤ} (h : Answered attempts) : 0 < (communicate attempts rc).2 := by
  rcases communicate_cases attempts rc with ⟨-, -, hpos⟩ | ⟨ha, -⟩
  · exact hpos
  · exact absurd h ha

/-! ## The pod manager -/

/-- The request of `update_memory_usage`. -/
structure Update where
  bytes : Size
  isAllocate : Bool
deriving DecidableEq, Repr

/-- What the pod manager does while the call lasts, and after it. -/
inductive Handled where
  /-- the next copy of the request -/
  | copy
  /-- a REQ_MEM_UPDATE of another connection -/
  | other (memSize : Size) (allocate : Bool) (sockfd : ℕ)
  | accept (sockfd : ℕ)
  | recover (sockfd : ℕ)
deriving DecidableEq, Repr

/-- The request comes through the connection `sockfd`. -/
def handle (u : Update) (sockfd : ℕ) (m : MemInfo) : Handled → MemInfo
  | .copy => (m.hookUpdateMemoryUsage u.bytes u.isAllocate sockfd).2
  | .other memSize allocate other => (m.hookUpdateMemoryUsage memSize allocate other).2
  | .accept other => m.accept other
  | .recover other => m.recoverMemoryUsage other

/-- The states in which the copies are handled. -/
def copyStates (u : Update) (sockfd : ℕ) : MemInfo → List Handled → List MemInfo
  | _, [] => []
  | m, .copy :: hs => m :: copyStates u sockfd (handle u sockfd m .copy) hs
  | m, h :: hs => copyStates u sockfd (handle u sockfd m h) hs

namespace Update

variable (u : Update) (sockfd : ℕ) (m : MemInfo)

/-- The verdict of an application of `hook_update_memory_usage`. -/
def verdict : Bool := (m.hookUpdateMemoryUsage u.bytes u.isAllocate sockfd).1

/-- What the application changes `gpu_mem_used` by. -/
def change : Size := (m.hookUpdateMemoryUsage u.bytes u.isAllocate sockfd).2.gpuMemUsed - m.gpuMemUsed

/-- An allocation beyond the limit. -/
def Refused : Prop := u.isAllocate = true ∧ m.gpuMemLimit < m.gpuMemUsed + u.bytes

instance : Decidable (u.Refused m) := inferInstanceAs (Decidable (_ ∧ _))

/-- What an application changes unless it is refused. -/
def signed : Size := if u.isAllocate then u.bytes else -u.bytes

theorem verdict_eq : u.verdict sockfd m = !decide (u.Refused m) := by
  obtain ⟨bytes, isAllocate⟩ := u
  unfold verdict MemInfo.hookUpdateMemoryUsage Refused
  cases isAllocate with
  | false => simp
  | true => by_cases h : m.gpuMemLimit < m.gpuMemUsed + bytes <;> simp [h]

theorem change_eq : u.change sockfd m = if u.Refused m then 0 else u.signed := by
  obtain ⟨bytes, isAllocate⟩ := u
  unfold change MemInfo.hookUpdateMemoryUsage Refused signed
  cases isAllocate with
  | false => simp
  | true => by_cases h : m.gpuMemLimit < m.gpuMemUsed + bytes <;> simp [h]

end Update

/-! ## A call -/

/-- `update_memory_usage`: the verdict in the first reply, which is that of the first copy. If
`communicate` fails, the process exits. -/
def updateMemoryUsage (attempts : ℕ → Attempt) (rc : ℤ) (u : Update) (sockfd : ℕ) (m : MemInfo) (hs : List Handled) :
    Option Bool :=
  if (communicate attempts rc).1 = 0 then (copyStates u sockfd m hs).head?.map (u.verdict sockfd) else none

/-- The call changes `gpu_mem_used` as one application does, whose verdict it returns. -/
def AppliedOnce (attempts : ℕ → Attempt) (rc : ℤ) (u : Update) (sockfd : ℕ) (m : MemInfo) (hs : List Handled) : Prop :=
  ∀ verdict, updateMemoryUsage attempts rc u sockfd m hs = some verdict →
    ∃ m' ∈ copyStates u sockfd m hs, u.verdict sockfd m' = verdict ∧
      ((copyStates u sockfd m hs).map (u.change sockfd)).sum = u.change sockfd m'

/-- The number of states in which the request is not refused. -/
def takingEffect (u : Update) (ms : List MemInfo) : ℕ := ms.countP fun m => ¬ u.Refused m

section

variable {u : Update} {sockfd : ℕ}

theorem length_copyStates : ∀ (m : MemInfo) (hs : List Handled), (copyStates u sockfd m hs).length = hs.count .copy
  | _, [] => rfl
  | m, .copy :: hs => by rw [copyStates, List.length_cons, length_copyStates, List.count_cons_self]
  | m, .other .. :: hs | m, .accept _ :: hs | m, .recover _ :: hs => by
    rw [copyStates, length_copyStates, List.count_cons_of_ne (by simp)]
    simp

theorem sum_change (ms : List MemInfo) : (ms.map (u.change sockfd)).sum = takingEffect u ms • u.signed := by
  induction ms with
  | nil => simp [takingEffect]
  | cons m ms ih =>
    rw [List.map_cons, List.sum_cons, ih, u.change_eq]
    unfold takingEffect
    rw [List.countP_cons]
    by_cases h : u.Refused m
    · simp [h]
    · simp only [h, not_false_eq_true, decide_true, if_true, if_false]
      rw [succ_nsmul, add_comm]

theorem nsmul_signed (k : ℕ) : k • u.signed = 0 ↔ k • u.bytes = 0 := by
  unfold Update.signed
  split
  · rfl
  · rw [smul_neg, neg_eq_zero]

/-- The verdict says what an application changes. -/
theorem change_of_verdict {m m' : MemInfo} (h : u.verdict sockfd m = u.verdict sockfd m') :
    u.change sockfd m = u.change sockfd m' := by
  rw [u.verdict_eq, u.verdict_eq, Bool.not_inj_iff, decide_eq_decide] at h
  rw [u.change_eq, u.change_eq]
  simp only [h]

end

/-- A call whose copies are all handled is applied once exactly if it gets no reply, or the copies
behind the first that are not refused change nothing together. -/
theorem appliedOnce_iff (attempts : ℕ → Attempt) (rc : ℤ) (u : Update) (sockfd : ℕ) (m : MemInfo) (hs : List Handled)
    (hcopies : hs.count .copy = (communicate attempts rc).2) :
    AppliedOnce attempts rc u sockfd m hs ↔
      (Answered attempts → takingEffect u (copyStates u sockfd m hs).tail • u.bytes = 0) := by
  by_cases ha : Answered attempts
  · have hlen : 0 < (communicate attempts rc).2 := copies_pos ha
    have hcount : (copyStates u sockfd m hs).length = hs.count .copy := length_copyStates m hs
    rw [← hcopies, ← hcount] at hlen
    obtain ⟨m₁, ms, hms⟩ : ∃ m₁ ms, copyStates u sockfd m hs = m₁ :: ms := List.exists_cons_of_length_pos hlen
    have hverdict : updateMemoryUsage attempts rc u sockfd m hs = some (u.verdict sockfd m₁) := by
      rw [updateMemoryUsage, if_pos ((communicate_eq_zero ..).2 ha), hms]
      rfl
    have hsum : u.change sockfd m₁ = u.change sockfd m₁ + (ms.map (u.change sockfd)).sum ↔
      takingEffect u ms • u.bytes = 0 := by
      rw [left_eq_add, sum_change, nsmul_signed]
    unfold AppliedOnce
    rw [hverdict, hms, List.map_cons, List.sum_cons, List.tail_cons, ← hsum]
    constructor
    · intro h _
      obtain ⟨m', -, hv, hchange⟩ := h _ rfl
      rw [hchange, change_of_verdict hv]
    · rintro h verdict hv
      cases hv
      exact ⟨m₁, List.mem_cons_self .., rfl, (h ha).symm⟩
  · have hnone : updateMemoryUsage attempts rc u sockfd m hs = none := by
      rw [updateMemoryUsage, if_neg (mt (communicate_eq_zero ..).1 ha)]
    constructor
    · exact fun _ h => absurd h ha
    · intro _ verdict hv
      rw [hnone] at hv
      cases hv

/-- `EAGAIN`, after the timeout of `recv`. -/
def eagain : Errno := ⟨11, by decide⟩

/-- Without a timeout there is one copy. -/
theorem appliedOnce_of_reply : AppliedOnce (fun _ => .received) 0 ⟨10, true⟩ 7 ⟨0, 100, [(7, 0)]⟩ [.copy] :=
  (appliedOnce_iff (fun _ => .received) 0 ⟨10, true⟩ 7 ⟨0, 100, [(7, 0)]⟩ [.copy] (by decide)).2 fun _ => by decide

/-- The first reply comes after the timeout, and both copies are charged. -/
theorem not_appliedOnce_of_timeout :
    ¬ AppliedOnce (fun i => if i = 1 then .recvFails eagain else .received) 0 ⟨10, true⟩ 7 ⟨0, 100, [(7, 0)]⟩
      [.copy, .copy] := by
  intro h
  obtain ⟨m', hm, -, hchange⟩ := h true (by decide)
  revert hchange
  revert m'
  decide

end Gemini.Hook.Retry
