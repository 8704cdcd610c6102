/-
The pod manager's account of the device memory: the limit that the scheduler has set, the bytes in
use, and the bytes in use through each connection. `size_t` wraps around at 2^64.
-/
import Gemini.Lib.Assoc

namespace Gemini.PodManager

open Gemini.Lib

/-- `size_t`. -/
abbrev Size := UInt64

structure MemInfo where
  gpuMemUsed : Size
  gpuMemLimit : Size
  allocationMap : List (ℕ × Size)
deriving DecidableEq, Repr

namespace MemInfo

/-- A connection is accepted. -/
def accept (sockfd : ℕ) (m : MemInfo) : MemInfo := { m with allocationMap := insertNew sockfd 0 m.allocationMap }

/-- `allocation_map[sockfd]`. -/
def held (sockfd : ℕ) (m : MemInfo) : Size := (m.allocationMap.lookup sockfd).getD 0

/-- `hook_update_memory_usage`, and whether the memory limit is met. -/
def hookUpdateMemoryUsage (memSize : Size) (allocate : Bool) (sockfd : ℕ) (m : MemInfo) : Bool × MemInfo :=
  if allocate then
    if m.gpuMemLimit < m.gpuMemUsed + memSize then (false, m)
    else (true, { m with
      gpuMemUsed := m.gpuMemUsed + memSize
      allocationMap := assign sockfd (m.held sockfd + memSize) m.allocationMap })
  else (true, { m with
    gpuMemUsed := m.gpuMemUsed - memSize
    allocationMap := assign sockfd (m.held sockfd - memSize) m.allocationMap })

/-- The end of `hook_thread_func`: the connection is closed, so the process has gone. -/
def recoverMemoryUsage (sockfd : ℕ) (m : MemInfo) : MemInfo :=
  { m with gpuMemUsed := m.gpuMemUsed - m.held sockfd, allocationMap := eraseKey sockfd m.allocationMap }

variable {memSize : Size} {m : MemInfo}

/-- Nothing changes the limit. -/
@[simp] theorem update_gpuMemLimit (memSize : Size) (allocate : Bool) (sockfd : ℕ) (m : MemInfo) :
    (m.hookUpdateMemoryUsage memSize allocate sockfd).2.gpuMemLimit = m.gpuMemLimit := by
  unfold hookUpdateMemoryUsage
  split
  · split <;> rfl
  · rfl

/-- What fits is charged, without wrap-around. -/
theorem update_allocate (h : m.gpuMemUsed.toNat + memSize.toNat ≤ m.gpuMemLimit.toNat) (sockfd : ℕ) :
    (m.hookUpdateMemoryUsage memSize true sockfd).1 = true ∧
      (m.hookUpdateMemoryUsage memSize true sockfd).2.gpuMemUsed.toNat = m.gpuMemUsed.toNat + memSize.toNat := by
  have hlim := m.gpuMemLimit.toNat_lt
  have hadd : (m.gpuMemUsed + memSize).toNat = m.gpuMemUsed.toNat + memSize.toNat := by
    rw [UInt64.toNat_add]
    exact Nat.mod_eq_of_lt (by omega)
  have hle : ¬ m.gpuMemLimit < m.gpuMemUsed + memSize := by
    rw [UInt64.lt_iff_toNat_lt]
    omega
  unfold hookUpdateMemoryUsage
  rw [if_pos rfl, if_neg hle]
  exact ⟨rfl, hadd⟩

theorem update_free (h : memSize.toNat ≤ m.gpuMemUsed.toNat) (sockfd : ℕ) :
    (m.hookUpdateMemoryUsage memSize false sockfd).2.gpuMemUsed.toNat + memSize.toNat = m.gpuMemUsed.toNat := by
  have hsub := UInt64.toNat_sub_of_le m.gpuMemUsed memSize (UInt64.le_iff_toNat_le.2 h)
  unfold hookUpdateMemoryUsage
  rw [if_neg Bool.false_ne_true]
  show (m.gpuMemUsed - memSize).toNat + memSize.toNat = m.gpuMemUsed.toNat
  omega

end MemInfo

end Gemini.PodManager
