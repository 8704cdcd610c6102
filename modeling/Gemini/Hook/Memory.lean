/-
The intercepted `cuMemAlloc` and `cuMemFree` of the processes that share a pod manager, as a
transition system: the pre-hooks and post-hooks with the requests they send to the pod manager, and
the calls of the real driver in between. Every request of a hook is answered on a connection of its
own in one step of the pod manager; every stretch of code of a hook between two requests and every
driver call is a step. The driver grants what it is asked for, at an address of the process that is
not in use. It releases only what `cuMemFree` names.
-/
import Gemini.PodManager.Memory

namespace Gemini.Hook

/-- `CUdeviceptr`, an address in one process. -/
abbrev DevicePtr := UInt64

namespace Memory

open Gemini.PodManager

/-! ## States -/

/-- What the driver has granted to a process. The grants are numbered for the proofs only. -/
structure Block where
  grant : ℕ
  process : ℕ
  ptr : DevicePtr
  size : Size
deriving DecidableEq, Repr

/-- A thread of a process. -/
structure Thread where
  process : ℕ
  id : ℕ
deriving DecidableEq, Repr

/-- `CUresult`. -/
inductive Result where
  | success
  | outOfMemory
  | invalidValue
deriving DecidableEq, Repr

/-- Where a thread stands in an intercepted call. -/
inductive Call where
  /-- no call is in progress -/
  | none
  /-- in `cuMemAlloc_prehook`, with the REQ_MEM_LIMIT sent -/
  | query (bytesize : Size)
  /-- before the comparison with the memory that remains -/
  | check (bytesize remain : Size)
  /-- in the real `cuMemAlloc` -/
  | allocate (bytesize : Size)
  /-- in `cuMemAlloc_posthook`, with the REQ_MEM_UPDATE sent -/
  | charge (b : Block)
  /-- after the verdict -/
  | verdict (b : Block) (ok : Bool)
  /-- before the lock of `allocation_mutex` in `cuMemFree_prehook` -/
  | lookup (ptr : DevicePtr)
  /-- under the lock, with the REQ_MEM_UPDATE sent -/
  | uncharge (b : Block)
  /-- under the lock, before the entry is erased -/
  | erase (b : Block)
  /-- in the real `cuMemFree` -/
  | release (ptr : DevicePtr)
deriving DecidableEq, Repr

/-- The hook library of one process. An entry of `allocation_map` is the block at an address. -/
structure Process where
  allocationMap : List Block
  gpuMemUsed : Size
  allocationMutex : Option Thread
deriving DecidableEq, Repr

namespace Process

def find (ptr : DevicePtr) (p : Process) : Option Block := p.allocationMap.find? fun b => b.ptr = ptr

/-- `allocation_map.erase(ptr)`, and the unlock. -/
def erase (ptr : DevicePtr) (p : Process) : Process :=
  { p with allocationMap := p.allocationMap.filter fun b => b.ptr ≠ ptr, allocationMutex := .none }

/-- `allocation_map[ptr] = bytesize` under the lock. -/
def insert (b : Block) (p : Process) : Process :=
  { p with
    allocationMap := p.allocationMap.filter (fun c => c.ptr ≠ b.ptr) ++ [b]
    gpuMemUsed := p.gpuMemUsed + b.size }

/-- The lock is taken to free a block. -/
def beginFree (t : Thread) (b : Block) (p : Process) : Process :=
  { p with gpuMemUsed := p.gpuMemUsed - b.size, allocationMutex := some t }

end Process

/-- The processes, their pod manager and the driver, with the blocks it has not released. -/
structure State where
  calls : Thread → Call
  processes : ℕ → Process
  pod : MemInfo
  connections : ℕ
  live : List Block
  grants : ℕ
  returned : List (Thread × Result)

def State.init (limit : Size) : State where
  calls := fun _ => .none
  processes := fun _ => ⟨[], 0, .none⟩
  pod := ⟨0, limit, []⟩
  connections := 0
  live := []
  grants := 0
  returned := []

/-! ## Steps -/

inductive Event where
  | cuMemAlloc (t : Thread) (bytesize : Size)
  | cuMemFree (t : Thread) (ptr : DevicePtr)
  /-- the driver grants what `t` asks for -/
  | grant (t : Thread) (ptr : DevicePtr)
  /-- any other next step of the call of `t` -/
  | advance (t : Thread)
deriving DecidableEq, Repr

namespace State

variable (s : State)

def goto (t : Thread) (c : Call) : State := { s with calls := Function.update s.calls t c }

def ret (t : Thread) (r : Result) : State := { s.goto t .none with returned := s.returned ++ [(t, r)] }

def modify (process : ℕ) (f : Process → Process) : State :=
  { s with processes := Function.update s.processes process (f (s.processes process)) }

/-- The connection that `communicate` establishes is accepted. -/
def connect : State := { s with pod := s.pod.accept s.connections, connections := s.connections + 1 }

/-- `get_gpu_memory_info`: the remaining memory and the limit. -/
def memoryInfo : Size × Size := (s.pod.gpuMemLimit - s.pod.gpuMemUsed, s.pod.gpuMemLimit)

/-- `update_memory_usage`. -/
def updateMemoryUsage (bytes : Size) (isAllocate : Bool) : Bool × State :=
  let u := s.connect.pod.hookUpdateMemoryUsage bytes isAllocate s.connections
  (u.1, { s.connect with pod := u.2 })

def cuMemAlloc (t : Thread) (bytesize : Size) : Option State :=
  if s.calls t = .none then some (s.goto t (.query bytesize)) else none

def cuMemFree (t : Thread) (ptr : DevicePtr) : Option State :=
  if s.calls t = .none then some (s.goto t (.lookup ptr)) else none

def grant (t : Thread) (ptr : DevicePtr) : Option State :=
  match s.calls t with
  | .allocate bytesize =>
    if s.live.any (fun b => b.process = t.process ∧ b.ptr = ptr) then none
    else
      let b : Block := ⟨s.grants, t.process, ptr, bytesize⟩
      some { s.goto t (.charge b) with live := s.live ++ [b], grants := s.grants + 1 }
  | _ => none

def advance (t : Thread) : Option State :=
  match s.calls t with
  | .none => none
  | .query bytesize => some (s.connect.goto t (.check bytesize s.memoryInfo.1))
  -- block allocation request before over-allocate
  | .check bytesize remain => some (if remain < bytesize then s.ret t .outOfMemory else s.goto t (.allocate bytesize))
  | .allocate _ => none
  | .charge b =>
    let u := s.updateMemoryUsage b.size true
    some (u.2.goto t (.verdict b u.1))
  | .verdict b ok =>
    if ok then
      if (s.processes t.process).allocationMutex = .none then some ((s.modify t.process (.insert b)).ret t .success)
      else none
    -- the memory stays allocated
    else some (s.ret t .outOfMemory)
  | .lookup ptr =>
    if (s.processes t.process).allocationMutex = .none then
      match (s.processes t.process).find ptr with
      -- freeing unknown memory
      | .none => some (s.goto t (.release ptr))
      | some b => some ((s.modify t.process (.beginFree t b)).goto t (.uncharge b))
    else none
  | .uncharge b => some ((s.updateMemoryUsage b.size false).2.goto t (.erase b))
  | .erase b => some ((s.modify t.process (.erase b.ptr)).goto t (.release b.ptr))
  | .release ptr =>
    if s.live.any (fun b => b.process = t.process ∧ b.ptr = ptr) then
      some { s.ret t .success with live := s.live.filter fun b => ¬ (b.process = t.process ∧ b.ptr = ptr) }
    else some (s.ret t .invalidValue)

def step : Event → Option State
  | .cuMemAlloc t bytesize => s.cuMemAlloc t bytesize
  | .cuMemFree t ptr => s.cuMemFree t ptr
  | .grant t ptr => s.grant t ptr
  | .advance t => s.advance t

/-! ## What a step can do -/

/-- The steps of a call. -/
inductive Advances (t : Thread) : State → Prop
  | query {bytesize : Size} : s.calls t = .query bytesize →
      Advances t (s.connect.goto t (.check bytesize s.memoryInfo.1))
  | refuse {bytesize remain : Size} : s.calls t = .check bytesize remain → remain < bytesize →
      Advances t (s.ret t .outOfMemory)
  | pass {bytesize remain : Size} : s.calls t = .check bytesize remain → ¬ remain < bytesize →
      Advances t (s.goto t (.allocate bytesize))
  | charge {b : Block} : s.calls t = .charge b → Advances t ((s.updateMemoryUsage b.size true).2.goto t
      (.verdict b (s.updateMemoryUsage b.size true).1))
  | insert {b : Block} : s.calls t = .verdict b true → (s.processes t.process).allocationMutex = .none →
      Advances t ((s.modify t.process (.insert b)).ret t .success)
  | reject {b : Block} : s.calls t = .verdict b false → Advances t (s.ret t .outOfMemory)
  | unknown {ptr : DevicePtr} : s.calls t = .lookup ptr → (s.processes t.process).allocationMutex = .none →
      (s.processes t.process).find ptr = .none → Advances t (s.goto t (.release ptr))
  | beginFree {ptr : DevicePtr} {b : Block} : s.calls t = .lookup ptr →
      (s.processes t.process).allocationMutex = .none → (s.processes t.process).find ptr = some b →
      Advances t ((s.modify t.process (.beginFree t b)).goto t (.uncharge b))
  | uncharge {b : Block} : s.calls t = .uncharge b → Advances t ((s.updateMemoryUsage b.size false).2.goto t (.erase b))
  | erase {b : Block} : s.calls t = .erase b → Advances t ((s.modify t.process (.erase b.ptr)).goto t (.release b.ptr))
  | release {ptr : DevicePtr} : s.calls t = .release ptr →
      s.live.any (fun b => b.process = t.process ∧ b.ptr = ptr) = true →
      Advances t { s.ret t .success with live := s.live.filter fun b => ¬ (b.process = t.process ∧ b.ptr = ptr) }
  | invalid {ptr : DevicePtr} : s.calls t = .release ptr →
      ¬ s.live.any (fun b => b.process = t.process ∧ b.ptr = ptr) = true → Advances t (s.ret t .invalidValue)

variable {s} {s' : State} {t : Thread}

theorem advance_some (h : s.advance t = some s') : s.Advances t s' := by
  unfold advance at h
  split at h <;> rename_i ht
  · cases h
  · cases h; exact .query ht
  · cases h
    split
    · rename_i hlt; exact .refuse ht hlt
    · rename_i hlt; exact .pass ht hlt
  · cases h
  · cases h; exact .charge ht
  · rename_i b ok
    split at h
    · rename_i hok
      subst hok
      split at h
      · rename_i hfree; cases h; exact .insert ht hfree
      · cases h
    · rename_i hok
      obtain rfl : ok = false := by simpa using hok
      cases h; exact .reject ht
  · split at h
    · rename_i hfree
      split at h <;> cases h
      · rename_i hfind; exact .unknown ht hfree hfind
      · rename_i b hfind; exact .beginFree ht hfree hfind
    · cases h
  · cases h; exact .uncharge ht
  · cases h; exact .erase ht
  · split at h
    · rename_i hany; cases h; exact .release ht hany
    · rename_i hany; cases h; exact .invalid ht hany

theorem cuMemAlloc_some {bytesize : Size} (h : s.cuMemAlloc t bytesize = some s') :
    s.calls t = .none ∧ s' = s.goto t (.query bytesize) := by
  unfold cuMemAlloc at h
  split at h
  · rename_i ht; cases h; exact ⟨ht, rfl⟩
  · cases h

theorem cuMemFree_some {ptr : DevicePtr} (h : s.cuMemFree t ptr = some s') :
    s.calls t = .none ∧ s' = s.goto t (.lookup ptr) := by
  unfold cuMemFree at h
  split at h
  · rename_i ht; cases h; exact ⟨ht, rfl⟩
  · cases h

/-- The driver grants an address of the process that is not in use. -/
theorem grant_some {ptr : DevicePtr} (h : s.grant t ptr = some s') : ∃ bytesize, s.calls t = .allocate bytesize ∧
    ¬ s.live.any (fun b => b.process = t.process ∧ b.ptr = ptr) = true ∧
    s' = { s.goto t (.charge ⟨s.grants, t.process, ptr, bytesize⟩) with
      live := s.live ++ [⟨s.grants, t.process, ptr, bytesize⟩], grants := s.grants + 1 } := by
  unfold grant at h
  split at h
  · rename_i bytesize ht
    split at h
    · cases h
    · rename_i hany; cases h; exact ⟨bytesize, ht, hany, rfl⟩
  · cases h

end State

end Memory

end Gemini.Hook
