/-
The intercepted calls that allocate and free memory, one at a time: `CU_HOOK_GENERATE_INTERCEPT` runs
the pre-hook, the real driver function and the post-hook, and returns at the first of them that fails.
What the driver answers and what the pod manager replies is given from outside: other clients of the
pod manager may have changed its account between the pre-hook and the post-hook.

A call that fails leaves everything as it was unless it fails behind its first change: an allocation
that the pod manager refuses after the driver has made it, and a free that the driver refuses after
the pre-hook has taken the bytes off both accounts.
-/
import Mathlib.Data.Finset.Insert
import Gemini.Hook.Memory

namespace Gemini.Hook.Intercept

open Gemini.PodManager

/-! ## States and outcomes -/

/-- `CUresult`; 0 is `CUDA_SUCCESS`. -/
abbrev CUresult := UInt32

def cudaSuccess : CUresult := 0

def cudaErrorOutOfMemory : CUresult := 2

/-- The driver's live allocations, the ledger of the hook, `gpu_mem_used` of the pod manager, and
`*pPitch`. -/
structure System where
  live : Finset DevicePtr
  allocationMap : DevicePtr → Option Size
  gpuMemUsed : Size
  podMemUsed : Size
  pitch : Size

/-- What comes from outside of the hook: the remaining memory that the pod manager reports, what the
driver returns, the handle and the pitch it hands out, and the verdict on an allocation. -/
structure Outcome where
  remain : Size
  driver : CUresult
  handle : DevicePtr
  pitch : Size
  verdict : Bool
deriving DecidableEq, Repr

/-- A hook, or a driver function. -/
abbrev Function := System → CUresult × System

/-- `CU_HOOK_GENERATE_INTERCEPT`, with the entries of `hook_inf`. -/
def intercept (preHook : Option Function) (realFunc : Function) (postHook : Option Function) : Function := fun s =>
  match (match preHook with
    | some pre => pre s
    | none => (cudaSuccess, s)) with
  | (result, s) =>
    if result ≠ cudaSuccess then (result, s)
    else
      match realFunc s with
      | (result, s) =>
        match postHook with
        | some post => if result = cudaSuccess then post s else (result, s)
        | none => (result, s)

/-! ## Hooks -/

section

variable (o : Outcome)

/-- `update_memory_usage`: the verdict, and what it does to `gpu_mem_used` of the pod manager. -/
def updateMemoryUsage (bytes : Size) (isAllocate : Bool) (s : System) : Bool × System :=
  if isAllocate then
    if o.verdict then (true, { s with podMemUsed := s.podMemUsed + bytes }) else (false, s)
  else (true, { s with podMemUsed := s.podMemUsed - bytes })

/-- `cuMemAlloc_prehook` blocks an allocation request before over-allocating. -/
def cuMemAllocPrehook (bytesize : Size) : Function := fun s =>
  if o.remain < bytesize then (cudaErrorOutOfMemory, s) else (cudaSuccess, s)

/-- `cuMemAlloc_posthook`, with the handle of the driver in `*dptr`. -/
def cuMemAllocPosthook (bytesize : Size) : Function := fun s =>
  match updateMemoryUsage o bytesize true s with
  | (false, s) => (cudaErrorOutOfMemory, s)
  | (true, s) => (cudaSuccess, { s with
      allocationMap := Function.update s.allocationMap o.handle (some bytesize)
      gpuMemUsed := s.gpuMemUsed + bytesize })

/-- `cuMemFree_prehook`. -/
def cuMemFreePrehook (ptr : DevicePtr) : Function := fun s =>
  match s.allocationMap ptr with
  -- freeing unknown memory
  | none => (cudaSuccess, s)
  | some bytes =>
    let s := (updateMemoryUsage o bytes false { s with gpuMemUsed := s.gpuMemUsed - bytes }).2
    (cudaSuccess, { s with allocationMap := Function.update s.allocationMap ptr none })

/-! ## The driver -/

/-- A driver function that allocates hands out the handle, or fails. -/
def allocate : Function := fun s =>
  if o.driver = cudaSuccess then (cudaSuccess, { s with live := insert o.handle s.live }) else (o.driver, s)

/-- `cuMemAllocPitch` also writes the pitch. -/
def allocatePitch : Function := fun s =>
  if o.driver = cudaSuccess then (cudaSuccess, { s with live := insert o.handle s.live, pitch := o.pitch })
  else (o.driver, s)

def release (ptr : DevicePtr) : Function := fun s =>
  if o.driver = cudaSuccess then (cudaSuccess, { s with live := s.live.erase ptr }) else (o.driver, s)

end

/-! ## Sizes -/

/-- `CUarray_format`. -/
inductive ArrayFormat where
  | unsignedInt8
  | unsignedInt16
  | unsignedInt32
  | signedInt8
  | signedInt16
  | signedInt32
  | half
  | float
deriving DecidableEq, Repr

/-- `CUarray_format_to_size_t`. -/
def ArrayFormat.toSize : ArrayFormat → Size
  | .unsignedInt8 | .signedInt8 => 1
  | .unsignedInt16 | .signedInt16 | .half => 2
  | .unsignedInt32 | .signedInt32 | .float => 4

/-- `CUDA_ARRAY_DESCRIPTOR`. -/
structure ArrayDescriptor where
  width : Size
  height : Size
  format : ArrayFormat
  numChannels : UInt32
deriving DecidableEq, Repr

/-- `CUDA_ARRAY3D_DESCRIPTOR`, without its flags. -/
structure Array3DDescriptor where
  width : Size
  height : Size
  depth : Size
  format : ArrayFormat
  numChannels : UInt32
deriving DecidableEq, Repr

def ArrayDescriptor.bytes (d : ArrayDescriptor) : Size := d.width * d.height * d.numChannels.toUInt64 * d.format.toSize

def Array3DDescriptor.bytes (d : Array3DDescriptor) : Size :=
  d.width * d.height * d.depth * d.numChannels.toUInt64 * d.format.toSize

/-! ## Calls -/

section

variable (o : Outcome)

def cuMemAlloc (bytesize : Size) : Function :=
  intercept (some (cuMemAllocPrehook o bytesize)) (allocate o) (some (cuMemAllocPosthook o bytesize))

/-- The hooks take the size from `*pPitch`, before and after the driver has written it. -/
def cuMemAllocPitch (height : Size) : Function :=
  intercept (some fun s => cuMemAllocPrehook o (s.pitch * height) s) (allocatePitch o)
    (some fun s => cuMemAllocPosthook o (s.pitch * height) s)

def cuArrayCreate (pAllocateArray : ArrayDescriptor) : Function :=
  intercept (some (cuMemAllocPrehook o pAllocateArray.bytes)) (allocate o)
    (some (cuMemAllocPosthook o pAllocateArray.bytes))

def cuArray3DCreate (pAllocateArray : Array3DDescriptor) : Function :=
  intercept (some (cuMemAllocPrehook o pAllocateArray.bytes)) (allocate o)
    (some (cuMemAllocPosthook o pAllocateArray.bytes))

def cuMemFree (dptr : DevicePtr) : Function := intercept (some (cuMemFreePrehook o dptr)) (release o dptr) none

def cuArrayDestroy (hArray : DevicePtr) : Function :=
  intercept (some (cuMemFreePrehook o hArray)) (release o hArray) none

end

/-- An intercepted call that allocates or frees. -/
inductive Call where
  | cuMemAlloc (bytesize : Size)
  | cuMemAllocPitch (height : Size)
  | cuArrayCreate (pAllocateArray : ArrayDescriptor)
  | cuArray3DCreate (pAllocateArray : Array3DDescriptor)
  | cuMemFree (dptr : DevicePtr)
  | cuArrayDestroy (hArray : DevicePtr)
deriving DecidableEq, Repr

namespace Call

def run (o : Outcome) : Call → Function
  | .cuMemAlloc bytesize => Intercept.cuMemAlloc o bytesize
  | .cuMemAllocPitch height => Intercept.cuMemAllocPitch o height
  | .cuArrayCreate pAllocateArray => Intercept.cuArrayCreate o pAllocateArray
  | .cuArray3DCreate pAllocateArray => Intercept.cuArray3DCreate o pAllocateArray
  | .cuMemFree dptr => Intercept.cuMemFree o dptr
  | .cuArrayDestroy hArray => Intercept.cuArrayDestroy o hArray

/-- The bytes that the pre-hook of an allocation asks for. -/
def requested (s : System) : Call → Option Size
  | .cuMemAlloc bytesize => some bytesize
  | .cuMemAllocPitch height => some (s.pitch * height)
  | .cuArrayCreate pAllocateArray => some pAllocateArray.bytes
  | .cuArray3DCreate pAllocateArray => some pAllocateArray.bytes
  | .cuMemFree _ | .cuArrayDestroy _ => none

/-- The address of a free. -/
def freed : Call → Option DevicePtr
  | .cuMemFree dptr => some dptr
  | .cuArrayDestroy hArray => some hArray
  | _ => none

end Call

/-! ## Atomicity -/

/-- The allocations of the driver and both accounts are the same. -/
structure Unchanged (s s' : System) : Prop where
  live : s'.live = s.live
  allocationMap : s'.allocationMap = s.allocationMap
  gpuMemUsed : s'.gpuMemUsed = s.gpuMemUsed
  podMemUsed : s'.podMemUsed = s.podMemUsed

theorem Unchanged.refl (s : System) : Unchanged s s := ⟨rfl, rfl, rfl, rfl⟩

/-- If it does not succeed, it changes nothing. -/
def AtomicAt (f : Function) (s : System) : Prop := (f s).1 ≠ cudaSuccess → Unchanged s (f s).2

def Atomic (c : Call) (o : Outcome) (s : System) : Prop := AtomicAt (c.run o) s

/-- The pod manager refuses no allocation that the driver has made, and the driver refuses no free of an
address in `allocation_map`. -/
def FailsFirst (c : Call) (o : Outcome) (s : System) : Prop :=
  (∀ bytes ∈ c.requested s, bytes ≤ o.remain → o.driver = cudaSuccess → o.verdict = true) ∧
  ∀ ptr ∈ c.freed, o.driver = cudaSuccess ∨ s.allocationMap ptr = none

section

variable {pre realFunc post : Function} {s s₁ s₂ : System} {result : CUresult}

theorem intercept_of_blocked {postHook : Option Function} (hpre : pre s = (result, s₁))
    (hresult : result ≠ cudaSuccess) : intercept (some pre) realFunc postHook s = (result, s₁) := by
  simp [intercept, hpre, hresult]

theorem intercept_of_failed {postHook : Option Function} (hpre : pre s = (cudaSuccess, s₁))
    (hreal : realFunc s₁ = (result, s₂))
    (hresult : result ≠ cudaSuccess) : intercept (some pre) realFunc postHook s = (result, s₂) := by
  cases postHook with
  | none => simp [intercept, hpre, hreal]
  | some post => simp [intercept, hpre, hreal, hresult]

theorem intercept_of_done (hpre : pre s = (cudaSuccess, s₁)) (hreal : realFunc s₁ = (cudaSuccess, s₂)) :
    intercept (some pre) realFunc none s = (cudaSuccess, s₂) := by
  simp [intercept, hpre, hreal]

theorem intercept_of_posthook (hpre : pre s = (cudaSuccess, s₁)) (hreal : realFunc s₁ = (cudaSuccess, s₂)) :
    intercept (some pre) realFunc (some post) s = post s₂ := by
  simp [intercept, hpre, hreal]

end

section

variable {o : Outcome} {s : System}

/-- An intercepted allocation, whatever else the driver writes and whatever size the post-hook reads. -/
theorem alloc_iff {pre realFunc post : Function} {bytes : Size} (hfresh : o.handle ∉ s.live)
    (hpre : pre s = cuMemAllocPrehook o bytes s) (hfail : o.driver ≠ cudaSuccess → realFunc s = (o.driver, s))
    (hreal : o.driver = cudaSuccess → ∃ s', realFunc s = (cudaSuccess, s') ∧ s'.live = insert o.handle s.live)
    (hpost : ∀ s', ∃ bytes, post s' = cuMemAllocPosthook o bytes s') :
    AtomicAt (intercept (some pre) realFunc (some post)) s ↔
      (bytes ≤ o.remain → o.driver = cudaSuccess → o.verdict = true) := by
  unfold AtomicAt
  by_cases hlt : o.remain < bytes
  · rw [intercept_of_blocked (hpre.trans (if_pos hlt)) (by decide)]
    exact iff_of_true (fun _ => .refl s) fun hle => absurd hle (UInt64.not_le.mpr hlt)
  have hpass : pre s = (cudaSuccess, s) := hpre.trans (if_neg hlt)
  by_cases hd : o.driver = cudaSuccess
  · obtain ⟨s', hs', hlive⟩ := hreal hd
    obtain ⟨bytes', hpost⟩ := hpost s'
    rw [intercept_of_posthook hpass hs', hpost, cuMemAllocPosthook, updateMemoryUsage]
    cases hv : o.verdict with
    | true => simp
    | false =>
      -- the block stays allocated behind the refusal
      have hchanged : ¬ Unchanged s s' := fun h => hfresh (by rw [← h.live, hlive]; exact Finset.mem_insert_self _ _)
      have herr : cudaErrorOutOfMemory ≠ cudaSuccess := by decide
      apply iff_of_false
      · intro h
        exact hchanged (h herr)
      · intro h
        exact Bool.false_ne_true (h (UInt64.not_lt.mp hlt) hd)
  · rw [intercept_of_failed hpass (hfail hd) hd]
    exact iff_of_true (fun _ => .refl s) fun _ hd' => absurd hd' hd

/-- An intercepted free. -/
theorem free_iff (ptr : DevicePtr) :
    AtomicAt (intercept (some (cuMemFreePrehook o ptr)) (release o ptr) none) s ↔
      (o.driver = cudaSuccess ∨ s.allocationMap ptr = none) := by
  unfold AtomicAt
  by_cases hd : o.driver = cudaSuccess
  · have hreal (s : System) : release o ptr s = (cudaSuccess, { s with live := s.live.erase ptr }) := if_pos hd
    have hpre : (cuMemFreePrehook o ptr s).1 = cudaSuccess := by
      unfold cuMemFreePrehook
      split <;> rfl
    rw [intercept_of_done (Prod.ext hpre rfl) (hreal _)]
    exact iff_of_true (fun h => absurd rfl h) (Or.inl hd)
  have hreal (s : System) : release o ptr s = (o.driver, s) := if_neg hd
  cases hmap : s.allocationMap ptr with
  | none =>
    have hpre : cuMemFreePrehook o ptr s = (cudaSuccess, s) := by rw [cuMemFreePrehook, hmap]
    rw [intercept_of_failed hpre (hreal s) hd]
    exact iff_of_true (fun _ => .refl s) (Or.inr rfl)
  | some bytes =>
    obtain ⟨s', hpre, hgone⟩ : ∃ s', cuMemFreePrehook o ptr s = (cudaSuccess, s') ∧ s'.allocationMap ptr = none := by
      rw [cuMemFreePrehook, hmap]
      exact ⟨_, rfl, Function.update_self ..⟩
    rw [intercept_of_failed hpre (hreal s') hd]
    apply iff_of_false
    · intro h
      rw [(h hd).allocationMap, hmap] at hgone
      cases hgone
    · simp [hd]

/-- A call is atomic if and only if nothing fails behind its first change. The handle that the driver
hands out is not live. -/
theorem atomic_iff (c : Call) (o : Outcome) (s : System) (hfresh : o.handle ∉ s.live) :
    Atomic c o s ↔ FailsFirst c o s := by
  have hfail (hd : o.driver ≠ cudaSuccess) : allocate o s = (o.driver, s) := if_neg hd
  have hreal (hd : o.driver = cudaSuccess) :
      ∃ s', allocate o s = (cudaSuccess, s') ∧ s'.live = insert o.handle s.live := ⟨_, if_pos hd, rfl⟩
  unfold FailsFirst Atomic
  cases c with
  | cuMemAlloc bytesize =>
    have h : AtomicAt (Call.run o (.cuMemAlloc bytesize)) s ↔
      (bytesize ≤ o.remain → o.driver = cudaSuccess → o.verdict = true) :=
      alloc_iff hfresh rfl hfail hreal fun _ => ⟨bytesize, rfl⟩
    simpa [Call.requested, Call.freed] using h
  | cuMemAllocPitch height =>
    have h : AtomicAt (Call.run o (.cuMemAllocPitch height)) s ↔
        (s.pitch * height ≤ o.remain → o.driver = cudaSuccess → o.verdict = true) :=
      alloc_iff hfresh rfl (fun hd => if_neg hd) (fun hd => ⟨_, if_pos hd, rfl⟩) fun s => ⟨s.pitch * height, rfl⟩
    simpa [Call.requested, Call.freed] using h
  | cuArrayCreate d =>
    have h : AtomicAt (Call.run o (.cuArrayCreate d)) s ↔
      (d.bytes ≤ o.remain → o.driver = cudaSuccess → o.verdict = true) :=
      alloc_iff hfresh rfl hfail hreal fun _ => ⟨d.bytes, rfl⟩
    simpa [Call.requested, Call.freed] using h
  | cuArray3DCreate d =>
    have h : AtomicAt (Call.run o (.cuArray3DCreate d)) s ↔
      (d.bytes ≤ o.remain → o.driver = cudaSuccess → o.verdict = true) :=
      alloc_iff hfresh rfl hfail hreal fun _ => ⟨d.bytes, rfl⟩
    simpa [Call.requested, Call.freed] using h
  | cuMemFree dptr =>
    have h : AtomicAt (Call.run o (.cuMemFree dptr)) s ↔ (o.driver = cudaSuccess ∨ s.allocationMap dptr = none) :=
      free_iff dptr
    simpa [Call.requested, Call.freed] using h
  | cuArrayDestroy hArray =>
    have h : AtomicAt (Call.run o (.cuArrayDestroy hArray)) s ↔
      (o.driver = cudaSuccess ∨ s.allocationMap hArray = none) :=
      free_iff hArray
    simpa [Call.requested, Call.freed] using h

/-- An allocation that the driver fails, while another block is live. -/
theorem atomic_of_driver_failure :
    Atomic (.cuMemAlloc 10) ⟨100, cudaErrorOutOfMemory, 8192, 0, false⟩
      ⟨{4096}, Function.update (fun _ => none) 4096 (some 20), 20, 20, 0⟩ := by
  apply (atomic_iff _ _ _ (by decide)).mpr
  constructor
  · rintro bytes - - hd
    cases hd
  · rintro ptr ⟨⟩

/-- The pod manager refuses an allocation that the driver has made, and the block stays; the driver refuses
a free, and both accounts have lost its bytes. -/
theorem not_atomic_of_late_failure :
    ¬ Atomic (.cuMemAlloc 10) ⟨100, cudaSuccess, 8192, 0, false⟩ ⟨∅, fun _ => none, 0, 0, 0⟩ ∧
    ¬ Atomic (.cuMemFree 4096) ⟨100, cudaErrorOutOfMemory, 8192, 0, true⟩
      ⟨{4096}, Function.update (fun _ => none) 4096 (some 20), 20, 20, 0⟩ := by
  constructor
  · intro h
    have hlive := (h (by decide)).live
    revert hlive
    decide
  · intro h
    have hpod := (h (by decide)).podMemUsed
    revert hpod
    decide

end

end Gemini.Hook.Intercept
