/-
The size of an allocation is computed twice: the pre-hook compares it with the remaining memory, and the
post-hook charges it. For a pitched allocation the two differ if the driver writes another pitch. For an
array both are the product of the fields of its descriptor, which is 0 if a field that does not count is
0, and wraps around at 2^64.
-/
import Gemini.Hook.Intercept

namespace Gemini.Hook.Intercept

open Gemini.PodManager

variable {c : Call} {o : Outcome} {s : System} {checked bytes : Size}

/-! ## What an allocation does -/

/-- The bytes that the post-hook of an allocation charges. -/
def Call.charged (o : Outcome) : Call → Option Size
  | .cuMemAlloc bytesize => some bytesize
  | .cuMemAllocPitch height => some (o.pitch * height)
  | .cuArrayCreate pAllocateArray => some pAllocateArray.bytes
  | .cuArray3DCreate pAllocateArray => some pAllocateArray.bytes
  | .cuMemFree _ | .cuArrayDestroy _ => none

/-- `*pPitch` after the driver function. -/
def Call.pitchAfter (o : Outcome) (s : System) : Call → Size
  | .cuMemAllocPitch _ => o.pitch
  | _ => s.pitch

/-- The driver has made the allocation. -/
def System.allocated (o : Outcome) (pitch : Size) (s : System) : System :=
  { s with live := insert o.handle s.live, pitch := pitch }

/-- The post-hook has charged it. -/
def System.charge (o : Outcome) (bytes : Size) (s : System) : System :=
  { s with
    allocationMap := Function.update s.allocationMap o.handle (some bytes)
    gpuMemUsed := s.gpuMemUsed + bytes
    podMemUsed := s.podMemUsed + bytes }

/-- What an intercepted allocation returns: the pre-hook compares one size with the remaining memory, and the
post-hook charges the other. -/
def System.allocate (o : Outcome) (checked bytes pitch : Size) (s : System) : CUresult × System :=
  if o.remain < checked then (cudaErrorOutOfMemory, s)
  else if o.driver ≠ cudaSuccess then (o.driver, s)
  else if o.verdict then (cudaSuccess, (s.allocated o pitch).charge o bytes)
  else (cudaErrorOutOfMemory, s.allocated o pitch)

theorem intercept_allocation {pre realFunc post : Function} {pitch : Size}
    (hpre : pre s = cuMemAllocPrehook o checked s)
    (hreal : realFunc s = if o.driver = cudaSuccess then (cudaSuccess, s.allocated o pitch) else (o.driver, s))
    (hpost : post (s.allocated o pitch) = cuMemAllocPosthook o bytes (s.allocated o pitch)) :
    intercept (some pre) realFunc (some post) s = s.allocate o checked bytes pitch := by
  unfold System.allocate
  split_ifs with hlt hd hv
  · exact intercept_of_blocked (hpre.trans (if_pos hlt)) (by decide)
  · exact intercept_of_failed (hpre.trans (if_neg hlt)) (hreal.trans (if_neg hd)) hd
  · rw [intercept_of_posthook (hpre.trans (if_neg hlt)) (hreal.trans (if_pos (not_not.1 hd))), hpost]
    simp [cuMemAllocPosthook, updateMemoryUsage, hv, System.charge]
  · rw [intercept_of_posthook (hpre.trans (if_neg hlt)) (hreal.trans (if_pos (not_not.1 hd))), hpost]
    simp [cuMemAllocPosthook, updateMemoryUsage, hv]

theorem run_allocation (hchecked : c.requested s = some checked) (hbytes : c.charged o = some bytes) :
    c.run o s = s.allocate o checked bytes (c.pitchAfter o s) := by
  cases c with
  | cuMemAlloc bytesize =>
    cases hchecked; cases hbytes
    unfold Call.run cuMemAlloc
    exact intercept_allocation rfl rfl rfl
  | cuMemAllocPitch height =>
    cases hchecked; cases hbytes
    unfold Call.run cuMemAllocPitch
    exact intercept_allocation rfl rfl rfl
  | cuArrayCreate d =>
    cases hchecked; cases hbytes
    unfold Call.run cuArrayCreate
    exact intercept_allocation rfl rfl rfl
  | cuArray3DCreate d =>
    cases hchecked; cases hbytes
    unfold Call.run cuArray3DCreate
    exact intercept_allocation rfl rfl rfl
  | cuMemFree dptr => cases hchecked
  | cuArrayDestroy hArray => cases hchecked

/-- A call allocates or frees. -/
theorem exists_sizes_of_not_freed (hfree : c.freed = none) (o : Outcome) (s : System) :
    ∃ checked bytes, c.requested s = some checked ∧ c.charged o = some bytes := by
  cases c with
  | cuMemFree dptr => cases hfree
  | cuArrayDestroy hArray => cases hfree
  | _ => exact ⟨_, _, rfl, rfl⟩

theorem run_allocation_succeeds (hchecked : c.requested s = some checked) (hbytes : c.charged o = some bytes) :
    (c.run o s).1 = cudaSuccess ↔ checked ≤ o.remain ∧ o.driver = cudaSuccess ∧ o.verdict = true := by
  have herr : cudaErrorOutOfMemory ≠ cudaSuccess := by decide
  rw [run_allocation hchecked hbytes, System.allocate]
  split_ifs with hlt hd hv
  · simp [herr, UInt64.not_le.mpr hlt]
  · simp [hd]
  · simp [UInt64.not_lt.mp hlt, not_not.1 hd, hv]
  · simp [herr, hv]

/-- A successful allocation. -/
theorem run_allocation_of_success (hchecked : c.requested s = some checked) (hbytes : c.charged o = some bytes)
    (h : (c.run o s).1 = cudaSuccess) : (c.run o s).2 = (s.allocated o (c.pitchAfter o s)).charge o bytes := by
  obtain ⟨hle, hd, hv⟩ := (run_allocation_succeeds hchecked hbytes).1 h
  rw [run_allocation hchecked hbytes, System.allocate, if_neg (UInt64.not_lt.mpr hle), if_neg (not_not.2 hd), if_pos hv]

/-! ## The size of an array -/

/-- The bytes of an array, where an extent of 0 stands for one dimension less. -/
def extent (width : ℕ) (others : List ℕ) (numChannels elementSize : ℕ) : ℕ :=
  width * (others.map (max · 1)).prod * numChannels * elementSize

/-- The array has no bytes, or no extent is 0 and the product of all fields does not wrap around. -/
def Measured (width : ℕ) (others : List ℕ) (numChannels elementSize : ℕ) : Prop :=
  width = 0 ∨ numChannels = 0 ∨ 0 ∉ others ∧ width * others.prod * numChannels * elementSize < 2 ^ 64

theorem extent_le_iff {width numChannels elementSize : ℕ} (others : List ℕ) (helt : 0 < elementSize) :
    extent width others numChannels elementSize ≤ (width * others.prod * numChannels * elementSize) % 2 ^ 64 ↔
      Measured width others numChannels elementSize := by
  have hmax : 0 < (others.map (max · 1)).prod := by
    apply List.prod_pos
    intro x hx
    obtain ⟨y, -, rfl⟩ := List.mem_map.1 hx
    exact lt_max_of_lt_right one_pos
  unfold extent Measured
  by_cases hw : width = 0
  · simp [hw]
  by_cases hn : numChannels = 0
  · simp [hn]
  by_cases hzero : 0 ∈ others
  · have hpos : 0 < width * (others.map (max · 1)).prod * numChannels * elementSize := by positivity
    rw [List.prod_eq_zero hzero]
    simp [hw, hn, hzero]
    omega
  · have hsame : others.map (max · 1) = others := by
      conv_rhs => rw [← List.map_id others]
      apply List.map_congr_left
      intro x hx
      have : x ≠ 0 := fun h => hzero (h ▸ hx)
      simp only [id_eq]
      omega
    rw [hsame]
    simp only [hw, hn, hzero, false_or, not_false_eq_true, true_and]
    omega

/-- The bytes that an array takes, if the call makes one. -/
def Call.needed : Call → Option ℕ
  | .cuArrayCreate d => some (extent d.width.toNat [d.height.toNat] d.numChannels.toNat d.format.toSize.toNat)
  | .cuArray3DCreate d =>
    some (extent d.width.toNat [d.height.toNat, d.depth.toNat] d.numChannels.toNat d.format.toSize.toNat)
  | _ => none

theorem ArrayFormat.toSize_pos (f : ArrayFormat) : 0 < f.toSize.toNat := by cases f <;> decide

theorem ArrayDescriptor.toNat_bytes (d : ArrayDescriptor) : d.bytes.toNat =
    (d.width.toNat * [d.height.toNat].prod * d.numChannels.toNat * d.format.toSize.toNat) % 2 ^ 64 := by
  simp [ArrayDescriptor.bytes, UInt64.toNat_mul, Nat.mod_mul_mod]

theorem Array3DDescriptor.toNat_bytes (d : Array3DDescriptor) : d.bytes.toNat =
    (d.width.toNat * [d.height.toNat, d.depth.toNat].prod * d.numChannels.toNat * d.format.toSize.toNat) % 2 ^ 64 := by
  simp [Array3DDescriptor.bytes, UInt64.toNat_mul, mul_assoc]

theorem pitch_mul_eq_iff (a b height : Size) :
    a * height = b * height ↔ (2 ^ 64 : ℤ) ∣ ((b.toNat : ℤ) - a.toNat) * height.toNat := by
  rw [← UInt64.toNat_inj, UInt64.toNat_mul, UInt64.toNat_mul]
  have h := Nat.modEq_iff_dvd (a := a.toNat * height.toNat) (b := b.toNat * height.toNat) (n := 2 ^ 64)
  push_cast at h
  rwa [← sub_mul] at h

/-! ## The size checked and the size charged -/

/-- The driver's pitch and the one in `*pPitch` make the same size; an array has no bytes, or is measured. -/
def Call.SizeKnown (o : Outcome) (s : System) : Call → Prop
  | .cuMemAllocPitch height => (2 ^ 64 : ℤ) ∣ ((o.pitch.toNat : ℤ) - s.pitch.toNat) * height.toNat
  | .cuArrayCreate d => Measured d.width.toNat [d.height.toNat] d.numChannels.toNat d.format.toSize.toNat
  | .cuArray3DCreate d => Measured d.width.toNat [d.height.toNat, d.depth.toNat]
      d.numChannels.toNat d.format.toSize.toNat
  | _ => True

/-- An allocation that the driver makes passes with the size checked and is charged the other; these are
the same, and cover an array, exactly if the size is known before. -/
theorem size_checked_charged_iff (hchecked : c.requested s = some checked) (hbytes : c.charged o = some bytes)
    (hd : o.driver = cudaSuccess) :
    (o.verdict = true → ((c.run o s).1 = cudaSuccess ↔ checked ≤ o.remain)) ∧
    ((c.run o s).1 = cudaSuccess → (c.run o s).2.allocationMap o.handle = some bytes ∧
      (c.run o s).2.gpuMemUsed = s.gpuMemUsed + bytes ∧ (c.run o s).2.podMemUsed = s.podMemUsed + bytes) ∧
    (checked = bytes ∧ (∀ n ∈ c.needed, n ≤ bytes.toNat) ↔ c.SizeKnown o s) := by
  refine ⟨fun hv => ?_, fun h => ?_, ?_⟩
  · rw [run_allocation_succeeds hchecked hbytes]
    exact ⟨fun h => h.1, fun h => ⟨h, hd, hv⟩⟩
  · rw [run_allocation_of_success hchecked hbytes h]
    exact ⟨Function.update_self .., rfl, rfl⟩
  cases c with
  | cuMemAlloc bytesize =>
    cases hchecked; cases hbytes
    exact iff_of_true ⟨rfl, nofun⟩ trivial
  | cuMemAllocPitch height =>
    cases hchecked; cases hbytes
    rw [Call.SizeKnown, ← pitch_mul_eq_iff]
    exact ⟨fun h => h.1, fun h => ⟨h, nofun⟩⟩
  | cuArrayCreate d =>
    cases hchecked; cases hbytes
    rw [Call.SizeKnown, ← extent_le_iff _ d.format.toSize_pos, ← d.toNat_bytes]
    simp [Call.needed]
  | cuArray3DCreate d =>
    cases hchecked; cases hbytes
    rw [Call.SizeKnown, ← extent_le_iff _ d.format.toSize_pos, ← d.toNat_bytes]
    simp [Call.needed]
  | cuMemFree dptr => cases hchecked
  | cuArrayDestroy hArray => cases hchecked

/-- An array of 64 times 32 elements, of two floats each. -/
def plane : ArrayDescriptor := ⟨64, 32, .float, 2⟩

theorem size_of_plane :
    (Call.cuArrayCreate plane).SizeKnown ⟨20000, cudaSuccess, 8192, 0, true⟩ ⟨∅, fun _ => none, 0, 0, 0⟩ ∧
    ((Call.cuArrayCreate plane).run ⟨20000, cudaSuccess, 8192, 0, true⟩ ⟨∅, fun _ => none, 0, 0, 0⟩).1 = cudaSuccess ∧
    ((Call.cuArrayCreate plane).run ⟨20000, cudaSuccess, 8192, 0, true⟩ ⟨∅, fun _ => none, 0, 0, 0⟩).2.gpuMemUsed =
    16384 ∧ ∀ n ∈ (Call.cuArrayCreate plane).needed, n ≤ 16384 := by
  obtain ⟨h1, h2, h3⟩ := size_checked_charged_iff (c := .cuArrayCreate plane) (o := ⟨20000, cudaSuccess, 8192, 0, true⟩)
    (s := ⟨∅, fun _ => none, 0, 0, 0⟩) rfl rfl rfl
  have hknown : (Call.cuArrayCreate plane).SizeKnown ⟨20000, cudaSuccess, 8192, 0, true⟩ ⟨∅, fun _ => none, 0, 0, 0⟩ :=
    .inr (.inr (by decide))
  have hrun := (h1 rfl).2 (by decide)
  exact ⟨hknown, hrun, (h2 hrun).2.1, (h3.2 hknown).2⟩

/-- The pre-hook takes a pitch of 0 for granted, and 51200 bytes are charged where 1000 remain; and an array of
one dimension of 1024 floats is neither checked nor charged. -/
theorem sizes_differ :
    (((Call.cuMemAllocPitch 100).run ⟨1000, cudaSuccess, 8192, 512, true⟩ ⟨∅, fun _ => none, 0, 0, 0⟩).1 = cudaSuccess ∧
      ((Call.cuMemAllocPitch 100).run ⟨1000, cudaSuccess, 8192, 512, true⟩ ⟨∅, fun _ => none, 0, 0, 0⟩).2.gpuMemUsed =
      51200) ∧
    (((Call.cuArrayCreate ⟨1024, 0, .float, 1⟩).run ⟨0, cudaSuccess, 8192, 0, true⟩ ⟨∅, fun _ => none, 0, 0, 0⟩).1 =
        cudaSuccess ∧
      ((Call.cuArrayCreate ⟨1024, 0, .float, 1⟩).run ⟨0, cudaSuccess, 8192, 0, true⟩
        ⟨∅, fun _ => none, 0, 0, 0⟩).2.gpuMemUsed = 0 ∧
      (Call.cuArrayCreate ⟨1024, 0, .float, 1⟩).needed = some 4096) := by
  decide

end Gemini.Hook.Intercept
