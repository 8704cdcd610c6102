/-
The memory account against unbounded integers. Both the sum in the check and the difference of a free
wrap around at 2^64: the account is exact as long as neither does.
-/
import Mathlib.Data.UInt
import Gemini.Lib.Run
import Gemini.PodManager.Memory

namespace Gemini.PodManager.Accounting

open Gemini.Lib

/-- A call of `hook_update_memory_usage`. -/
structure Update where
  memSize : Size
  allocate : Bool
  sockfd : ℕ
deriving DecidableEq, Repr

/-- The account, and the sum of the accepted allocations minus the frees (a ghost). -/
structure Book where
  mem : MemInfo
  exact : ℤ
deriving DecidableEq, Repr

namespace Book

/-- Nothing is in use yet. -/
def new (limit : Size) (allocationMap : List (ℕ × Size)) : Book := ⟨⟨0, limit, allocationMap⟩, 0⟩

/-- The verdict of a call. -/
def accepts (b : Book) (u : Update) : Bool := (b.mem.hookUpdateMemoryUsage u.memSize u.allocate u.sockfd).1

/-- What a call adds to the exact sum. -/
def change (b : Book) (u : Update) : ℤ :=
  if u.allocate then if b.accepts u then u.memSize.toNat else 0 else -u.memSize.toNat

def next (b : Book) (u : Update) : Book :=
  ⟨(b.mem.hookUpdateMemoryUsage u.memSize u.allocate u.sockfd).2, b.exact + b.change u⟩

def step (b : Book) (u : Update) : Option Book := some (b.next u)

/-- The account is the exact sum, within the limit. -/
structure Exact (b : Book) : Prop where
  used : (b.mem.gpuMemUsed.toNat : ℤ) = b.exact
  limit : b.exact ≤ b.mem.gpuMemLimit.toNat

/-- An allocation is accepted exactly if the exact sum stays within the limit, and the account stays exact. -/
structure Sound (b : Book) (u : Update) : Prop where
  verdict : u.allocate = true → (b.accepts u = true ↔ b.exact + u.memSize.toNat ≤ b.mem.gpuMemLimit.toNat)
  exact : (b.next u).Exact
  nonneg : 0 ≤ (b.next u).exact

/-- Neither the sum of an allocation nor the difference of a free wraps around. -/
def Fits (b : Book) (u : Update) : Prop :=
  if u.allocate then b.mem.gpuMemUsed.toNat + u.memSize.toNat < 2 ^ 64 else u.memSize.toNat ≤ b.mem.gpuMemUsed.toNat

instance (b : Book) (u : Update) : Decidable (b.Fits u) := by unfold Fits; infer_instance

variable {b : Book} {u : Update}

theorem exact_new (limit : Size) (allocationMap : List (ℕ × Size)) : (new limit allocationMap).Exact :=
  ⟨rfl, Int.natCast_nonneg _⟩

@[simp] theorem next_gpuMemLimit (b : Book) (u : Update) : (b.next u).mem.gpuMemLimit = b.mem.gpuMemLimit :=
  MemInfo.update_gpuMemLimit ..

theorem accepts_allocate (hu : u.allocate = true) :
    b.accepts u = true ↔ (b.mem.gpuMemUsed.toNat + u.memSize.toNat) % 2 ^ 64 ≤ b.mem.gpuMemLimit.toNat := by
  unfold accepts MemInfo.hookUpdateMemoryUsage
  rw [hu, if_pos rfl, ← UInt64.toNat_add, ← UInt64.le_iff_toNat_le, ← UInt64.not_lt]
  split <;> simp [*]

theorem next_accepted (hu : u.allocate = true) (ha : b.accepts u = true) :
    (b.next u).mem.gpuMemUsed = b.mem.gpuMemUsed + u.memSize ∧ (b.next u).exact = b.exact + u.memSize.toNat := by
  have hchange : b.change u = u.memSize.toNat := by rw [change, if_pos hu, if_pos ha]
  refine ⟨?_, congrArg (b.exact + ·) hchange⟩
  unfold accepts MemInfo.hookUpdateMemoryUsage at ha
  unfold next MemInfo.hookUpdateMemoryUsage
  rw [hu, if_pos rfl] at ha ⊢
  split at ha
  · cases ha
  · rw [if_neg ‹_›]

theorem next_rejected (hu : u.allocate = true) (ha : b.accepts u = false) : b.next u = b := by
  have hchange : b.change u = 0 := by rw [change, if_pos hu, ha, if_neg Bool.false_ne_true]
  unfold accepts MemInfo.hookUpdateMemoryUsage at ha
  unfold next MemInfo.hookUpdateMemoryUsage
  rw [hu, if_pos rfl] at ha ⊢
  split at ha
  · rw [if_pos ‹_›, hchange, add_zero]
  · cases ha

theorem next_free (hu : u.allocate = false) :
    (b.next u).mem.gpuMemUsed = b.mem.gpuMemUsed - u.memSize ∧ (b.next u).exact = b.exact - u.memSize.toNat := by
  unfold next change MemInfo.hookUpdateMemoryUsage
  rw [hu]
  exact ⟨rfl, rfl⟩

/-- A sum that wraps around is below the bytes in use, so it is always accepted. -/
theorem allocate_sound_iff (h : b.Exact) (hu : u.allocate = true) :
    b.Sound u ↔ b.mem.gpuMemUsed.toNat + u.memSize.toNat < 2 ^ 64 := by
  obtain ⟨hused, hlimit⟩ := h
  have hacc := accepts_allocate (b := b) hu
  have hmax := b.mem.gpuMemLimit.toNat_lt
  have hsize := u.memSize.toNat_lt
  constructor
  · intro hsound
    by_contra hwrap
    have hverdict := hsound.verdict hu
    rw [hacc] at hverdict
    omega
  · intro hfits
    rw [Nat.mod_eq_of_lt hfits] at hacc
    have hverdict : b.accepts u = true ↔ b.exact + u.memSize.toNat ≤ b.mem.gpuMemLimit.toNat := by
      rw [hacc]
      omega
    cases ha : b.accepts u with
    | true =>
      obtain ⟨h1, h2⟩ := next_accepted hu ha
      have hsum : (b.next u).mem.gpuMemUsed.toNat = b.mem.gpuMemUsed.toNat + u.memSize.toNat := by
        rw [h1, UInt64.toNat_add, Nat.mod_eq_of_lt hfits]
      have hle := hverdict.1 ha
      exact ⟨fun _ => hverdict, ⟨by omega, by rw [next_gpuMemLimit]; omega⟩, by omega⟩
    | false =>
      rw [ha] at hverdict
      exact ⟨fun _ => by rw [ha]; exact hverdict, by rw [next_rejected hu ha]; exact ⟨hused, hlimit⟩,
        by rw [next_rejected hu ha]; omega⟩

theorem free_sound_iff (h : b.Exact) (hu : u.allocate = false) :
    b.Sound u ↔ u.memSize.toNat ≤ b.mem.gpuMemUsed.toNat := by
  obtain ⟨hused, hlimit⟩ := h
  obtain ⟨h1, h2⟩ := next_free (b := b) hu
  constructor
  · intro hsound
    have := hsound.nonneg
    omega
  · intro hfits
    have hdiff : (b.next u).mem.gpuMemUsed.toNat = b.mem.gpuMemUsed.toNat - u.memSize.toNat := by
      rw [h1, UInt64.toNat_sub_of_le _ _ (UInt64.le_iff_toNat_le.2 hfits)]
    exact ⟨fun ha => absurd (hu.symm.trans ha) Bool.false_ne_true, ⟨by omega, by rw [next_gpuMemLimit]; omega⟩,
      by omega⟩

theorem sound_iff_fits (h : b.Exact) : b.Sound u ↔ b.Fits u := by
  unfold Fits
  split
  · exact allocate_sound_iff h ‹_›
  · exact free_sound_iff h (Bool.eq_false_iff.2 ‹_›)

/-- In every run, all calls keep the account exact exactly if none of them wraps around. -/
theorem exact_iff_fits (limit : Size) (allocationMap : List (ℕ × Size)) (calls : List Update) (b : Book) :
    RunWhere step Sound (new limit allocationMap) calls b ↔ RunWhere step Fits (new limit allocationMap) calls b := by
  have h0 := exact_new limit allocationMap
  constructor
  · intro h
    refine (h.with_invariant (P := Exact) ?_ h0).mono fun b u h => (sound_iff_fits h.1).1 h.2
    rintro b u _ - hsound ⟨⟩
    exact hsound.exact
  · intro h
    refine (h.with_invariant (P := Exact) ?_ h0).mono fun b u h => (sound_iff_fits h.1).2 h.2
    rintro b u _ hexact hfits ⟨⟩
    exact ((sound_iff_fits hexact).2 hfits).exact

/-- With 10 of 100 bytes in use, an allocation of 2^64 - 5 bytes is accepted; and a free of what was never
allocated leaves nearly 2^64 bytes in use. -/
theorem wraps_around :
    (∃ b, Run step (new 100 []) [⟨10, true, 4⟩, ⟨2 ^ 64 - 5, true, 4⟩] b ∧ b.mem.gpuMemUsed = 5 ∧
    b.exact = 2 ^ 64 + 5) ∧
    ∃ b, Run step (new 100 []) [⟨1, false, 4⟩] b ∧ b.mem.gpuMemUsed = 2 ^ 64 - 1 ∧ b.exact = -1 :=
  ⟨exists_runWhere (by decide +kernel), exists_runWhere (by decide +kernel)⟩

end Book

end Gemini.PodManager.Accounting
