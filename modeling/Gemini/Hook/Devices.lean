/-
Several devices under unified addressing. Both accounts and `allocation_map` are kept for each device,
and a hook uses those of the device that is current at the call. A block that is freed while another
device is current is not found there: it stays charged to its own device.
-/
import Mathlib.Data.UInt
import Gemini.Lib.Run
import Gemini.Lib.Update
import Gemini.Hook.Sizes

namespace Gemini.Hook.Devices

open Gemini.PodManager Gemini.Lib Intercept

/-! ## States -/

/-- The entries of one device, with the account of the pod manager that serves it. -/
structure Ledger where
  allocationMap : DevicePtr → Option Size
  gpuMemUsed : Size
  podMemUsed : Size

/-- A block that is charged, with the device that was current at its allocation. -/
structure Block where
  ptr : DevicePtr
  device : ℕ
  bytes : Size
deriving DecidableEq, Repr

/-- The driver's live allocations, the ledgers, and the charged blocks among the live ones (a ghost). -/
structure State where
  live : Finset DevicePtr
  ledgers : ℕ → Ledger
  blocks : List Block

inductive Event where
  /-- an intercepted call while `device` is current -/
  | call (device : ℕ) (pitch : Size) (o : Outcome) (c : Call)
  /-- `cuMemAllocManaged` or `cuMipmappedArrayCreate`, whose hooks do nothing -/
  | uncharged (ptr : DevicePtr)

namespace State

/-- Nothing is allocated. -/
def init (gpuMemUsed podMemUsed : ℕ → Size) : State :=
  ⟨∅, fun d => ⟨fun _ => none, gpuMemUsed d, podMemUsed d⟩, []⟩

/-- What a call sees while `device` is current. -/
def view (device : ℕ) (pitch : Size) (s : State) : System :=
  ⟨s.live, (s.ledgers device).allocationMap, (s.ledgers device).gpuMemUsed, (s.ledgers device).podMemUsed, pitch⟩

def store (device : ℕ) (t : System) (s : State) : State :=
  { s with
    live := t.live
    ledgers := Function.update s.ledgers device ⟨t.allocationMap, t.gpuMemUsed, t.podMemUsed⟩ }

/-- The charged blocks after a call. -/
def blocksAfter (device : ℕ) (o : Outcome) (s : State) (c : Call) : List Block :=
  match c.freed with
  | some ptr => s.blocks.filter fun b => b.ptr ≠ ptr
  | none => ⟨o.handle, device, (c.charged o).getD 0⟩ :: s.blocks

/-- The driver frees what is live, and returns no address that is still allocated. -/
def Allowed (o : Outcome) (s : State) (c : Call) : Prop :=
  match c.freed with
  | some ptr => ptr ∈ s.live
  | none => o.handle ∉ s.live

instance (o : Outcome) (s : State) (c : Call) : Decidable (s.Allowed o c) := by
  unfold Allowed
  split <;> infer_instance

/-- A successful call. -/
def step (s : State) : Event → Option State
  | .call device pitch o c =>
    if s.Allowed o c ∧ (c.run o (s.view device pitch)).1 = cudaSuccess then
      some { s.store device (c.run o (s.view device pitch)).2 with blocks := s.blocksAfter device o c }
    else none
  | .uncharged ptr => if ptr ∈ s.live then none else some { s with live := insert ptr s.live }

/-- A charged block is freed while its own device is current, or it has no bytes. -/
def FreedOn (device : ℕ) (ptr : DevicePtr) (bs : List Block) : Prop :=
  ∀ b ∈ bs, b.ptr = ptr → b.device = device ∨ b.bytes = 0

instance (device : ℕ) (ptr : DevicePtr) (bs : List Block) : Decidable (FreedOn device ptr bs) := by
  unfold FreedOn; infer_instance

def OnOwnDevice (s : State) : Event → Prop
  | .call device _ _ c =>
    match c.freed with
    | some ptr => FreedOn device ptr s.blocks
    | none => True
  | .uncharged _ => True

instance (s : State) (e : Event) : Decidable (s.OnOwnDevice e) := by
  unfold OnOwnDevice
  split
  · split <;> infer_instance
  · infer_instance

/-! ## The accounts -/

/-- The bytes of the blocks charged to a device, modulo 2^64. -/
def charged (device : ℕ) (bs : List Block) : Size := (bs.map fun b => if b.device = device then b.bytes else 0).sum

/-- Both accounts of every device are its charged blocks, on top of what they were. -/
def Balanced (gpuMemUsed podMemUsed : ℕ → Size) (s : State) : Prop :=
  ∀ d, (s.ledgers d).gpuMemUsed = gpuMemUsed d + charged d s.blocks ∧
    (s.ledgers d).podMemUsed = podMemUsed d + charged d s.blocks

/-- The entries are the charged blocks, but for entries of no bytes. -/
structure Inv (gpuMemUsed podMemUsed : ℕ → Size) (s : State) : Prop where
  distinct : (s.blocks.map Block.ptr).Nodup
  live : ∀ b ∈ s.blocks, b.ptr ∈ s.live
  entered : ∀ b ∈ s.blocks, (s.ledgers b.device).allocationMap b.ptr = some b.bytes
  entries : ∀ d ptr n, (s.ledgers d).allocationMap ptr = some n → n = 0 ∨ ⟨ptr, d, n⟩ ∈ s.blocks
  balanced : s.Balanced gpuMemUsed podMemUsed

variable {used pod : ℕ → Size} {s s' : State} {e : Event} {d : ℕ} {ptr : DevicePtr} {bytes : Size}

theorem inv_init (used pod : ℕ → Size) : Inv used pod (init used pod) :=
  ⟨.nil, nofun, nofun, nofun, fun d => ⟨(add_zero (used d)).symm, (add_zero (pod d)).symm⟩⟩

/-! ## What a call does -/

end State

namespace Ledger

variable (ptr : DevicePtr) (bytes : Size) (l : Ledger)

def charge : Ledger := ⟨Function.update l.allocationMap ptr (some bytes), l.gpuMemUsed + bytes, l.podMemUsed + bytes⟩

/-- The bytes of the entry of an address, 0 if there is none. -/
def entry : Size := (l.allocationMap ptr).getD 0

def uncharge : Ledger :=
  ⟨Function.update l.allocationMap ptr none, l.gpuMemUsed - l.entry ptr, l.podMemUsed - l.entry ptr⟩

end Ledger

namespace State

variable {used pod : ℕ → Size} {s s' : State} {e : Event} {d : ℕ} {ptr : DevicePtr} {bytes : Size} {c : Call}
  {o : Outcome}

def allocate (d : ℕ) (ptr : DevicePtr) (bytes : Size) (s : State) : State :=
  ⟨insert ptr s.live, Function.update s.ledgers d ((s.ledgers d).charge ptr bytes), ⟨ptr, d, bytes⟩ :: s.blocks⟩

def free (d : ℕ) (ptr : DevicePtr) (s : State) : State :=
  ⟨s.live.erase ptr, Function.update s.ledgers d ((s.ledgers d).uncharge ptr), s.blocks.filter fun b => b.ptr ≠ ptr⟩

/-- A free that succeeds. -/
theorem run_free_of_success (hfree : c.freed = some ptr) {t : System} (h : (c.run o t).1 = cudaSuccess) :
    (c.run o t).2 = { (cuMemFreePrehook o ptr t).2 with live := (cuMemFreePrehook o ptr t).2.live.erase ptr } := by
  have hpre : cuMemFreePrehook o ptr t = (cudaSuccess, (cuMemFreePrehook o ptr t).2) := by
    unfold cuMemFreePrehook
    split <;> rfl
  have hrun : c.run o t = intercept (some (cuMemFreePrehook o ptr)) (release o ptr) none t := by
    cases c <;> cases hfree <;> rfl
  rw [hrun] at h ⊢
  by_cases hd : o.driver = cudaSuccess
  · rw [intercept_of_done hpre (if_pos hd)]
  · rw [intercept_of_failed hpre (if_neg hd) hd] at h
    exact absurd h hd

/-- The pre-hook of a free takes the bytes of the entry off both accounts. -/
theorem store_free (d : ℕ) (pitch : Size) (o : Outcome) (ptr : DevicePtr) (s : State) :
    let t := (cuMemFreePrehook o ptr (s.view d pitch)).2
    s.store d { t with live := t.live.erase ptr } =
      ⟨s.live.erase ptr, Function.update s.ledgers d ((s.ledgers d).uncharge ptr), s.blocks⟩ := by
  cases hmap : (s.ledgers d).allocationMap ptr with
  | none =>
    have hsame : Function.update (s.ledgers d).allocationMap ptr none = (s.ledgers d).allocationMap := by
      rw [← hmap, Function.update_eq_self]
    simp [cuMemFreePrehook, view, store, Ledger.uncharge, Ledger.entry, hmap, hsame]
  | some bytes =>
    simp [cuMemFreePrehook, updateMemoryUsage, view, store, Ledger.uncharge, Ledger.entry, hmap]

/-- A call charges a block that was not allocated, or frees one that was. -/
theorem call_some {pitch : Size} (h : s.step (.call d pitch o c) = some s') :
    (∃ ptr, c.freed = some ptr ∧ s' = s.free d ptr) ∨
    c.freed = none ∧ o.handle ∉ s.live ∧ ∃ bytes, s' = s.allocate d o.handle bytes := by
  unfold step at h
  simp only at h
  split at h
  · rename_i hcond
    obtain ⟨hallowed, hsuccess⟩ := hcond
    cases h
    cases hfree : c.freed with
    | some ptr =>
      refine .inl ⟨ptr, rfl, ?_⟩
      rw [run_free_of_success hfree hsuccess, store_free, blocksAfter, hfree]
      rfl
    | none =>
      obtain ⟨checked, bytes, hchecked, hbytes⟩ := exists_sizes_of_not_freed hfree o (s.view d pitch)
      refine .inr ⟨rfl, by simpa [Allowed, hfree] using hallowed, bytes, ?_⟩
      rw [run_allocation_of_success hchecked hbytes hsuccess, blocksAfter, hfree, hbytes]
      rfl
  · cases h

theorem inv_allocate (h : Inv used pod s) (hptr : ptr ∉ s.live) (d : ℕ) (bytes : Size) :
    Inv used pod (s.allocate d ptr bytes) := by
  have hnew : ∀ b ∈ s.blocks, b.ptr ≠ ptr := fun b hb hptr' => hptr (hptr' ▸ h.live b hb)
  refine ⟨?_, ?_, ?_, ?_, ?_⟩
  · refine List.nodup_cons.2 ⟨fun hmem => ?_, h.distinct⟩
    obtain ⟨b, hb, hbptr⟩ := List.mem_map.1 hmem
    exact hnew b hb hbptr
  · intro b hb
    rcases List.mem_cons.1 hb with rfl | hb
    · exact Finset.mem_insert_self ..
    · exact Finset.mem_insert_of_mem (h.live b hb)
  · intro b hb
    rcases List.mem_cons.1 hb with rfl | hb
    · simp [allocate, Ledger.charge]
    · have hne := hnew b hb
      have hold := h.entered b hb
      by_cases hd : b.device = d
      · subst hd
        simp [allocate, Ledger.charge, hne, hold]
      · simp [allocate, hd, hold]
  · intro d' ptr' n hn
    by_cases hd : d' = d
    · subst hd
      by_cases hptr' : ptr' = ptr
      · subst hptr'
        obtain rfl : bytes = n := by simpa [allocate, Ledger.charge] using hn
        exact .inr (List.mem_cons_self ..)
      · have hold : (s.ledgers d').allocationMap ptr' = some n := by simpa [allocate, Ledger.charge, hptr'] using hn
        exact (h.entries d' ptr' n hold).imp_right (List.mem_cons_of_mem _)
    · have hold : (s.ledgers d').allocationMap ptr' = some n := by simpa [allocate, hd] using hn
      exact (h.entries d' ptr' n hold).imp_right (List.mem_cons_of_mem _)
  · intro d'
    obtain ⟨h1, h2⟩ := h.balanced d'
    have hcharged : charged d' (s.allocate d ptr bytes).blocks = (if d = d' then bytes else 0) + charged d' s.blocks :=
      rfl
    rw [hcharged]
    by_cases hd : d' = d
    · subst hd
      simp only [allocate, Function.update_self, Ledger.charge, if_true, h1, h2]
      exact ⟨by rw [add_assoc, add_comm bytes], by rw [add_assoc, add_comm bytes]⟩
    · simp [allocate, hd, Ne.symm hd, h1, h2]

/-- The entry of a charged block on its device, and no bytes on the others. -/
theorem entry_eq (h : Inv used pod s) {b : Block} (hb : b ∈ s.blocks) (d : ℕ) :
    (s.ledgers d).entry b.ptr = if b.device = d then b.bytes else 0 := by
  unfold Ledger.entry
  split
  · rename_i hd
    subst hd
    rw [h.entered b hb, Option.getD_some]
  · rename_i hd
    cases hmap : (s.ledgers d).allocationMap b.ptr with
    | none => rfl
    | some n =>
      rcases h.entries d b.ptr n hmap with hn | hmem
      · exact hn
      · -- another block of the same address
        have hsame := List.inj_on_of_nodup_map h.distinct hb hmem rfl
        exact absurd (congrArg Block.device hsame) hd

theorem entry_of_uncharged (h : Inv used pod s) (hptr : ∀ b ∈ s.blocks, b.ptr ≠ ptr) (d : ℕ) :
    (s.ledgers d).entry ptr = 0 := by
  unfold Ledger.entry
  cases hmap : (s.ledgers d).allocationMap ptr with
  | none => rfl
  | some n => exact (h.entries d ptr n hmap).resolve_right fun hmem => hptr _ hmem rfl

/-- A free keeps the accounts of all devices exactly if the block is freed on its own device. -/
theorem balanced_free_iff (h : Inv used pod s) (d : ℕ) (ptr : DevicePtr) :
    (s.free d ptr).Balanced used pod ↔ FreedOn d ptr s.blocks := by
  by_cases hptr : ∀ b ∈ s.blocks, b.ptr ≠ ptr
  · have hkeep : (s.free d ptr).blocks = s.blocks := List.filter_eq_self.2 fun b hb => by simpa using hptr b hb
    refine iff_of_true (fun d' => ?_) fun b hb hbptr => absurd hbptr (hptr b hb)
    obtain ⟨h1, h2⟩ := h.balanced d'
    rw [hkeep]
    by_cases hd : d' = d
    · subst hd
      simp [free, Ledger.uncharge, entry_of_uncharged h hptr, h1, h2]
    · simp [free, hd, h1, h2]
  push Not at hptr
  obtain ⟨b, hb, rfl⟩ := hptr
  have hfreed : FreedOn d b.ptr s.blocks ↔ b.device = d ∨ b.bytes = 0 := by
    refine ⟨fun hon => hon b hb rfl, fun hon b' hb' hptr' => ?_⟩
    rwa [List.inj_on_of_nodup_map h.distinct hb' hb hptr']
  have hsum (d' : ℕ) : charged d' (s.free d b.ptr).blocks + (if b.device = d' then b.bytes else 0) =
    charged d' s.blocks :=
    sum_filter_ne h.distinct hb fun b => if b.device = d' then b.bytes else 0
  rw [hfreed]
  constructor
  · intro hbal
    by_contra hnot
    push Not at hnot
    obtain ⟨hd, hbytes⟩ := hnot
    -- the account of its device has not changed
    have hsame := (hbal b.device).1
    have hold := (h.balanced b.device).1
    have hsumb := hsum b.device
    rw [if_pos rfl] at hsumb
    simp only [free, Function.update_of_ne hd] at hsame hsumb
    rw [hold, ← hsumb] at hsame
    exact hbytes (by simpa using hsame)
  · intro hon d'
    obtain ⟨h1, h2⟩ := h.balanced d'
    rw [← hsum d'] at h1 h2
    by_cases hd : d' = d
    · subst hd
      have hentry := entry_eq h hb d'
      simp only [free, Function.update_self, Ledger.uncharge, hentry] at h1 h2 ⊢
      exact ⟨by rw [h1, ← add_assoc, UInt64.add_sub_cancel], by rw [h2, ← add_assoc, UInt64.add_sub_cancel]⟩
    · have hzero : (if b.device = d' then b.bytes else 0) = 0 := by
        rcases hon with hown | hbytes
        · rw [if_neg fun hd' => hd (hd'.symm.trans hown)]
        · rw [hbytes, ite_self]
      rw [hzero, add_zero] at h1 h2
      rw [← h1, ← h2]
      simp [free, hd]

theorem inv_free (h : Inv used pod s) (hon : FreedOn d ptr s.blocks) : Inv used pod (s.free d ptr) := by
  refine ⟨h.distinct.sublist ((List.filter_sublist).map _), fun b hb => ?_, fun b hb => ?_, fun d' ptr' n hn => ?_,
    (balanced_free_iff h d ptr).2 hon⟩
  · obtain ⟨hb, hne⟩ := List.mem_filter.1 hb
    exact Finset.mem_erase.2 ⟨by simpa using hne, h.live b hb⟩
  · obtain ⟨hb, hne⟩ := List.mem_filter.1 hb
    have hne : b.ptr ≠ ptr := by simpa using hne
    have hold := h.entered b hb
    by_cases hd : b.device = d
    · subst hd
      simp [free, Ledger.uncharge, hne, hold]
    · simp [free, hd, hold]
  · have hold : (s.ledgers d').allocationMap ptr' = some n ∧ (d' = d → ptr' ≠ ptr) := by
      by_cases hd : d' = d
      · subst hd
        by_cases hptr' : ptr' = ptr
        · subst hptr'
          simp [free, Ledger.uncharge] at hn
        · exact ⟨by simpa [free, Ledger.uncharge, hptr'] using hn, fun _ => hptr'⟩
      · exact ⟨by simpa [free, hd] using hn, fun h => absurd h hd⟩
    rcases h.entries d' ptr' n hold.1 with hzero | hmem
    · exact .inl hzero
    · by_cases hptr' : ptr' = ptr
      · rcases hon _ hmem hptr' with hd | hzero
        · exact absurd hptr' (hold.2 hd)
        · exact .inl hzero
      · exact .inr (List.mem_filter.2 ⟨hmem, by simpa using hptr'⟩)

theorem inv_step (h : Inv used pod s) (hon : s.OnOwnDevice e) (hs : s.step e = some s') : Inv used pod s' := by
  cases e with
  | call device pitch o c =>
    rcases call_some hs with ⟨ptr, hfree, rfl⟩ | ⟨-, hnew, bytes, rfl⟩
    · simp only [OnOwnDevice, hfree] at hon
      exact inv_free h hon
    · exact inv_allocate h hnew device bytes
  | uncharged ptr =>
    unfold step at hs
    simp only at hs
    split at hs
    · cases hs
    · cases hs
      exact ⟨h.distinct, fun b hb => Finset.mem_insert_of_mem (h.live b hb), h.entered, h.entries, h.balanced⟩

/-- Whatever devices are current, once all that was allocated is freed, both accounts of every device are
what they were, if each charged block was freed while its own device was current. -/
theorem accounts_restored {es : List Event} (hrun : RunWhere step OnOwnDevice (init used pod) es s)
    (hlive : s.live = ∅) : ∀ d, (s.ledgers d).gpuMemUsed = used d ∧ (s.ledgers d).podMemUsed = pod d := by
  have h : Inv used pod s := hrun.invariant (fun _ _ _ => inv_step) (inv_init used pod)
  have hblocks : s.blocks = [] := by
    rw [List.eq_nil_iff_forall_not_mem]
    intro b hb
    have hmem := h.live b hb
    rw [hlive] at hmem
    exact Finset.notMem_empty _ hmem
  intro d
  obtain ⟨h1, h2⟩ := h.balanced d
  rw [hblocks] at h1 h2
  exact ⟨h1.trans (add_zero _), h2.trans (add_zero _)⟩

/-- `cuMemAlloc` of 10 bytes, with 100 bytes remaining. -/
def alloc (device : ℕ) (ptr : DevicePtr) : Event := .call device 0 ⟨100, cudaSuccess, ptr, 0, true⟩ (.cuMemAlloc 10)

def release (device : ℕ) (ptr : DevicePtr) : Event := .call device 0 ⟨0, cudaSuccess, 0, 0, true⟩ (.cuMemFree ptr)

/-- Three blocks, of which one is not charged and is freed while another device is current. -/
def switching : List Event :=
  [alloc 0 4096, alloc 1 8192, .uncharged 12288, release 1 8192, release 1 12288, release 0 4096]

theorem accounts_restored_after_switching : ∃ s, RunWhere step OnOwnDevice (init (fun _ => 5) fun _ => 7) switching s ∧
    s.live = ∅ ∧ ∀ d, (s.ledgers d).gpuMemUsed = 5 ∧ (s.ledgers d).podMemUsed = 7 := by
  have hrun : ∃ s, RunWhere step OnOwnDevice (init (fun _ => 5) fun _ => 7) switching s ∧ s.live = ∅ :=
    exists_runWhere (by decide +kernel)
  obtain ⟨s, hrun, hlive⟩ := hrun
  exact ⟨s, hrun, hlive, accounts_restored hrun hlive⟩

/-- A block of device 0 is freed while device 1 is current, and its bytes stay charged. -/
theorem accounts_not_restored : ∃ s, Run step (init (fun _ => 0) fun _ => 0) [alloc 0 4096, release 1 4096] s ∧
    s.live = ∅ ∧ (s.ledgers 0).gpuMemUsed = 10 ∧ (s.ledgers 0).podMemUsed = 10 :=
  exists_runWhere (by decide +kernel)

end State

end Gemini.Hook.Devices
