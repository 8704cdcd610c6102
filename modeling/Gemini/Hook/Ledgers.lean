/-
The ledgers of the hooks and of the pod manager. A hook adds a block to its own ledger after the pod
manager has accepted it, and takes it from there before the pod manager hears of it; in between, the
bytes are in transit. What the pod manager counts is what the hooks count and what is in transit, in
every state. What a hook counts is what its `allocation_map` holds, as long as no entry is written over.

An entry is written over if the driver grants an address twice that is registered twice: a
`cuMemFree` of the first grant that comes before its post-hook finds no entry, and the driver releases
the block all the same.
-/
import Mathlib.Data.UInt
import Gemini.Lib.Update
import Gemini.Hook.MemoryLimit

namespace Gemini.Hook.Memory

open Gemini.PodManager Gemini.Lib

/-! ## Statement -/

/-- The sum of the sizes in `allocation_map`, modulo 2^64. -/
def Process.mapped (p : Process) : Size := (p.allocationMap.map Block.size).sum

namespace Call

/-- The bytes that the pod manager counts and the hook does not. -/
def inTransit : Call → Size
  | .verdict b true => b.size
  | .uncharge b => b.size
  | _ => 0

/-- The entry that is being freed. -/
def freeing : Call → Option Block
  | .uncharge b => some b
  | .erase b => some b
  | _ => .none

/-- The bytes that are still in the map, and not counted any more. -/
def freed (c : Call) : Size := (c.freeing.map Block.size).getD 0

/-- The entry that is about to be written. -/
def registering : Call → Option Block
  | .verdict b true => some b
  | _ => .none

/-- A free of the address is not complete. -/
def FreeOf (ptr : DevicePtr) : Call → Prop
  | .lookup p => p = ptr
  | .uncharge b => b.ptr = ptr
  | .erase b => b.ptr = ptr
  | .release p => p = ptr
  | _ => False

instance (ptr : DevicePtr) (c : Call) : Decidable (c.FreeOf ptr) := by cases c <;> unfold FreeOf <;> infer_instance

end Call

namespace State

/-- The driver grants no address whose free is not complete, besides none that is allocated. -/
def GrantsFreed (s : State) : Event → Prop
  | .grant t ptr => ∀ u : Thread, u.process = t.process → ¬ (s.calls u).FreeOf ptr
  | _ => True

/-- What is written into `allocation_map` writes over no bytes. -/
def KeepsEntries (s : State) : Event → Prop
  | .advance t => ∀ b ∈ (s.calls t).registering, ∀ c ∈ (s.processes t.process).allocationMap, c.ptr = b.ptr → c.size = 0
  | _ => True

instance (s : State) (e : Event) : Decidable (s.KeepsEntries e) :=
  match e with
  | .advance t =>
      inferInstanceAs (Decidable (∀ b ∈ (s.calls t).registering, ∀ c ∈ (s.processes t.process).allocationMap,
      c.ptr = b.ptr → c.size = 0))
  | .cuMemAlloc .. | .cuMemFree .. | .grant .. => .isTrue trivial

end State

/-! ## Sums over a map -/

section

variable {bs : List Block} {b : Block}

/-- Without entries of no bytes. -/
theorem sum_filter_of_zero {ptr : DevicePtr} (h : ∀ c ∈ bs, c.ptr = ptr → c.size = 0) :
    ((bs.filter fun c => c.ptr ≠ ptr).map Block.size).sum = (bs.map Block.size).sum := by
  have hzero : ((bs.filter fun c => !decide (c.ptr ≠ ptr)).map Block.size).sum = 0 := by
    apply List.sum_eq_zero
    intro x hx
    obtain ⟨c, hc, rfl⟩ := List.mem_map.1 hx
    obtain ⟨hc, hptr⟩ := List.mem_filter.1 hc
    exact h c hc (by simpa using hptr)
  have hsplit := ((List.filter_append_perm (fun c => decide (c.ptr ≠ ptr)) bs).map Block.size).sum_eq
  rw [← hsplit, List.map_append, List.sum_append, hzero, add_zero]

end

/-! ## The invariant -/

/-- The pod manager counts what the hooks count and what is in transit. A hook counts what is in its
map, but for the entry that the holder of its lock is freeing. The calls are those of the threads `T`. -/
structure Agree (T : Finset Thread) (s : State) : Prop where
  idle : ∀ t, t ∉ T → s.calls t = .none
  unused : ∀ p, p ∉ T.image Thread.process → (s.processes p).gpuMemUsed = 0
  pod : s.pod.gpuMemUsed = ∑ p ∈ T.image Thread.process, (s.processes p).gpuMemUsed + ∑ t ∈ T, (s.calls t).inTransit
  own : ∀ p, (s.processes p).mapped = (s.processes p).gpuMemUsed + ∑ t ∈ T with t.process = p, (s.calls t).freed
  distinct : ∀ p, ((s.processes p).allocationMap.map Block.ptr).Nodup
  locks : ∀ t b, (s.calls t).freeing = some b →
    (s.processes t.process).allocationMutex = some t ∧ b ∈ (s.processes t.process).allocationMap

variable {T : Finset Thread} {limit : Size} {s s' : State} {t u : Thread} {b : Block} {c : Call}

theorem agree_init (T : Finset Thread) (limit : Size) : Agree T (.init limit) := by
  refine ⟨fun _ _ => rfl, fun _ _ => rfl, ?_, fun p => ?_, fun _ => List.nodup_nil, fun t b h => ?_⟩
  · simp [State.init, Call.inTransit]
  · simp [State.init, Process.mapped, Call.freed, Call.freeing]
  · cases h

/-- A thread moves, and the processes stay as they are. -/
theorem Agree.move (h : Agree T s) (ht : t ∈ T) (hcalls : s'.calls = Function.update s.calls t c)
    (hprocesses : s'.processes = s.processes)
    (hpod : s'.pod.gpuMemUsed + (s.calls t).inTransit = s.pod.gpuMemUsed + c.inTransit)
    (hfree : c.freeing = (s.calls t).freeing) : Agree T s' := by
  have hfreeing : ∀ u, (s'.calls u).freeing = (s.calls u).freeing := by
    intro u
    rw [hcalls]
    by_cases hu : u = t
    · subst hu; rw [Function.update_self, hfree]
    · rw [update_ne hu]
  refine ⟨fun u hu => ?_, ?_, ?_, fun p => ?_, ?_, fun u b hb => ?_⟩
  · rw [hcalls, update_ne (by rintro rfl; exact hu ht)]
    exact h.idle u hu
  · rw [hprocesses]; exact h.unused
  · have hsum := sum_update_add s.calls ht Call.inTransit c
    rw [← hcalls] at hsum
    apply add_right_cancel (b := (s.calls t).inTransit)
    rw [hpod, h.pod, hprocesses, add_assoc, add_assoc, hsum]
  · simp only [Call.freed, hfreeing, hprocesses]
    exact h.own p
  · rw [hprocesses]; exact h.distinct
  · rw [hfreeing] at hb
    rw [hprocesses]
    exact h.locks u b hb

/-- A thread moves, and changes its process, in which no other thread is freeing. -/
theorem Agree.modify (h : Agree T s) (ht : t ∈ T) {f : Process → Process}
    (hcalls : s'.calls = Function.update s.calls t c)
    (hprocesses : s'.processes = Function.update s.processes t.process (f (s.processes t.process)))
    (hmem : s'.pod = s.pod) (hothers : ∀ u, u ≠ t → u.process = t.process → (s.calls u).freeing = .none)
    (hpod : (f (s.processes t.process)).gpuMemUsed + c.inTransit =
      (s.processes t.process).gpuMemUsed + (s.calls t).inTransit)
    (hown : (f (s.processes t.process)).mapped + ((s.processes t.process).gpuMemUsed + (s.calls t).freed) =
      (s.processes t.process).mapped + ((f (s.processes t.process)).gpuMemUsed + c.freed))
    (hdistinct : ((f (s.processes t.process)).allocationMap.map Block.ptr).Nodup)
    (hlocks : ∀ b, c.freeing = some b → (f (s.processes t.process)).allocationMutex = some t ∧
      b ∈ (f (s.processes t.process)).allocationMap) : Agree T s' := by
  have hproc : t.process ∈ T.image Thread.process := Finset.mem_image_of_mem _ ht
  refine ⟨fun u hu => ?_, fun p hp => ?_, ?_, fun p => ?_, fun p => ?_, fun u b hb => ?_⟩
  · rw [hcalls, update_ne (by rintro rfl; exact hu ht)]
    exact h.idle u hu
  · rw [hprocesses, Function.update_of_ne (by rintro rfl; exact hp hproc)]
    exact h.unused p hp
  · have hcount := sum_update_add s.calls ht Call.inTransit c
    have hused := sum_update_add s.processes hproc Process.gpuMemUsed (f (s.processes t.process))
    rw [← hcalls] at hcount
    rw [← hprocesses] at hused
    rw [hmem, h.pod]
    apply add_right_cancel (b := (s.processes t.process).gpuMemUsed + (s.calls t).inTransit)
    calc _ = (∑ p ∈ T.image Thread.process, (s.processes p).gpuMemUsed + ∑ t ∈ T, (s.calls t).inTransit) +
          ((f (s.processes t.process)).gpuMemUsed + c.inTransit) := by rw [hpod]
      _ = (∑ p ∈ T.image Thread.process, (s.processes p).gpuMemUsed + (f (s.processes t.process)).gpuMemUsed) +
          (∑ t ∈ T, (s.calls t).inTransit + c.inTransit) := by abel
      _ = (∑ p ∈ T.image Thread.process, (s'.processes p).gpuMemUsed + (s.processes t.process).gpuMemUsed) +
          (∑ t ∈ T, (s'.calls t).inTransit + (s.calls t).inTransit) := by rw [hused, hcount]
      _ = _ := by abel
  · rw [hprocesses, hcalls]
    by_cases hp : p = t.process
    · subst hp
      have hmemT : t ∈ T.filter fun u => u.process = t.process := Finset.mem_filter.2 ⟨ht, rfl⟩
      have hsum := sum_update_add s.calls hmemT Call.freed c
      rw [Function.update_self]
      apply add_right_cancel (b := (s.processes t.process).gpuMemUsed + (s.calls t).freed)
      calc _ = (s.processes t.process).mapped + ((f (s.processes t.process)).gpuMemUsed + c.freed) := hown
        _ = ((s.processes t.process).gpuMemUsed + ∑ u ∈ T with u.process = t.process, (s.calls u).freed) +
            ((f (s.processes t.process)).gpuMemUsed + c.freed) := by rw [h.own]
        _ = (s.processes t.process).gpuMemUsed + (f (s.processes t.process)).gpuMemUsed +
            (∑ u ∈ T with u.process = t.process, (s.calls u).freed + c.freed) := by abel
        _ = (s.processes t.process).gpuMemUsed + (f (s.processes t.process)).gpuMemUsed +
            (∑ u ∈ T with u.process = t.process, (Function.update s.calls t c u).freed + (s.calls t).freed) := by
            rw [hsum]
        _ = _ := by abel
    · rw [Function.update_of_ne hp, sum_update_of_notMem _ (by simp [Ne.symm hp]) Call.freed]
      exact h.own p
  · rw [hprocesses]
    by_cases hp : p = t.process
    · subst hp; rw [Function.update_self]; exact hdistinct
    · rw [Function.update_of_ne hp]; exact h.distinct p
  · rw [hcalls] at hb
    rw [hprocesses]
    by_cases hu : u = t
    · subst hu
      rw [Function.update_self] at hb ⊢
      exact hlocks b hb
    · rw [update_ne hu] at hb
      have hne : u.process ≠ t.process := by
        intro he
        rw [hothers u hu he] at hb
        cases hb
      rw [Function.update_of_ne hne]
      exact h.locks u b hb

/-! ## What each step preserves -/

theorem Agree.unlocked (h : Agree T s) (hfree : (s.processes t.process).allocationMutex = .none)
    (hp : u.process = t.process) : (s.calls u).freeing = .none := by
  by_contra hne
  obtain ⟨b, hb⟩ := Option.ne_none_iff_exists'.1 hne
  have hlock := (h.locks u b hb).1
  rw [hp, hfree] at hlock
  cases hlock

/-- The pod manager's answer to an allocation, in bytes. -/
theorem update_allocate_used (m : MemInfo) (size : Size) (sockfd : ℕ) (b : Block) (hb : b.size = size) :
    (m.hookUpdateMemoryUsage size true sockfd).2.gpuMemUsed =
      m.gpuMemUsed + (Call.verdict b (m.hookUpdateMemoryUsage size true sockfd).1).inTransit := by
  unfold MemInfo.hookUpdateMemoryUsage
  rw [if_pos rfl]
  split
  · exact (add_zero _).symm
  · rw [← hb]; rfl

theorem agree_insert (h : Agree T s) (hT : t ∈ T) (ht : s.calls t = .verdict b true)
    (hfree : (s.processes t.process).allocationMutex = .none)
    (hkeep : ∀ c ∈ (s.processes t.process).allocationMap, c.ptr = b.ptr → c.size = 0) :
    Agree T ((s.modify t.process (.insert b)).ret t .success) := by
  refine h.modify hT rfl rfl rfl (fun u _ hp => h.unlocked hfree hp) ?_ ?_ ?_ (fun _ hc => by cases hc)
  · rw [ht]
    simp [Process.insert, Call.inTransit]
  · rw [ht]
    simp only [Process.insert, Process.mapped, List.map_append, List.sum_append, sum_filter_of_zero hkeep, Call.freed,
      Call.freeing, Option.map_none, Option.getD_none, List.map_cons, List.map_nil, List.sum_cons, List.sum_nil]
    abel
  · simp only [Process.insert, List.map_append, List.map_cons, List.map_nil]
    rw [List.nodup_append]
    refine ⟨(h.distinct t.process).sublist (List.filter_sublist.map _), List.nodup_singleton _, ?_⟩
    rintro x hx y hy rfl
    obtain ⟨c, hc, hcb⟩ := List.mem_map.1 hx
    obtain rfl := List.mem_singleton.1 hy
    simpa [hcb] using (List.mem_filter.1 hc).2

theorem agree_beginFree (h : Agree T s) (hT : t ∈ T) {ptr : DevicePtr} (ht : s.calls t = .lookup ptr)
    (hfree : (s.processes t.process).allocationMutex = .none) (hfind : (s.processes t.process).find ptr = some b) :
    Agree T ((s.modify t.process (.beginFree t b)).goto t (.uncharge b)) := by
  refine h.modify hT rfl rfl rfl (fun u _ hp => h.unlocked hfree hp) ?_ ?_ (h.distinct t.process) ?_
  · rw [ht]
    simp [Process.beginFree, Call.inTransit]
  · rw [ht]
    simp only [Process.beginFree, Process.mapped, Call.freed, Call.freeing, Option.map_none, Option.getD_none,
      Option.map_some, Option.getD_some]
    abel
  · intro c hc
    cases hc
    exact ⟨rfl, List.mem_of_find?_eq_some hfind⟩

theorem agree_erase (h : Agree T s) (hT : t ∈ T) (ht : s.calls t = .erase b) :
    Agree T ((s.modify t.process (.erase b.ptr)).goto t (.release b.ptr)) := by
  obtain ⟨hlock, hin⟩ := h.locks t b (by rw [ht]; rfl)
  refine h.modify hT rfl rfl rfl (fun u hu hp => ?_) ?_ ?_ ?_ (fun _ hc => by cases hc)
  · by_contra hne
    obtain ⟨c, hc⟩ := Option.ne_none_iff_exists'.1 hne
    have hlock' := (h.locks u c hc).1
    rw [hp, hlock] at hlock'
    exact hu (Option.some.inj hlock').symm
  · rw [ht]
    simp [Process.erase, Call.inTransit]
  · rw [ht]
    simp only [Process.erase, Process.mapped, Call.freed, Call.freeing, Option.map_none, Option.getD_none,
      Option.map_some, Option.getD_some, add_zero]
    rw [← sum_filter_ne (h.distinct t.process) hin Block.size]
    abel
  · exact (h.distinct t.process).sublist (List.filter_sublist.map _)

theorem agree_advance (h : Agree T s) (hT : t ∈ T) (hkeep : s.KeepsEntries (.advance t)) (hs : s.Advances t s') :
    Agree T s' := by
  cases hs with
  | query ht | refuse ht _ | pass ht _ | reject ht | unknown ht _ _ | release ht _ | invalid ht _ =>
    exact h.move hT rfl rfl (by rw [ht]; rfl) (by rw [ht]; rfl)
  | @charge b ht =>
    refine h.move hT rfl rfl ?_ (by rw [ht]; rfl)
    rw [ht]
    exact (add_zero _).trans (update_allocate_used s.connect.pod b.size s.connections b rfl)
  | insert ht hfree => exact agree_insert h hT ht hfree (hkeep _ (by rw [ht]; rfl))
  | beginFree ht hfree hfind => exact agree_beginFree h hT ht hfree hfind
  | @uncharge b ht =>
    refine h.move hT rfl rfl ?_ (by rw [ht]; rfl)
    rw [ht]
    show s.pod.gpuMemUsed - b.size + b.size = s.pod.gpuMemUsed + 0
    abel
  | erase ht => exact agree_erase h hT ht

theorem agree_step {e : Event} (h : Agree T s) (hT : e.thread ∈ T) (hkeep : s.KeepsEntries e)
    (hs : s.step e = some s') : Agree T s' := by
  cases e with
  | cuMemAlloc t bytesize =>
    obtain ⟨ht, rfl⟩ := State.cuMemAlloc_some hs
    exact h.move (t := t) hT rfl rfl (by rw [ht]; rfl) (by rw [ht]; rfl)
  | cuMemFree t ptr =>
    obtain ⟨ht, rfl⟩ := State.cuMemFree_some hs
    exact h.move (t := t) hT rfl rfl (by rw [ht]; rfl) (by rw [ht]; rfl)
  | grant t ptr =>
    obtain ⟨bytesize, ht, -, rfl⟩ := State.grant_some hs
    exact h.move (t := t) hT rfl rfl (by rw [ht]; rfl) (by rw [ht]; rfl)
  | advance t => exact agree_advance h hT hkeep (State.advance_some hs)

/-! ## The ledgers over runs -/

/-- The threads of a run. -/
def threadsOf (es : List Event) : Finset Thread := (es.map Event.thread).toFinset

/-- Every hook counts what its map holds, and the pod manager counts what the hooks of the processes `ps`
count; the others count nothing. -/
def LedgersAgree (ps : Finset ℕ) (s : State) : Prop :=
  (∀ p, (s.processes p).gpuMemUsed = (s.processes p).mapped) ∧
  (∀ p, p ∉ ps → (s.processes p).gpuMemUsed = 0) ∧ ∑ p ∈ ps, (s.processes p).gpuMemUsed = s.pod.gpuMemUsed

/-- As long as nothing in `allocation_map` is written over, the ledgers agree whenever no call is in progress. -/
theorem ledgersAgree_of_run {es : List Event} (hrun : RunWhere State.step State.KeepsEntries (.init limit) es s)
    (hquiet : s.Quiet) : LedgersAgree ((threadsOf es).image Thread.process) s := by
  have hstep : ∀ s e s', Agree (threadsOf es) s → s.KeepsEntries e ∧ e ∈ es → s.step e = some s' →
    Agree (threadsOf es) s' := by
    rintro s e s' h ⟨hkeep, he⟩ hs
    exact agree_step h (List.mem_toFinset.2 (List.mem_map_of_mem he)) hkeep hs
  have h : Agree (threadsOf es) s := hrun.labelled.invariant hstep (agree_init _ limit)
  refine ⟨fun p => ?_, h.unused, ?_⟩
  · rw [h.own p, Finset.sum_eq_zero fun t _ => by rw [hquiet t]; rfl, add_zero]
  · have hzero : ∑ t ∈ threadsOf es, (s.calls t).inTransit = 0 := Finset.sum_eq_zero fun t _ => by rw [hquiet t]; rfl
    rw [h.pod, hzero, add_zero]

/-- One process frees what it has allocated, and some of it twice, while another is refused. -/
theorem ledgersAgree_of_two_processes : ∃ es s, RunWhere State.step State.KeepsEntries (.init 100) es s ∧ s.Quiet ∧
    s.pod.gpuMemUsed = 70 ∧ LedgersAgree ((threadsOf es).image Thread.process) s := by
  let a : Thread := ⟨0, 0⟩
  let b : Thread := ⟨1, 0⟩
  have hrun : ∃ s, RunWhere State.step (fun s e => e.thread ∈ [a, b] ∧ s.KeepsEntries e) (.init 100)
      [.cuMemAlloc a 60, .advance a, .advance a, .grant a 4096, .advance a, .advance a, .cuMemAlloc b 70, .advance b,
        .advance b, .cuMemFree a 4096, .advance a, .advance a, .advance a, .advance a, .cuMemAlloc b 70, .advance b,
        .advance b, .grant b 4096, .advance b, .advance b, .cuMemFree a 4096, .advance a, .advance a] s ∧
      (∀ t ∈ [a, b], s.calls t = .none) ∧ s.pod.gpuMemUsed = 70 := exists_runWhere (by decide +kernel)
  obtain ⟨s, hrun, hidle, hused⟩ := hrun
  have hquiet := quiet_of_run (hrun.mono fun _ _ h => h.1) hidle
  have hrun := hrun.mono fun _ _ h => h.2
  exact ⟨_, s, hrun, hquiet, hused, ledgersAgree_of_run hrun hquiet⟩

/-- The driver grants no address that one of the threads is freeing. -/
def State.GrantsFreedBy (ts : List Thread) (s : State) : Event → Prop
  | .grant t ptr => ∀ u ∈ ts, u.process = t.process → ¬ (s.calls u).FreeOf ptr
  | _ => True

instance (ts : List Thread) (s : State) (e : Event) : Decidable (s.GrantsFreedBy ts e) :=
  match e with
  | .grant t ptr => inferInstanceAs (Decidable (∀ u ∈ ts, u.process = t.process → ¬ (s.calls u).FreeOf ptr))
  | .cuMemAlloc .. | .cuMemFree .. | .advance .. => .isTrue trivial

/-- Only the threads that take a step can be freeing. -/
theorem grantsFreed_of_run {ts : List Thread} {es : List Event}
    (hrun : RunWhere State.step (fun s e => e.thread ∈ ts ∧ s.GrantsFreedBy ts e) (.init limit) es s) :
    RunWhere State.step State.GrantsFreed (.init limit) es s := by
  have hout : ∀ (s : State) (e : Event) (s' : State), (∀ t, t ∉ ts → s.calls t = .none) →
      e.thread ∈ ts ∧ s.GrantsFreedBy ts e → s.step e = some s' → ∀ t, t ∉ ts → s'.calls t = .none :=
    RunWhere.untouched (R := fun t (s : State) => s.calls t = .none) (fun _ _ _ _ => idle_step) fun _ _ h => h.1
  refine (hrun.with_invariant hout fun _ _ => rfl).mono fun s e h => ?_
  obtain ⟨hidle, -, hby⟩ := h
  cases e with
  | grant t ptr =>
    intro u hp
    by_cases hu : u ∈ ts
    · exact hby u hu hp
    · rw [hidle u hu]; exact id
  | _ => trivial

/-- The first block at 4096 is freed by another thread before its post-hook registers it, and the second
is registered at the same address. -/
theorem not_ledgersAgree_of_early_free : ∃ es s, RunWhere State.step State.GrantsFreed (.init 100) es s ∧ s.Quiet ∧
    ¬ LedgersAgree ((threadsOf es).image Thread.process) s := by
  let a : Thread := ⟨0, 0⟩
  let b : Thread := ⟨0, 1⟩
  let c : Thread := ⟨0, 2⟩
  have hrun : ∃ s, RunWhere State.step (fun s e => e.thread ∈ [a, b, c] ∧ s.GrantsFreedBy [a, b, c] e) (.init 100)
      [.cuMemAlloc a 10, .advance a, .advance a, .grant a 4096, .cuMemFree b 4096, .advance b, .advance b,
        .cuMemAlloc c 20, .advance c, .advance c, .grant c 4096, .advance c, .advance c, .advance a, .advance a] s ∧
      (∀ t ∈ [a, b, c], s.calls t = .none) ∧ (s.processes 0).gpuMemUsed ≠ (s.processes 0).mapped :=
    exists_runWhere (by decide +kernel)
  obtain ⟨s, hrun, hidle, hne⟩ := hrun
  exact ⟨_, s, grantsFreed_of_run hrun, quiet_of_run (hrun.mono fun _ _ h => h.1) hidle, fun h => hne (h.1 0)⟩

end Gemini.Hook.Memory
