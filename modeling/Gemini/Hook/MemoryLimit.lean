/-
The memory limit of a pod manager. The pre-hook checks, the driver allocates and the post-hook
charges in separate steps, and a charge that is refused comes after the memory exists: nothing frees
it, and nothing counts it.

As long as every charge fits, the bytes in use are those of the blocks that have been charged and
not been taken back, each once. A block that the driver holds has yet to be charged, or is among
them, or its address is about to be released. So in a state without calls in progress the driver
holds no more than the bytes in use.
-/
import Gemini.Lib.Run
import Gemini.Hook.Memory

namespace Gemini.Hook.Memory

open Gemini.PodManager Gemini.Lib

/-! ## Statement -/

def bytes (bs : List Block) : ℕ := (bs.map fun b => b.size.toNat).sum

/-- The block that is being charged. -/
def Call.charging : Call → Option Block
  | .charge b => some b
  | _ => .none

namespace State

/-- No intercepted call is in progress. -/
def Quiet (s : State) : Prop := ∀ t, s.calls t = .none

/-- A charge does not exceed the limit, in unbounded integers. -/
def ChargeFits (s : State) : Event → Prop
  | .advance t => ∀ b ∈ (s.calls t).charging, s.pod.gpuMemUsed.toNat + b.size.toNat ≤ s.pod.gpuMemLimit.toNat
  | _ => True

instance (s : State) (e : Event) : Decidable (s.ChargeFits e) := by
  cases e <;> unfold ChargeFits <;> infer_instance

end State

/-! ## The invariant -/

namespace Call

/-- The block whose allocation is not finished. -/
def Holds (b : Block) : Call → Prop
  | .charge c => c = b
  | .verdict c _ => c = b
  | _ => False

/-- The block of an address is not charged any more, and will be released. -/
def Frees (ptr : DevicePtr) : Call → Prop
  | .erase b => b.ptr = ptr
  | .release p => p = ptr
  | _ => False

/-- No block is concerned. -/
def Idle : Call → Prop
  | .none => True
  | .query _ => True
  | .check _ _ => True
  | .allocate _ => True
  | .lookup _ => True
  | _ => False

end Call

/-- The block is an entry of the `allocation_map` of its process. -/
def State.Mapped (s : State) (b : Block) : Prop := b ∈ (s.processes b.process).allocationMap

def State.Locked (s : State) (t : Thread) : Prop := (s.processes t.process).allocationMutex = some t

/-- What a call says about the block it is about. -/
def Call.Ok (charged : List Block) (s : State) (t : Thread) : Call → Prop
  | .charge b => b.process = t.process ∧ b.grant < s.grants ∧ b ∉ charged ∧ ¬ s.Mapped b
  | .verdict b ok => ok = true ∧ b.process = t.process ∧ b ∈ charged ∧ ¬ s.Mapped b
  | .uncharge b => b.process = t.process ∧ s.Locked t ∧ b ∈ charged ∧ s.Mapped b
  | .erase b => b.process = t.process ∧ s.Locked t
  | _ => True

/-- A block is finished by one thread only. -/
def Alone (calls : Thread → Call) : Prop := ∀ t u b, (calls t).Holds b → (calls u).Holds b → t = u

/-- An entry is charged, or about to be erased. -/
def Entry (charged : List Block) (calls : Thread → Call) (b : Block) : Prop := b ∈ charged ∨ ∃ t, calls t = .erase b

/-- A block of the driver has yet to be charged, or is about to be released, or is charged. -/
def Safe (charged : List Block) (calls : Thread → Call) (b : Block) : Prop :=
  (∃ t, calls t = .charge b) ∨ (∃ t, t.process = b.process ∧ (calls t).Frees b.ptr) ∨ b ∈ charged

/-- The bytes in use are those of the charged blocks. -/
structure Inv (limit : Size) (charged : List Block) (s : State) : Prop where
  limited : s.pod.gpuMemLimit = limit
  used : s.pod.gpuMemUsed.toNat = bytes charged
  fits : bytes charged ≤ limit.toNat
  nodup : charged.Nodup
  fresh : ∀ b ∈ charged, b.grant < s.grants
  calls : ∀ t, (s.calls t).Ok charged s t
  alone : Alone s.calls
  mapped : ∀ p, ∀ b ∈ (s.processes p).allocationMap, b.process = p ∧ b.grant < s.grants ∧ Entry charged s.calls b
  distinct : s.live.Nodup
  granted : ∀ b ∈ s.live, b.grant < s.grants
  safe : ∀ b ∈ s.live, Safe charged s.calls b

variable {limit : Size} {charged charged' : List Block} {s s' : State} {t u : Thread} {b : Block} {c : Call}

theorem inv_init (limit : Size) : Inv limit [] (.init limit) := by
  refine ⟨rfl, rfl, Nat.zero_le _, .nil, nofun, fun _ => trivial, fun _ _ _ h => h.elim, nofun, .nil, nofun, nofun⟩

/-! ## Sums of bytes -/

theorem bytes_cons (b : Block) (bs : List Block) : bytes (b :: bs) = b.size.toNat + bytes bs := List.sum_cons

theorem bytes_erase (h : b ∈ charged) : bytes (charged.erase b) + b.size.toNat = bytes charged := by
  have := List.sum_map_erase (fun b : Block => b.size.toNat) h
  unfold bytes
  omega

/-- Distinct blocks among others have no more bytes than these. -/
theorem bytes_le_of_subset {bs cs : List Block} (hn : bs.Nodup) (h : bs ⊆ cs) : bytes bs ≤ bytes cs := by
  obtain ⟨l, hl, hs⟩ := List.subperm_of_subset hn h
  calc bytes bs = bytes l := ((hl.map _).sum_eq).symm
    _ ≤ bytes cs := (hs.map _).sum_le_sum fun _ _ => Nat.zero_le _

/-! ## One thread moves -/

theorem update_ne {calls : Thread → Call} (h : u ≠ t) : Function.update calls t c u = calls u :=
  Function.update_of_ne h c calls

/-- Nothing that a call speaks of changes. -/
theorem Call.Ok.congr (h : c.Ok charged s u) (hp : s'.processes = s.processes) (hg : s.grants ≤ s'.grants) :
    c.Ok charged s' u := by
  cases c with
  | charge b => exact ⟨h.1, h.2.1.trans_le hg, h.2.2.1, by unfold State.Mapped; rw [hp]; exact h.2.2.2⟩
  | verdict b ok => exact ⟨h.1, h.2.1, h.2.2.1, by unfold State.Mapped; rw [hp]; exact h.2.2.2⟩
  | uncharge b =>
    unfold Call.Ok State.Locked State.Mapped at h ⊢
    rw [hp]; exact h
  | erase b =>
    unfold Call.Ok State.Locked at h ⊢
    rw [hp]; exact h
  | _ => trivial

/-- A process changes whose lock the thread does not hold, if any. -/
theorem Call.Ok.modify {p : ℕ} {f : Process → Process} (h : c.Ok charged s u) (hlock : s.Locked u → u.process ≠ p)
    (hmap : ∀ b, c.Holds b → ¬ s.Mapped b → ¬ (s.modify p f).Mapped b) : c.Ok charged (s.modify p f) u := by
  have hlocked : s.Locked u → (s.modify p f).Locked u := by
    intro hl
    simpa [State.Locked, State.modify, Function.update_of_ne (hlock hl)] using hl
  cases c with
  | charge b => exact ⟨h.1, h.2.1, h.2.2.1, hmap b rfl h.2.2.2⟩
  | verdict b ok => exact ⟨h.1, h.2.1, h.2.2.1, hmap b rfl h.2.2.2⟩
  | uncharge b =>
    obtain ⟨h1, h2, h3, h4⟩ := h
    refine ⟨h1, hlocked h2, h3, ?_⟩
    rw [State.Mapped, h1] at h4 ⊢
    simpa [State.modify, Function.update_of_ne (hlock h2)] using h4
  | erase b => exact ⟨h.1, hlocked h.2⟩
  | _ => trivial

theorem calls_update (h : ∀ u, (s.calls u).Ok charged s u) (hcalls : s'.calls = Function.update s.calls t c)
    (hc : c.Ok charged' s' t) (hother : ∀ u, u ≠ t → (s.calls u).Ok charged s u → (s.calls u).Ok charged' s' u) :
    ∀ u, (s'.calls u).Ok charged' s' u := by
  rw [hcalls, Function.forall_update_iff s.calls fun u c => c.Ok charged' s' u]
  exact ⟨hc, fun u hu => hother u hu (h u)⟩

theorem Alone.update {calls : Thread → Call} (h : Alone calls) (hc : ∀ b u, u ≠ t → c.Holds b → ¬ (calls u).Holds b) :
    Alone (Function.update calls t c) := by
  intro u v b hu hv
  by_cases hut : u = t <;> by_cases hvt : v = t
  · rw [hut, hvt]
  · subst hut
    rw [Function.update_self] at hu
    rw [update_ne hvt] at hv
    exact (hc b v hvt hu hv).elim
  · subst hvt
    rw [Function.update_self] at hv
    rw [update_ne hut] at hu
    exact (hc b u hut hv hu).elim
  · rw [update_ne hut] at hu
    rw [update_ne hvt] at hv
    exact h u v b hu hv

theorem Entry.update {calls : Thread → Call} (h : Entry charged calls b) (hold : calls t ≠ .erase b)
    (hsub : b ∈ charged → Entry charged' (Function.update calls t c) b) :
    Entry charged' (Function.update calls t c) b := by
  rcases h with h | ⟨u, hu⟩
  · exact hsub h
  · have hut : u ≠ t := by rintro rfl; exact hold hu
    exact .inr ⟨u, (update_ne hut).trans hu⟩

theorem Safe.update {calls : Thread → Call} (h : Safe charged calls b)
    (hcharge : calls t = .charge b → Safe charged' (Function.update calls t c) b)
    (hfree : t.process = b.process → (calls t).Frees b.ptr → Safe charged' (Function.update calls t c) b)
    (hsub : b ∈ charged → Safe charged' (Function.update calls t c) b) :
    Safe charged' (Function.update calls t c) b := by
  rcases h with ⟨u, hu⟩ | ⟨u, hp, hu⟩ | h
  · by_cases hut : u = t
    · subst hut; exact hcharge hu
    · exact .inl ⟨u, (update_ne hut).trans hu⟩
  · by_cases hut : u = t
    · subst hut; exact hfree hp hu
    · exact .inr (.inl ⟨u, hp, by rw [update_ne hut]; exact hu⟩)
  · exact hsub h

theorem Call.Idle.ok (h : c.Idle) : c.Ok charged s t := by
  cases c <;> trivial

theorem Call.Idle.not_holds (h : c.Idle) : ¬ c.Holds b := by
  cases c with
  | charge => exact h.elim
  | verdict => exact h.elim
  | _ => exact id

theorem Call.Idle.not_frees (h : c.Idle) {ptr : DevicePtr} : ¬ c.Frees ptr := by
  cases c with
  | erase => exact h.elim
  | release => exact h.elim
  | _ => exact id

/-- A thread moves without a block. -/
theorem Inv.goto (h : Inv limit charged s) (hold : (s.calls t).Idle) (hnew : c.Idle ∨ ∃ ptr, c = .release ptr) :
    Inv limit charged (s.goto t c) where
  limited := h.limited
  used := h.used
  fits := h.fits
  nodup := h.nodup
  fresh := h.fresh
  calls := by
    refine calls_update h.calls rfl ?_ fun u _ hok => hok.congr rfl le_rfl
    rcases hnew with hc | ⟨ptr, rfl⟩
    · exact hc.ok
    · trivial
  alone := by
    apply h.alone.update
    intro b u _ hb _
    rcases hnew with hc | ⟨ptr, rfl⟩
    · exact hc.not_holds hb
    · exact hb
  mapped := by
    intro p b hb
    obtain ⟨h1, h2, h3⟩ := h.mapped p b hb
    refine ⟨h1, h2, h3.update (fun hb => ?_) .inl⟩
    rw [hb] at hold; exact hold
  distinct := h.distinct
  granted := h.granted
  safe := by
    intro b hb
    refine (h.safe b hb).update (fun ht => ?_) (fun _ ht => (hold.not_frees ht).elim) fun hc => .inr (.inr hc)
    rw [ht] at hold; exact hold.elim

/-! ## What each step preserves -/

theorem inv_grant (h : Inv limit charged s) {ptr : DevicePtr} {bytesize : Size} (ht : s.calls t = .allocate bytesize) :
    Inv limit charged { s.goto t (.charge ⟨s.grants, t.process, ptr, bytesize⟩) with
      live := s.live ++ [⟨s.grants, t.process, ptr, bytesize⟩]
      grants := s.grants + 1 } where
  limited := h.limited
  used := h.used
  fits := h.fits
  nodup := h.nodup
  fresh := fun b hb => (h.fresh b hb).trans (Nat.lt_succ_self _)
  calls := by
    refine calls_update h.calls rfl ⟨rfl, Nat.lt_succ_self _, fun hb => ?_, fun hb => ?_⟩
      fun u _ hok => hok.congr rfl (Nat.le_succ _)
    · exact (h.fresh _ hb).false
    · exact (h.mapped _ _ hb).2.1.false
  alone := by
    apply h.alone.update
    intro b u _ hb hu
    obtain rfl : _ = b := hb
    have hok := h.calls u
    cases hc : s.calls u <;> rw [hc] at hu hok <;> try exact hu.elim
    · obtain rfl := hu; exact hok.2.1.false
    · obtain rfl := hu; exact (h.fresh _ hok.2.2.1).false
  mapped := by
    intro p b hb
    obtain ⟨h1, h2, h3⟩ := h.mapped p b hb
    exact ⟨h1, h2.trans (Nat.lt_succ_self _), h3.update (fun hb => by rw [ht] at hb; cases hb) .inl⟩
  distinct := by
    apply h.distinct.append (List.nodup_singleton _)
    intro b hb hb'
    obtain rfl := List.mem_singleton.1 hb'
    exact (h.granted _ hb).false
  granted := by
    intro b hb
    rcases List.mem_append.1 hb with hb | hb
    · exact (h.granted b hb).trans (Nat.lt_succ_self _)
    · obtain rfl := List.mem_singleton.1 hb
      exact Nat.lt_succ_self _
  safe := by
    intro b hb
    rcases List.mem_append.1 hb with hb | hb
    · refine (h.safe b hb).update (fun hc => ?_) (fun _ hc => ?_) fun hc => .inr (.inr hc)
      · rw [ht] at hc; cases hc
      · rw [ht] at hc; exact hc.elim
    · obtain rfl := List.mem_singleton.1 hb
      exact .inl ⟨t, Function.update_self ..⟩

/-- A block is charged that nobody else has charged. -/
theorem inv_charge (h : Inv limit charged s) (ht : s.calls t = .charge b)
    (hfits : s.pod.gpuMemUsed.toNat + b.size.toNat ≤ s.pod.gpuMemLimit.toNat) :
    Inv limit (b :: charged)
      ((s.updateMemoryUsage b.size true).2.goto t (.verdict b (s.updateMemoryUsage b.size true).1)) := by
  have hok := h.calls t
  rw [ht] at hok
  obtain ⟨hproc, hgrant, hnew, hmap⟩ := hok
  obtain ⟨hv, hu⟩ := MemInfo.update_allocate (m := s.connect.pod) hfits s.connections
  have hbytes : bytes (b :: charged) = s.pod.gpuMemUsed.toNat + b.size.toNat := by
    rw [bytes_cons, h.used]; exact Nat.add_comm _ _
  exact {
    limited := (MemInfo.update_gpuMemLimit ..).trans h.limited
    used := hu.trans hbytes.symm
    fits := by rw [hbytes]; exact hfits.trans_eq (by rw [h.limited])
    nodup := List.nodup_cons.2 ⟨hnew, h.nodup⟩
    fresh := by
      intro c hc
      rcases List.mem_cons.1 hc with rfl | hc
      · exact hgrant
      · exact h.fresh c hc
    calls := by
      refine calls_update h.calls rfl ⟨hv, hproc, List.mem_cons_self .., hmap⟩ ?_
      intro u hut hok
      cases hc : s.calls u with
      | charge c =>
        rw [hc] at hok
        have hcb : c ≠ b := by
          rintro rfl
          exact hut (h.alone u t c (by rw [hc]; rfl) (by rw [ht]; rfl))
        exact ⟨hok.1, hok.2.1, fun hmem => (List.mem_cons.1 hmem).elim hcb hok.2.2.1, hok.2.2.2⟩
      | verdict c ok => rw [hc] at hok; exact ⟨hok.1, hok.2.1, List.mem_cons_of_mem _ hok.2.2.1, hok.2.2.2⟩
      | uncharge c => rw [hc] at hok; exact ⟨hok.1, hok.2.1, List.mem_cons_of_mem _ hok.2.2.1, hok.2.2.2⟩
      | erase c => rw [hc] at hok; exact hok
      | _ => trivial
    alone := h.alone.update fun c u hut hc hu => by
      obtain rfl : b = c := hc
      exact hut (h.alone u t b hu (by rw [ht]; rfl))
    mapped := by
      intro p c hc
      obtain ⟨h1, h2, h3⟩ := h.mapped p c hc
      exact ⟨h1, h2, h3.update (fun hc => by rw [ht] at hc; cases hc) fun hc => .inl (List.mem_cons_of_mem _ hc)⟩
    distinct := h.distinct
    granted := h.granted
    safe := by
      intro c hc
      refine (h.safe c hc).update (fun hcall => ?_) (fun _ hcall => ?_) fun hc =>
        .inr (.inr (List.mem_cons_of_mem _ hc))
      · rw [ht] at hcall
        cases hcall
        exact .inr (.inr (List.mem_cons_self ..))
      · rw [ht] at hcall; exact hcall.elim }

/-- The charged block enters the `allocation_map`; a block that was there leaves it. -/
theorem inv_insert (h : Inv limit charged s) (ht : s.calls t = .verdict b true)
    (hfree : (s.processes t.process).allocationMutex = .none) (r : Result) :
    Inv limit charged ((s.modify t.process (.insert b)).ret t r) := by
  have hok := h.calls t
  rw [ht] at hok
  obtain ⟨-, hproc, hin, -⟩ := hok
  -- what is in a map now was there before, or is the block
  have hmap : ∀ p, ∀ c ∈ ((s.modify t.process (.insert b)).processes p).allocationMap,
      c ∈ (s.processes p).allocationMap ∨ p = t.process ∧ c = b := by
    intro p c hc
    by_cases hp : p = t.process
    · subst hp
      simp only [State.modify, Function.update_self, Process.insert, List.mem_append, List.mem_singleton] at hc
      exact hc.imp (fun hc => List.mem_of_mem_filter hc) fun hc => ⟨rfl, hc⟩
    · simp only [State.modify, Function.update_of_ne hp] at hc
      exact .inl hc
  have hheld : ∀ u, u ≠ t → ∀ c, (s.calls u).Holds c → ¬ s.Mapped c → ¬ (s.modify t.process (.insert b)).Mapped c :=
    fun u hut c hu hc hc' => (hmap _ c hc').elim hc fun hcb =>
      hut (h.alone u t b (hcb.2 ▸ hu) (by rw [ht]; rfl))
  exact {
    limited := h.limited
    used := h.used
    fits := h.fits
    nodup := h.nodup
    fresh := h.fresh
    -- the lock is free, so no other thread of the process is freeing
    calls := calls_update h.calls rfl trivial fun u hut hok =>
      (hok.modify (fun hl hp => by rw [State.Locked, hp, hfree] at hl; cases hl) (hheld u hut)).congr rfl le_rfl
    alone := h.alone.update fun _ _ _ hc _ => hc
    mapped := by
      intro p c hc
      rcases hmap p c hc with hc | ⟨rfl, rfl⟩
      · obtain ⟨h1, h2, h3⟩ := h.mapped p c hc
        exact ⟨h1, h2, h3.update (fun hc => by rw [ht] at hc; cases hc) .inl⟩
      · exact ⟨hproc, h.fresh c hin, .inl hin⟩
    distinct := h.distinct
    granted := h.granted
    safe := by
      intro c hc
      refine (h.safe c hc).update (fun hcall => ?_) (fun _ hcall => ?_) fun hc => .inr (.inr hc)
      · rw [ht] at hcall; cases hcall
      · rw [ht] at hcall; exact hcall.elim }

/-- The entry that is found is charged: nobody is about to erase it while the lock is free. -/
theorem inv_beginFree (h : Inv limit charged s) {ptr : DevicePtr} (ht : s.calls t = .lookup ptr)
    (hfree : (s.processes t.process).allocationMutex = .none) (hfind : (s.processes t.process).find ptr = some b) :
    Inv limit charged ((s.modify t.process (.beginFree t b)).goto t (.uncharge b)) := by
  have hunlocked : ∀ u, u.process = t.process → ¬ s.Locked u := by
    intro u hp hl
    rw [State.Locked, hp, hfree] at hl; cases hl
  have hmem : b ∈ (s.processes t.process).allocationMap := List.mem_of_find?_eq_some hfind
  obtain ⟨hproc, -, hentry⟩ := h.mapped _ b hmem
  have hin : b ∈ charged := hentry.resolve_right fun ⟨u, hu⟩ => by
    have hok := h.calls u
    rw [hu] at hok
    exact hunlocked u (hok.1.symm.trans hproc) hok.2
  have hmap : ∀ p, ((s.modify t.process (.beginFree t b)).processes p).allocationMap =
    (s.processes p).allocationMap := by
    intro p
    by_cases hp : p = t.process
    · subst hp; simp [State.modify, Process.beginFree]
    · simp [State.modify, Function.update_of_ne hp]
  have hmapped : ∀ c, (s.modify t.process (.beginFree t b)).Mapped c ↔ s.Mapped c := by
    intro c
    unfold State.Mapped; rw [hmap]
  exact {
    limited := h.limited
    used := h.used
    fits := h.fits
    nodup := h.nodup
    fresh := h.fresh
    calls := by
      refine calls_update h.calls rfl ⟨hproc, ?_, hin, ?_⟩ fun u _ hok => ?_
      · simp [State.Locked, State.goto, State.modify, Process.beginFree]
      · exact (hmapped b).2 (by rw [State.Mapped, hproc]; exact hmem)
      · exact (hok.modify (fun hl hp => hunlocked u hp hl) fun c _ hc hm => hc ((hmapped c).1 hm)).congr rfl le_rfl
    alone := h.alone.update fun _ _ _ hc _ => hc
    mapped := by
      intro p c hc
      have hc : c ∈ (s.processes p).allocationMap := hmap p ▸ hc
      obtain ⟨h1, h2, h3⟩ := h.mapped p c hc
      exact ⟨h1, h2, h3.update (fun hc => by rw [ht] at hc; cases hc) .inl⟩
    distinct := h.distinct
    granted := h.granted
    safe := by
      intro c hc
      refine (h.safe c hc).update (fun hcall => ?_) (fun _ hcall => ?_) fun hc => .inr (.inr hc)
      · rw [ht] at hcall; cases hcall
      · rw [ht] at hcall; exact hcall.elim }

/-- The lock of a process is held by one thread. -/
theorem eq_of_locked (ht : s.Locked t) (hu : s.Locked u) (hp : u.process = t.process) : u = t := by
  rw [State.Locked, hp] at hu
  exact Option.some.inj (hu.symm.trans ht)

/-- A charge is taken back once, and from then on the block's address is about to be released. -/
theorem inv_uncharge (h : Inv limit charged s) (ht : s.calls t = .uncharge b) :
    Inv limit (charged.erase b) ((s.updateMemoryUsage b.size false).2.goto t (.erase b)) := by
  have hok := h.calls t
  rw [ht] at hok
  obtain ⟨hproc, hlock, hin, hmap⟩ := hok
  have hbytes := bytes_erase hin
  have hle : b.size.toNat ≤ s.connect.pod.gpuMemUsed.toNat := by
    show _ ≤ s.pod.gpuMemUsed.toNat
    rw [h.used]; omega
  have hused := MemInfo.update_free hle s.connections
  have hused' : s.connect.pod.gpuMemUsed.toNat = bytes charged := h.used
  have hmono : ∀ c, c ∈ charged.erase b → c ∈ charged := fun c hc => List.mem_of_mem_erase hc
  exact {
    limited := (MemInfo.update_gpuMemLimit ..).trans h.limited
    used := by
      show (s.connect.pod.hookUpdateMemoryUsage b.size false s.connections).2.gpuMemUsed.toNat = _
      omega
    fits := by have := h.fits; omega
    nodup := h.nodup.erase b
    fresh := fun c hc => h.fresh c (hmono c hc)
    calls := by
      refine calls_update h.calls rfl ⟨hproc, hlock⟩ ?_
      intro u hut hok
      cases hc : s.calls u with
      | charge c => rw [hc] at hok; exact ⟨hok.1, hok.2.1, fun hm => hok.2.2.1 (hmono c hm), hok.2.2.2⟩
      | verdict c ok =>
        rw [hc] at hok
        have hcb : c ≠ b := by rintro rfl; exact hok.2.2.2 hmap
        exact ⟨hok.1, hok.2.1, (List.mem_erase_of_ne hcb).2 hok.2.2.1, hok.2.2.2⟩
      | uncharge c =>
        rw [hc] at hok
        have hcb : c ≠ b := by rintro rfl; exact hut (eq_of_locked hlock hok.2.1 (hok.1.symm.trans hproc))
        exact ⟨hok.1, hok.2.1, (List.mem_erase_of_ne hcb).2 hok.2.2.1, hok.2.2.2⟩
      | erase c => rw [hc] at hok; exact hok
      | _ => trivial
    alone := h.alone.update fun _ _ _ hc _ => hc
    mapped := by
      intro p c hc
      obtain ⟨h1, h2, h3⟩ := h.mapped p c hc
      refine ⟨h1, h2, h3.update (fun hc => by rw [ht] at hc; cases hc) fun hc => ?_⟩
      by_cases hcb : c = b
      · subst hcb; exact .inr ⟨t, Function.update_self ..⟩
      · exact .inl ((List.mem_erase_of_ne hcb).2 hc)
    distinct := h.distinct
    granted := h.granted
    safe := by
      intro c hc
      refine (h.safe c hc).update (fun hcall => ?_) (fun _ hcall => ?_) fun hc => ?_
      · rw [ht] at hcall; cases hcall
      · rw [ht] at hcall; exact hcall.elim
      · by_cases hcb : c = b
        · subst hcb; exact .inr (.inl ⟨t, hproc.symm, by rw [Function.update_self]; rfl⟩)
        · exact .inr (.inr ((List.mem_erase_of_ne hcb).2 hc)) }

/-- An entry leaves the `allocation_map`, and the lock is released. -/
theorem inv_erase (h : Inv limit charged s) (ht : s.calls t = .erase b) :
    Inv limit charged ((s.modify t.process (.erase b.ptr)).goto t (.release b.ptr)) := by
  have hok := h.calls t
  rw [ht] at hok
  obtain ⟨hproc, hlock⟩ := hok
  have hmap : ∀ p, ∀ c ∈ ((s.modify t.process (.erase b.ptr)).processes p).allocationMap,
      c ∈ (s.processes p).allocationMap ∧ (p = t.process → c ≠ b) := by
    intro p c hc
    by_cases hp : p = t.process
    · subst hp
      simp only [State.modify, Function.update_self, Process.erase] at hc
      obtain ⟨hc, hne⟩ := List.mem_filter.1 hc
      exact ⟨hc, fun _ hcb => by simp [hcb] at hne⟩
    · simp only [State.modify, Function.update_of_ne hp] at hc
      exact ⟨hc, fun h => (hp h).elim⟩
  exact {
    limited := h.limited
    used := h.used
    fits := h.fits
    nodup := h.nodup
    fresh := h.fresh
    calls := calls_update h.calls rfl trivial fun u hut hok =>
      (hok.modify (fun hl hp => hut (eq_of_locked hlock hl hp)) fun c _ hc hm => hc (hmap _ c hm).1).congr rfl le_rfl
    alone := h.alone.update fun _ _ _ hc _ => hc
    mapped := by
      intro p c hc
      obtain ⟨hc, hne⟩ := hmap p c hc
      obtain ⟨h1, h2, h3⟩ := h.mapped p c hc
      refine ⟨h1, h2, h3.update (fun hcall => ?_) .inl⟩
      rw [ht] at hcall
      cases hcall
      exact hne (h1.symm.trans hproc) rfl
    distinct := h.distinct
    granted := h.granted
    safe := by
      intro c hc
      refine (h.safe c hc).update (fun hcall => ?_) (fun hp hcall => ?_) fun hc => .inr (.inr hc)
      · rw [ht] at hcall; cases hcall
      · rw [ht] at hcall
        exact .inr (.inl ⟨t, hp, by rw [Function.update_self]; exact hcall⟩) }

/-- The driver releases what is at the address. -/
theorem inv_release (h : Inv limit charged s) {ptr : DevicePtr} (ht : s.calls t = .release ptr) {live : List Block}
    (hsub : live.Sublist s.live) (hgone : ∀ b ∈ live, t.process = b.process → ptr ≠ b.ptr) (r : Result) :
    Inv limit charged { s.ret t r with live := live } where
  limited := h.limited
  used := h.used
  fits := h.fits
  nodup := h.nodup
  fresh := h.fresh
  calls := calls_update h.calls rfl trivial fun u _ hok => hok.congr rfl le_rfl
  alone := h.alone.update fun _ _ _ hc _ => hc
  mapped := by
    intro p c hc
    obtain ⟨h1, h2, h3⟩ := h.mapped p c hc
    exact ⟨h1, h2, h3.update (fun hc => by rw [ht] at hc; cases hc) .inl⟩
  distinct := h.distinct.sublist hsub
  granted := fun c hc => h.granted c (hsub.subset hc)
  safe := by
    intro c hc
    refine (h.safe c (hsub.subset hc)).update (fun hcall => ?_) (fun hp hcall => ?_) fun hc => .inr (.inr hc)
    · rw [ht] at hcall; cases hcall
    · rw [ht] at hcall; exact (hgone c hc hp hcall).elim

/-! ## The limit -/

theorem inv_advance (h : Inv limit charged s) (hfit : s.ChargeFits (.advance t)) (hs : s.Advances t s') :
    ∃ charged', Inv limit charged' s' := by
  cases hs with
  | @query bytesize ht =>
    exact ⟨charged, { h.goto (c := .check bytesize s.memoryInfo.1) (by rw [ht]; trivial) (.inl trivial) with }⟩
  | refuse ht _ => exact ⟨charged, { h.goto (c := .none) (by rw [ht]; trivial) (.inl trivial) with }⟩
  | pass ht _ => exact ⟨charged, h.goto (by rw [ht]; trivial) (.inl trivial)⟩
  | @charge b ht => exact ⟨b :: charged, inv_charge h ht (hfit b (by rw [ht]; rfl))⟩
  | insert ht hfree => exact ⟨charged, inv_insert h ht hfree _⟩
  | reject ht =>
    -- a charge that fits is not refused
    have hok := h.calls t
    rw [ht] at hok
    cases hok.1
  | @unknown ptr ht _ _ => exact ⟨charged, h.goto (by rw [ht]; trivial) (.inr ⟨ptr, rfl⟩)⟩
  | beginFree ht hfree hfind => exact ⟨charged, inv_beginFree h ht hfree hfind⟩
  | uncharge ht => exact ⟨_, inv_uncharge h ht⟩
  | erase ht => exact ⟨charged, inv_erase h ht⟩
  | release ht _ =>
    refine ⟨charged, inv_release h ht List.filter_sublist (fun b hb hp hptr => ?_) _⟩
    simpa [hp, hptr] using (List.mem_filter.1 hb).2
  | invalid ht hnone =>
    refine ⟨charged, inv_release h ht (List.Sublist.refl _) (fun b hb hp hptr => hnone ?_) _⟩
    exact List.any_eq_true.2 ⟨b, hb, by simp [hp, hptr]⟩

theorem inv_step {e : Event} (h : ∃ charged, Inv limit charged s) (hfit : s.ChargeFits e) (hs : s.step e = some s') :
    ∃ charged, Inv limit charged s' := by
  obtain ⟨charged, h⟩ := h
  cases e with
  | cuMemAlloc t bytesize =>
    obtain ⟨ht, rfl⟩ := State.cuMemAlloc_some hs
    exact ⟨charged, h.goto (by rw [ht]; trivial) (.inl trivial)⟩
  | cuMemFree t ptr =>
    obtain ⟨ht, rfl⟩ := State.cuMemFree_some hs
    exact ⟨charged, h.goto (by rw [ht]; trivial) (.inl trivial)⟩
  | grant t ptr =>
    obtain ⟨bytesize, ht, -, rfl⟩ := State.grant_some hs
    exact ⟨charged, inv_grant h ht⟩
  | advance t => exact inv_advance h hfit (State.advance_some hs)

/-- As long as every charge fits, the driver holds no more than the limit whenever no call is in progress. -/
theorem live_le_limit_of_run {es : List Event} (hrun : RunWhere State.step State.ChargeFits (.init limit) es s)
    (hquiet : s.Quiet) : bytes s.live ≤ s.pod.gpuMemLimit.toNat := by
  obtain ⟨charged, h⟩ : ∃ charged, Inv limit charged s :=
    hrun.invariant (fun _ _ _ => inv_step) ⟨[], inv_init limit⟩
  rw [h.limited]
  refine (bytes_le_of_subset h.distinct fun b hb => ?_).trans h.fits
  rcases h.safe b hb with ⟨t, ht⟩ | ⟨t, -, ht⟩ | hb
  · rw [hquiet t] at ht; cases ht
  · rw [hquiet t] at ht; exact ht.elim
  · exact hb

/-! ## Runs of a few threads -/

def Event.thread : Event → Thread
  | .cuMemAlloc t _ => t
  | .cuMemFree t _ => t
  | .grant t _ => t
  | .advance t => t

/-- The other threads stay where they are. -/
theorem calls_step {e : Event} (hs : s.step e = some s') (hu : u ≠ e.thread) : s'.calls u = s.calls u := by
  cases e with
  | cuMemAlloc t bytesize =>
    obtain ⟨-, rfl⟩ := State.cuMemAlloc_some hs
    exact update_ne hu
  | cuMemFree t ptr =>
    obtain ⟨-, rfl⟩ := State.cuMemFree_some hs
    exact update_ne hu
  | grant t ptr =>
    obtain ⟨bytesize, -, -, rfl⟩ := State.grant_some hs
    exact update_ne hu
  | advance t => cases State.advance_some hs <;> exact update_ne hu

theorem idle_step {e : Event} (hu : u ≠ e.thread) (h : s.calls u = .none) (hs : s.step e = some s') :
    s'.calls u = .none :=
  (calls_step hs hu).trans h

/-- No call is in progress if none of the threads that took a step is in one. -/
theorem quiet_of_run {ts : List Thread} {es : List Event} {s : State}
    (hrun : RunWhere State.step (fun _ e => e.thread ∈ ts) (.init limit) es s) (hts : ∀ t ∈ ts, s.calls t = .none) :
    s.Quiet := by
  have hout : ∀ t, t ∉ ts → s.calls t = .none :=
    hrun.invariant (P := fun s => ∀ t, t ∉ ts → s.calls t = .none)
      (RunWhere.untouched (R := fun t (s : State) => s.calls t = .none) (fun _ _ _ _ => idle_step)
        fun _ _ h => h) fun _ _ => rfl
  exact fun t => if ht : t ∈ ts then hts t ht else hout t ht

/-- Of 100 bytes, one process takes 60 and another is refused 70, until the first has freed its own. -/
theorem live_le_limit_of_two_processes : ∃ es s, RunWhere State.step State.ChargeFits (.init 100) es s ∧
    s.Quiet ∧ bytes s.live ≤ s.pod.gpuMemLimit.toNat := by
  let a : Thread := ⟨0, 0⟩
  let b : Thread := ⟨1, 0⟩
  have hrun : ∃ s, RunWhere State.step (fun s e => e.thread ∈ [a, b] ∧ s.ChargeFits e) (.init 100)
      [.cuMemAlloc a 60, .advance a, .advance a, .grant a 4096, .advance a, .advance a, .cuMemAlloc b 70, .advance b,
        .advance b, .cuMemFree a 4096, .advance a, .advance a, .advance a, .advance a, .cuMemAlloc b 70, .advance b,
        .advance b, .grant b 4096, .advance b, .advance b] s ∧ ∀ t ∈ [a, b], s.calls t = .none :=
    exists_runWhere (by decide +kernel)
  obtain ⟨s, hrun, hidle⟩ := hrun
  have hquiet := quiet_of_run (hrun.mono fun _ _ h => h.1) hidle
  have hrun := hrun.mono fun _ _ h => h.2
  exact ⟨_, s, hrun, hquiet, live_le_limit_of_run hrun hquiet⟩

/-- Two processes see 100 bytes free, and each is granted 60 before the other is charged. -/
theorem not_live_le_limit_of_race : ¬ ∀ es s, Run State.step (.init 100) es s → s.Quiet →
    bytes s.live ≤ s.pod.gpuMemLimit.toNat := by
  let a : Thread := ⟨0, 0⟩
  let b : Thread := ⟨1, 0⟩
  have hrun : ∃ s, RunWhere State.step (fun _ e => e.thread ∈ [a, b]) (.init 100)
      [.cuMemAlloc a 60, .cuMemAlloc b 60, .advance a, .advance b, .advance a, .advance b, .grant a 4096,
        .grant b 4096, .advance a, .advance b, .advance a, .advance b] s ∧
      (∀ t ∈ [a, b], s.calls t = .none) ∧ ¬ bytes s.live ≤ s.pod.gpuMemLimit.toNat :=
    exists_runWhere (by decide +kernel)
  obtain ⟨s, hrun, hidle, hlt⟩ := hrun
  exact fun h => hlt (h _ s (hrun.mono fun _ _ _ => trivial) (quiet_of_run hrun hidle))

end Gemini.Hook.Memory
