/-
The recovery of memory. The pod manager books every memory update on the connection it came through,
whatever it says; when the hook thread finds its connection closed, it takes off what is booked there,
erases the entry and closes the descriptor, whose number may then be accepted again. The bytes in use
stay the sum of the entries, modulo 2^64, so nothing is left when all connections are closed.
-/
import Mathlib.Data.UInt
import Gemini.Lib.Run
import Gemini.PodManager.Memory

namespace Gemini.PodManager.Recovery

open Gemini.Lib

/-! ## Connections -/

/-- A descriptor of the pod manager. -/
inductive Descriptor where
  | closed
  /-- `accept` has returned it -/
  | accepted
  /-- its entry is created, and a hook thread serves it -/
  | serving
  /-- its entry is erased -/
  | leaving
deriving DecidableEq, Repr

structure State where
  mem : MemInfo
  descriptors : ℕ → Descriptor

inductive Event where
  | accept (sockfd : ℕ)
  /-- `main` creates the entry and the thread -/
  | enter (sockfd : ℕ)
  /-- the hook thread handles a REQ_MEM_UPDATE -/
  | update (sockfd : ℕ) (memSize : Size) (allocate : Bool)
  /-- `recv` has returned 0 or -1: the hook thread recovers the memory usage -/
  | recover (sockfd : ℕ)
  | close (sockfd : ℕ)
deriving DecidableEq, Repr

namespace State

def init (limit : Size) : State := ⟨⟨0, limit, []⟩, fun _ => .closed⟩

variable (s : State)

/-- A descriptor goes from one state to another, and the memory usage changes. -/
def move (sockfd : ℕ) (old new : Descriptor) (mem : MemInfo) : Option State :=
  if s.descriptors sockfd = old then some ⟨mem, Function.update s.descriptors sockfd new⟩ else none

def step : Event → Option State
  | .accept sockfd => s.move sockfd .closed .accepted s.mem
  | .enter sockfd => s.move sockfd .accepted .serving (s.mem.accept sockfd)
  | .update sockfd memSize allocate =>
    s.move sockfd .serving .serving (s.mem.hookUpdateMemoryUsage memSize allocate sockfd).2
  | .recover sockfd => s.move sockfd .serving .leaving (s.mem.recoverMemoryUsage sockfd)
  | .close sockfd => s.move sockfd .leaving .closed s.mem

/-! ## The invariant -/

/-- The bytes in use are the sum of the entries, and the entries are those of the connections served. -/
structure Balanced (m : MemInfo) (served : ℕ → Prop) : Prop where
  used : m.gpuMemUsed = total m.allocationMap
  distinct : (keys m.allocationMap).Nodup
  entries : ∀ k ∈ keys m.allocationMap, served k

variable {s} {s' : State} {m : MemInfo} {served : ℕ → Prop} {sockfd : ℕ}

theorem move_some {old new : Descriptor} {mem : MemInfo} (h : s.move sockfd old new mem = some s') :
    s.descriptors sockfd = old ∧ s' = ⟨mem, Function.update s.descriptors sockfd new⟩ := by
  unfold move at h
  split at h
  · rename_i hd; cases h; exact ⟨hd, rfl⟩
  · cases h

theorem Balanced.mono (h : Balanced m served) {served' : ℕ → Prop} (hs : ∀ k, served k → served' k) :
    Balanced m served' :=
  ⟨h.used, h.distinct, fun k hk => hs k (h.entries k hk)⟩

theorem Balanced.accept (h : Balanced m served) (sockfd : ℕ) :
    Balanced (m.accept sockfd) fun k => served k ∨ k = sockfd := by
  refine ⟨?_, keys_insertNew_nodup h.distinct sockfd 0, fun k hk => ?_⟩
  · rw [MemInfo.accept, total_insertNew]
    exact h.used
  · obtain ⟨e, he, rfl⟩ := mem_keys.1 hk
    rcases mem_insertNew he with he | ⟨rfl, -⟩
    · exact .inl (h.entries _ (mem_keys.2 ⟨e, he, rfl⟩))
    · exact .inr rfl

/-- An entry changes by what the bytes in use change by. -/
theorem Balanced.assign (h : Balanced m served) (hs : served sockfd) {used v : Size}
    (hv : used + m.held sockfd = m.gpuMemUsed + v) :
    Balanced { m with gpuMemUsed := used, allocationMap := assign sockfd v m.allocationMap } served := by
  refine ⟨?_, keys_assign_nodup h.distinct sockfd v, fun k hk => ?_⟩
  · apply add_right_cancel (b := m.held sockfd)
    rw [hv, h.used]
    exact (total_assign h.distinct sockfd v).symm
  · obtain ⟨e, he, rfl⟩ := mem_keys.1 hk
    rcases mem_assign he with rfl | ⟨he, -⟩
    · exact hs
    · exact h.entries _ (mem_keys.2 ⟨e, he, rfl⟩)

theorem Balanced.update (h : Balanced m served) (hs : served sockfd) (memSize : Size) (allocate : Bool) :
    Balanced (m.hookUpdateMemoryUsage memSize allocate sockfd).2 served := by
  unfold MemInfo.hookUpdateMemoryUsage
  split
  · split
    · exact h
    · exact h.assign hs (by abel)
  · exact h.assign hs (by abel)

theorem Balanced.recover (h : Balanced m served) (sockfd : ℕ) :
    Balanced (m.recoverMemoryUsage sockfd) fun k => served k ∧ k ≠ sockfd := by
  refine ⟨?_, h.distinct.sublist (keys_eraseKey_sublist ..), fun k hk => ?_⟩
  · show m.gpuMemUsed - m.held sockfd = total (eraseKey sockfd m.allocationMap)
    rw [h.used, ← total_eraseKey h.distinct sockfd]
    exact add_sub_cancel_right _ _
  · refine ⟨h.entries k ((keys_eraseKey_sublist ..).subset hk), ?_⟩
    rintro rfl
    exact notMem_keys_eraseKey _ _ hk

/-- The connections with a hook thread that serves them. -/
def Served (s : State) (sockfd : ℕ) : Prop := s.descriptors sockfd = .serving

theorem balanced_step {e : Event} (h : Balanced s.mem s.Served) (hs : s.step e = some s') :
    Balanced s'.mem s'.Served := by
  have hother : ∀ {sockfd k : ℕ} {d : Descriptor}, k ≠ sockfd → s.Served k →
      Function.update s.descriptors sockfd d k = .serving := by
    intro sockfd k d hne hk
    rw [Function.update_of_ne hne]
    exact hk
  -- the connections served besides the one that moves
  have hserved : ∀ {sockfd : ℕ} {d : Descriptor} {mem : MemInfo}, s.descriptors sockfd ≠ .serving →
      ∀ k, s.Served k → Served ⟨mem, Function.update s.descriptors sockfd d⟩ k := by
    intro sockfd d mem hd k hk
    apply hother _ hk
    rintro rfl
    exact hd hk
  cases e with
  | accept sockfd =>
    obtain ⟨hd, rfl⟩ := move_some hs
    exact h.mono (hserved (by rw [hd]; decide))
  | enter sockfd =>
    obtain ⟨hd, rfl⟩ := move_some hs
    apply (h.accept sockfd).mono
    rintro k (hk | rfl)
    · exact hserved (by rw [hd]; decide) k hk
    · exact Function.update_self ..
  | update sockfd memSize allocate =>
    obtain ⟨hd, rfl⟩ := move_some hs
    apply (h.update hd memSize allocate).mono
    intro k hk
    by_cases hks : k = sockfd
    · subst hks; exact Function.update_self ..
    · exact hother hks hk
  | recover sockfd =>
    obtain ⟨hd, rfl⟩ := move_some hs
    apply (h.recover sockfd).mono
    rintro k ⟨hk, hne⟩
    exact hother hne hk
  | close sockfd =>
    obtain ⟨hd, rfl⟩ := move_some hs
    exact h.mono (hserved (by rw [hd]; decide))

/-! ## Recovery over runs -/

/-- In every run, the bytes in use are the sum of the entries modulo 2^64; once every connection is closed
there are none of either. -/
theorem recovered_of_run {limit : Size} {es : List Event} (hrun : Run step (init limit) es s) :
    s.mem.gpuMemUsed = total s.mem.allocationMap ∧
    ((∀ sockfd, s.descriptors sockfd = .closed) → s.mem.gpuMemUsed = 0 ∧ s.mem.allocationMap = []) := by
  have h0 : Balanced (init limit).mem (init limit).Served :=
    ⟨rfl, List.nodup_nil, fun _ hk => absurd hk List.not_mem_nil⟩
  have h : Balanced s.mem s.Served := hrun.invariant (P := fun s => Balanced s.mem s.Served)
    (fun _ _ _ h _ hs => balanced_step h hs) h0
  refine ⟨h.used, fun hclosed => ?_⟩
  have hempty : s.mem.allocationMap = [] := by
    apply List.eq_nil_iff_forall_not_mem.2
    intro e he
    have hserved := h.entries e.1 (mem_keys.2 ⟨e, he, rfl⟩)
    rw [Served, hclosed] at hserved
    cases hserved
  exact ⟨by rw [h.used, hempty]; rfl, hempty⟩

/-! ## A run of a few connections -/

/-- The connection of an event. -/
def sockfdOf : Event → ℕ
  | .accept sockfd | .enter sockfd | .update sockfd _ _ | .recover sockfd | .close sockfd => sockfd

theorem closed_step {e : Event} {k : ℕ} (hk : k ≠ sockfdOf e) (h : s.descriptors k = .closed)
    (hs : s.step e = some s') : s'.descriptors k = .closed := by
  cases e <;> obtain ⟨-, rfl⟩ := move_some hs <;> exact (Function.update_of_ne hk ..).trans h

/-- No connection is open if none of those of the run is. -/
theorem closed_of_run {limit : Size} {fds : List ℕ} {es : List Event}
    (hrun : RunWhere step (fun _ e => sockfdOf e ∈ fds) (init limit) es s) (h : ∀ k ∈ fds, s.descriptors k = .closed)
    (k : ℕ) : s.descriptors k = .closed := by
  have hout : ∀ k, k ∉ fds → s.descriptors k = .closed :=
    hrun.invariant (P := fun s => ∀ k, k ∉ fds → s.descriptors k = .closed)
      (RunWhere.untouched (R := fun k (s : State) => s.descriptors k = .closed) (fun _ _ _ _ => closed_step)
        fun _ _ h => h) fun _ _ => rfl
  exact if hk : k ∈ fds then h k hk else hout k hk

/-- Forty bytes are allocated through one connection and sixty freed through another, whose entry goes
below zero; the first descriptor is used again before the other connection closes. -/
theorem recovered_of_two_connections : ∃ s, Run step (init 100)
    [.accept 4, .enter 4, .accept 5, .enter 5, .update 4 40 true, .update 5 60 false, .recover 4, .close 4, .accept 4,
    .enter 4, .update 4 200 true, .recover 5, .close 5, .recover 4, .close 4] s ∧
    s.mem.gpuMemUsed = 0 ∧ s.mem.allocationMap = [] := by
  have hrun : ∃ s, RunWhere step (fun _ e => sockfdOf e ∈ [4, 5]) (init 100)
      [.accept 4, .enter 4, .accept 5, .enter 5, .update 4 40 true, .update 5 60 false, .recover 4, .close 4,
      .accept 4, .enter 4,
        .update 4 200 true, .recover 5, .close 5, .recover 4, .close 4] s ∧ ∀ k ∈ [4, 5], s.descriptors k = .closed :=
    exists_runWhere (by decide +kernel)
  obtain ⟨s, hrun, hclosed⟩ := hrun
  have hall : Run step (init 100) _ s := hrun.mono fun _ _ _ => trivial
  exact ⟨s, hall, (recovered_of_run hall).2 (closed_of_run hrun hclosed)⟩

end State

end Gemini.PodManager.Recovery
