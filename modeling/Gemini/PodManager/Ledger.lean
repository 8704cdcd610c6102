/-
The ledger of a pod manager under the traffic of hook libraries: any number of processes, each of
whose requests travels on a connection of its own, as `communicate` makes them. An allocation is
booked on the connection of its request and so is the free of it, which is another one; when a
process exits its connections are noticed closed one by one, each by its own thread, and what is
booked on each is taken off the bytes in use.

As long as no request makes the arithmetic of the ledger wrap around, the bytes in use are those of
the blocks that were allocated and not freed, and the entry of a connection those of the block that
was allocated through it. A free of any bytes does wrap around: the connection it travels on has no
bytes booked.
-/
import Gemini.Lib.Run
import Gemini.PodManager.Memory

namespace Gemini.PodManager.Ledger

open Gemini.Lib

/-! ## Traffic -/

/-- Memory whose allocation `process` was granted through the connection `conn`. -/
structure Block where
  process : ℕ
  conn : ℕ
  size : Size
deriving DecidableEq, Repr

/-- What a hook library asks for. A REQ_MEM_UPDATE for a free carries the size of its block. -/
inductive Request where
  | allocate (size : Size)
  | free (b : Block)
  /-- REQ_MEM_LIMIT and REQ_QUOTA, which leave the ledger alone -/
  | other
deriving DecidableEq, Repr

/-- A descriptor of the pod manager. -/
inductive Conn where
  | closed
  | accepted (process : ℕ)
  | sent (process : ℕ) (r : Request)
  | answered (process : ℕ)
deriving DecidableEq, Repr

/-- `owned` are the blocks that a process may free. `held` is a ghost: the blocks whose allocation
was granted and whose free was not handled, until their connection is noticed closed. -/
structure State where
  mem : MemInfo
  conns : ℕ → Conn
  exited : List ℕ
  owned : List Block
  held : List Block

inductive Event where
  /-- a process establishes a connection, and it is accepted -/
  | connect (process sockfd : ℕ)
  /-- the request of a connection is sent -/
  | send (sockfd : ℕ) (r : Request)
  /-- the hook thread of a connection handles its request -/
  | handle (sockfd : ℕ)
  /-- a process exits, which closes its connections -/
  | exit (process : ℕ)
  /-- the hook thread of a connection finds it closed by its peer -/
  | hangUp (sockfd : ℕ)
deriving DecidableEq, Repr

namespace State

def init (limit : Size) : State := ⟨⟨0, limit, []⟩, fun _ => .closed, [], [], []⟩

variable (s : State)

def setConn (sockfd : ℕ) (c : Conn) : State := { s with conns := Function.update s.conns sockfd c }

def connect (process sockfd : ℕ) : Option State :=
  if s.conns sockfd = .closed ∧ process ∉ s.exited then
    some { s.setConn sockfd (.accepted process) with mem := s.mem.accept sockfd }
  else none

/-- A process frees what it owns, and once only. -/
def send (sockfd : ℕ) (r : Request) : Option State :=
  match s.conns sockfd with
  | .accepted process =>
    if process ∈ s.exited then none
    else
      match r with
      | .free b =>
        if b ∈ s.owned ∧ b.process = process then
          some { s.setConn sockfd (.sent process r) with owned := s.owned.erase b }
        else none
      | _ => some (s.setConn sockfd (.sent process r))
  | _ => none

/-- The turn of the loop of `hook_thread_func`. -/
def handle (sockfd : ℕ) : Option State :=
  match s.conns sockfd with
  | .sent process r =>
    match r with
    | .allocate size =>
      let u := s.mem.hookUpdateMemoryUsage size true sockfd
      let granted : List Block := if u.1 then [⟨process, sockfd, size⟩] else []
      some { s.setConn sockfd (.answered process) with
        mem := u.2, owned := s.owned ++ granted, held := s.held ++ granted }
    | .free b =>
      some { s.setConn sockfd (.answered process) with
        mem := (s.mem.hookUpdateMemoryUsage b.size false sockfd).2, held := s.held.erase b }
    | .other => some (s.setConn sockfd (.answered process))
  | _ => none

def exit (process : ℕ) : Option State :=
  if process ∈ s.exited then none else some { s with exited := process :: s.exited }

/-- The end of `hook_thread_func`: what was sent before the exit has been handled. -/
def hangUp (sockfd : ℕ) : Option State :=
  match s.conns sockfd with
  | .accepted process | .answered process =>
    if process ∈ s.exited then
      some { s.setConn sockfd .closed with
        mem := s.mem.recoverMemoryUsage sockfd, held := s.held.filter fun b => b.conn ≠ sockfd }
    else none
  | _ => none

def step : Event → Option State
  | .connect process sockfd => s.connect process sockfd
  | .send sockfd r => s.send sockfd r
  | .handle sockfd => s.handle sockfd
  | .exit process => s.exit process
  | .hangUp sockfd => s.hangUp sockfd

end State

/-! ## Statement -/

def bytes (bs : List Block) : ℕ := (bs.map fun b => b.size.toNat).sum

/-- The bytes that are held through a connection. -/
def bytesThrough (sockfd : ℕ) (bs : List Block) : ℕ := bytes (bs.filter fun b => b.conn = sockfd)

/-- The connection has carried no request that was handled. -/
def Conn.fresh : Conn → Bool
  | .answered _ => false
  | _ => true

/-- The request that a hook thread is about to handle. -/
def Conn.request : Conn → Option Request
  | .sent _ r => some r
  | _ => none

/-- Handling a request does not wrap around: the sum of an allocation has 64 bits, or it is refused
all the same, and a free is of no bytes, since none are booked on its connection. -/
def Request.NoWrap (m : MemInfo) : Request → Prop
  | .allocate size => m.gpuMemLimit < m.gpuMemUsed + size ∨ m.gpuMemUsed.toNat + size.toNat < 2 ^ 64
  | .free b => b.size = 0
  | .other => True

namespace State

/-- The bytes in use meet the limit, and every entry of `allocation_map` is exact. -/
def Exact (s : State) : Prop :=
  s.mem.gpuMemUsed.toNat ≤ s.mem.gpuMemLimit.toNat ∧
    ∀ e ∈ s.mem.allocationMap, e.2.toNat = bytesThrough e.1 s.held

/-- No step handles a request that makes the arithmetic wrap around. -/
def NoWrap (s : State) : Event → Prop
  | .handle sockfd => ∀ r ∈ (s.conns sockfd).request, r.NoWrap s.mem
  | _ => True

end State

/-! ## The accounts -/

/-- The bytes in use are those held, each entry is exact, and what is held is booked somewhere. -/
structure Accounts (m : MemInfo) (held : List Block) : Prop where
  used : m.gpuMemUsed.toNat = bytes held
  fits : bytes held ≤ m.gpuMemLimit.toNat
  entries : ∀ e ∈ m.allocationMap, e.2.toNat = bytesThrough e.1 held
  booked : ∀ b ∈ held, b.conn ∈ keys m.allocationMap

variable {m : MemInfo} {held : List Block} {b : Block} {sockfd : ℕ}

@[simp] theorem bytes_nil : bytes [] = 0 := rfl

theorem bytes_append (bs cs : List Block) : bytes (bs ++ cs) = bytes bs + bytes cs := by simp [bytes]

theorem bytesThrough_append (sockfd : ℕ) (bs cs : List Block) :
    bytesThrough sockfd (bs ++ cs) = bytesThrough sockfd bs + bytesThrough sockfd cs := by
  rw [bytesThrough, List.filter_append, bytes_append]
  rfl

theorem bytesThrough_singleton (sockfd : ℕ) (b : Block) :
    bytesThrough sockfd [b] = if b.conn = sockfd then b.size.toNat else 0 := by
  by_cases h : b.conn = sockfd <;> simp [bytesThrough, bytes, h]

/-- What is held through one connection and what is held through the others. -/
theorem bytesThrough_add (sockfd : ℕ) (bs : List Block) :
    bytesThrough sockfd bs + bytes (bs.filter fun b => b.conn ≠ sockfd) = bytes bs := by
  induction bs with
  | nil => rfl
  | cons b bs ih =>
    unfold bytesThrough bytes at ih ⊢
    by_cases h : b.conn = sockfd <;> simp [h] at ih ⊢ <;> omega

theorem bytesThrough_of_ne (h : ∀ b ∈ held, b.conn ≠ sockfd) : bytesThrough sockfd held = 0 := by
  have : held.filter (fun b => b.conn = sockfd) = [] := by
    rw [List.filter_eq_nil_iff]
    intro b hb
    simpa using h b hb
  rw [bytesThrough, this, bytes_nil]

/-- Blocks of no bytes can be left out of any sum. -/
theorem bytes_filter_erase (h0 : b.size = 0) (p : Block → Bool) : ∀ bs : List Block,
    bytes ((bs.erase b).filter p) = bytes (bs.filter p)
  | [] => rfl
  | c :: bs => by
    have ih := bytes_filter_erase h0 p bs
    rw [List.erase_cons]
    split
    · rename_i heq
      obtain rfl := beq_iff_eq.1 heq
      cases hp : p c <;> simp [hp, bytes, h0]
    · unfold bytes at ih ⊢
      cases hp : p c <;> simp [hp, ih]

theorem bytes_erase_of_empty (h0 : b.size = 0) (bs : List Block) : bytes (bs.erase b) = bytes bs := by
  simpa using bytes_filter_erase h0 (fun _ => true) bs

namespace Accounts

theorem init (limit : Size) : Accounts ⟨0, limit, []⟩ [] := ⟨rfl, Nat.zero_le _, nofun, nofun⟩

/-- The entry of a connection, or 0 if there is none. -/
theorem held_toNat (h : Accounts m held) (sockfd : ℕ) : (m.held sockfd).toNat = bytesThrough sockfd held := by
  unfold MemInfo.held
  cases hl : m.allocationMap.lookup sockfd with
  | none =>
    rw [lookup_eq_none] at hl
    have hne : ∀ b ∈ held, b.conn ≠ sockfd := by
      rintro b hb rfl
      exact hl (h.booked b hb)
    exact (bytesThrough_of_ne hne).symm
  | some v => exact h.entries _ (mem_of_lookup hl)

theorem accept (h : Accounts m held) (sockfd : ℕ) : Accounts (m.accept sockfd) held := by
  refine ⟨h.used, h.fits, fun e he => ?_, fun b hb => keys_insertNew (h.booked b hb)⟩
  rcases mem_insertNew he with he | ⟨rfl, hk⟩
  · exact h.entries e he
  · have hne : ∀ b ∈ held, b.conn ≠ sockfd := by
      rintro b hb rfl
      exact hk (h.booked b hb)
    exact (bytesThrough_of_ne hne).symm

/-- An allocation that is granted without wrap-around. -/
theorem allocate (h : Accounts m held) {size : Size} (hlim : ¬ m.gpuMemLimit < m.gpuMemUsed + size)
    (hsum : m.gpuMemUsed.toNat + size.toNat < 2 ^ 64) (process sockfd : ℕ) :
    Accounts (m.hookUpdateMemoryUsage size true sockfd).2 (held ++ [⟨process, sockfd, size⟩]) := by
  have hadd : (m.gpuMemUsed + size).toNat = m.gpuMemUsed.toNat + size.toNat := by
    rw [UInt64.toNat_add]
    exact Nat.mod_eq_of_lt hsum
  have hle : m.gpuMemUsed.toNat + size.toNat ≤ m.gpuMemLimit.toNat := by
    rw [UInt64.lt_iff_toNat_lt] at hlim
    omega
  have hbytes : bytes (held ++ [⟨process, sockfd, size⟩]) = bytes held + size.toNat := by
    rw [bytes_append]
    simp [bytes]
  have hused := h.used
  refine ⟨?_, ?_, fun e he => ?_, fun b hb => ?_⟩
  · rw [(MemInfo.update_allocate hle sockfd).2, hbytes, hused]
  · rw [MemInfo.update_gpuMemLimit, hbytes]
    omega
  · simp only [MemInfo.hookUpdateMemoryUsage, if_true, if_neg hlim] at he
    rw [bytesThrough_append, bytesThrough_singleton]
    rcases mem_assign he with rfl | ⟨he, hne⟩
    · -- the entry is at most the bytes in use
      have hheld := h.held_toNat sockfd
      have hpart := bytesThrough_add sockfd held
      rw [UInt64.toNat_add, hheld, Nat.mod_eq_of_lt (by omega), if_pos rfl]
    · rw [h.entries e he, if_neg (Ne.symm hne), Nat.add_zero]
  · simp only [MemInfo.hookUpdateMemoryUsage, if_true, if_neg hlim]
    rcases List.mem_append.1 hb with hb | hb
    · exact keys_assign (.inr (h.booked b hb))
    · obtain rfl := List.mem_singleton.1 hb
      exact keys_assign (.inl rfl)

/-- A free of no bytes. -/
theorem free (h : Accounts m held) (h0 : b.size = 0) (sockfd : ℕ) :
    Accounts (m.hookUpdateMemoryUsage b.size false sockfd).2 (held.erase b) := by
  rw [h0]
  simp only [MemInfo.hookUpdateMemoryUsage, Bool.false_eq_true, if_false, UInt64.sub_zero]
  refine ⟨?_, ?_, fun e he => ?_, fun c hc => keys_assign (.inr (h.booked c (List.mem_of_mem_erase hc)))⟩
  · rw [bytes_erase_of_empty h0]; exact h.used
  · rw [bytes_erase_of_empty h0]; exact h.fits
  · rw [bytesThrough, bytes_filter_erase h0]
    rcases mem_assign he with rfl | ⟨he, -⟩
    · exact h.held_toNat sockfd
    · exact h.entries e he

/-- What was held through a closed connection is taken off, and nothing else. -/
theorem recover (h : Accounts m held) (sockfd : ℕ) :
    Accounts (m.recoverMemoryUsage sockfd) (held.filter fun b => b.conn ≠ sockfd) := by
  have hheld := h.held_toNat sockfd
  have hpart := bytesThrough_add sockfd held
  have hused := h.used
  have hfits := h.fits
  refine ⟨?_, ?_, fun e he => ?_, fun b hb => ?_⟩
  · have hsub := UInt64.toNat_sub_of_le m.gpuMemUsed (m.held sockfd) (UInt64.le_iff_toNat_le.2 (by omega))
    show (m.gpuMemUsed - m.held sockfd).toNat = _
    omega
  · show _ ≤ m.gpuMemLimit.toNat
    omega
  · obtain ⟨he, hne⟩ := List.mem_filter.1 he
    have hne : e.1 ≠ sockfd := by simpa using hne
    rw [h.entries e he, bytesThrough, bytesThrough, List.filter_filter]
    congr 1
    refine List.filter_congr fun b _ => ?_
    by_cases hb : b.conn = e.1
    · simp [hb, hne]
    · simp [hb]
  · obtain ⟨hb, hne⟩ := List.mem_filter.1 hb
    exact keys_eraseKey (h.booked b hb) (by simpa using hne)

end Accounts

/-! ## What a step can do -/

namespace State

variable {s s' : State} {e : Event} {process : ℕ}

theorem connect_some (hs : s.connect process sockfd = some s') :
    s.conns sockfd = .closed ∧ s' = { s.setConn sockfd (.accepted process) with mem := s.mem.accept sockfd } := by
  unfold connect at hs
  split at hs
  · rename_i hc
    cases hs
    exact ⟨hc.1, rfl⟩
  · cases hs

theorem send_some {r : Request} (hs : s.send sockfd r = some s') : ∃ process owned,
    s.conns sockfd = .accepted process ∧ s' = { s.setConn sockfd (.sent process r) with owned := owned } := by
  unfold send at hs
  split at hs
  · rename_i process hc
    split at hs
    · cases hs
    · split at hs
      · split at hs
        · cases hs
          exact ⟨process, _, hc, rfl⟩
        · cases hs
      · cases hs
        exact ⟨process, _, hc, rfl⟩
  · cases hs

/-- What the ledger is after a request of `process` is handled, with the blocks that are held. -/
def ledgerAfter (s : State) (process sockfd : ℕ) : Request → MemInfo × List Block
  | .allocate size =>
    let u := s.mem.hookUpdateMemoryUsage size true sockfd
    (u.2, s.held ++ if u.1 then [⟨process, sockfd, size⟩] else [])
  | .free b => ((s.mem.hookUpdateMemoryUsage b.size false sockfd).2, s.held.erase b)
  | .other => (s.mem, s.held)

theorem handle_some (hs : s.handle sockfd = some s') : ∃ process r,
    s.conns sockfd = .sent process r ∧ s'.conns = Function.update s.conns sockfd (.answered process) ∧
      (s'.mem, s'.held) = s.ledgerAfter process sockfd r := by
  unfold handle at hs
  split at hs
  · rename_i process r hc
    refine ⟨process, r, hc, ?_⟩
    cases r with
    | allocate size => cases hs; exact ⟨rfl, rfl⟩
    | free b => cases hs; exact ⟨rfl, rfl⟩
    | other => cases hs; exact ⟨rfl, rfl⟩
  · cases hs

theorem hangUp_some (hs : s.hangUp sockfd = some s') : s' = { s.setConn sockfd .closed with
    mem := s.mem.recoverMemoryUsage sockfd, held := s.held.filter fun b => b.conn ≠ sockfd } := by
  unfold hangUp at hs
  split at hs
  · split at hs
    · cases hs; rfl
    · cases hs
  · split at hs
    · cases hs; rfl
    · cases hs
  · cases hs

theorem exit_some (hs : s.exit process = some s') : s' = { s with exited := process :: s.exited } := by
  unfold exit at hs
  split at hs
  · cases hs
  · cases hs; rfl

/-! ## Runs -/

/-- Handling a request keeps the accounts. -/
theorem accounts_handle (h : Accounts s.mem s.held) {r : Request} (hr : r.NoWrap s.mem) :
    Accounts (s.ledgerAfter process sockfd r).1 (s.ledgerAfter process sockfd r).2 := by
  cases r with
  | allocate size =>
    by_cases hlim : s.mem.gpuMemLimit < s.mem.gpuMemUsed + size
    · simp only [ledgerAfter, MemInfo.hookUpdateMemoryUsage, if_true, if_pos hlim, Bool.false_eq_true, if_false,
        List.append_nil]
      exact h
    · have hsum := hr.resolve_left hlim
      have hok : (s.mem.hookUpdateMemoryUsage size true sockfd).1 = true := by
        simp [MemInfo.hookUpdateMemoryUsage, hlim]
      simp only [ledgerAfter, hok, if_true]
      exact h.allocate hlim hsum process sockfd
  | free b => exact h.free hr sockfd
  | other => exact h

/-- Every step that does not wrap around keeps the accounts. -/
theorem accounts_step (h : Accounts s.mem s.held) (hg : s.NoWrap e) (hs : s.step e = some s') :
    Accounts s'.mem s'.held := by
  cases e with
  | connect process sockfd =>
    obtain ⟨-, rfl⟩ := connect_some hs
    exact h.accept sockfd
  | send sockfd r =>
    obtain ⟨process, owned, -, rfl⟩ := send_some hs
    exact h
  | handle sockfd =>
    obtain ⟨process, r, hc, -, hledger⟩ := handle_some hs
    obtain ⟨hmem, hheld⟩ := Prod.mk.inj hledger
    rw [hmem, hheld]
    exact accounts_handle h (hg r (by rw [hc]; rfl))
  | exit process =>
    obtain rfl := exit_some hs
    exact h
  | hangUp sockfd =>
    obtain rfl := hangUp_some hs
    exact h.recover sockfd

/-- The ledger is exact in every state of a run in which no request makes it wrap around. -/
theorem exact_of_run {limit : Size} {es : List Event} (hrun : RunWhere step NoWrap (init limit) es s) : s.Exact := by
  have h : Accounts s.mem s.held :=
    hrun.invariant (fun _ _ _ h hg hs => accounts_step h hg hs) (Accounts.init limit)
  exact ⟨h.used ▸ h.fits, h.entries⟩

instance (m : MemInfo) (r : Request) : Decidable (r.NoWrap m) := by
  cases r <;> unfold Request.NoWrap <;> infer_instance

instance (s : State) (e : Event) : Decidable (s.NoWrap e) :=
  match e with
  | .handle sockfd => inferInstanceAs (Decidable (∀ r ∈ (s.conns sockfd).request, r.NoWrap s.mem))
  | .connect _ _ | .send _ _ | .exit _ | .hangUp _ => .isTrue trivial

/-! ## Frees -/

/-- Nothing is booked on a connection before its request is handled, and nothing is held through it;
a closed one has no entry. -/
structure FreshInv (s : State) : Prop where
  entries : ∀ e ∈ s.mem.allocationMap, (s.conns e.1).fresh = true → e.2 = 0
  held : ∀ b ∈ s.held, (s.conns b.conn).fresh = false
  closed : ∀ sockfd, s.conns sockfd = .closed → sockfd ∉ keys s.mem.allocationMap

theorem freshInv_init (limit : Size) : FreshInv (init limit) := ⟨nofun, nofun, fun _ _ => nofun⟩

/-- One connection changes, with what is booked on it and held through it. -/
theorem FreshInv.of_conn (h : FreshInv s) {c : Conn} (hconns : s'.conns = Function.update s.conns sockfd c)
    (hentries : ∀ e ∈ s'.mem.allocationMap, e.1 ≠ sockfd → e ∈ s.mem.allocationMap)
    (hheld : ∀ b ∈ s'.held, b.conn ≠ sockfd → b ∈ s.held)
    (hfresh : c.fresh = true → (∀ e ∈ s'.mem.allocationMap, e.1 = sockfd → e.2 = 0) ∧ ∀ b ∈ s'.held, b.conn ≠ sockfd)
    (hclosed : c = .closed → sockfd ∉ keys s'.mem.allocationMap) : FreshInv s' := by
  constructor
  · intro e he hf
    rw [hconns] at hf
    by_cases hfd : e.1 = sockfd
    · rw [hfd, Function.update_self] at hf
      exact (hfresh hf).1 e he hfd
    · rw [Function.update_of_ne hfd] at hf
      exact h.entries e (hentries e he hfd) hf
  · intro b hb
    rw [hconns]
    by_cases hfd : b.conn = sockfd
    · rw [hfd, Function.update_self, Bool.eq_false_iff]
      intro hf
      exact (hfresh hf).2 b hb hfd
    · rw [Function.update_of_ne hfd]
      exact h.held b (hheld b hb hfd)
  · intro fd hfd hkey
    rw [hconns] at hfd
    by_cases hne : fd = sockfd
    · subst hne
      rw [Function.update_self] at hfd
      exact hclosed hfd hkey
    · rw [Function.update_of_ne hne] at hfd
      obtain ⟨e, he, rfl⟩ := mem_keys.1 hkey
      exact h.closed _ hfd (mem_keys.2 ⟨e, hentries e he hne, rfl⟩)

/-- Only what is booked on the connection of a request changes when it is handled. -/
theorem mem_update {m : MemInfo} {size : Size} {allocate : Bool} {d : ℕ × Size}
    (hd : d ∈ (m.hookUpdateMemoryUsage size allocate sockfd).2.allocationMap) (hne : d.1 ≠ sockfd) :
    d ∈ m.allocationMap := by
  have hassign : ∀ {v}, d ∈ assign sockfd v m.allocationMap → d ∈ m.allocationMap := by
    intro v hd
    rcases mem_assign hd with rfl | ⟨hd, -⟩
    · exact absurd rfl hne
    · exact hd
  unfold MemInfo.hookUpdateMemoryUsage at hd
  split at hd
  · split at hd
    · exact hd
    · exact hassign hd
  · exact hassign hd

theorem freshInv_handle (h : FreshInv s) (hs : s.handle sockfd = some s') : FreshInv s' := by
  obtain ⟨process, r, hc, hconns, hledger⟩ := handle_some hs
  obtain ⟨hmem, hheld⟩ := Prod.mk.inj hledger
  refine h.of_conn hconns (fun d hd hne => ?_) (fun b hb hne => ?_) nofun nofun
  · rw [hmem] at hd
    cases r with
    | allocate size => exact mem_update hd hne
    | free b => exact mem_update hd hne
    | other => exact hd
  · rw [hheld] at hb
    cases r with
    | allocate size =>
      rcases List.mem_append.1 hb with hb | hb
      · exact hb
      · split at hb
        · exact absurd (by rw [List.mem_singleton.1 hb]) hne
        · cases hb
    | free c => exact List.mem_of_mem_erase hb
    | other => exact hb

theorem freshInv_step (h : FreshInv s) (hs : s.step e = some s') : FreshInv s' := by
  cases e with
  | connect process sockfd =>
    obtain ⟨hc, rfl⟩ := connect_some hs
    have hnone := h.closed sockfd hc
    have hfresh : (s.conns sockfd).fresh = true := by rw [hc]; rfl
    refine h.of_conn rfl (fun d hd hne => ?_) (fun b hb _ => hb) (fun _ => ⟨fun d hd heq => ?_, fun b hb heq => ?_⟩)
      nofun
    · rcases mem_insertNew hd with hd | ⟨rfl, -⟩
      · exact hd
      · exact absurd rfl hne
    · rcases mem_insertNew hd with hd | ⟨rfl, -⟩
      · exact absurd (mem_keys.2 ⟨d, hd, heq⟩) hnone
      · rfl
    · have := h.held b hb
      rw [heq, hfresh] at this; cases this
  | send sockfd r =>
    obtain ⟨process, owned, hc, rfl⟩ := send_some hs
    have hfresh : (s.conns sockfd).fresh = true := by rw [hc]; rfl
    refine h.of_conn rfl (fun d hd _ => hd) (fun b hb _ => hb) (fun _ => ⟨fun d hd heq => ?_, fun b hb heq => ?_⟩) nofun
    · exact h.entries d hd (heq ▸ hfresh)
    · have := h.held b hb
      rw [heq, hfresh] at this; cases this
  | handle sockfd => exact freshInv_handle h hs
  | exit process =>
    obtain rfl := exit_some hs
    exact ⟨h.entries, h.held, h.closed⟩
  | hangUp sockfd =>
    obtain rfl := hangUp_some hs
    have herased : ∀ d ∈ eraseKey sockfd s.mem.allocationMap, d.1 ≠ sockfd := fun d hd => by
      simpa using (List.mem_filter.1 hd).2
    refine h.of_conn rfl (fun d hd _ => mem_eraseKey hd) (fun b hb _ => (List.mem_filter.1 hb).1)
      (fun _ => ⟨fun d hd heq => absurd heq (herased d hd), fun b hb => by simpa using (List.mem_filter.1 hb).2⟩)
      fun _ hkey => ?_
    obtain ⟨d, hd, heq⟩ := mem_keys.1 hkey
    exact herased d hd heq

/-- In every run the handling of a free of any bytes leaves a ledger that is not exact: the free is
booked on a connection of its own. -/
theorem free_breaks {limit : Size} {es : List Event} (hrun : Run step (init limit) es s)
    (hs : s.handle sockfd = some s') {b : Block} (hc : s.conns sockfd = .sent process (.free b))
    (hb : b.size ≠ 0) : ¬ s'.Exact := by
  have hinv : FreshInv s := hrun.invariant (fun _ _ _ h _ hs => freshInv_step h hs) (freshInv_init limit)
  have hfresh : (s.conns sockfd).fresh = true := by rw [hc]; rfl
  obtain ⟨process', r, hc', -, hledger⟩ := handle_some hs
  rw [hc] at hc'; cases hc'
  obtain ⟨hmem, hheld⟩ := Prod.mk.inj hledger
  rintro ⟨-, hexact⟩
  have hentry : s.mem.held sockfd = 0 := by
    unfold MemInfo.held
    cases hl : s.mem.allocationMap.lookup sockfd with
    | none => rfl
    | some v => exact hinv.entries _ (mem_of_lookup hl) hfresh
  have hnone : bytesThrough sockfd s'.held = 0 := by
    refine bytesThrough_of_ne fun c hc heq => ?_
    rw [hheld] at hc
    have := hinv.held c (List.mem_of_mem_erase hc)
    rw [heq, hfresh] at this; cases this
  -- the entry is the size taken off 0
  obtain ⟨d, hd, heq⟩ : ∃ d ∈ s'.mem.allocationMap, d.1 = sockfd := by
    rw [← mem_keys, hmem]
    exact keys_assign (.inl rfl)
  have hzero := hexact d hd
  rw [heq, hnone] at hzero
  rw [hmem] at hd
  rcases mem_assign hd with rfl | ⟨-, hne⟩
  · rw [hentry, UInt64.toNat_sub] at hzero
    have hlt := b.size.toNat_lt
    have hpos : b.size.toNat ≠ 0 := fun h => hb (UInt64.toNat_inj.1 h)
    simp only [UInt64.toNat_zero] at hzero
    omega
  · exact hne heq

/-- A run the theorem speaks about: of two processes one is granted its allocation and exits. -/
theorem exact_of_two_allocations : ∃ s,
    RunWhere step NoWrap (init 100) [.connect 1 4, .send 4 (.allocate 60), .connect 2 5, .handle 4,
      .send 5 (.allocate 70), .handle 5, .exit 1, .hangUp 4] s ∧
      s.mem.gpuMemUsed = 0 ∧ s.mem.allocationMap = [(5, 0)] ∧ s.Exact := by
  obtain ⟨s, hrun, hs⟩ : ∃ s, RunWhere step NoWrap (init 100) [.connect 1 4, .send 4 (.allocate 60), .connect 2 5,
      .handle 4, .send 5 (.allocate 70), .handle 5, .exit 1, .hangUp 4] s ∧
      s.mem.gpuMemUsed = 0 ∧ s.mem.allocationMap = [(5, 0)] := exists_runWhere (by decide +kernel)
  exact ⟨s, hrun, hs.1, hs.2, exact_of_run hrun⟩

/-- A process allocates 60 bytes, frees them and exits. The free is booked on a connection of its
own, and when the connection of the allocation is noticed first the bytes in use wrap around. -/
theorem not_exact_of_free : ∃ s,
    Run step (init 100) [.connect 1 4, .send 4 (.allocate 60), .handle 4, .connect 1 5, .send 5 (.free ⟨1, 4, 60⟩),
      .handle 5, .exit 1, .hangUp 4] s ∧
      s.mem.gpuMemUsed.toNat = 2 ^ 64 - 60 ∧ s.mem.gpuMemLimit.toNat = 100 ∧
      (5, 0 - 60) ∈ s.mem.allocationMap ∧ bytesThrough 5 s.held = 0 ∧ ¬ s.Exact := by
  obtain ⟨s, hrun, hused, hlim, hentry, hheld⟩ : ∃ s,
      Run step (init 100) [.connect 1 4, .send 4 (.allocate 60), .handle 4, .connect 1 5, .send 5 (.free ⟨1, 4, 60⟩),
        .handle 5, .exit 1, .hangUp 4] s ∧
        s.mem.gpuMemUsed.toNat = 2 ^ 64 - 60 ∧ s.mem.gpuMemLimit.toNat = 100 ∧
        (5, 0 - 60) ∈ s.mem.allocationMap ∧ bytesThrough 5 s.held = 0 := exists_runWhere (by decide +kernel)
  refine ⟨s, hrun, hused, hlim, hentry, hheld, fun h => ?_⟩
  have := h.1
  omega

end State

end Gemini.PodManager.Ledger
