/-
Changes to the configuration file, in any interleaving of those who write it, the thread of
`monitor_file` and the scheduler. The file is read while it may be written, events of writes that come
close together are merged, and the lines of a file are stored one by one. Still nothing is missed: once
nobody writes the file, the thread comes to rest, and then every client has the settings of its line.
This needs that the file is not written before the watch is set, and that the queue of the kernel has
room.
-/
import Gemini.Lib.Simulation
import Gemini.Scheduler.Held
import Gemini.Scheduler.Monitor
import Gemini.Scheduler.Reload

namespace Gemini.Scheduler.Watch

open Gemini.Lib Gemini.Comm Monitor ConfigFile Reload

/-- What a run does not change: the options of the scheduler, the name of its file, and the room that the
kernel has for events. -/
structure Setup where
  cfg : Config
  filename : CString
  maxQueuedEvents : ℕ

/-! ## States -/

/-- Where the thread of `monitor_file` stands. -/
inductive Thread where
  /-- before `inotify_add_watch` -/
  | starting
  /-- in the loop over the buffer, or behind it, in `read` -/
  | walking (i length : ℕ)
deriving DecidableEq, Repr

/-- Where `read_resource_config` stands, which `main` calls first and then the thread. -/
inductive Loader where
  | idle
  /-- the file is read; it is `torn` if it was written meanwhile -/
  | reading (torn : Bool)
  /-- the lines that are not stored yet -/
  | storing (lines : List Vars)
deriving DecidableEq, Repr

/-- The file and those who have it open for writing, the events that the kernel has queued, the thread
with its buffer, and the scheduler. -/
structure State where
  content : List Char
  writers : ℕ
  queue : List Notice
  buffer : List UInt8
  thread : Thread
  loader : Loader
  sched : Scheduler.State

def State.init (content : List Char) : State := ⟨content, 0, [], [], .starting, .reading false, .init⟩

inductive Event where
  | openWrite
  | write (content : List Char)
  /-- the file is closed by one who could write it, and its event is `n` -/
  | closeWrite (n : Notice)
  /-- another event of the directory -/
  | other (n : Notice)
  /-- `inotify_add_watch` -/
  | watch
  /-- `read` returns `k` events; `rest` is what else the buffer holds -/
  | read (k : ℕ) (rest : List UInt8)
  /-- a turn of the loop over the buffer -/
  | visit
  /-- the fields are extracted from what was read of the file -/
  | load (u : Uninitialised) (content : List Char)
  /-- a line is stored, or all are -/
  | store
  /-- any other step of the scheduler -/
  | schedule (e : Scheduler.Event)

namespace State

variable (c : Setup) (s : State)

/-- The kernel queues an event, unless it is the one that was queued last, or there is no room. -/
def notify (n : Notice) : State :=
  if s.thread = .starting ∨ s.queue.getLast? = some n ∨ c.maxQueuedEvents ≤ s.queue.length then s
  else { s with queue := s.queue ++ [n] }

def write (content : List Char) : Option State :=
  if 0 < s.writers then
    some { s with
      content := content
      loader := match s.loader with
        | .reading _ => .reading true
        | loader => loader }
  else none

def closeWrite (n : Notice) : Option State :=
  if 0 < s.writers ∧ n.event.Triggers c.filename then some (State.notify c { s with writers := s.writers - 1 } n)
  else none

def watch : Option State :=
  if s.thread = .starting ∧ s.loader = .idle then some { s with thread := .walking 0 0 } else none

def read (k : ℕ) (rest : List UInt8) : Option State :=
  let bytes := (s.queue.take k).flatMap Notice.toBytes
  match s.thread with
  | .walking i length =>
    if length ≤ i ∧ s.loader = .idle ∧ 0 < k ∧ k ≤ s.queue.length ∧ bytes.length + rest.length = bufLen then
      some { s with queue := s.queue.drop k, buffer := bytes ++ rest, thread := .walking 0 bytes.length }
    else none
  | _ => none

def visit : Option State :=
  match s.thread with
  | .walking i length =>
    if i < length ∧ s.loader = .idle then
      (eventAt s.buffer i).map fun (event, j) =>
        { s with
          thread := .walking j length
          loader := if event.Triggers c.filename then .reading false else .idle }
    else none
  | _ => none

def load (u : Uninitialised) (content : List Char) : Option State :=
  match s.loader with
  | .reading torn =>
    if torn = true ∨ content = s.content then
      some { s with loader := .storing ((created u content).map Entry.vars) }
    else none
  | _ => none

def store : Option State :=
  match s.loader with
  | .storing [] => some { s with loader := .idle }
  | .storing (v :: vs) =>
    (s.sched.step c.cfg (.configure v.clientName v.gpuMinFraction v.gpuMaxFraction v.gpuMemorySize)).map fun sched =>
      { s with loader := .storing vs, sched := sched }
  | _ => none

def step : Event → Option State
  | .openWrite => some { s with writers := s.writers + 1 }
  | .write content => s.write content
  | .closeWrite n => s.closeWrite c n
  | .other n => if n.event.Triggers c.filename then none else some (s.notify c n)
  | .watch => s.watch
  | .read k rest => s.read k rest
  | .visit => s.visit c
  | .load u content => s.load u content
  | .store => s.store c
  | .schedule (.configure ..) => none
  | .schedule e => (s.sched.step c.cfg e).map fun sched => { s with sched := sched }

/-- No write goes unnoticed: there is a watch, and when the file is closed there is room for its event. -/
def Noticed (s : State) : Event → Prop
  | .write _ => s.thread ≠ .starting
  | .closeWrite _ => s.queue.length < c.maxQueuedEvents
  | _ => True

instance (s : State) (e : Event) : Decidable (Noticed c s e) :=
  match e with
  | .write _ => inferInstanceAs (Decidable (_ ≠ _))
  | .closeWrite _ => inferInstanceAs (Decidable (_ < _))
  | .openWrite | .other _ | .watch | .read .. | .visit | .load .. | .store | .schedule _ => .isTrue trivial

/-- A step of the thread of `monitor_file`, or of `main` before there is one. -/
def Own : State → Event → Prop
  | _, .watch | _, .read .. | _, .visit | _, .load .. | _, .store => True
  | _, _ => False

/-- The thread is blocked in `read`. -/
def AtRest : Prop := s.loader = .idle ∧ s.queue = [] ∧ ∃ i length, s.thread = .walking i length ∧ length ≤ i

/-! ## Settings in force -/

/-- The lines of the file are in force, but for those that are still to be stored. -/
def Applied (content : List Char) (lines : List Vars) (m : ClientInfoMap) : Prop :=
  ∀ file, WellFormed content file → ∀ name v, lastLine name file = some v → lastLine name lines = some v ∨
    lastLine name lines = none ∧ ∃ inf, m name = some inf ∧ inf.settings = lineSettings v

/-- The file that there is now has been loaded, or is being loaded. -/
def Current : Prop :=
  match s.loader with
  | .idle => Applied s.content [] s.sched.clients
  | .reading torn => torn = false
  | .storing lines => Applied s.content lines s.sched.clients

/-- The file will be loaded again: somebody has it open for writing, or there is an event of it in the
queue or among those of the buffer that the loop has not come to. -/
def Due (events : List InotifyEvent) : Prop :=
  s.thread ≠ .starting ∧
    (0 < s.writers ∨ (∃ n ∈ s.queue, n.event.Triggers c.filename) ∨ ∃ event ∈ events, event.Triggers c.filename)

/-- `events` are those of the buffer that the loop has not come to. -/
structure Inv (events : List InotifyEvent) : Prop where
  laid : ∀ i length, s.thread = .walking i length → Laid (eventAt s.buffer) i events length
  fresh : s.Current ∨ s.Due c events

end State

/-! ## Lines in force -/

section

variable {cfg : Config} {content : List Char} {lines : List Vars} {m : ClientInfoMap} {sched sched' : Scheduler.State}

theorem lastLine_cons (name : String) (v : Vars) (vs : List Vars) :
    lastLine name (v :: vs) = (lastLine name vs).or (if v.clientName = name then some v else none) := by
  rw [lastLine, List.reverse_cons, List.find?_append, lastLine]
  by_cases h : v.clientName = name <;> simp [h]

/-- Whatever is stored under the names: all lines of the file are still to come. -/
theorem applied_created (u : Uninitialised) (content : List Char) (m : ClientInfoMap) :
    State.Applied content ((created u content).map Entry.vars) m := by
  intro file hfile name v hv
  have hnum : (readContainerNum u content).1 = file.length := by
    unfold readContainerNum
    simp only [hfile.containerNum, Option.getD_some, Int.toNat_natCast]
  have hvars := entries_of_lines file (readContainerNum u content).2 ⟨u.vars, none⟩ hfile.lines
  rw [created, hnum, hvars]
  exact .inl hv

theorem applied_store {v : Vars} (h : State.Applied content (v :: lines) sched.clients)
    (hs : sched.step cfg (.configure v.clientName v.gpuMinFraction v.gpuMaxFraction v.gpuMemorySize) = some sched') :
    State.Applied content lines sched'.clients := by
  cases hs
  intro file hfile name w hw
  by_cases hn : v.clientName = name
  · subst hn
    rcases h file hfile _ w hw with hl | ⟨hl, -⟩
    · rw [lastLine_cons, if_pos rfl] at hl
      cases hrest : lastLine v.clientName lines with
      | none =>
        rw [hrest] at hl
        cases hl
        exact .inr ⟨rfl, _, Function.update_self .., rfl⟩
      | some x =>
        rw [hrest] at hl
        exact .inl hl
    · rw [lastLine_cons, if_pos rfl] at hl
      cases hrest : lastLine v.clientName lines with
      | none => rw [hrest] at hl; cases hl
      | some x => rw [hrest] at hl; cases hl
  · have hcons : lastLine name (v :: lines) = lastLine name lines := by
      rw [lastLine_cons, if_neg hn, Option.or_none]
    rw [← hcons]
    refine (h file hfile name w hw).imp_right ?_
    rintro ⟨hl, inf, hi, hset⟩
    exact ⟨hl, inf, (Function.update_of_ne (Ne.symm hn) ..).trans hi, hset⟩

/-- Clients are not forgotten. -/
theorem clients_kept {e : Scheduler.Event} (hs : sched.step cfg e = some sched') {name : String}
    (h : ∃ inf, sched.clients name = some inf) : ∃ inf, sched'.clients name = some inf := by
  cases e with
  | accept socket => obtain ⟨-, rfl⟩ := Scheduler.State.accept_some hs; exact h
  | request conn n reqId overuse burst now =>
    obtain ⟨-, socket, -, ⟨-, rfl⟩ | ⟨inf, -, rfl⟩⟩ := Scheduler.State.request_some hs
    · exact h
    · exact Scheduler.State.known_update h
  | send => obtain ⟨selected, quota, -, rfl⟩ := Scheduler.State.send_some hs; exact h
  | _ => exact (Scheduler.State.held_step rfl hs).2.2 name h

/-- Nothing else that the scheduler does changes the settings of a client. -/
theorem applied_schedule {e : Scheduler.Event} (hs : sched.step cfg e = some sched')
    (he : ∀ name minf maxf limit, e ≠ .configure name minf maxf limit) (h : State.Applied content lines sched.clients) :
    State.Applied content lines sched'.clients := by
  intro file hfile name v hv
  refine (h file hfile name v hv).imp_right ?_
  rintro ⟨hl, inf, hi, hset⟩
  obtain ⟨inf', hi'⟩ := clients_kept hs ⟨inf, hi⟩
  rcases Scheduler.State.clients_step hs hi' with ⟨old, hold, hsame⟩ | ⟨minf, maxf, limit, hc, -⟩
  · rw [hi] at hold
    cases hold
    exact ⟨hl, inf', hi', hsame.symm.trans hset⟩
  · exact absurd hc (he _ _ _ _)

end

namespace State

variable {c : Setup} {s s' : State} {e : Event} {es : List Event} {events : List InotifyEvent}

/-! ## What each event can do -/

theorem notify_cases (n : Notice) : (s.thread = .starting ∧ s.notify c n = s) ∨
    (n ∈ s.queue ∧ s.notify c n = s) ∨ (c.maxQueuedEvents ≤ s.queue.length ∧ s.notify c n = s) ∨
    s.notify c n = { s with queue := s.queue ++ [n] } := by
  unfold notify
  split
  · rename_i h
    rcases h with h | h | h
    · exact .inl ⟨h, rfl⟩
    · exact .inr (.inl ⟨List.mem_of_getLast? h, rfl⟩)
    · exact .inr (.inr (.inl ⟨h, rfl⟩))
  · exact .inr (.inr (.inr rfl))

theorem read_some {k : ℕ} {rest : List UInt8} (hs : s.read k rest = some s') :
    ∃ i length, s.thread = .walking i length ∧ length ≤ i ∧ s.loader = .idle ∧ s' = { s with
      queue := s.queue.drop k
      buffer := (s.queue.take k).flatMap Notice.toBytes ++ rest
      thread := .walking 0 ((s.queue.take k).flatMap Notice.toBytes).length } := by
  simp only [read] at hs
  split at hs
  · rename_i i length ht
    split at hs
    · rename_i h; cases hs; exact ⟨i, length, ht, h.1, h.2.1, rfl⟩
    · cases hs
  · cases hs

theorem visit_some (hs : s.visit c = some s') : ∃ i length event j, s.thread = .walking i length ∧ i < length ∧
    s.loader = .idle ∧ eventAt s.buffer i = some (event, j) ∧ s' = { s with
      thread := .walking j length
      loader := if event.Triggers c.filename then .reading false else .idle } := by
  unfold visit at hs
  split at hs
  · rename_i i length ht
    split at hs
    · rename_i h
      obtain ⟨⟨event, j⟩, he, rfl⟩ := Option.map_eq_some_iff.1 hs
      exact ⟨i, length, event, j, ht, h.1, h.2, he, rfl⟩
    · cases hs
  · cases hs

theorem load_some {u : Uninitialised} {content : List Char} (hs : s.load u content = some s') : ∃ torn,
    s.loader = .reading torn ∧ (torn = true ∨ content = s.content) ∧
    s' = { s with loader := .storing ((created u content).map Entry.vars) } := by
  unfold load at hs
  split at hs
  · rename_i torn hl
    split at hs
    · rename_i h; cases hs; exact ⟨torn, hl, h, rfl⟩
    · cases hs
  · cases hs

theorem store_some (hs : s.store c = some s') : (s.loader = .storing [] ∧ s' = { s with loader := .idle }) ∨
    ∃ v vs sched, s.loader = .storing (v :: vs) ∧
      s.sched.step c.cfg (.configure v.clientName v.gpuMinFraction v.gpuMaxFraction v.gpuMemorySize) = some sched ∧
      s' = { s with loader := .storing vs, sched := sched } := by
  unfold store at hs
  split at hs
  · rename_i hl; cases hs; exact .inl ⟨hl, rfl⟩
  · rename_i v vs hl
    obtain ⟨sched, hsched, rfl⟩ := Option.map_eq_some_iff.1 hs
    exact .inr ⟨v, vs, sched, hl, hsched, rfl⟩
  · cases hs

/-! ## The invariant -/

theorem inv_init (content : List Char) : Inv c (init content) [] := ⟨nofun, .inl rfl⟩

/-- Nothing is left of the buffer behind the loop. -/
theorem Inv.events_of_le (h : Inv c s events) {i length : ℕ} (ht : s.thread = .walking i length) (hle : length ≤ i) :
    events = [] := by
  by_contra hne
  exact absurd ((h.laid i length ht).lt_iff.2 hne) (not_lt.2 hle)

theorem inv_closeWrite (h : Inv c s events) {n : Notice} (hroom : s.queue.length < c.maxQueuedEvents)
    (hs : s.closeWrite c n = some s') : Inv c s' events := by
  unfold closeWrite at hs
  split at hs
  · rename_i hn
    cases hs
    rcases notify_cases (c := c) (s := { s with writers := s.writers - 1 }) n with
      ⟨ht, he⟩ | ⟨hq, he⟩ | ⟨hfull, -⟩ | he
    · rw [he]
      have ht : s.thread = .starting := ht
      exact ⟨h.laid, .inl (h.fresh.resolve_right fun hd => hd.1 ht)⟩
    · rw [he]
      refine ⟨h.laid, ?_⟩
      by_cases ht : s.thread = .starting
      · exact .inl (h.fresh.resolve_right fun hd => hd.1 ht)
      · exact .inr ⟨ht, .inr (.inl ⟨n, hq, hn.2⟩)⟩
    · exact absurd hroom (not_lt.2 hfull)
    · rw [he]
      refine ⟨h.laid, ?_⟩
      by_cases ht : s.thread = .starting
      · exact .inl (h.fresh.resolve_right fun hd => hd.1 ht)
      · exact .inr ⟨ht, .inr (.inl ⟨n, List.mem_append_right _ (List.mem_singleton_self n), hn.2⟩)⟩
  · cases hs

theorem inv_other (h : Inv c s events) (n : Notice) : Inv c (s.notify c n) events := by
  rcases notify_cases (c := c) (s := s) n with ⟨-, he⟩ | ⟨-, he⟩ | ⟨-, he⟩ | he
  · rwa [he]
  · rwa [he]
  · rwa [he]
  · rw [he]
    refine ⟨h.laid, h.fresh.imp_right ?_⟩
    rintro ⟨ht, hw | ⟨m, hm, htr⟩ | hev⟩
    · exact ⟨ht, .inl hw⟩
    · exact ⟨ht, .inr (.inl ⟨m, List.mem_append_left _ hm, htr⟩)⟩
    · exact ⟨ht, .inr (.inr hev)⟩

theorem inv_read (h : Inv c s events) {k : ℕ} {rest : List UInt8} (hs : s.read k rest = some s') :
    Inv c s' ((s.queue.take k).map Notice.event) := by
  obtain ⟨i, length, ht, hle, hl, rfl⟩ := read_some hs
  have hnil := h.events_of_le ht hle
  subst hnil
  refine ⟨fun j k hj => ?_, h.fresh.imp ?_ ?_⟩
  · cases hj
    exact Notice.laid _ rest
  · intro hc
    simpa only [Current, hl] using hc
  · rintro ⟨-, hw | ⟨n, hn, htr⟩ | ⟨event, hev, -⟩⟩
    · exact ⟨nofun, .inl hw⟩
    · rw [← List.take_append_drop k s.queue] at hn
      rcases List.mem_append.1 hn with hn | hn
      · exact ⟨nofun, .inr (.inr ⟨n.event, List.mem_map_of_mem hn, htr⟩)⟩
      · exact ⟨nofun, .inr (.inl ⟨n, hn, htr⟩)⟩
    · cases hev

/-- The loop goes on to the next event, or loads the file for this one first. -/
theorem inv_visit (h : Inv c s events) (hs : s.visit c = some s') : ∃ events', Inv c s' events' := by
  obtain ⟨i, length, event, j, ht, hlt, hl, he, rfl⟩ := visit_some hs
  have hlaid := h.laid i length ht
  cases hlaid with
  | nil => exact absurd hlt (lt_irrefl _)
  | @cons _ k _ x events hx _ hrest =>
    rw [he] at hx
    cases hx
    refine ⟨events, fun a b hab => ?_, ?_⟩
    · cases hab
      exact hrest
    · by_cases htr : event.Triggers c.filename
      · refine .inl ?_
        simp only [Current, if_pos htr]
      · rcases h.fresh with hc | ⟨-, hw | hq | ⟨x, hx, hxt⟩⟩
        · left
          simp only [Current, hl] at hc
          simpa only [Current, if_neg htr] using hc
        · exact .inr ⟨nofun, .inl hw⟩
        · exact .inr ⟨nofun, .inr (.inl hq)⟩
        · rcases List.mem_cons.1 hx with rfl | hx
          · exact absurd hxt htr
          · exact .inr ⟨nofun, .inr (.inr ⟨x, hx, hxt⟩)⟩

theorem inv_load (h : Inv c s events) {u : Uninitialised} {content : List Char} (hs : s.load u content = some s') :
    Inv c s' events := by
  obtain ⟨torn, hl, hread, rfl⟩ := load_some hs
  refine ⟨h.laid, h.fresh.imp_left fun hc => ?_⟩
  simp only [Current, hl] at hc
  rcases hread with htorn | rfl
  · rw [hc] at htorn
    cases htorn
  · exact applied_created u s.content _

theorem inv_store (h : Inv c s events) (hs : s.store c = some s') : Inv c s' events := by
  rcases store_some hs with ⟨hl, rfl⟩ | ⟨v, vs, sched, hl, hsched, rfl⟩
  · refine ⟨h.laid, h.fresh.imp_left fun hc => ?_⟩
    simp only [Current, hl] at hc
    exact hc
  · refine ⟨h.laid, h.fresh.imp_left fun hc => ?_⟩
    simp only [Current, hl] at hc
    exact applied_store hc hsched

theorem inv_schedule (h : Inv c s events) {e : Scheduler.Event} {sched : Scheduler.State}
    (he : ∀ name minf maxf limit, e ≠ .configure name minf maxf limit) (hs : s.sched.step c.cfg e = some sched) :
    Inv c { s with sched := sched } events := by
  refine ⟨h.laid, h.fresh.imp_left fun hc => ?_⟩
  cases hl : s.loader with
  | idle =>
    simp only [Current, hl] at hc ⊢
    exact applied_schedule hs he hc
  | reading torn =>
    simp only [Current, hl] at hc ⊢
    exact hc
  | storing lines =>
    simp only [Current, hl] at hc ⊢
    exact applied_schedule hs he hc

theorem inv_step (h : Inv c s events) (hg : s.Noticed c e)
    (hs : s.step c e = some s') : ∃ events', Inv c s' events' := by
  cases e with
  | openWrite =>
    cases hs
    refine ⟨events, h.laid, h.fresh.imp id ?_⟩
    rintro ⟨ht, -⟩
    exact ⟨ht, .inl (Nat.succ_pos _)⟩
  | write content =>
    simp only [step, write] at hs
    split at hs
    · rename_i hw; cases hs; exact ⟨events, h.laid, .inr ⟨hg, .inl hw⟩⟩
    · cases hs
  | closeWrite n => exact ⟨events, inv_closeWrite h hg hs⟩
  | other n =>
    simp only [step] at hs
    split at hs
    · cases hs
    · cases hs; exact ⟨events, inv_other h n⟩
  | watch =>
    simp only [step, watch] at hs
    split at hs
    · rename_i hc
      cases hs
      refine ⟨[], fun i length ht => ?_, .inl ?_⟩
      · cases ht
        exact .nil 0
      · exact h.fresh.resolve_right fun hd => hd.1 hc.1
    · cases hs
  | read k rest => exact ⟨_, inv_read h hs⟩
  | visit => exact inv_visit h hs
  | load u content => exact ⟨events, inv_load h hs⟩
  | store => exact ⟨events, inv_store h hs⟩
  | schedule e =>
    cases e with
    | configure name minf maxf limit => cases hs
    | _ =>
      obtain ⟨sched, hsched, rfl⟩ := Option.map_eq_some_iff.1 hs
      exact ⟨events, inv_schedule h (fun _ _ _ _ hc => by cases hc) hsched⟩

theorem inv_of_run {content : List Char}
    (hrun : RunWhere (step c) (Noticed c) (init content) es s) :
    ∃ events, Inv c s events :=
  hrun.invariant (P := fun s => ∃ events, Inv c s events)
    (fun s e s' h hg hs => by obtain ⟨events, h⟩ := h; exact inv_step h hg hs) ⟨[], inv_init content⟩

/-- Where the thread is at rest and nobody writes, the file is in force. -/
theorem Inv.applied (h : Inv c s events) (hw : s.writers = 0) (hr : s.AtRest) :
    Applied s.content [] s.sched.clients := by
  obtain ⟨hl, hq, i, length, ht, hle⟩ := hr
  have hnil := h.events_of_le ht hle
  subst hnil
  have hc : s.Current := by
    refine h.fresh.resolve_right ?_
    rintro ⟨-, hpos | ⟨n, hn, -⟩ | ⟨event, hev, -⟩⟩
    · rw [hw] at hpos
      exact absurd hpos (lt_irrefl 0)
    · rw [hq] at hn
      cases hn
    · cases hev
  simpa only [Current, hl] using hc

theorem Inv.in_force (h : Inv c s events) (hw : s.writers = 0) (hr : s.AtRest) {file : List Vars}
    (hfile : WellFormed s.content file) {name : String} {v : Vars} (hv : lastLine name file = some v) :
    ∃ inf, s.sched.clients name = some inf ∧ inf.settings = lineSettings v := by
  rcases h.applied hw hr file hfile name v hv with hl | ⟨-, hinf⟩
  · cases hl
  · exact hinf

/-- In every run in which no write goes unnoticed: when nobody has the file open for writing and the
thread is at rest, every client in the file has the settings of its last line. -/
theorem in_force_of_run {content : List Char}
    (hrun : RunWhere (step c) (Noticed c) (init content) es s)
    (hw : s.writers = 0) (hr : s.AtRest) {file : List Vars} (hfile : WellFormed s.content file) {name : String}
    {v : Vars} (hv : lastLine name file = some v) :
    ∃ inf, s.sched.clients name = some inf ∧ inf.settings = lineSettings v := by
  obtain ⟨events, h⟩ := inv_of_run hrun
  exact h.in_force hw hr hfile hv

/-! ## The thread comes to rest -/

/-- Steps of the thread alone, which leave the file and its writers as they are. -/
def Reaches (c : Setup) (s s' : State) : Prop :=
  (∃ es, RunWhere (step c) Own s es s') ∧ s'.content = s.content ∧ s'.writers = s.writers

theorem Reaches.refl (s : State) : Reaches c s s := ⟨⟨[], .nil s⟩, rfl, rfl⟩

theorem Reaches.trans {t : State} (h : Reaches c s t) (h' : Reaches c t s') :
    Reaches c s s' := by
  obtain ⟨⟨es, hes⟩, hc, hw⟩ := h
  obtain ⟨⟨fs, hfs⟩, hc', hw'⟩ := h'
  exact ⟨⟨es ++ fs, hes.append hfs⟩, hc'.trans hc, hw'.trans hw⟩

theorem Reaches.single (hs : s.step c e = some s') (hg : s.Own e)
    (hsame : s'.content = s.content ∧ s'.writers = s.writers) : Reaches c s s' :=
  ⟨⟨[e], .single hg hs⟩, hsame⟩

/-- The lines that were read are stored. -/
theorem exists_stored : ∀ (lines : List Vars) {s : State}, s.loader = .storing lines →
    ∃ s', Reaches c s s' ∧ s'.loader = .idle ∧ s'.queue = s.queue ∧ s'.buffer = s.buffer ∧
      s'.thread = s.thread
  | [], s, hl => by
    have hs : s.step c .store = some { s with loader := .idle } := by simp only [step, store, hl]
    exact ⟨_, .single hs trivial ⟨rfl, rfl⟩, rfl, rfl, rfl, rfl⟩
  | v :: vs, s, hl => by
    obtain ⟨s₁, hs, hsame, hl₁, hq₁, hb₁, ht₁⟩ : ∃ s₁, s.step c .store = some s₁ ∧
        (s₁.content = s.content ∧ s₁.writers = s.writers) ∧ s₁.loader = .storing vs ∧ s₁.queue = s.queue ∧
        s₁.buffer = s.buffer ∧ s₁.thread = s.thread := by
      refine ⟨_, by
        simp only [step, store, hl, Scheduler.State.step, Scheduler.State.configure, Option.map_some]
        rfl, ?_⟩
      exact ⟨⟨rfl, rfl⟩, rfl, rfl, rfl, rfl⟩
    obtain ⟨s', hr, hl', hq', hb', ht'⟩ := exists_stored vs hl₁
    exact ⟨s', (Reaches.single hs trivial hsame).trans hr, hl', hq'.trans hq₁, hb'.trans hb₁, ht'.trans ht₁⟩

/-- `read_resource_config` returns. -/
theorem exists_loaded (s : State) : ∃ s', Reaches c s s' ∧ s'.loader = .idle ∧ s'.queue = s.queue ∧
    s'.buffer = s.buffer ∧ s'.thread = s.thread := by
  cases hl : s.loader with
  | idle => exact ⟨s, .refl s, hl, rfl, rfl, rfl⟩
  | storing lines => exact exists_stored lines hl
  | reading torn =>
    let u : Uninitialised := ⟨0, ⟨"", 0, 0, 0⟩⟩
    have hs : s.step c (.load u s.content) =
        some { s with loader := .storing ((created u s.content).map Entry.vars) } := by
      simp only [step, load, hl, or_true, if_true]
    obtain ⟨s', hr, hl', hframe⟩ := exists_stored (c := c)
      (s := { s with loader := .storing ((created u s.content).map Entry.vars) }) _ rfl
    exact ⟨s', (Reaches.single hs trivial ⟨rfl, rfl⟩).trans hr, hl', hframe⟩

/-- The loop goes through the buffer. -/
theorem exists_walked : ∀ (events : List InotifyEvent) {s : State} {i length : ℕ}, s.thread = .walking i length →
    Laid (eventAt s.buffer) i events length →
    ∃ s', Reaches c s s' ∧ s'.loader = .idle ∧ s'.queue = s.queue ∧ s'.thread = .walking length length
  | [], s, i, length, ht, hlaid => by
    obtain ⟨s', hr, hl, hq, -, ht'⟩ := exists_loaded (c := c) s
    cases hlaid
    exact ⟨s', hr, hl, hq, ht'.trans ht⟩
  | event :: events, s, i, length, ht, hlaid => by
    obtain ⟨s₁, hr₁, hl₁, hq₁, hb₁, ht₁⟩ :=
      exists_loaded (c := c) s
    have hlt := hlaid.lt_iff.2 (List.cons_ne_nil _ _)
    cases hlaid with
    | @cons _ j _ _ _ hx hij hrest =>
      rw [← hb₁] at hx hrest
      obtain ⟨s₂, hs₂, hsame, hq₂, hb₂, ht₂⟩ : ∃ s₂, s₁.step c .visit = some s₂ ∧
          (s₂.content = s₁.content ∧ s₂.writers = s₁.writers) ∧ s₂.queue = s₁.queue ∧ s₂.buffer = s₁.buffer ∧
          s₂.thread = .walking j length := by
        refine ⟨_, by simp only [step, visit, ht₁, ht, if_pos (And.intro hlt hl₁), hx, Option.map_some]; rfl, ?_⟩
        exact ⟨⟨rfl, rfl⟩, rfl, rfl, rfl⟩
      rw [← hb₂] at hrest
      obtain ⟨s', hr', hl', hq', ht'⟩ := exists_walked events ht₂ hrest
      exact ⟨s', hr₁.trans ((Reaches.single hs₂ trivial hsame).trans hr'), hl', hq'.trans (hq₂.trans hq₁), ht'⟩

/-- The queue empties, one event at a time. -/
theorem exists_emptied : ∀ (queue : List Notice) {s : State} {i length : ℕ} {events : List InotifyEvent},
    s.thread = .walking i length → Laid (eventAt s.buffer) i events length → s.queue = queue →
    ∃ s', Reaches c s s' ∧ s'.AtRest
  | [], s, i, length, events, ht, hlaid, hq => by
    obtain ⟨s', hr, hl, hq', ht'⟩ := exists_walked (c := c)
      events ht hlaid
    exact ⟨s', hr, hl, hq'.trans hq, length, length, ht', le_rfl⟩
  | n :: ns, s, i, length, events, ht, hlaid, hq => by
    obtain ⟨s₁, hr₁, hl₁, hq₁, ht₁⟩ := exists_walked (c := c)
      events ht hlaid
    obtain ⟨rest, hrest⟩ : ∃ rest : List UInt8, rest.length = bufLen - n.toBytes.length :=
      ⟨List.replicate _ 0, List.length_replicate⟩
    have hroom : ([n].flatMap Notice.toBytes).length + rest.length = bufLen := by
      rw [List.flatMap_singleton, hrest, Nat.add_sub_cancel' n.length_toBytes_le]
    obtain ⟨s₂, hs₂, hsame, hq₂, hb₂, ht₂⟩ : ∃ s₂, s₁.step c (.read 1 rest) = some s₂ ∧
        (s₂.content = s₁.content ∧ s₂.writers = s₁.writers) ∧ s₂.queue = ns ∧
        s₂.buffer = [n].flatMap Notice.toBytes ++ rest ∧
        s₂.thread = .walking 0 ([n].flatMap Notice.toBytes).length := by
      have htake : s₁.queue.take 1 = [n] := by rw [hq₁, hq]; rfl
      have hdrop : s₁.queue.drop 1 = ns := by rw [hq₁, hq]; rfl
      have hsome : 1 ≤ s₁.queue.length := by rw [hq₁, hq]; exact Nat.succ_le_succ (Nat.zero_le _)
      refine ⟨_, by
        simp only [step, read, ht₁, htake, hdrop, hl₁, hsome, hroom, le_refl, Nat.zero_lt_one, and_self, if_true]
        rfl, ?_⟩
      exact ⟨⟨rfl, rfl⟩, rfl, rfl, rfl⟩
    have hlaid₂ := Notice.laid [n] rest
    rw [← hb₂] at hlaid₂
    obtain ⟨s', hr', hrest⟩ := exists_emptied ns ht₂ hlaid₂ hq₂
    exact ⟨s', hr₁.trans ((Reaches.single hs₂ trivial hsame).trans hr'), hrest⟩

theorem exists_rest (h : Inv c s events) : ∃ s', Reaches c s s' ∧ s'.AtRest := by
  cases ht : s.thread with
  | walking i length => exact exists_emptied _ ht (h.laid i length ht) rfl
  | starting =>
    obtain ⟨s₁, hr₁, hl₁, -, -, ht₁⟩ :=
      exists_loaded (c := c) s
    have hs₂ : s₁.step c .watch = some { s₁ with thread := .walking 0 0 } := by
      simp only [step, watch, ht₁, ht, hl₁, and_self, if_true]
    obtain ⟨s', hr', hrest⟩ := exists_emptied (c := c)
      (s := { s₁ with thread := .walking 0 0 }) _ rfl (.nil 0) rfl
    exact ⟨s', hr₁.trans ((Reaches.single hs₂ trivial ⟨rfl, rfl⟩).trans hr'), hrest⟩

/-- After every such run, when nobody has the file open for writing, the thread on its own comes to rest. -/
theorem exists_rest_of_run {content : List Char}
    (hrun : RunWhere (step c) (Noticed c) (init content) es s) (hw : s.writers = 0) :
    ∃ fs s', RunWhere (step c) Own s fs s' ∧ RunWhere (step c) (Noticed c) (init content) (es ++ fs) s' ∧
      s'.AtRest ∧ s'.content = s.content ∧ s'.writers = 0 := by
  obtain ⟨events, h⟩ := inv_of_run hrun
  obtain ⟨s', ⟨⟨fs, hfs⟩, hcontent, hwriters⟩, hrest⟩ := exists_rest (c := c) h
  have hown : ∀ s e, Own s e → Noticed c s e := fun s e he => by cases e <;> trivial
  exact ⟨fs, s', hfs, hrun.append (hfs.mono hown), hrest, hcontent, hwriters.trans hw⟩

/-- Then the file that was there is in force. -/
theorem settles_of_run {content : List Char}
    (hrun : RunWhere (step c) (Noticed c) (init content) es s) (hw : s.writers = 0) :
    ∃ fs s', RunWhere (step c) Own s fs s' ∧ s'.AtRest ∧
      ∀ file, WellFormed s.content file → ∀ name v, lastLine name file = some v →
        ∃ inf, s'.sched.clients name = some inf ∧ inf.settings = lineSettings v := by
  obtain ⟨fs, s', hfs, hrun', hrest, hcontent, hwriters⟩ := exists_rest_of_run hrun hw
  obtain ⟨events, h⟩ := inv_of_run hrun'
  exact ⟨fs, s', hfs, hrest, fun file hfile name v hv => h.in_force hwriters hrest (hcontent ▸ hfile) hv⟩

/-! ## A file that is edited -/

/-- The file `cfg`, and the kernel's usual room. -/
def ofCfg : Setup := ⟨defaultConfig, ⟨[99, 102, 103], by decide⟩, 16384⟩

/-- `main` has loaded the file and the thread has set its watch. -/
def started : List Event := [.load ⟨0, ⟨"", 0, 0, 0⟩⟩ "1\na 0.5 1.0 100\n".toList, .store, .store, .watch]

/-- Then the file has been written anew, and closed. -/
def edited : List Event := started ++
  [.openWrite, .write "1\na 0.25 1.0 100\n".toList,
  .closeWrite ⟨1, 8, 0, [99, 102, 103], 13, by decide, by decide, by decide⟩]

theorem wellFormed_edited : WellFormed "1\na 0.25 1.0 100\n".toList [⟨"a", 1 / 4, 1, 100⟩] :=
  ⟨by decide +kernel, by decide +kernel, by decide +kernel⟩

theorem edited_run : ∃ s, RunWhere (step ofCfg) (Noticed ofCfg) (init "1\na 0.5 1.0 100\n".toList) edited s ∧
    s.writers = 0 ∧ s.content = "1\na 0.25 1.0 100\n".toList := exists_runWhere (by decide +kernel)

/-- The thread reads the new settings back. -/
theorem in_force_of_edited : ∃ fs s,
    RunWhere (step ofCfg) (Noticed ofCfg) (init "1\na 0.5 1.0 100\n".toList) (edited ++ fs) s ∧
    s.AtRest ∧ ∃ inf, s.sched.clients "a" = some inf ∧ inf.settings = (1 / 4, 1, 100) := by
  obtain ⟨s, hrun, hw, hcontent⟩ := edited_run
  obtain ⟨fs, s', -, hrun', hrest, hcontent', hw'⟩ := exists_rest_of_run hrun hw
  have hfile := wellFormed_edited
  rw [← hcontent, ← hcontent'] at hfile
  have hline : lastLine "a" [⟨"a", 1 / 4, 1, 100⟩] = some ⟨"a", 1 / 4, 1, 100⟩ := rfl
  exact ⟨fs, s', hrun', hrest, in_force_of_run hrun' hw' hrest hfile hline⟩

theorem settles_of_edited :
    ∃ s fs s', RunWhere (step ofCfg) (Noticed ofCfg) (init "1\na 0.5 1.0 100\n".toList) edited s ∧
    RunWhere (step ofCfg) Own s fs s' ∧ s'.AtRest ∧
    ∃ inf, s'.sched.clients "a" = some inf ∧ inf.settings = (1 / 4, 1, 100) := by
  obtain ⟨s, hrun, hw, hcontent⟩ := edited_run
  obtain ⟨fs, s', hfs, hrest, hall⟩ := settles_of_run hrun hw
  exact ⟨s, fs, s', hrun, hfs, hrest, hall _ (hcontent ▸ wellFormed_edited) "a" ⟨"a", 1 / 4, 1, 100⟩ rfl⟩

end State

end Gemini.Scheduler.Watch
