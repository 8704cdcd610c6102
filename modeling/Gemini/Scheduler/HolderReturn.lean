/-
The holder's return. The daemon releases the mutex when it has recorded a token, sends the quota,
takes the mutex again and blocks until the token's deadline, without a look at the queue. A request
that the holder enqueues in between signals nobody, and the daemon sleeps through it.

What is enqueued while the daemon is blocked wakes it up, and it blocks again only after it has
looked. So if it never blocks for the first time with a request of the holder behind the record, no
return is missed. How many candidates there were at the last record is a history variable: those
that arrived after it are the ones behind.
-/
import Gemini.Lib.Ghost
import Gemini.Lib.Wait
import Gemini.Scheduler.Daemon

namespace Gemini.Scheduler

open Gemini.Lib

theorem Daemon.signal_ne_blocked (d : Daemon) (selected : Candidate) (deadline : Timespec) :
    d.signal ≠ .holding selected deadline false := by cases d <;> simp [Daemon.signal]

namespace State

/-- The number of candidates when the last token was recorded. -/
def noteRecord (s : State) : Event → ℕ → ℕ
  | .record _, _ => s.candidates.length
  | _, n => n

/-- The scheduler, with the number of candidates at the last record. -/
def stepRecorded (cfg : Config) : State × ℕ → Event → Option (State × ℕ) := withHistory (step cfg) noteRecord

variable {cfg : Config} {p q : State × ℕ} {e : Event}

/-- The requests that arrived after the last token was recorded. -/
def arrivals (p : State × ℕ) : List Candidate := p.1.candidates.drop p.2

/-- While the daemon is blocked in the timed wait for the holder of a token, no request of the
holder has arrived after the token was recorded. -/
def NoReturnMissed (p : State × ℕ) : Prop :=
  ∀ selected deadline, p.1.daemon = .holding selected deadline false → ∀ c ∈ arrivals p, c.name ≠ selected.name

/-- The daemon begins the timed wait only before the holder has returned. -/
def BlocksBeforeReturn (p : State × ℕ) : Event → Prop
  | .block => match p.1.daemon with
    | .armed selected _ => ∀ c ∈ arrivals p, c.name ≠ selected.name
    | _ => True
  | _ => True

/-! ## The wait for the holder -/

def holderWait : Wait (State × ℕ) where
  blocked p := ∃ selected deadline, p.1.daemon = .holding selected deadline false
  due p := ∃ selected deadline woken, p.1.daemon = .holding selected deadline woken ∧
    ∃ c ∈ arrivals p, c.name = selected.name

theorem not_missed_holderWait : ¬ holderWait.Missed p ↔ NoReturnMissed p := by
  constructor
  · intro h selected deadline hd c hc hn
    exact h ⟨⟨selected, deadline, hd⟩, selected, deadline, false, hd, c, hc, hn⟩
  · rintro h ⟨⟨selected, deadline, hd⟩, selected', deadline', woken, hd', c, hc, hn⟩
    rw [hd] at hd'; cases hd'
    exact h selected deadline hd c hc hn

/-- Before a step that leaves the daemon blocked with no wake-up pending, it was blocked so, or it
was the step by which it blocked, or it had just looked; and nothing was enqueued by the step. -/
theorem holding_before (hrec : stepRecorded cfg p e = some q) {selected : Candidate} {deadline : Timespec}
    (h : q.1.daemon = .holding selected deadline false) :
    (p.1.daemon = .holding selected deadline false ∨ (e = .block ∧ p.1.daemon = .armed selected deadline) ∨
      ∀ c ∈ p.1.candidates, c.name ≠ selected.name) ∧ arrivals q = arrivals p := by
  obtain ⟨s, n⟩ := p
  obtain ⟨s', n'⟩ := q
  obtain ⟨hs, hn⟩ := withHistory_some hrec
  simp only at hs hn h
  subst hn
  cases e with
  | accept socket =>
    obtain ⟨-, rfl⟩ := accept_some hs
    exact ⟨.inl h, rfl⟩
  | request conn name reqId overuse burst now =>
    obtain ⟨-, socket, -, ⟨-, rfl⟩ | ⟨inf, -, rfl⟩⟩ := request_some hs <;> exact ⟨.inl h, rfl⟩
  | enqueue conn now =>
    obtain ⟨-, -, socket, name, reqId, -, rfl⟩ := enqueue_some hs
    exact absurd h (Daemon.signal_ne_blocked _ _ _)
  | hangUp conn =>
    obtain ⟨socket, -, rfl⟩ := hangUp_some hs
    exact ⟨.inl h, rfl⟩
  | configure name minf maxf gpuMemLimit =>
    cases hs
    exact ⟨.inl h, rfl⟩
  | select now ts order =>
    obtain ⟨-, -, ⟨-, rfl⟩ | ⟨c, rest, -, rfl⟩ | ⟨ms, rfl⟩⟩ := select_some hs <;> cases h
  | record now =>
    obtain ⟨-, c, inf, -, -, rfl⟩ := record_some hs
    cases h
  | send =>
    obtain ⟨c, quota, -, rfl⟩ := send_some hs
    cases h
  | arm now =>
    obtain ⟨-, c, quota, -, rfl⟩ := arm_some hs
    cases h
  | block =>
    obtain ⟨c, d, hd, rfl⟩ := block_some hs
    cases h
    exact ⟨.inr (.inl ⟨rfl, hd⟩), rfl⟩
  | wake now timedOut =>
    obtain ⟨-, ⟨b, -, rfl⟩ | ⟨c, d, b, -, ⟨-, rfl⟩ | ⟨-, rfl⟩ | ⟨hlook, rfl⟩⟩⟩ := wake_some hs
    · cases h
    · cases h
    · cases h
    · cases h
      exact ⟨.inr (.inr hlook), rfl⟩

theorem signalled_holderWait : holderWait.Signalled (stepRecorded cfg) := by
  rintro p e q hs ⟨selected, deadline, hd⟩ ⟨⟨selected', deadline', hd'⟩, s₂, d₂, woken, hd₂, c, hc, hn⟩
  rw [hd'] at hd₂; cases hd₂
  obtain ⟨hbefore, harr⟩ := holding_before hs hd'
  rw [harr] at hc
  rcases hbefore with h | ⟨-, h⟩ | h
  · exact ⟨selected', deadline', false, h, c, hc, hn⟩
  · rw [hd] at h; cases h
  · exact absurd hn (h c (List.mem_of_mem_drop hc))

theorem looks_holderWait (h : BlocksBeforeReturn p e) : holderWait.Looks (stepRecorded cfg) p e := by
  intro q hs hb
  rw [not_missed_holderWait]
  intro selected deadline hd c hc
  obtain ⟨hbefore, harr⟩ := holding_before hs hd
  rw [harr] at hc
  rcases hbefore with h1 | ⟨rfl, h1⟩ | h1
  · exact absurd ⟨selected, deadline, h1⟩ hb
  · simp only [BlocksBeforeReturn, h1] at h
    exact h c hc
  · exact h1 c (List.mem_of_mem_drop hc)

/-! ## The holder's return over runs -/

/-- Every run of the scheduler has its number of candidates at the last record. -/
theorem exists_recorded {s t : State} {es : List Event} (hrun : Run (step cfg) s es t) (n : ℕ) :
    ∃ m, Run (stepRecorded cfg) (s, n) es (t, m) := hrun.recorded noteRecord n

/-- In every run in which the daemon begins the timed wait only before the holder has returned, it
is never blocked there with no wake-up pending while a return of the holder is queued. -/
theorem noReturnMissed_of_run {es : List Event}
    (hrun : RunWhere (stepRecorded cfg) BlocksBeforeReturn (init, 0) es p) : NoReturnMissed p := by
  rw [← not_missed_holderWait]
  refine Wait.not_missed_of_run signalled_holderWait (hrun.mono fun _ _ => looks_holderWait) ?_
  rintro ⟨⟨selected, deadline, h⟩, -⟩
  cases h

/-- A daemon that begins the timed wait when the holder has returned misses it there and then. -/
theorem returnMissed_of_late_wait (h : ¬ BlocksBeforeReturn p e) (hs : stepRecorded cfg p e = some q) :
    ¬ NoReturnMissed q := by
  obtain ⟨hs, hn⟩ := withHistory_some hs
  cases e with
  | block =>
    obtain ⟨selected, deadline, hd, hq⟩ := block_some hs
    simp only [BlocksBeforeReturn, hd] at h
    push Not at h
    obtain ⟨c, hc, hname⟩ := h
    have harr : arrivals q = arrivals p := by
      unfold arrivals
      rw [hq, hn]
      rfl
    intro hmissed
    exact hmissed selected deadline (by rw [hq]) c (harr ▸ hc) hname
  | _ => exact absurd trivial h

instance (p : State × ℕ) (e : Event) : Decidable (BlocksBeforeReturn p e) :=
  match e with
  | .block => by unfold BlocksBeforeReturn; cases p.1.daemon <;> infer_instance
  | .accept .. | .request .. | .enqueue .. | .hangUp .. | .configure .. | .select .. | .record .. | .send .. | .arm ..
  | .wake .. => .isTrue trivial

/-! ## A return between the record and the wait -/

/-- A window of ten seconds, tokens of 250 ms, and one client whose token is recorded at 2 ms. -/
def grantToA (es : List Event) : List Event :=
  .configure "a" (1 / 2) 1 0 :: .accept 4 :: .request 0 "a" 0 0 0 1000000 ::
  .enqueue 0 1000000 :: .select 2000000 [] [] :: .record 2000000 :: es

/-- The holder comes back at 3 ms, after the daemon has blocked, and wakes it up. -/
theorem noReturnMissed_of_late_return : ∃ p, RunWhere (stepRecorded defaultConfig) BlocksBeforeReturn (init, 0)
    (grantToA [.send, .arm 2000000, .block, .request 0 "a" 1 0 0 3000000, .enqueue 0 3000000]) p ∧
    p.1.daemon = .holding ⟨4, "a", 0, 1, 0⟩ ⟨0, 252000000⟩ true ∧ NoReturnMissed p := by
  have hrun : ∃ p, RunWhere (stepRecorded defaultConfig) BlocksBeforeReturn (init, 0)
      (grantToA [.send, .arm 2000000, .block, .request 0 "a" 1 0 0 3000000, .enqueue 0 3000000]) p ∧
      p.1.daemon = .holding ⟨4, "a", 0, 1, 0⟩ ⟨0, 252000000⟩ true := exists_runWhere (by decide +kernel)
  obtain ⟨p, hrun, hd⟩ := hrun
  exact ⟨p, hrun, hd, noReturnMissed_of_run hrun⟩

/-- The holder gets its quota and comes back at 3 ms, before the daemon blocks. -/
theorem not_noReturnMissed_of_early_return : ∃ p, Run (stepRecorded defaultConfig) (init, 0)
    (grantToA [.send, .request 0 "a" 1 0 0 3000000, .enqueue 0 3000000, .arm 3000000, .block]) p ∧
    ¬ NoReturnMissed p := by
  have hrun : ∃ p, Run (stepRecorded defaultConfig) (init, 0)
      (grantToA [.send, .request 0 "a" 1 0 0 3000000, .enqueue 0 3000000, .arm 3000000, .block]) p ∧
      p.1.daemon = .holding ⟨4, "a", 0, 1, 0⟩ ⟨0, 253000000⟩ false ∧ arrivals p = [⟨4, "a", 1, 3, 0⟩] :=
    exists_runWhere (by decide +kernel)
  obtain ⟨p, hrun, hd, ha⟩ := hrun
  refine ⟨p, hrun, fun h => ?_⟩
  exact h _ _ hd ⟨4, "a", 1, 3, 0⟩ (by rw [ha]; simp) rfl

end State

end Gemini.Scheduler
