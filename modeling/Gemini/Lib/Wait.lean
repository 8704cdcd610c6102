/-
Waiting on a condition variable. A signal reaches only threads that are blocked already, so a
thread that blocks without looking first may wait for what is there: its wake-up has been missed.

A wait is given by the states in which its thread is blocked with no wake-up pending, and those in
which what it waits for is there. If whatever comes while the thread is blocked wakes it, and no
wait begins when it is over already, no wake-up is ever missed.
-/
import Gemini.Lib.Run

namespace Gemini.Lib

variable {σ ε : Type*} {step : σ → ε → Option σ} {s s' t : σ} {e : ε} {es : List ε}

structure Wait (σ : Type*) where
  /-- the thread is blocked, with no wake-up pending -/
  blocked : σ → Prop
  /-- what it waits for is there -/
  due : σ → Prop

namespace Wait

variable {w : Wait σ}

/-- The thread is blocked, and nothing that it waits for will wake it. -/
def Missed (w : Wait σ) (s : σ) : Prop := w.blocked s ∧ w.due s

/-- What comes while the thread is blocked wakes it. -/
def Signalled (w : Wait σ) (step : σ → ε → Option σ) : Prop :=
  ∀ s e s', step s e = some s' → w.blocked s → w.Missed s' → w.due s

/-- The step does not begin a wait that is over already. -/
def Looks (w : Wait σ) (step : σ → ε → Option σ) (s : σ) (e : ε) : Prop :=
  ∀ s', step s e = some s' → ¬ w.blocked s → ¬ w.Missed s'

theorem not_missed_step (hsig : w.Signalled step) (hm : ¬ w.Missed s) (hlook : w.Looks step s e)
    (hs : step s e = some s') : ¬ w.Missed s' := by
  by_cases hb : w.blocked s
  · intro hm'
    exact hm ⟨hb, hsig s e s' hs hb hm'⟩
  · exact hlook s' hs hb

theorem not_missed_of_run (hsig : w.Signalled step) (hrun : RunWhere step (w.Looks step) s es t)
    (hm : ¬ w.Missed s) : ¬ w.Missed t :=
  hrun.invariant (fun _ _ _ => not_missed_step hsig) hm

end Wait

end Gemini.Lib
