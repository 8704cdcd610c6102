/-
The time line of granted tokens and the sweep of `select_candidate` over it.

`history_list` holds one `History` for each recorded token. `update_return_time` moves the end of
a client's last token, `remove_if` prunes the tokens that ended before the window, and the sweep
computes each client's usage from the sorted start and end stamps of what is left. Times are
milliseconds, and doubles are exact rationals. A division by a zero overlap count has no rational
result, so the sweep then has none.
-/
import Gemini.Lib.StdSort

namespace Gemini.Scheduler

/-- A token on the time line: `struct History`. -/
structure History where
  name : String
  start : ℚ
  «end» : ℚ
deriving DecidableEq, Repr

/-- `struct container_timestamp`: a start stamp carries a negated time. -/
structure ContainerTimestamp where
  name : String
  time : ℚ
deriving DecidableEq, Repr

/-! ## Recording, return times and pruning -/

/-- Change the first entry of a client. -/
def updateFirst {α : Type*} (name : α → String) (c : String) (f : α → α) : List α → List α
  | [] => []
  | x :: xs => if name x = c then f x :: xs else x :: updateFirst name c f xs

/-- Change the last entry of a client: the loop over `rbegin` to `rend` with its `break`. -/
def updateLast {α : Type*} (name : α → String) (c : String) (f : α → α) (xs : List α) : List α :=
  (updateFirst name c f xs.reverse).reverse

/-- The client may not have used up the allocated time, or have used more. -/
def History.returned (overuse now : ℚ) (h : History) : History := { h with «end» := min now (h.end + overuse) }

/-- `ClientInfo::update_return_time` on `history_list`. -/
def updateReturnTime (name : String) (overuse now : ℚ) (hs : List History) : List History :=
  updateLast History.name name (History.returned overuse now) hs

/-- `ClientInfo::Record` on `history_list`. -/
def record (name : String) (quota now : ℚ) (hs : List History) : List History := hs ++ [⟨name, now, now + quota⟩]

/-- `beyond_window`. -/
def beyondWindow (windowStart : ℚ) (h : History) : Bool := decide (h.end < windowStart)

/-- `history_list.remove_if(beyond_window)`. -/
def prune (windowStart : ℚ) (hs : List History) : List History := hs.filter fun h => !beyondWindow windowStart h

/-! ## The sweep -/

/-- `timestamp_vector`: a negated start stamp and an end stamp for each token. -/
def timestampVector (hs : List History) : List ContainerTimestamp :=
  hs.flatMap fun h => [⟨h.name, -h.start⟩, ⟨h.name, h.end⟩]

/-- `ts_comp`: stamps are compared by absolute time. -/
def tsComp (a b : ContainerTimestamp) : Bool := decide (|a.time| < |b.time|)

/-- The variables of the sweep: `overlap_cnt`, `overlap_check_vector`, `usage`, `current_time`. -/
structure Sweep where
  overlapCnt : ℤ
  overlapCheckVector : List String
  usage : String → ℚ
  currentTime : ℚ

/-- The loop over `overlap_check_vector` that adds a slice to each instance's usage. -/
def accrue (instances : List String) (slice : ℚ) (usage : String → ℚ) : String → ℚ :=
  instances.foldl (fun u n => Function.update u n (u n + slice)) usage

/-- One turn of the loop over the stamps inside the window. -/
def Sweep.step (s : Sweep) (x : ContainerTimestamp) : Option Sweep :=
  if s.overlapCheckVector ≠ [] ∧ s.overlapCnt = 0 then none
  else
    let usage := accrue s.overlapCheckVector ((|x.time| - s.currentTime) / s.overlapCnt) s.usage
    if x.time < 0 then
      some ⟨s.overlapCnt + 1, s.overlapCheckVector ++ [x.name], usage, |x.time|⟩
    else
      some ⟨s.overlapCnt - 1, s.overlapCheckVector.erase x.name, usage, |x.time|⟩

/-- The stamp lies at or before the start of the window. -/
def beforeWindow (windowStart : ℚ) (x : ContainerTimestamp) : Bool := decide (|x.time| ≤ windowStart)

/-- The state after the loop over the stamps before the window, which takes each of them for the
start of an overlapping instance. -/
def Sweep.enter (windowStart : ℚ) (before : List ContainerTimestamp) : Sweep :=
  ⟨before.length, before.map ContainerTimestamp.name, fun _ => 0, windowStart⟩

/-- The usage map computed from the sorted stamps. -/
def usageOf (windowStart : ℚ) (ts : List ContainerTimestamp) : Option (String → ℚ) :=
  ((ts.dropWhile (beforeWindow windowStart)).foldlM Sweep.step
    (Sweep.enter windowStart (ts.takeWhile (beforeWindow windowStart)))).map Sweep.usage

/-! ## Small facts -/

@[simp] theorem History.returned_name (o t : ℚ) (h : History) : (h.returned o t).name = h.name := rfl
@[simp] theorem History.returned_start (o t : ℚ) (h : History) : (h.returned o t).start = h.start := rfl
@[simp] theorem History.returned_end (o t : ℚ) (h : History) : (h.returned o t).end = min t (h.end + o) := rfl

@[simp] theorem mem_prune {w : ℚ} {hs : List History} {h : History} : h ∈ prune w hs ↔ h ∈ hs ∧ w ≤ h.end := by
  simp [prune, beyondWindow]

theorem mem_updateFirst {α : Type*} {name : α → String} {c : String} {f : α → α} {x : α} :
    ∀ {xs : List α}, x ∈ updateFirst name c f xs → x ∈ xs ∨ ∃ y ∈ xs, name y = c ∧ x = f y
  | [], h => by simp [updateFirst] at h
  | y :: ys, h => by
    unfold updateFirst at h
    split at h
    · rename_i hy
      rcases List.mem_cons.1 h with rfl | h
      · exact .inr ⟨y, List.mem_cons_self .., hy, rfl⟩
      · exact .inl (List.mem_cons_of_mem _ h)
    · rcases List.mem_cons.1 h with rfl | h
      · exact .inl (List.mem_cons_self ..)
      · rcases mem_updateFirst h with h | ⟨z, hz, h⟩
        · exact .inl (List.mem_cons_of_mem _ h)
        · exact .inr ⟨z, List.mem_cons_of_mem _ hz, h⟩

theorem countP_timestampVector (p : ContainerTimestamp → Bool) (hs : List History) :
    (timestampVector hs).countP p =
      (hs.countP fun h => p ⟨h.name, -h.start⟩) + hs.countP fun h => p ⟨h.name, h.end⟩ := by
  induction hs with
  | nil => rfl
  | cons h hs ih =>
    simp only [timestampVector, List.flatMap_cons, List.countP_append] at ih ⊢
    simp only [List.countP_cons, List.countP_nil, ih]
    omega

/-- Each instance gains a slice for every time it stands in the vector. -/
theorem accrue_apply (slice : ℚ) (c : String) : ∀ (instances : List String) (usage : String → ℚ),
    accrue instances slice usage c = usage c + instances.count c * slice
  | [], usage => by simp [accrue]
  | n :: ns, usage => by
    have ih := accrue_apply slice c ns (Function.update usage n (usage n + slice))
    unfold accrue at ih ⊢
    rw [List.foldl_cons, ih, List.count_cons]
    by_cases h : n = c
    · subst h; simp; ring
    · simp [h, Ne.symm h]

end Gemini.Scheduler
