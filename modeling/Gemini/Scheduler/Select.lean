/-
One turn of the loop of `select_candidate`: prune the history, leave by the quick exit if the
front candidate has no token in the window, otherwise sweep the stamps, keep the candidates below
their limit, sort them by `schd_priority` and take the first, or sleep if there is none.

The orders in which `std::sort` leaves equal stamps and candidates are arguments of the turn; it
has no result for lists that no sort can leave, for a client that is not in `client_info_map` (a
null pointer in the source), and where the sweep divides by zero.
-/
import Gemini.Scheduler.History

namespace Gemini.Scheduler

open Gemini.Lib

/-! ## Clients and their quotas -/

/-- `ClientInfo`, without its name, which is its key in `client_info_map`. -/
structure ClientInfo where
  minFrac : ℚ
  maxFrac : ℚ
  baseQuota : ℚ
  minQuota : ℚ
  maxQuota : ℚ
  gpuMemLimit : UInt64
  quota : ℚ
  burst : ℚ
deriving DecidableEq, Repr

namespace ClientInfo

/-- The constructor, called by `read_resource_config`. -/
def new (baseq minq maxq minf maxf : ℚ) (gpuMemLimit : UInt64) : ClientInfo :=
  ⟨minf, maxf, baseq, minq, maxq, gpuMemLimit, baseq, 0⟩

def setBurst (estimatedBurst : ℚ) (c : ClientInfo) : ClientInfo := { c with burst := estimatedBurst }

/-- How drastically the quota changes. -/
def updateRate : ℚ := 1 / 2

/-- `ClientInfo::get_quota`, the self-adaptive quota. -/
def getQuota (c : ClientInfo) : ClientInfo :=
  if c.burst < 1 / 10 ^ 9 then { c with quota := c.baseQuota }
  else { c with quota := min (max (c.burst * updateRate + c.quota * (1 - updateRate)) c.minQuota) c.maxQuota }

/-- `MIN_FRAC`, `MAX_FRAC` and `gpu_mem_limit`, which only the configuration sets. -/
def settings (c : ClientInfo) : ℚ × ℚ × UInt64 := (c.minFrac, c.maxFrac, c.gpuMemLimit)

theorem settings_getQuota (c : ClientInfo) : c.getQuota.settings = c.settings := by
  unfold getQuota
  split <;> rfl

end ClientInfo

/-- `client_info_map`. -/
abbrev ClientInfoMap := String → Option ClientInfo

/-! ## Candidates -/

/-- `candidate_t`; `conn` is a ghost: the connection the request came from. -/
structure Candidate where
  socket : ℕ
  name : String
  reqId : ℤ
  arrivedTime : ℚ
  conn : ℕ
deriving DecidableEq, Repr

/-- `valid_candidate_t`; `iter` is the position in `candidates`. -/
structure ValidCandidate where
  missing : ℚ
  remaining : ℚ
  usage : ℚ
  arrivedTime : ℚ
  iter : ℕ
deriving DecidableEq, Repr

/-- `schd_priority`. -/
def schdPriority (a b : ValidCandidate) : Bool :=
  if 0 < a.missing ∧ 0 < b.missing then
    decide (b.missing / (b.missing + b.usage) < a.missing / (a.missing + a.usage))
  else if 0 < a.missing ∧ b.missing < 0 then true
  else if a.missing < 0 ∧ 0 < b.missing then false
  else decide (a.usage < b.usage)

/-- The window shrinks to the elapsed time while less than a window has passed. -/
def effectiveWindow (windowSize now : ℚ) : ℚ := if now - windowSize < 0 then now else windowSize

/-- What the turn knows of a candidate: `missing`, `remaining`, its usage and its position. -/
def ValidCandidate.of (window : ℚ) (usage : String → ℚ) (inf : ClientInfo) (c : Candidate) (i : ℕ) :
    ValidCandidate :=
  ⟨inf.minFrac * window - usage c.name, inf.maxFrac * window - usage c.name, usage c.name, c.arrivedTime, i⟩

/-- The loop that fills `vaild_candidates` with the candidates below their limit, from position `i`. -/
def validCandidates (clients : ClientInfoMap) (window : ℚ) (usage : String → ℚ) (i : ℕ) :
    List Candidate → Option (List ValidCandidate)
  | [] => some []
  | c :: cs => do
    let inf ← clients c.name
    let vs ← validCandidates clients window usage (i + 1) cs
    let v := ValidCandidate.of window usage inf c i
    return if 0 < v.remaining then v :: vs else vs

/-- How a turn of the loop ends. -/
inductive Pass where
  | selected (c : Candidate) (rest : List Candidate)
  | sleep (ms : ℚ)
deriving DecidableEq, Repr

/-- The turn after the sweep. -/
def selectByPriority (candidates : List Candidate) (hs : List History) (windowStart : ℚ)
    (valid order : List ValidCandidate) : Option Pass :=
  if valid = [] then hs.head?.map fun h => .sleep (h.end - windowStart)
  else if StdSort schdPriority valid order then do
    let v ← order.head?
    let c ← candidates[v.iter]?
    return .selected c (candidates.eraseIdx v.iter)
  else none

/-- One turn of the loop of `select_candidate` at time `now`. -/
def selectPass (windowSize : ℚ) (clients : ClientInfoMap) (history : List History) (candidates : List Candidate)
    (now : ℚ) (ts : List ContainerTimestamp) (order : List ValidCandidate) : Option Pass :=
  let windowStart := now - windowSize
  let hs := prune windowStart history
  match candidates with
  | [] => none
  | front :: rest =>
    -- quick exit if the first one in candidates does not use the GPU recently
    if ∀ h ∈ hs, h.name ≠ front.name then some (.selected front rest)
    else if StdSort tsComp (timestampVector hs) ts then do
      let usage ← usageOf windowStart ts
      let valid ← validCandidates clients (effectiveWindow windowSize now) usage 0 (front :: rest)
      selectByPriority (front :: rest) hs windowStart valid order
    else none

/-! ## What a turn can do -/

theorem effectiveWindow_eq_min (windowSize now : ℚ) : effectiveWindow windowSize now = min now windowSize := by
  unfold effectiveWindow
  split
  · rw [min_eq_left (by linarith)]
  · rw [min_eq_right (by linarith)]

section

variable {clients : ClientInfoMap} {window : ℚ} {usage : String → ℚ}

/-- The entries of `vaild_candidates` are those of the candidates below their limit. -/
theorem mem_validCandidates : ∀ {cs : List Candidate} {i : ℕ} {vs : List ValidCandidate},
    validCandidates clients window usage i cs = some vs → ∀ v, v ∈ vs ↔
      ∃ j c inf, cs[j]? = some c ∧ clients c.name = some inf ∧
        v = ValidCandidate.of window usage inf c (i + j) ∧ 0 < v.remaining
  | [], i, vs, h, v => by
    obtain rfl : [] = vs := by simpa [validCandidates] using h
    simp
  | c :: cs, i, vs, h, v => by
    simp only [validCandidates, Option.bind_eq_bind, Option.bind_eq_some_iff] at h
    obtain ⟨inf, hinf, ws, hws, h⟩ := h
    have ih := mem_validCandidates hws v
    obtain rfl : (if 0 < (ValidCandidate.of window usage inf c i).remaining then
        ValidCandidate.of window usage inf c i :: ws else ws) = vs := by simpa using h
    have hmem : (v ∈ if 0 < (ValidCandidate.of window usage inf c i).remaining then
        ValidCandidate.of window usage inf c i :: ws else ws) ↔
        (v = ValidCandidate.of window usage inf c i ∧ 0 < v.remaining) ∨ v ∈ ws := by
      split
      · rename_i hr
        rw [List.mem_cons]
        constructor
        · rintro (rfl | hv); exact .inl ⟨rfl, hr⟩; exact .inr hv
        · rintro (⟨rfl, -⟩ | hv); exact .inl rfl; exact .inr hv
      · rename_i hr
        constructor
        · exact .inr
        · rintro (⟨rfl, hv⟩ | hv); exact absurd hv hr; exact hv
    rw [hmem, ih]
    constructor
    · rintro (⟨rfl, hr⟩ | ⟨j, d, inf', hj, hd, rfl, hr⟩)
      · exact ⟨0, c, inf, rfl, hinf, rfl, hr⟩
      · exact ⟨j + 1, d, inf', hj, hd, by rw [show i + (j + 1) = i + 1 + j by omega], hr⟩
    · rintro ⟨_ | j, d, inf', hj, hd, rfl, hr⟩
      · obtain rfl : c = d := by simpa using hj
        rw [hinf] at hd; cases hd
        exact .inl ⟨rfl, hr⟩
      · exact .inr ⟨j, d, inf', hj, hd, by rw [show i + (j + 1) = i + 1 + j by omega], hr⟩

/-- The loop runs through exactly when every candidate is a known client. -/
theorem validCandidates_isSome : ∀ (cs : List Candidate) (i : ℕ),
    (∃ vs, validCandidates clients window usage i cs = some vs) ↔ ∀ c ∈ cs, ∃ inf, clients c.name = some inf
  | [], i => by simp [validCandidates]
  | c :: cs, i => by
    have ih := validCandidates_isSome cs (i + 1)
    simp only [validCandidates, Option.bind_eq_bind, Option.bind_eq_some_iff, List.forall_mem_cons, ← ih]
    constructor
    · rintro ⟨vs, inf, hinf, ws, hws, -⟩; exact ⟨⟨inf, hinf⟩, ws, hws⟩
    · rintro ⟨⟨inf, hinf⟩, ws, hws⟩; exact ⟨_, inf, hinf, ws, hws, rfl⟩

end

section

variable {windowSize now : ℚ} {clients : ClientInfoMap} {history : List History} {candidates : List Candidate}
  {ts : List ContainerTimestamp} {order : List ValidCandidate}

/-- A turn that selects leaves by the quick exit, with a front candidate that has no token in the
window, or it has swept the stamps and takes a candidate below its limit. -/
theorem selectPass_selected {c : Candidate} {rest : List Candidate}
    (h : selectPass windowSize clients history candidates now ts order = some (.selected c rest)) :
    (candidates = c :: rest ∧ ∀ g ∈ prune (now - windowSize) history, g.name ≠ c.name) ∨
    (∃ usage inf i, usageOf (now - windowSize) ts = some usage ∧
      StdSort tsComp (timestampVector (prune (now - windowSize) history)) ts ∧
      candidates[i]? = some c ∧ rest = candidates.eraseIdx i ∧ clients c.name = some inf ∧
      usage c.name < inf.maxFrac * effectiveWindow windowSize now ∧
      ∀ front ∈ candidates.head?, ∃ g ∈ prune (now - windowSize) history, g.name = front.name) := by
  unfold selectPass at h
  simp only at h
  split at h
  · cases h
  · rename_i front tail
    split at h
    · rename_i hq
      cases h
      exact .inl ⟨rfl, hq⟩
    · rename_i hq
      push Not at hq
      split at h
      · rename_i hts
        simp only [Option.bind_eq_bind, Option.bind_eq_some_iff] at h
        obtain ⟨usage, hu, valid, hv, h⟩ := h
        unfold selectByPriority at h
        split at h
        · simp only [Option.map_eq_some_iff, reduceCtorEq, and_false, exists_false] at h
        · split at h
          · rename_i hsort
            simp only [Option.bind_eq_bind, Option.bind_eq_some_iff] at h
            obtain ⟨v, hhead, d, hd, h⟩ := h
            cases h
            have hmem : v ∈ valid := hsort.1.subset (List.mem_of_head? hhead)
            obtain ⟨j, d', inf, hj, hinf, rfl, hr⟩ := (mem_validCandidates hv v).1 hmem
            rw [show (ValidCandidate.of _ usage inf d' (0 + j)).iter = j by simp [ValidCandidate.of]] at hd ⊢
            rw [hj] at hd; cases hd
            have hr : 0 < inf.maxFrac * effectiveWindow windowSize now - usage c.name := hr
            refine .inr ⟨usage, inf, j, hu, hts, hj, rfl, hinf, by linarith, fun f hf => ?_⟩
            cases hf
            exact hq
          · cases h
      · cases h

/-- A turn that selects takes one of the candidates, and only that one. -/
theorem selectPass_mem {c : Candidate} {rest : List Candidate}
    (h : selectPass windowSize clients history candidates now ts order = some (.selected c rest)) :
    ∃ i, candidates[i]? = some c ∧ rest = candidates.eraseIdx i := by
  rcases selectPass_selected h with ⟨rfl, -⟩ | ⟨-, -, i, -, -, hi, hr, -⟩
  · exact ⟨0, rfl, rfl⟩
  · exact ⟨i, hi, hr⟩

/-- What a turn that sleeps has found: the front candidate has a token in the window, no candidate
is below its limit, and the sleep lasts until the first token leaves the window. -/
structure Sleeps (windowSize : ℚ) (clients : ClientInfoMap) (hs : List History) (candidates : List Candidate)
    (now ms : ℚ) (usage : String → ℚ) : Prop where
  front : ∃ c ∈ candidates.head?, ∃ g ∈ hs, g.name = c.name
  first : ∃ g ∈ hs.head?, ms = g.end - (now - windowSize)
  full : ∀ c ∈ candidates, ∃ inf, clients c.name = some inf ∧
    inf.maxFrac * effectiveWindow windowSize now ≤ usage c.name

theorem selectPass_sleep {ms : ℚ}
    (h : selectPass windowSize clients history candidates now ts order = some (.sleep ms)) :
    ∃ usage, usageOf (now - windowSize) ts = some usage ∧
      StdSort tsComp (timestampVector (prune (now - windowSize) history)) ts ∧
      Sleeps windowSize clients (prune (now - windowSize) history) candidates now ms usage := by
  unfold selectPass at h
  simp only at h
  split at h
  · cases h
  · rename_i front tail
    split at h
    · cases h
    · rename_i hq
      split at h
      · rename_i hts
        simp only [Option.bind_eq_bind, Option.bind_eq_some_iff] at h
        obtain ⟨usage, hu, valid, hv, h⟩ := h
        unfold selectByPriority at h
        split at h
        · rename_i hnil
          obtain ⟨g, hg, h⟩ := Option.map_eq_some_iff.1 h
          cases h
          push Not at hq
          refine ⟨usage, hu, hts, ⟨⟨front, rfl, hq⟩, ⟨g, hg, rfl⟩, fun c hc => ?_⟩⟩
          obtain ⟨inf, hinf⟩ := (validCandidates_isSome _ _).1 ⟨valid, hv⟩ c hc
          refine ⟨inf, hinf, le_of_not_gt fun hlt => ?_⟩
          obtain ⟨j, hj⟩ := List.getElem?_of_mem hc
          have : ValidCandidate.of _ usage inf c (0 + j) ∈ valid :=
            (mem_validCandidates hv _).2 ⟨j, c, inf, hj, hinf, rfl, sub_pos.2 hlt⟩
          rw [hnil] at this; cases this
        · split at h
          · simp only [Option.bind_eq_bind, Option.bind_eq_some_iff] at h
            obtain ⟨v, -, d, -, h⟩ := h
            cases h
          · cases h
      · cases h

/-- A turn at `now` can select a candidate, for some order of equal stamps and candidates. -/
def Selects (windowSize : ℚ) (clients : ClientInfoMap) (history : List History) (candidates : List Candidate)
    (now : ℚ) : Prop :=
  ∃ ts order c rest, selectPass windowSize clients history candidates now ts order = some (.selected c rest)

/-- A turn that finds a candidate below its limit selects one, whatever the order of the stamps is. -/
theorem exists_selected_of_below {front : Candidate} {tail : List Candidate}
    (hknown : ∀ c ∈ front :: tail, ∃ inf, clients c.name = some inf)
    (hts : StdSort tsComp (timestampVector (prune (now - windowSize) history)) ts) {usage : String → ℚ}
    (hu : usageOf (now - windowSize) ts = some usage) {c : Candidate} (hc : c ∈ front :: tail) {inf : ClientInfo}
    (hinf : clients c.name = some inf) (hlt : usage c.name < inf.maxFrac * effectiveWindow windowSize now) :
    ∃ order d rest, selectPass windowSize clients history (front :: tail) now ts order = some (.selected d rest) := by
  by_cases hq : ∀ h ∈ prune (now - windowSize) history, h.name ≠ front.name
  · exact ⟨[], front, tail, by simp only [selectPass]; rw [if_pos hq]⟩
  · have hsome : ∃ vs, validCandidates clients (effectiveWindow windowSize now) usage 0 (front :: tail) = some vs :=
      (validCandidates_isSome _ _).2 hknown
    obtain ⟨valid, hv⟩ := hsome
    obtain ⟨j, hj⟩ := List.getElem?_of_mem hc
    have hmem : ValidCandidate.of (effectiveWindow windowSize now) usage inf c (0 + j) ∈ valid :=
      (mem_validCandidates hv _).2 ⟨j, c, inf, hj, hinf, rfl, sub_pos.2 hlt⟩
    obtain ⟨order, horder⟩ := exists_stdSort schdPriority valid
    obtain ⟨v, hv'⟩ : ∃ v, order.head? = some v := by
      cases order with
      | nil => rw [← horder.1.mem_iff] at hmem; cases hmem
      | cons v _ => exact ⟨v, rfl⟩
    obtain ⟨k, d, inf', hk, -, rfl, -⟩ := (mem_validCandidates hv v).1 (horder.1.subset (List.mem_of_head? hv'))
    refine ⟨order, d, (front :: tail).eraseIdx k, ?_⟩
    have hne : valid ≠ [] := by rintro rfl; cases hmem
    simp only [selectPass, if_neg hq, if_pos hts, hu, hv, Option.bind_eq_bind, Option.bind_some,
      selectByPriority, if_neg hne, if_pos horder, hv']
    simp only [ValidCandidate.of, Nat.zero_add, hk, Option.bind_some]
    rfl

/-- A turn that knows its candidates and finds history and a usage comes to an end. -/
theorem exists_pass {front : Candidate} {tail : List Candidate}
    (hknown : ∀ c ∈ front :: tail, ∃ inf, clients c.name = some inf)
    (hts : StdSort tsComp (timestampVector (prune (now - windowSize) history)) ts)
    (hhist : prune (now - windowSize) history ≠ []) {usage : String → ℚ}
    (hu : usageOf (now - windowSize) ts = some usage) :
    ∃ order p, selectPass windowSize clients history (front :: tail) now ts order = some p := by
  have hsome : ∃ vs, validCandidates clients (effectiveWindow windowSize now) usage 0 (front :: tail) = some vs :=
    (validCandidates_isSome _ _).2 hknown
  obtain ⟨valid, hv⟩ := hsome
  cases valid with
  | nil =>
    by_cases hq : ∀ h ∈ prune (now - windowSize) history, h.name ≠ front.name
    · exact ⟨[], .selected front tail, if_pos hq⟩
    · obtain ⟨g, hg⟩ : ∃ g, (prune (now - windowSize) history).head? = some g :=
        ⟨_, List.head?_eq_some_head hhist⟩
      refine ⟨[], .sleep (g.end - (now - windowSize)), ?_⟩
      simp only [selectPass, if_neg hq, if_pos hts, hu, hv, Option.bind_eq_bind, Option.bind_some, selectByPriority,
        if_true, hg, Option.map_some]
  | cons v vs =>
    obtain ⟨j, c, inf, hj, hinf, he, hr⟩ := (mem_validCandidates hv v).1 (List.mem_cons_self ..)
    rw [he] at hr
    obtain ⟨order, d, rest, hp⟩ :=
      exists_selected_of_below hknown hts hu (List.mem_of_getElem? hj) hinf (sub_pos.1 hr)
    exact ⟨order, _, hp⟩

theorem selects_of_below {front : Candidate} {tail : List Candidate}
    (hknown : ∀ c ∈ front :: tail, ∃ inf, clients c.name = some inf)
    (hts : StdSort tsComp (timestampVector (prune (now - windowSize) history)) ts) {usage : String → ℚ}
    (hu : usageOf (now - windowSize) ts = some usage) {c : Candidate} (hc : c ∈ front :: tail) {inf : ClientInfo}
    (hinf : clients c.name = some inf) (hlt : usage c.name < inf.maxFrac * effectiveWindow windowSize now) :
    Selects windowSize clients history (front :: tail) now :=
  ⟨ts, exists_selected_of_below hknown hts hu hc hinf hlt⟩

/-- A turn whose front candidate has no token in the window selects it. -/
theorem selects_of_absent {front : Candidate} {tail : List Candidate}
    (hq : ∀ h ∈ prune (now - windowSize) history, h.name ≠ front.name) :
    Selects windowSize clients history (front :: tail) now :=
  ⟨[], [], front, tail, by simp only [selectPass]; rw [if_pos hq]⟩

end

end Gemini.Scheduler
