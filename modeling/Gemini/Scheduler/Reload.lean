/-
A reload of a well-formed configuration file. Every client in the file gets a new `ClientInfo`, with the
settings of its last line and an adaptive quota that starts again; a client that is not in the file any
more stays as it was. So the reload is what the file says if every client is listed, and no client whose
line says what it had before can tell its adaptive quota from a new one.
-/
import Gemini.Scheduler.ConfigFile

namespace Gemini.Scheduler.Reload

open Gemini.Lib ConfigFile

/-! ## Later quotas -/

/-- A later call on a client. -/
inductive Call where
  | setBurst (estimatedBurst : ℚ)
  | getQuota
deriving DecidableEq, Repr

/-- The quotas that a sequence of calls returns. -/
def quotas : ClientInfo → List Call → List ℚ
  | _, [] => []
  | c, .setBurst estimatedBurst :: calls => quotas (c.setBurst estimatedBurst) calls
  | c, .getQuota :: calls => c.getQuota.quota :: quotas c.getQuota calls

/-- The client with another burst and another quota. -/
def adapted (c : ClientInfo) (burst quota : ℚ) : ClientInfo := { c with burst := burst, quota := quota }

/-- What `get_quota` returns with them. -/
def adapt (c : ClientInfo) (burst quota : ℚ) : ℚ := (adapted c burst quota).getQuota.quota

/-- The client as it is created. -/
def fresh (c : ClientInfo) : ClientInfo := adapted c 0 c.baseQuota

section

variable {c : ClientInfo} {p q b : ℚ}

theorem getQuota_adapted (c : ClientInfo) (b q : ℚ) : (adapted c b q).getQuota = adapted c b (adapt c b q) := by
  unfold adapt ClientInfo.getQuota
  split <;> rfl

theorem adapt_of_small (h : b < 1 / 10 ^ 9) (c : ClientInfo) (q : ℚ) : adapt c b q = c.baseQuota := by
  unfold adapt ClientInfo.getQuota
  rw [if_pos (show (adapted c b q).burst < 1 / 10 ^ 9 from h)]
  rfl

theorem adapt_of_le (h : 1 / 10 ^ 9 ≤ b) (c : ClientInfo) (q : ℚ) :
    adapt c b q = min (max ((b + q) / 2) c.minQuota) c.maxQuota := by
  unfold adapt ClientInfo.getQuota
  rw [if_neg (show ¬ (adapted c b q).burst < 1 / 10 ^ 9 from not_lt.2 h)]
  have hmean : b * ClientInfo.updateRate + q * (1 - ClientInfo.updateRate) = (b + q) / 2 := by
    unfold ClientInfo.updateRate
    ring
  show min (max (b * ClientInfo.updateRate + q * (1 - ClientInfo.updateRate)) c.minQuota) c.maxQuota = _
  rw [hmean]

/-- Two quotas that no burst tells apart lead to the same quotas. -/
theorem quotas_congr (h : ∀ x, adapt c x p = adapt c x q) (b : ℚ) (calls : List Call) :
    quotas (adapted c b p) calls = quotas (adapted c b q) calls := by
  induction calls generalizing b with
  | nil => rfl
  | cons call calls ih =>
    cases call with
    | setBurst x => exact ih x
    | getQuota => rw [quotas, quotas, getQuota_adapted, getQuota_adapted, h b]

/-- A client that falls back to its base quota, and whose quota no burst tells from that, is as new. -/
theorem quotas_fresh (h : ∀ x, adapt c x c.baseQuota = adapt c x q) (hb : adapt c b q = c.baseQuota)
    (calls : List Call) : quotas (fresh c) calls = quotas (adapted c b q) calls := by
  induction calls generalizing q with
  | nil => rfl
  | cons call calls ih =>
    cases call with
    | setBurst x => exact quotas_congr h x calls
    | getQuota =>
      have hzero : adapt c 0 c.baseQuota = c.baseQuota := adapt_of_small (by norm_num) c _
      have hnext : adapt c b c.baseQuota = c.baseQuota := (h b).trans hb
      rw [quotas, quotas, fresh, getQuota_adapted, getQuota_adapted, hzero, hb]
      exact congrArg (c.baseQuota :: ·) (ih (fun _ => rfl) hnext)

/-- Some burst tells two quotas apart, unless both always end at the same bound. -/
theorem adapt_eq_iff (c : ClientInfo) (p q : ℚ) : (∀ x, adapt c x p = adapt c x q) ↔
    p = q ∨ c.maxQuota ≤ c.minQuota ∨ 2 * c.maxQuota - 1 / 10 ^ 9 ≤ min p q := by
  have hone {p q : ℚ} (hlt : p < q) (hmin : c.minQuota < c.maxQuota) (hp : p < 2 * c.maxQuota - 1 / 10 ^ 9) :
      ∃ x, adapt c x p ≠ adapt c x q := by
    -- a burst between those that lift both to one bound
    have hroom : max (1 / 10 ^ 9) (2 * c.minQuota - q) < 2 * c.maxQuota - p := by
      apply max_lt
      · linarith
      · linarith
    obtain ⟨x, hlo, hhi⟩ := exists_between hroom
    obtain ⟨hx, hq⟩ := max_lt_iff.1 hlo
    refine ⟨x, ?_⟩
    rw [adapt_of_le hx.le, adapt_of_le hx.le]
    apply ne_of_lt
    have hp' : max ((x + p) / 2) c.minQuota < c.maxQuota := max_lt (by linarith) hmin
    have hq' : max ((x + p) / 2) c.minQuota < max ((x + q) / 2) c.minQuota := by
      apply max_lt
      · exact lt_max_of_lt_left (by linarith)
      · exact lt_max_of_lt_left (by linarith)
    rw [min_eq_left hp'.le]
    exact lt_min hq' hp'
  constructor
  · intro h
    by_contra hnot
    push Not at hnot
    obtain ⟨hne, hmin, hle⟩ := hnot
    rcases lt_or_gt_of_ne hne with hlt | hlt
    · rw [min_eq_left hlt.le] at hle
      obtain ⟨x, hx⟩ := hone hlt hmin hle
      exact hx (h x)
    · rw [min_eq_right hlt.le] at hle
      obtain ⟨x, hx⟩ := hone hlt hmin hle
      exact hx (h x).symm
  · intro h x
    rcases lt_or_ge x (1 / 10 ^ 9) with hx | hx
    · rw [adapt_of_small hx, adapt_of_small hx]
    rw [adapt_of_le hx, adapt_of_le hx]
    rcases h with rfl | h | h
    · rfl
    · rw [min_eq_right (h.trans (le_max_right ..)), min_eq_right (h.trans (le_max_right ..))]
    · obtain ⟨hp, hq⟩ := le_min_iff.1 h
      have htop {r : ℚ} (hr : 2 * c.maxQuota - 1 / 10 ^ 9 ≤ r) : c.maxQuota ≤ max ((x + r) / 2) c.minQuota :=
        le_max_of_le_left (by linarith)
      rw [min_eq_right (htop hp), min_eq_right (htop hq)]

end

/-- The next quota is the base quota, and the present one is too, or every burst ends at the same bound
from both. -/
def Settled (c : ClientInfo) : Prop :=
  c.getQuota.quota = c.baseQuota ∧
    (c.quota = c.baseQuota ∨ c.maxQuota ≤ c.minQuota ∨ 2 * c.maxQuota - 1 / 10 ^ 9 ≤ min c.baseQuota c.quota)

/-- A client cannot be told from a new one exactly if it is settled. -/
theorem quotas_fresh_iff (c : ClientInfo) : (∀ calls, quotas (fresh c) calls = quotas c calls) ↔ Settled c := by
  have hiff := adapt_eq_iff c c.baseQuota c.quota
  constructor
  · intro h
    have hnext : adapt c 0 c.baseQuota = c.getQuota.quota := List.head_eq_of_cons_eq (h [.getQuota])
    refine ⟨hnext.symm.trans (adapt_of_small (by norm_num) c _), ?_⟩
    rw [@eq_comm _ c.quota]
    apply hiff.1
    intro x
    exact List.head_eq_of_cons_eq (h [.setBurst x, .getQuota])
  · rintro ⟨hb, hquota⟩ calls
    rw [@eq_comm _ c.quota] at hquota
    exact quotas_fresh (c := c) (q := c.quota) (b := c.burst) (hiff.2 hquota) hb calls

/-! ## Loading a file -/

/-- The last line of a name. -/
def lastLine (name : String) (file : List Vars) : Option Vars := file.reverse.find? fun v => v.clientName = name

/-- The client that a line creates. -/
def newClient (cfg : Config) (v : Vars) : ClientInfo :=
  .new cfg.quota cfg.minQuota (v.gpuMaxFraction * cfg.windowSize) v.gpuMinFraction v.gpuMaxFraction v.gpuMemorySize

theorem lastLine_isSome {name : String} {file : List Vars} :
    (lastLine name file).isSome = true ↔ ∃ v ∈ file, v.clientName = name := by
  unfold lastLine
  rw [List.find?_isSome]
  simp

/-- The last line of a name counts. -/
theorem foldl_insertClient (cfg : Config) (m : ClientInfoMap) (name : String) (file : List Vars) :
    file.foldl (insertClient cfg) m name = ((lastLine name file).map (newClient cfg)).orElse fun _ => m name := by
  induction file using List.reverseRecOn with
  | nil => rfl
  | append_singleton file v ih =>
    rw [List.foldl_append, List.foldl_cons, List.foldl_nil, lastLine, List.reverse_append, List.reverse_singleton,
      List.singleton_append, List.find?_cons]
    by_cases h : v.clientName = name
    · subst h
      simp [insertClient, newClient]
    · rw [decide_eq_false h]
      exact (Function.update_of_ne (Ne.symm h) ..).trans ih

/-! ## The settings of a client -/

/-- What the command line fixes of a client. -/
structure Configured (cfg : Config) (c : ClientInfo) : Prop where
  baseQuota : c.baseQuota = cfg.quota
  minQuota : c.minQuota = cfg.minQuota
  maxQuota : c.maxQuota = c.maxFrac * cfg.windowSize

/-- The settings of a line, as of a client. -/
def lineSettings (v : Vars) : ℚ × ℚ × UInt64 := (v.gpuMinFraction, v.gpuMaxFraction, v.gpuMemorySize)

section

variable {cfg : Config} {s s' : State}

theorem Configured.setBurst {c : ClientInfo} (h : Configured cfg c) (b : ℚ) : Configured cfg (c.setBurst b) :=
  ⟨h.baseQuota, h.minQuota, h.maxQuota⟩

theorem Configured.getQuota {c : ClientInfo} (h : Configured cfg c) : Configured cfg c.getQuota := by
  unfold ClientInfo.getQuota
  split
  · exact ⟨h.baseQuota, h.minQuota, h.maxQuota⟩
  · exact ⟨h.baseQuota, h.minQuota, h.maxQuota⟩

theorem configured_newClient (cfg : Config) (v : Vars) : Configured cfg (newClient cfg v) := ⟨rfl, rfl, rfl⟩

/-- A line with the settings of a client makes it anew. -/
theorem newClient_eq_fresh {c : ClientInfo} {v : Vars} (h : Configured cfg c) (hv : c.settings = lineSettings v) :
    newClient cfg v = fresh c := by
  obtain ⟨minFrac, maxFrac, baseQuota, minQuota, maxQuota, gpuMemLimit, quota, burst⟩ := c
  obtain ⟨hbase, hmin, hmax⟩ := h
  simp only [ClientInfo.settings, lineSettings, Prod.mk.injEq] at hv hbase hmin hmax
  obtain ⟨rfl, rfl, rfl⟩ := hv
  subst hbase hmin hmax
  rfl

/-- Every client that is served is configured. -/
def AllConfigured (cfg : Config) (m : ClientInfoMap) : Prop := ∀ name c, m name = some c → Configured cfg c

theorem AllConfigured.update {m : ClientInfoMap} (h : AllConfigured cfg m) {c : ClientInfo} (hc : Configured cfg c)
    (name : String) : AllConfigured cfg (Function.update m name (some c)) := by
  unfold AllConfigured
  rw [Function.forall_update_iff m fun _ o => ∀ c, o = some c → Configured cfg c]
  exact ⟨by rintro _ ⟨⟩; exact hc, fun name' _ => h name'⟩

theorem allConfigured_step {e : Event} (h : AllConfigured cfg s.clients) (hs : s.step cfg e = some s') :
    AllConfigured cfg s'.clients := by
  cases e with
  | accept socket =>
    obtain ⟨-, rfl⟩ := State.accept_some hs
    exact h
  | request conn name reqId overuse burst now =>
    obtain ⟨-, socket, -, ⟨-, rfl⟩ | ⟨inf, hinf, rfl⟩⟩ := State.request_some hs
    · exact h
    · exact h.update ((h _ _ hinf).setBurst burst) name
  | enqueue conn now =>
    obtain ⟨-, -, socket, name, reqId, -, rfl⟩ := State.enqueue_some hs
    exact h
  | hangUp conn =>
    obtain ⟨socket, -, rfl⟩ := State.hangUp_some hs
    exact h
  | configure name minf maxf gpuMemLimit =>
    cases hs
    exact h.update (configured_newClient cfg ⟨name, minf, maxf, gpuMemLimit⟩) name
  | select now ts order =>
    obtain ⟨-, -, ⟨-, rfl⟩ | ⟨c, rest, -, rfl⟩ | ⟨ms, rfl⟩⟩ := State.select_some hs <;> exact h
  | record now =>
    obtain ⟨-, selected, inf, -, hinf, rfl⟩ := State.record_some hs
    exact h.update (h _ _ hinf).getQuota selected.name
  | send =>
    obtain ⟨selected, quota, -, rfl⟩ := State.send_some hs
    exact h
  | arm now =>
    obtain ⟨-, selected, quota, -, rfl⟩ := State.arm_some hs
    exact h
  | block =>
    obtain ⟨selected, deadline, -, rfl⟩ := State.block_some hs
    exact h
  | wake now timedOut =>
    obtain ⟨-, ⟨b, -, rfl⟩ | ⟨selected, deadline, b, -, ⟨-, rfl⟩ | ⟨-, rfl⟩ | ⟨-, rfl⟩⟩⟩ :=
      State.wake_some hs <;> exact h

theorem allConfigured_of_run {es : List Event} (hrun : Run (State.step cfg) .init es s) :
    AllConfigured cfg s.clients := by
  have h0 : AllConfigured cfg State.init.clients := by
    intro name c hc
    cases hc
  exact hrun.invariant (P := fun s => AllConfigured cfg s.clients) (fun _ _ _ h _ hs => allConfigured_step h hs) h0

end

/-! ## Reloads -/

/-- The clients are those in the file with the settings of their last lines, and one whose line has the
settings it had before gets the quotas it would have got. -/
structure Refines (file : List Vars) (before after : ClientInfoMap) : Prop where
  served : ∀ name, (after name).isSome = true ↔ ∃ v ∈ file, v.clientName = name
  settings : ∀ name v, lastLine name file = some v → ∃ c, after name = some c ∧ c.settings = lineSettings v
  unchanged : ∀ name v c, lastLine name file = some v → before name = some c → c.settings = lineSettings v →
    ∃ c', after name = some c' ∧ ∀ calls, quotas c' calls = quotas c calls

/-- Every client is listed, and the unchanged ones are settled. -/
structure Kept (file : List Vars) (before : ClientInfoMap) : Prop where
  listed : ∀ name, (before name).isSome = true → ∃ v ∈ file, v.clientName = name
  settled : ∀ name v c, lastLine name file = some v → before name = some c → c.settings = lineSettings v → Settled c

/-- In every reachable state, a reload of a well-formed file is what the file says exactly if every client
is listed and the unchanged ones are settled. -/
theorem reload_refines_iff {cfg : Config} {es : List Event} {s : State} (hrun : Run (State.step cfg) .init es s)
    {content : List Char} {file : List Vars} (hfile : WellFormed content file) (u : Uninitialised) :
    Refines file s.clients (readResourceConfig cfg u content s.clients) ↔ Kept file s.clients := by
  have hafter (name : String) : readResourceConfig cfg u content s.clients name =
      ((lastLine name file).map (newClient cfg)).orElse fun _ => s.clients name := by
    rw [readResourceConfig_of_wellFormed hfile]
    exact foldl_insertClient cfg s.clients name file
  have hlast {name : String} {v : Vars} (h : lastLine name file = some v) :
      readResourceConfig cfg u content s.clients name = some (newClient cfg v) := by
    rw [hafter, h]
    rfl
  have hconf := allConfigured_of_run hrun
  constructor
  · rintro ⟨hserved, -, hunchanged⟩
    refine ⟨fun name hname => ?_, fun name v c hv hc hset => ?_⟩
    · by_contra hnot
      -- it is served still
      have hnone : lastLine name file = none := by
        rw [← Option.not_isSome_iff_eq_none, lastLine_isSome]
        exact hnot
      apply hnot
      rw [← hserved, hafter, hnone]
      exact hname
    · obtain ⟨c', hc', hquotas⟩ := hunchanged name v c hv hc hset
      rw [hlast hv, newClient_eq_fresh (hconf name c hc) hset] at hc'
      cases hc'
      exact (quotas_fresh_iff c).1 hquotas
  · rintro ⟨hlisted, hsettled⟩
    refine ⟨fun name => ?_, fun name v hv => ⟨_, hlast hv, rfl⟩, fun name v c hv hc hset => ?_⟩
    · rw [← lastLine_isSome]
      cases hv : lastLine name file with
      | some v => rw [hlast hv]; exact iff_of_true rfl rfl
      | none =>
        rw [hafter, hv]
        apply iff_of_false
        · intro hname
          have hline := lastLine_isSome.2 (hlisted name hname)
          rw [hv] at hline
          cases hline
        · exact Bool.false_ne_true
    · refine ⟨_, hlast hv, ?_⟩
      rw [newClient_eq_fresh (hconf name c hc) hset]
      exact (quotas_fresh_iff c).2 (hsettled name v c hv hc hset)

/-- The only line of a file. -/
def lineOfA : Vars := ⟨"a", 1 / 2, 1, 100⟩

theorem wellFormed_lineOfA : WellFormed "1\na 0.5 1.0 100\n".toList [lineOfA] :=
  ⟨by decide +kernel, by decide +kernel, by decide +kernel⟩

/-- A client that has not asked for a token yet. -/
theorem refines_before_requests : ∃ s, Run (State.step defaultConfig) .init [.configure "a" (1 / 2) 1 100] s ∧
    Refines [lineOfA] s.clients
      (readResourceConfig defaultConfig ⟨0, ⟨"", 0, 0, 0⟩⟩ "1\na 0.5 1.0 100\n".toList s.clients) := by
  have hrun : Run (State.step defaultConfig) .init [.configure "a" (1 / 2) 1 100] _ := .cons trivial rfl (.nil _)
  refine ⟨_, hrun, (reload_refines_iff hrun wellFormed_lineOfA _).2 ⟨fun name hname => ?_, fun name v c hv hc _ => ?_⟩⟩
  · by_cases hne : name = "a"
    · subst hne
      exact ⟨lineOfA, List.mem_singleton_self _, rfl⟩
    · simp only [Function.update_of_ne hne] at hname
      cases hname
  · by_cases hne : name = "a"
    · subst hne
      simp only [Function.update_self] at hc
      cases hc
      exact ⟨by decide +kernel, .inl rfl⟩
    · simp only [Function.update_of_ne hne] at hc
      cases hc

/-- A client that is not in the file any more is served still; and one whose line is the same gets 250 ms
after the reload, in place of 100 ms. -/
theorem not_refines_of_state :
    (∃ s, Run (State.step defaultConfig) .init [.configure "a" (1 / 2) 1 100] s ∧ WellFormed "0\n".toList [] ∧
      ¬ Refines [] s.clients (readResourceConfig defaultConfig ⟨0, ⟨"", 0, 0, 0⟩⟩ "0\n".toList s.clients)) ∧
    ∃ s, Run (State.step defaultConfig) .init [.configure "a" (1 / 2) 1 100, .accept 4, .request 0 "a" 0 0 50 1000000,
        .enqueue 0 1000000, .select 1000000 [] [], .record 1000000] s ∧
      WellFormed "1\na 0.5 1.0 100\n".toList [lineOfA] ∧
      ¬ Refines [lineOfA] s.clients
        (readResourceConfig defaultConfig ⟨0, ⟨"", 0, 0, 0⟩⟩ "1\na 0.5 1.0 100\n".toList s.clients) := by
  constructor
  · have hempty : WellFormed "0\n".toList [] := ⟨by decide +kernel, by decide +kernel, trivial⟩
    have hrun : Run (State.step defaultConfig) .init [.configure "a" (1 / 2) 1 100] _ := .cons trivial rfl (.nil _)
    refine ⟨_, hrun, hempty, fun h => ?_⟩
    have hserved := h.served "a"
    rw [readResourceConfig_of_wellFormed hempty] at hserved
    obtain ⟨v, hv, -⟩ := hserved.1 (by simp)
    cases hv
  · obtain ⟨s, hrun, hc⟩ : ∃ s, Run (State.step defaultConfig) .init [.configure "a" (1 / 2) 1 100, .accept 4,
        .request 0 "a" 0 0 50 1000000, .enqueue 0 1000000, .select 1000000 [] [], .record 1000000] s ∧
        s.clients "a" = some ⟨1 / 2, 1, 250, 100, 10000, 100, 150, 50⟩ := exists_runWhere (by decide +kernel)
    refine ⟨s, hrun, wellFormed_lineOfA, fun h => ?_⟩
    have hline : lastLine "a" [lineOfA] = some lineOfA := by decide +kernel
    obtain ⟨c', hc', hquotas⟩ := h.unchanged "a" lineOfA _ hline hc (by decide +kernel)
    rw [readResourceConfig_of_wellFormed wellFormed_lineOfA, foldl_insertClient, hline] at hc'
    cases hc'
    have hnext := hquotas [.getQuota]
    revert hnext
    decide +kernel

end Gemini.Scheduler.Reload
