/-
The adaptive quota of a client. With a burst it is an average with bounds, which approaches the burst
within the bounds by half at every call; without one it is the base quota, whatever the bounds are.
-/
import Gemini.Lib.Relax
import Gemini.Scheduler.Reload

namespace Gemini.Scheduler.Adaptive

open Gemini.Lib Reload

variable {c : ClientInfo} {b p q : ℚ}

theorem adapt_eq_relax (hb : 1 / 10 ^ 9 ≤ b) (c : ClientInfo) (q : ℚ) :
    adapt c b q = relax ClientInfo.updateRate c.minQuota c.maxQuota q b := by
  unfold adapt ClientInfo.getQuota
  rw [if_neg (show ¬ (adapted c b q).burst < 1 / 10 ^ 9 from not_lt.2 hb)]
  rfl

/-! ## Bounds -/

/-- The quotas that a sequence of calls returns, each with the burst it is computed from. -/
def served : ClientInfo → List Call → List (ℚ × ℚ)
  | _, [] => []
  | c, .setBurst estimatedBurst :: calls => served (c.setBurst estimatedBurst) calls
  | c, .getQuota :: calls => (c.burst, c.getQuota.quota) :: served c.getQuota calls

/-- The base quota if there is no burst, otherwise a quota within the bounds. -/
structure Within (cfg : Config) (limit burst quota : ℚ) : Prop where
  static : burst < 1 / 10 ^ 9 → quota = cfg.quota
  bounded : 1 / 10 ^ 9 ≤ burst → min cfg.minQuota (limit * cfg.windowSize) ≤ quota ∧ quota ≤ limit * cfg.windowSize

section

variable {cfg : Config} {s s' : State} {e : Event}

theorem within_getQuota (h : Configured cfg c) : Within cfg c.maxFrac c.burst c.getQuota.quota := by
  constructor
  · intro hb
    rw [← h.baseQuota]
    exact adapt_of_small hb c c.quota
  · intro hb
    have hquota : c.getQuota.quota = relax ClientInfo.updateRate c.minQuota c.maxQuota c.quota c.burst :=
      adapt_eq_relax hb c c.quota
    rw [hquota, ← h.minQuota, ← h.maxQuota]
    exact ⟨le_clamp .., clamp_le ..⟩

theorem maxFrac_getQuota (c : ClientInfo) : c.getQuota.maxFrac = c.maxFrac := by
  unfold ClientInfo.getQuota
  split <;> rfl

theorem within_served (h : Configured cfg c) (calls : List Call) :
    ∀ t ∈ served c calls, Within cfg c.maxFrac t.1 t.2 := by
  induction calls generalizing c with
  | nil => nofun
  | cons call calls ih =>
    cases call with
    | setBurst x => exact ih (h.setBurst x)
    | getQuota =>
      intro t ht
      rcases List.mem_cons.1 ht with rfl | ht
      · exact within_getQuota h
      · have hlater := ih h.getQuota t ht
        rwa [maxFrac_getQuota] at hlater

/-- The quota that the daemon is about to send is the one it recorded last. -/
def Recorded (s : State) : Prop := ∀ selected quota, s.daemon = .granted selected quota →
    s.grant.map Grant.quota = some quota

theorem granted_of_signal {d : Daemon} {selected : Candidate} (h : d.signal = .granted selected q) :
    d = .granted selected q := by
  cases d <;> simp [Daemon.signal] at h ⊢
  exact h

theorem recorded_step (h : Recorded s) (hs : s.step cfg e = some s') : Recorded s' := by
  cases e with
  | accept socket =>
    obtain ⟨-, rfl⟩ := State.accept_some hs
    exact h
  | request conn name reqId overuse burst now =>
    obtain ⟨-, socket, -, ⟨-, rfl⟩ | ⟨inf, -, rfl⟩⟩ := State.request_some hs <;> exact h
  | enqueue conn now =>
    obtain ⟨-, -, socket, name, reqId, -, rfl⟩ := State.enqueue_some hs
    intro selected quota hd
    have hquota : (fun g : Grant => (if g.name = name then { g with returned := true } else g).quota) =
      Grant.quota := by
      funext g
      split <;> rfl
    rw [← h selected quota (granted_of_signal hd), Option.map_map]
    exact congrArg (Option.map · s.grant) hquota
  | hangUp conn =>
    obtain ⟨socket, -, rfl⟩ := State.hangUp_some hs
    exact h
  | configure name minf maxf gpuMemLimit =>
    cases hs
    exact h
  | select now ts order =>
    obtain ⟨-, -, ⟨-, rfl⟩ | ⟨c, rest, -, rfl⟩ | ⟨ms, rfl⟩⟩ := State.select_some hs <;> nofun
  | record now =>
    obtain ⟨-, selected, inf, -, -, rfl⟩ := State.record_some hs
    rintro _ _ ⟨⟩
    rfl
  | send =>
    obtain ⟨selected, quota, -, rfl⟩ := State.send_some hs
    nofun
  | arm now =>
    obtain ⟨-, selected, quota, -, rfl⟩ := State.arm_some hs
    nofun
  | block =>
    obtain ⟨selected, deadline, -, rfl⟩ := State.block_some hs
    nofun
  | wake now timedOut =>
    obtain ⟨-, ⟨b, -, rfl⟩ | ⟨selected, deadline, b, -, ⟨-, rfl⟩ | ⟨-, rfl⟩ | ⟨-, rfl⟩⟩⟩ := State.wake_some hs <;> nofun

end

/-- Every quota is the base quota if there is no burst, and within the bounds otherwise; so is every token
that the scheduler records, and every token it sends is the one it recorded last. -/
theorem quotas_within (cfg : Config) :
    (∀ minf maxf mem calls, ∀ t ∈ served (.new cfg.quota cfg.minQuota (maxf * cfg.windowSize) minf maxf mem) calls,
      Within cfg maxf t.1 t.2) ∧
    ∀ events s, Run (State.step cfg) .init events s →
      (∀ now s', s.record cfg now = some s' → ∃ selected inf, s.daemon = .chosen selected ∧
        s.clients selected.name = some inf ∧ Within cfg inf.maxFrac inf.burst inf.getQuota.quota ∧
        s'.timeline.historyList =
          record selected.name inf.getQuota.quota (msSinceStart cfg now) s.timeline.historyList ∧
        s'.grant.map Grant.quota = some inf.getQuota.quota) ∧
      ∀ s', s.send = some s' → ∃ a, s'.answers = s.answers ++ [a] ∧ s.grant.map Grant.quota = some a.quota := by
  refine ⟨fun minf maxf mem calls => ?_, fun events s hrun => ⟨fun now s' hs => ?_, fun s' hs => ?_⟩⟩
  · exact within_served (configured_newClient cfg ⟨"", minf, maxf, mem⟩) calls
  · obtain ⟨-, selected, inf, hd, hinf, rfl⟩ := State.record_some hs
    exact ⟨selected, inf, hd, hinf, within_getQuota (allConfigured_of_run hrun _ _ hinf), rfl, rfl⟩
  · obtain ⟨selected, quota, hd, rfl⟩ := State.send_some hs
    have hrec : Recorded s := hrun.invariant (P := Recorded) (fun _ _ _ h _ hs => recorded_step h hs) nofun
    exact ⟨_, rfl, hrec selected quota hd⟩

/-- A client limited to half of the window, with a burst of 400 ms. -/
def burstOfA : List Event :=
  [.configure "a" (1 / 4) (1 / 2) 0, .accept 4, .request 0 "a" 0 0 400 1000000, .enqueue 0 1000000,
  .select 1000000 [] []]

theorem quotas_within_half :
    (∀ t ∈ served (.new 250 100 (1 / 2 * 10000) (1 / 4) (1 / 2) 0) [.getQuota, .setBurst 400, .getQuota],
      Within defaultConfig (1 / 2) t.1 t.2) ∧
    ∃ s, Run (State.step defaultConfig) .init burstOfA s ∧ ∃ s', s.record defaultConfig 1000000 = some s' ∧
      ∃ selected inf, s.daemon = .chosen selected ∧ s.clients selected.name = some inf ∧
        Within defaultConfig inf.maxFrac inf.burst inf.getQuota.quota ∧
        s'.timeline.historyList =
          record selected.name inf.getQuota.quota (msSinceStart defaultConfig 1000000) s.timeline.historyList ∧
        s'.grant.map Grant.quota = some inf.getQuota.quota := by
  have hrun : ∃ s, Run (State.step defaultConfig) .init burstOfA s ∧ (s.record defaultConfig 1000000).isSome = true :=
    exists_runWhere (by decide +kernel)
  obtain ⟨s, hrun, hsome⟩ := hrun
  obtain ⟨s', hs'⟩ := Option.isSome_iff_exists.1 hsome
  obtain ⟨h1, h2⟩ := quotas_within defaultConfig
  exact ⟨h1 (1 / 4) (1 / 2) 0 _, s, hrun, s', hs', (h2 _ s hrun).1 _ s' hs'⟩

/-- A client limited to 100 ms of the window gets a token of 250 ms. -/
theorem quota_above_limit :
    quotas (.new 250 100 (1 / 100 * 10000) (1 / 100) (1 / 100) 0) [.setBurst 0, .getQuota] = [250] ∧
    (1 / 100 * 10000 : ℚ) < 250 ∧
    ∃ s, Run (State.step defaultConfig) .init
      [.configure "a" (1 / 100) (1 / 100) 0, .accept 4, .request 0 "a" 0 0 0 1000000,
        .enqueue 0 1000000, .select 1000000 [] [], .record 1000000, .send] s ∧
      s.answers.map Answer.quota = [250] ∧ (s.clients "a").map ClientInfo.maxQuota = some 100 :=
  ⟨by decide +kernel, by norm_num, exists_runWhere (by decide +kernel)⟩

/-! ## Convergence -/

/-- A quota for each of the bursts. -/
def serve (c : ClientInfo) (bursts : List ℚ) : ClientInfo := bursts.foldl (fun c b => (c.setBurst b).getQuota) c

theorem quota_serve {bursts : List ℚ} (hb : ∀ b ∈ bursts, 1 / 10 ^ 9 ≤ b) (x q : ℚ) :
    (serve (adapted c x q) bursts).quota = bursts.foldl (relax ClientInfo.updateRate c.minQuota c.maxQuota) q := by
  induction bursts generalizing x q with
  | nil => rfl
  | cons b bursts ih =>
    have hset : ((adapted c x q).setBurst b).getQuota = adapted c b (adapt c b q) := getQuota_adapted c b q
    have hcons : serve (adapted c x q) (b :: bursts) = serve (adapted c b (adapt c b q)) bursts :=
      congrArg (serve · bursts) hset
    rw [hcons, ih (fun x hx => hb x (List.mem_cons_of_mem _ hx)), List.foldl_cons,
      adapt_eq_relax (hb b (List.mem_cons_self ..))]

/-- Without a new burst, the last one is used again. -/
theorem iterate_getQuota (b q : ℚ) (n : ℕ) :
    ClientInfo.getQuota^[n] (adapted c b q) = serve (adapted c b q) (List.replicate n b) := by
  induction n generalizing q with
  | zero => rfl
  | succ n ih =>
    rw [Function.iterate_succ_apply, getQuota_adapted, ih]
    exact congrArg (serve · (List.replicate n b)) (getQuota_adapted c b q).symm

/-- With one burst the quota approaches the burst within the bounds by half at every call, and two quotas
approach each other by half whatever the bursts are. -/
theorem getQuota_converges (c : ClientInfo) :
    (∀ q b, 1 / 10 ^ 9 ≤ b → ∀ n,
      |(ClientInfo.getQuota^[n] (adapted c b q)).quota - min (max b c.minQuota) c.maxQuota| ≤
      |q - min (max b c.minQuota) c.maxQuota| / 2 ^ n) ∧
    ∀ p q x y (bursts : List ℚ), (∀ b ∈ bursts, 1 / 10 ^ 9 ≤ b) →
      |(serve (adapted c x p) bursts).quota - (serve (adapted c y q) bursts).quota| ≤ |p - q| / 2 ^ bursts.length := by
  have hrate : 1 - ClientInfo.updateRate = 1 / 2 := by norm_num [ClientInfo.updateRate]
  have h0 : 0 ≤ ClientInfo.updateRate := by norm_num [ClientInfo.updateRate]
  have h1 : ClientInfo.updateRate ≤ 1 := by norm_num [ClientInfo.updateRate]
  have hhalf (n : ℕ) (x : ℚ) : (1 - ClientInfo.updateRate) ^ n * x = x / 2 ^ n := by
    rw [hrate, div_pow, one_pow, one_div_mul_eq_div]
  constructor
  · intro q b hb n
    rw [iterate_getQuota, quota_serve (fun x hx => by rwa [List.eq_of_mem_replicate hx]), ← hhalf]
    exact abs_foldl_replicate_sub_le h0 h1 n q
  · intro p q x y bursts hb
    rw [quota_serve hb, quota_serve hb, ← hhalf]
    exact abs_foldl_relax_sub_le h1 bursts p q

/-- A client that starts with 250 ms and has bursts of 500 ms, and one that starts with 1000 ms. -/
theorem getQuota_approaches_burst :
    |(ClientInfo.getQuota^[3] (adapted (.new 250 100 5000 (1 / 4) (1 / 2) 0) 500 250)).quota - min (max 500 100) 5000| ≤
      |250 - min (max 500 100) 5000| / 2 ^ 3 ∧
    |(serve (adapted (.new 250 100 5000 (1 / 4) (1 / 2) 0) 0 250) [400, 600]).quota -
      (serve (adapted (.new 250 100 5000 (1 / 4) (1 / 2) 0) 0 1000) [400, 600]).quota| ≤ |250 - 1000| / 2 ^ 2 := by
  obtain ⟨h1, h2⟩ := getQuota_converges (.new 250 100 5000 (1 / 4) (1 / 2) 0)
  exact ⟨h1 250 500 (by norm_num) 3, h2 250 1000 0 0 [400, 600] (by norm_num)⟩

end Gemini.Scheduler.Adaptive
