/-
LIMIT over time. A turn that selects a client finds its share of the window that ends at the turn
below the limit; the token that is recorded then, and what is later reported of it, come on top, and
nothing that happens to other clients adds to what was before it.

So in every run in which a client has one request at a time, and in every window of the whole
history, the first as well as the last, a client has its limit and one token at most; in `n` windows
in a row it has `n` times as much.
-/
import Gemini.Lib.RateLimit
import Gemini.Scheduler.Conservation
import Gemini.Scheduler.Held
import Gemini.Scheduler.Limit
import Gemini.Scheduler.Progress

namespace Gemini.Scheduler

open Gemini.Lib

/-! ## The time line -/

/-- A change of the last entry of a client, where it is. -/
theorem updateLast_cases {α : Type*} (name : α → String) (c : String) (f : α → α) (xs : List α) :
    (updateLast name c f xs = xs ∧ ∀ x ∈ xs, name x ≠ c) ∨
      ∃ ys x zs, xs = ys ++ x :: zs ∧ name x = c ∧ (∀ z ∈ zs, name z ≠ c) ∧
        updateLast name c f xs = ys ++ f x :: zs := by
  have hfirst : ∀ ws : List α, (updateFirst name c f ws = ws ∧ ∀ x ∈ ws, name x ≠ c) ∨
      ∃ ys x zs, ws = ys ++ x :: zs ∧ name x = c ∧ (∀ y ∈ ys, name y ≠ c) ∧
        updateFirst name c f ws = ys ++ f x :: zs := by
    intro ws
    induction ws with
    | nil => exact .inl ⟨rfl, nofun⟩
    | cons w ws ih =>
      by_cases hw : name w = c
      · exact .inr ⟨[], w, ws, rfl, hw, nofun, by simp [updateFirst, hw]⟩
      · rcases ih with ⟨he, ha⟩ | ⟨ys, x, zs, rfl, hx, ha, he⟩
        · exact .inl ⟨by simp [updateFirst, hw, he], List.forall_mem_cons.2 ⟨hw, ha⟩⟩
        · exact .inr ⟨w :: ys, x, zs, rfl, hx, List.forall_mem_cons.2 ⟨hw, ha⟩, by simp [updateFirst, hw, he]⟩
  rcases hfirst xs.reverse with ⟨he, ha⟩ | ⟨ys, x, zs, hxs, hx, ha, he⟩
  · exact .inl ⟨by rw [updateLast, he, List.reverse_reverse], fun x hx => ha x (List.mem_reverse.2 hx)⟩
  · refine .inr ⟨zs.reverse, x, ys.reverse, ?_, hx, fun z hz => ha z (List.mem_reverse.1 hz), ?_⟩
    · rw [← List.reverse_reverse xs, hxs]
      simp
    · rw [updateLast, he]
      simp

namespace Timeline

variable {W : ℚ} {C : String → ℝ} {tl : Timeline} {name k : String} {now quota overuse : ℚ}

/-- The tokens of a client follow one another, and at the start of each of them the client has had
at most `C` in the window. -/
structure Limited (W : ℚ) (C : String → ℝ) (tl : Timeline) : Prop where
  apart : tl.full.Pairwise fun x y => x.name = y.name → x.end ≤ y.start
  capped : ∀ x ∈ tl.full, Capped (spans tl.full) x.name W (C x.name) x.start

theorem limited_init (W : ℚ) (C : String → ℝ) : Limited W C init := ⟨List.Pairwise.nil, nofun⟩

theorem full_record : (tl.record name quota now).full = tl.full ++ [⟨name, now, now + quota⟩] := by simp [record, full]

theorem full_prune : (tl.prune quota now).full = tl.full := by simp [prune, full]

/-- A client whose tokens are over and which is below its limit gets the next one. -/
theorem Limited.record (h : Limited W C tl) (hstart : ∀ x ∈ tl.full, x.start ≤ now)
    (hend : ∀ x ∈ tl.full, x.name = name → x.end ≤ now)
    (hcap : Capped (spans tl.full) name W (C name) now) : Limited W C (tl.record name quota now) := by
  refine ⟨?_, ?_⟩
  · rw [full_record]
    refine List.pairwise_append.2 ⟨h.apart, List.pairwise_singleton _ _, fun x hx y hy hn => ?_⟩
    rw [List.mem_singleton.1 hy] at hn ⊢
    exact hend x hx hn
  · intro x hx
    rw [full_record, spans_append]
    rw [full_record] at hx
    rcases List.mem_append.1 hx with hx | hx
    · exact (h.capped x hx).append (Rat.cast_le.2 (hstart x hx))
    · rw [List.mem_singleton.1 hx]
      exact hcap.append le_rfl

/-- What a report does to the history: nothing, or it moves the end of the client's last token. -/
theorem full_updateReturnTime (tl : Timeline) (name : String) (overuse now : ℚ) :
    ((tl.updateReturnTime name overuse now).full = tl.full ∧ ∀ x ∈ tl.full, x.name ≠ name) ∨
    ∃ ys x zs, tl.full = ys ++ x :: zs ∧ x.name = name ∧ (∀ z ∈ zs, z.name ≠ name) ∧
      (tl.updateReturnTime name overuse now).full = ys ++ x.returned overuse now :: zs := by
  rcases updateLast_cases (fun x : Tracked => x.name) name (fun x => ⟨x.toHistory.returned overuse now, x.listed⟩)
    tl.fullHistory with ⟨he, ha⟩ | ⟨ys, x, zs, hxs, hx, ha, he⟩
  · refine .inl ⟨by rw [full, full, updateReturnTime, he], fun x hx => ?_⟩
    obtain ⟨y, hy, rfl⟩ := List.mem_map.1 hx
    exact ha y hy
  · refine .inr ⟨ys.map Tracked.toHistory, x.toHistory, zs.map Tracked.toHistory, ?_, hx, fun z hz => ?_, ?_⟩
    · rw [full, hxs, List.map_append, List.map_cons]
    · obtain ⟨y, hy, rfl⟩ := List.mem_map.1 hz
      exact ha y hy
    · rw [full, updateReturnTime, he, List.map_append, List.map_cons]

/-- A report changes what was before `b` for other clients' good only. -/
theorem capped_updateReturnTime {b : ℚ} {c : ℝ} (h : Capped (spans tl.full) k W c b) (hb : b ≤ now) (ho : 0 ≤ overuse)
    (hown : k = name → ∀ ys x zs, tl.full = ys ++ x :: zs → x.name = name → (∀ z ∈ zs, z.name ≠ name) → b ≤ x.start) :
    Capped (spans (tl.updateReturnTime name overuse now).full) k W c b := by
  rcases full_updateReturnTime tl name overuse now with
    ⟨he, -⟩ | ⟨ys, x, zs, hxs, hx, ha, he⟩
  · rwa [he]
  · have hrefl : ∀ y : Span String, Span.Covered k b y y := fun _ => ⟨rfl, fun _ _ => id, fun _ _ _ => id⟩
    refine h.of_forall₂ ?_
    rw [hxs, he, spans_append, spans_append]
    refine List.rel_append (List.forall₂_same.2 fun y _ => hrefl y)
      (.cons ⟨rfl, fun t ht hc => ?_, fun hk t ht hc => ?_⟩
      (List.forall₂_same.2 fun y _ => hrefl y))
    · refine ⟨hc.1, ?_⟩
      have htn : t < (now : ℝ) := ht.trans_le (Rat.cast_le.2 hb)
      have hte : t < ((x.end + overuse : ℚ) : ℝ) := hc.2.trans_le (Rat.cast_le.2 (le_add_of_nonneg_right ho))
      show t < ((min now (x.end + overuse) : ℚ) : ℝ)
      rw [Rat.cast_min]
      exact lt_min htn hte
    · have hstart : (b : ℝ) ≤ x.start := by exact_mod_cast hown (hk.symm.trans hx) ys x zs hxs hx ha
      exact absurd (hc.1.trans_lt ht) (not_lt.2 hstart)

theorem Limited.updateReturnTime (h : Limited W C tl) (hinv : tl.Inv W) (hnow : tl.clock ≤ now) (ho : 0 ≤ overuse) :
    Limited W C (tl.updateReturnTime name overuse now) := by
  have htimed : ∀ x ∈ tl.full, x.start ≤ x.end ∧ x.start ≤ now := by
    intro x hx
    obtain ⟨y, hy, rfl⟩ := List.mem_map.1 hx
    obtain ⟨-, h2, h3⟩ := hinv.timed y hy
    exact ⟨h2, h3.trans hnow⟩
  -- a token of the client that reports does not begin after its last one
  have hcap : ∀ x ∈ tl.full, Capped (spans (tl.updateReturnTime name overuse now).full) x.name W
    (C x.name) x.start := by
    intro x hx
    refine capped_updateReturnTime (h.capped x hx) (htimed x hx).2 ho fun hk ys y zs hxs hy ha => ?_
    have hap := h.apart
    rw [hxs] at hx hap
    rcases List.mem_append.1 hx with hx' | hx'
    · have hle := (List.pairwise_append.1 hap).2.2 x hx' y (List.mem_cons_self ..) (hk.trans hy.symm)
      exact (htimed x (hxs ▸ hx)).1.trans hle
    · rcases List.mem_cons.1 hx' with rfl | hx'
      · exact le_rfl
      · exact absurd hk (ha x hx')
  rcases full_updateReturnTime tl name overuse now with
    ⟨he, -⟩ | ⟨ys, x, zs, hxs, hx, ha, he⟩
  · refine ⟨by rw [he]; exact h.apart, fun x hx => hcap x (he ▸ hx)⟩
  · have hap := h.apart
    rw [hxs, List.pairwise_append, List.pairwise_cons] at hap
    refine ⟨?_, fun y hy => ?_⟩
    · rw [he, List.pairwise_append, List.pairwise_cons]
      refine ⟨hap.1, ⟨fun z hz hn => absurd (hn.symm.trans hx) (ha z hz), hap.2.1.2⟩, fun y hy z hz => ?_⟩
      rcases List.mem_cons.1 hz with rfl | hz
      · exact hap.2.2 y hy x (List.mem_cons_self ..)
      · exact hap.2.2 y hy z (List.mem_cons_of_mem _ hz)
    · rw [he] at hy
      rcases List.mem_append.1 hy with hy | hy
      · exact hcap y (by rw [hxs]; exact List.mem_append_left _ hy)
      · rcases List.mem_cons.1 hy with rfl | hy
        · exact hcap x (by rw [hxs]; exact List.mem_append_right _ (List.mem_cons_self ..))
        · exact hcap y (by rw [hxs]; exact List.mem_append_right _ (List.mem_cons_of_mem _ hy))

/-- A client that has reported has no token that goes on. -/
theorem end_le_of_updateReturnTime (h : Limited W C tl) (hinv : tl.Inv W) (hnow : tl.clock ≤ now) :
    ∀ x ∈ (tl.updateReturnTime name overuse now).full, x.name = name → x.end ≤ now := by
  have hstart : ∀ x ∈ tl.full, x.start ≤ now := by
    intro x hx
    obtain ⟨y, hy, rfl⟩ := List.mem_map.1 hx
    exact (hinv.timed y hy).2.2.trans hnow
  intro y hy hn
  rcases full_updateReturnTime tl name overuse now with
    ⟨he, ha⟩ | ⟨ys, x, zs, hxs, hx, ha, he⟩
  · exact absurd hn (ha y (he ▸ hy))
  · have hap := h.apart
    rw [hxs, List.pairwise_append] at hap
    rw [he] at hy
    rcases List.mem_append.1 hy with hy | hy
    · exact (hap.2.2 y hy x (List.mem_cons_self ..) (hn.trans hx.symm)).trans (hstart x (by rw [hxs]; simp))
    · rcases List.mem_cons.1 hy with rfl | hy
      · exact min_le_left _ _
      · exact absurd hn (ha y hy)

/-- A report is about the tokens of its client only. -/
theorem mem_updateReturnTime_of_ne {x : History} (hx : x ∈ (tl.updateReturnTime name overuse now).full)
    (hn : x.name ≠ name) : x ∈ tl.full := by
  rcases full_updateReturnTime tl name overuse now with
    ⟨he, -⟩ | ⟨ys, y, zs, hxs, hy, -, he⟩
  · exact he ▸ hx
  · rw [he] at hx
    rw [hxs]
    rcases List.mem_append.1 hx with hx | hx
    · exact List.mem_append_left _ hx
    · rcases List.mem_cons.1 hx with rfl | hx
      · exact absurd hy hn
      · exact List.mem_append_right _ (List.mem_cons_of_mem _ hx)

end Timeline

/-! ## The scheduler -/

namespace State

variable {cfg : Config} {L : String → ℚ} {s s' : State} {g g' : Traffic} {e : Event}

/-- The clients whose requests are read and not answered. -/
def awaiting (s : State) : Multiset String :=
  s.inProgress.map QuotaRequest.name + (s.candidates.map Candidate.name : Multiset String) +
    (s.daemon.unanswered.toList.map Candidate.name : Multiset String)

/-- A client has one request at a time. -/
def OneAtATime (s : State) : Event → Prop
  | .request _ name _ _ _ _ => name ∉ s.awaiting
  | _ => True

/-- Turns are clear. -/
def SelectsClear (cfg : Config) (s : State) : Event → Prop
  | .select now _ _ => s.TurnClear cfg now
  | _ => True

/-- `L` is at least every LIMIT configured. -/
def LimitedBy (L : String → ℚ) : Event → Prop
  | .configure name _ maxf _ => maxf ≤ L name
  | _ => True

instance (s : State) (e : Event) : Decidable (s.OneAtATime e) := by
  cases e <;> unfold OneAtATime <;> infer_instance

instance (cfg : Config) (s : State) (e : Event) : Decidable (s.SelectsClear cfg e) := by
  cases e <;> unfold SelectsClear <;> infer_instance

instance (L : String → ℚ) (e : Event) : Decidable (LimitedBy L e) := by
  cases e <;> unfold LimitedBy <;> infer_instance

/-- What the runs meet in which limits hold over time. -/
def Orderly (cfg : Config) (L : String → ℚ) (s : State) (e : Event) : Prop :=
  (Admitted cfg e ∧ s.ReportsFind cfg e) ∧ s.OneAtATime e ∧ s.SelectsClear cfg e ∧ LimitedBy L e

instance (cfg : Config) (L : String → ℚ) (s : State) (e : Event) : Decidable (Orderly cfg L s e) := by
  unfold Orderly; infer_instance

/-! ## One request of each client -/

/-- Read is what is answered and what awaits an answer. -/
theorem Conserved.names (h : Conserved s g) :
    (g.received.map QuotaRequest.name : Multiset String) = (s.answers.map fun a => a.request.name : Multiset String) +
    s.awaiting := by
  have hacc := congrArg (Multiset.map Candidate.name) h.accepted
  have hrec := congrArg (Multiset.map QuotaRequest.name) h.received
  simp only [Multiset.map_add, Multiset.map_coe, List.map_map, Function.comp_def] at hacc hrec
  rw [hrec, awaiting]
  simp only [Candidate.request]
  rw [hacc]
  abel

/-- Answers stay. -/
theorem answers_le_step (hs : s.step cfg e = some s') : ∃ rest, s'.answers = s.answers ++ rest := by
  cases e with
  | accept socket => obtain ⟨-, rfl⟩ := accept_some hs; exact ⟨[], (List.append_nil _).symm⟩
  | request c n reqId overuse burst now =>
    obtain ⟨-, _, -, ⟨-, rfl⟩ | ⟨_, -, rfl⟩⟩ := request_some hs <;> exact ⟨[], (List.append_nil _).symm⟩
  | enqueue c now => obtain ⟨-, -, _, _, _, -, rfl⟩ := enqueue_some hs; exact ⟨[], (List.append_nil _).symm⟩
  | hangUp c => obtain ⟨_, -, rfl⟩ := hangUp_some hs; exact ⟨[], (List.append_nil _).symm⟩
  | configure n minf maxf gpuMemLimit => cases hs; exact ⟨[], (List.append_nil _).symm⟩
  | select now ts order =>
    obtain ⟨-, -, ⟨-, rfl⟩ | ⟨_, _, -, rfl⟩ | ⟨_, rfl⟩⟩ := select_some hs <;> exact ⟨[], (List.append_nil _).symm⟩
  | record now => obtain ⟨-, _, _, -, -, rfl⟩ := record_some hs; exact ⟨[], (List.append_nil _).symm⟩
  | send => obtain ⟨_, _, -, rfl⟩ := send_some hs; exact ⟨_, rfl⟩
  | arm now => obtain ⟨-, _, _, -, rfl⟩ := arm_some hs; exact ⟨[], (List.append_nil _).symm⟩
  | block => obtain ⟨_, _, -, rfl⟩ := block_some hs; exact ⟨[], (List.append_nil _).symm⟩
  | wake now timedOut =>
    obtain ⟨-, ⟨_, -, rfl⟩ | ⟨_, _, _, -, ⟨-, rfl⟩ | ⟨-, rfl⟩ | ⟨-, rfl⟩⟩⟩ := wake_some hs <;>
      exact ⟨[], (List.append_nil _).symm⟩

/-- Where clients have one request at a time, no two are of one client. -/
theorem once_step (h : Conserved s g) (h' : Conserved s' g') (hg : g' = s.noteTraffic cfg e g) (hone : s.OneAtATime e)
    (hs : s.step cfg e = some s') (honce : s.awaiting.Nodup) : s'.awaiting.Nodup := by
  obtain ⟨rest, hans⟩ := answers_le_step hs
  have hnames := h'.names
  have hquiet : g'.received = g.received → s'.awaiting ≤ s.awaiting := by
    intro hr
    rw [hr, h.names, hans, List.map_append, ← Multiset.coe_add, add_assoc] at hnames
    rw [add_left_cancel hnames]
    exact Multiset.le_add_left _ _
  cases e with
  | request conn name reqId overuse burst now =>
    obtain ⟨-, socket, hh, ⟨hn, rfl⟩ | ⟨inf, hi, rfl⟩⟩ := request_some hs
    · exact honce
    · have hr : g'.received = g.received ++ [⟨socket, name, reqId⟩] := by
        rw [hg]
        simp only [noteTraffic, hh, hi]
      rw [hr, List.map_append, ← Multiset.coe_add, h.names, add_assoc] at hnames
      rw [← add_left_cancel hnames, add_comm]
      exact Multiset.nodup_cons.2 ⟨hone, honce⟩
  | enqueue conn now =>
    refine Multiset.nodup_of_le (hquiet ?_) honce
    rw [hg]
    simp only [noteTraffic]
    split <;> rfl
  | record now =>
    refine Multiset.nodup_of_le (hquiet ?_) honce
    rw [hg]
    simp only [noteTraffic]
    split
    · split <;> rfl
    · rfl
  | _ => exact Multiset.nodup_of_le (hquiet (by rw [hg]; rfl)) honce

/-! ## The invariant -/

/-- The requests that a token has not been recorded for. -/
def Queueing (s : State) (name : String) : Prop :=
  (∃ conn socket reqId, s.handlers conn = some ⟨socket, some (name, reqId)⟩) ∨ ∃ c ∈ s.candidates, c.name = name

/-- Limits on the time line, and what a client's next token relies on: whoever queues has no token
that goes on, and whoever is chosen was below its limit at its turn. -/
structure Ceiling (cfg : Config) (L : String → ℚ) (s : State) : Prop where
  under : ∀ name inf, s.clients name = some inf → inf.maxFrac ≤ L name
  limited : s.timeline.Limited cfg.windowSize fun name => L name * cfg.windowSize
  ended : ∀ name, s.Queueing name → ∀ x ∈ s.timeline.full, x.name = name → x.end ≤ msSinceStart cfg s.clock
  chosen : ∀ c, s.daemon = .chosen c → ∃ T ≤ msSinceStart cfg s.clock,
    (∀ x ∈ s.timeline.full, x.name = c.name → x.end ≤ T) ∧
    Capped (spans s.timeline.full) c.name cfg.windowSize (L c.name * cfg.windowSize) T

theorem ceiling_init (cfg : Config) (L : String → ℚ) : Ceiling cfg L init :=
  ⟨nofun, Timeline.limited_init _ _, fun _ _ => nofun, nofun⟩

/-- Who is chosen, or has its token and no answer yet, does not queue. -/
theorem not_queueing_of_unanswered (h : Conserved s g) (honce : s.awaiting.Nodup) {c : Candidate}
    (hc : s.daemon.unanswered = some c) : ¬ s.Queueing c.name := by
  intro hq
  have hmem : c.name ∈ s.inProgress.map QuotaRequest.name + (s.candidates.map Candidate.name : Multiset String) := by
    rcases hq with ⟨conn, socket, reqId, hh⟩ | ⟨d, hd, he⟩
    · refine Multiset.mem_add.2 (.inl (Multiset.mem_map.2 ⟨⟨socket, c.name, reqId⟩, ?_, rfl⟩))
      rw [inProgress, Multiset.mem_sum]
      exact ⟨conn, h.lt_nextConn hh, by rw [hh]; exact Multiset.mem_singleton_self _⟩
    · exact Multiset.mem_add.2 (.inr (Multiset.mem_coe.2 (List.mem_map.2 ⟨d, hd, he⟩)))
  rw [awaiting, hc, Multiset.nodup_add] at honce
  exact Multiset.disjoint_left.1 honce.2.2 hmem (by simp)

/-- A step that touches no token and lets nobody queue or be chosen anew. -/
theorem Ceiling.of_frame (h : Ceiling cfg L s) (hu : ∀ name inf, s'.clients name = some inf → inf.maxFrac ≤ L name)
    (hfull : s'.timeline.full = s.timeline.full) (hclock : s.clock ≤ s'.clock)
    (hq : ∀ name, s'.Queueing name → s.Queueing name)
    (hc : ∀ c, s'.daemon = .chosen c → s.daemon = .chosen c) : Ceiling cfg L s' := by
  have hmono := msSinceStart_mono cfg hclock
  refine ⟨hu, ⟨hfull ▸ h.limited.apart, hfull ▸ h.limited.capped⟩, fun name hn x hx hxn => ?_, fun c hd => ?_⟩
  · exact (h.ended name (hq name hn) x (hfull ▸ hx) hxn).trans hmono
  · obtain ⟨T, hT, hend, hcap⟩ := h.chosen c (hc c hd)
    exact ⟨T, hT.trans hmono, hfull ▸ hend, hfull ▸ hcap⟩

theorem under_step (hl : LimitedBy L e) (hs : s.step cfg e = some s')
    (h : ∀ name inf, s.clients name = some inf → inf.maxFrac ≤ L name) (name : String) (inf : ClientInfo)
    (hi : s'.clients name = some inf) : inf.maxFrac ≤ L name := by
  rcases clients_step hs hi with ⟨old, hold, he⟩ | ⟨minf, maxf, limit, rfl, he⟩
  · rw [← show old.maxFrac = inf.maxFrac from congrArg (fun x => x.2.1) he]
    exact h name old hold
  · rw [show inf.maxFrac = maxf from congrArg (fun x => x.2.1) he]
    exact hl

theorem ceiling_request (h : Ceiling cfg L s) (hinv : LimitInv cfg s) {conn : ℕ} {name : String} {reqId : ℤ}
    {overuse burst : ℚ} {now : ℕ} (ho : 0 ≤ overuse) (hone : name ∉ s.awaiting)
    (hu : ∀ name inf, s'.clients name = some inf → inf.maxFrac ≤ L name)
    (hs : s.request cfg conn name reqId overuse burst now = some s') : Ceiling cfg L s' := by
  obtain ⟨hnow, socket, hh, ⟨-, rfl⟩ | ⟨inf, hi, rfl⟩⟩ := request_some hs
  · exact h.of_frame hu rfl hnow (fun _ => id) fun _ => id
  · have hclock := hinv.clock_le hnow
    have hmono := msSinceStart_mono cfg hnow
    refine ⟨hu, h.limited.updateReturnTime hinv.timeline hclock ho, fun n hn x hx hxn => ?_, fun c hd => ?_⟩
    · by_cases hnn : n = name
      · exact Timeline.end_le_of_updateReturnTime h.limited hinv.timeline hclock x hx (hxn.trans hnn)
      · have hqueue : s.Queueing n := by
          rcases hn with ⟨k, so, r, hk⟩ | hn
          · have hk : Function.update s.handlers conn (some ⟨socket, some (name, reqId)⟩) k = some ⟨so, some (n, r)⟩ :=
              hk
            by_cases hkc : k = conn
            · rw [hkc, Function.update_self] at hk
              cases hk
              exact absurd rfl hnn
            · exact .inl ⟨k, so, r, (Function.update_of_ne hkc ..).symm.trans hk⟩
          · exact .inr hn
        have hx := Timeline.mem_updateReturnTime_of_ne hx fun he => hnn (hxn.symm.trans he)
        exact (h.ended n hqueue x hx hxn).trans hmono
    · have hd : s.daemon = .chosen c := hd
      have hne : c.name ≠ name := by
        rintro rfl
        refine hone (Multiset.mem_add.2 (.inr ?_))
        rw [hd]
        exact Multiset.mem_coe.2 (List.mem_singleton_self _)
      obtain ⟨T, hT, hend, hcap⟩ := h.chosen c hd
      refine ⟨T, hT.trans hmono, fun x hx hxn => ?_, ?_⟩
      · exact hend x (Timeline.mem_updateReturnTime_of_ne hx fun he => hne (hxn.symm.trans he)) hxn
      · exact Timeline.capped_updateReturnTime hcap (hT.trans hmono) ho fun he => absurd he hne

/-- A clear turn leaves the chosen client with its limit at most. -/
theorem ceiling_select (h : Ceiling cfg L s) (hinv : LimitInv cfg s) (hcfg : cfg.Durations) (hL : ∀ name, 0 ≤ L name)
    {now : ℕ} {ts : List ContainerTimestamp} {order : List ValidCandidate} (hclear : s.TurnClear cfg now)
    (hu : ∀ name inf, s'.clients name = some inf → inf.maxFrac ≤ L name)
    (hs : s.select cfg now ts order = some s') : Ceiling cfg L s' := by
  obtain ⟨hnow, -, ⟨-, rfl⟩ | ⟨c, rest, hp, rfl⟩ | ⟨ms, rfl⟩⟩ := select_some hs
  · exact h.of_frame hu rfl hnow (fun _ => id) (by simp)
  · obtain ⟨i, hi, rfl⟩ := selectPass_mem hp
    have hmono := msSinceStart_mono cfg hnow
    have hfull : (s.timeline.prune (msSinceStart cfg now - cfg.windowSize) (msSinceStart cfg now)).full =
      s.timeline.full :=
      Timeline.full_prune
    refine ⟨hu, ⟨hfull ▸ h.limited.apart, hfull ▸ h.limited.capped⟩, fun name hn x hx hxn => ?_, fun d hd => ?_⟩
    · refine (h.ended name ?_ x (hfull ▸ hx) hxn).trans hmono
      refine hn.imp_right ?_
      rintro ⟨e, he, hen⟩
      exact ⟨e, List.mem_of_mem_eraseIdx he, hen⟩
    · cases hd
      have hc : c ∈ s.candidates := List.mem_of_getElem? hi
      refine ⟨msSinceStart cfg now, le_rfl, fun x hx hxn => ?_, ?_⟩
      · exact (h.ended c.name (.inr ⟨c, hc, rfl⟩) x (hfull ▸ hx) hxn).trans hmono
      · obtain ⟨inf, hinf, hlt⟩ := underLimit_of_inv hinv hclear hs rfl
        have hle : inf.maxFrac * effectiveWindow cfg.windowSize (msSinceStart cfg now) ≤ L c.name * cfg.windowSize := by
          have hpos : 0 ≤ msSinceStart cfg now := by unfold msSinceStart; positivity
          rw [effectiveWindow_eq_min]
          exact mul_le_mul (hu c.name inf hinf) (min_le_right ..) (le_min hpos hcfg.windowSize) (hL _)
        refine capped_of_share ?_
        have hshare := hlt.le.trans (Rat.cast_le.2 hle)
        rw [fairShare] at hshare
        push_cast at hshare
        exact hshare
  · exact h.of_frame hu Timeline.full_prune hnow (fun _ => id) (by simp)

theorem ceiling_record (h : Ceiling cfg L s) (hinv : LimitInv cfg s) (hcons : Conserved s g) (honce : s.awaiting.Nodup)
    (hcfg : cfg.Durations) (hL : ∀ name, 0 ≤ L name) {now : ℕ}
    (hu : ∀ name inf, s'.clients name = some inf → inf.maxFrac ≤ L name)
    (hs : s.record cfg now = some s') : Ceiling cfg L s' := by
  obtain ⟨hnow, c, inf, hd, hi, rfl⟩ := record_some hs
  have hmono := msSinceStart_mono cfg hnow
  obtain ⟨T, hT, hend, hcap⟩ := h.chosen c hd
  have hstart : ∀ x ∈ s.timeline.full, x.start ≤ msSinceStart cfg now := by
    intro x hx
    obtain ⟨y, hy, rfl⟩ := List.mem_map.1 hx
    exact (hinv.timeline.timed y hy).2.2.trans (hinv.clock_le hnow)
  have hcap' : Capped (spans s.timeline.full) c.name cfg.windowSize (L c.name * cfg.windowSize)
    (msSinceStart cfg now) := by
    refine hcap.later ?_ (Rat.cast_le.2 (hT.trans hmono)) fun x hx hxn => ?_
    · exact mul_nonneg (Rat.cast_nonneg.2 (hL _)) (Rat.cast_nonneg.2 hcfg.windowSize)
    · obtain ⟨y, hy, rfl⟩ := List.mem_map.1 hx
      exact Rat.cast_le.2 (hend y hy hxn)
  refine ⟨hu, h.limited.record hstart (fun x hx hxn => (hend x hx hxn).trans (hT.trans hmono)) hcap',
    fun name hn x hx hxn => ?_, nofun⟩
  have hx : x ∈ (s.timeline.record c.name inf.getQuota.quota (msSinceStart cfg now)).full := hx
  rw [Timeline.full_record] at hx
  rcases List.mem_append.1 hx with hx | hx
  · exact (h.ended name hn x hx hxn).trans hmono
  · rw [List.mem_singleton.1 hx] at hxn
    have hname : c.name = name := hxn
    have hqueue : s.Queueing name := hn
    rw [← hname] at hqueue
    exact absurd hqueue (not_queueing_of_unanswered hcons honce (by rw [hd]; rfl))

theorem ceiling_step (hcfg : cfg.Durations) (hL : ∀ name, 0 ≤ L name) (h : Ceiling cfg L s) (hinv : LimitInv cfg s)
    (hcons : Conserved s g) (honce : s.awaiting.Nodup) (he : Orderly cfg L s e) (hs : s.step cfg e = some s') :
    Ceiling cfg L s' := by
  obtain ⟨⟨hadm, hfind⟩, hone, hclear, hlim⟩ := he
  have hu := under_step hlim hs h.under
  cases e with
  | accept socket =>
    obtain ⟨-, rfl⟩ := accept_some hs
    refine h.of_frame hu rfl le_rfl (fun name hn => hn.imp_left fun ⟨k, so, r, hk⟩ => ⟨k, so, r, ?_⟩) fun _ => id
    exact pending_update (by simp) hk
  | request conn name reqId overuse burst now => exact ceiling_request h hinv hadm hone hu hs
  | enqueue conn now =>
    obtain ⟨hnow, hunl, socket, name, reqId, hh, rfl⟩ := enqueue_some hs
    refine h.of_frame hu rfl hnow (fun n hn => ?_) fun c hd => ?_
    · rcases hn with ⟨k, so, r, hk⟩ | ⟨c, hc, hcn⟩
      · exact .inl ⟨k, so, r, pending_update (by simp) hk⟩
      · rcases List.mem_append.1 hc with hc | hc
        · exact .inr ⟨c, hc, hcn⟩
        · rw [List.mem_singleton.1 hc] at hcn
          have hcn : name = n := hcn
          exact .inl ⟨conn, socket, reqId, hcn ▸ hh⟩
    · exact Daemon.chosen_of_signal hd
  | hangUp conn =>
    obtain ⟨socket, hh, rfl⟩ := hangUp_some hs
    refine h.of_frame hu rfl le_rfl (fun name hn => hn.imp_left fun ⟨k, so, r, hk⟩ => ⟨k, so, r, ?_⟩) fun _ => id
    exact pending_update (by simp) hk
  | configure name minf maxf gpuMemLimit => cases hs; exact h.of_frame hu rfl le_rfl (fun _ => id) fun _ => id
  | select now ts order => exact ceiling_select h hinv hcfg hL hclear hu hs
  | record now => exact ceiling_record h hinv hcons honce hcfg hL hu hs
  | send => obtain ⟨_, _, -, rfl⟩ := send_some hs; exact h.of_frame hu rfl le_rfl (fun _ => id) nofun
  | arm now => obtain ⟨hnow, _, _, -, rfl⟩ := arm_some hs; exact h.of_frame hu rfl hnow (fun _ => id) nofun
  | block => obtain ⟨_, _, -, rfl⟩ := block_some hs; exact h.of_frame hu rfl le_rfl (fun _ => id) nofun
  | wake now timedOut =>
    obtain ⟨hnow, ⟨_, -, rfl⟩ | ⟨_, _, _, -, ⟨-, rfl⟩ | ⟨-, rfl⟩ | ⟨-, rfl⟩⟩⟩ := wake_some hs <;>
      exact h.of_frame hu rfl hnow (fun _ => id) nofun

/-! ## Over runs -/

theorem ceiling_of_inv_run (hcfg : cfg.Durations) (hL : ∀ name, 0 ≤ L name) {es : List Event}
    (hrun : RunWhere (step cfg) (Orderly cfg L) init es s) : Ceiling cfg L s ∧ LimitInv cfg s := by
  obtain ⟨g, hrec⟩ := hrun.recorded (noteTraffic cfg) ⟨[], [], []⟩
  have hall :=
    hrec.invariant (P := fun p => Ceiling cfg L p.1 ∧ LimitInv cfg p.1 ∧ Conserved p.1 p.2 ∧ p.1.awaiting.Nodup)
    (fun p e q h hg hs => by
      obtain ⟨hc, hl, hcons, honce⟩ := h
      have hcons' : Conserved q.1 q.2 := conserved_step hcons hs
      obtain ⟨hs, hnote⟩ := withHistory_some hs
      exact ⟨ceiling_step hcfg hL hc hl hcons honce hg hs, limitInv_step hcfg hl hg.1.1 hg.1.2 hs, hcons',
        once_step hcons hcons' hnote hg.2.1 hs honce⟩)
    ⟨ceiling_init cfg L, limitInv_init cfg, conserved_init, by simp [awaiting, inProgress, init, Daemon.unanswered]⟩
  exact ⟨hall.1, hall.2.1⟩

/-- In every run of clear turns in which each client has one request at a time and overuse reports
find their token: in any `n` windows in a row a client has at most `n` times its limit and one token. -/
theorem share_le_of_run (hcfg : cfg.Durations) (hL : ∀ name, 0 ≤ L name) {es : List Event}
    (hrun : RunWhere (step cfg) (Orderly cfg L) init es s) (name : String) {q : ℚ} (hq : 0 ≤ q)
    (hlen : ∀ x ∈ s.timeline.full, x.name = name → x.end - x.start ≤ q) (a : ℝ) (n : ℕ) :
    shareIn (spans s.timeline.full) name a (a + n * cfg.windowSize) ≤ n * (L name * cfg.windowSize + q) := by
  obtain ⟨h, hinv⟩ := ceiling_of_inv_run hcfg hL hrun
  have hW : (0 : ℝ) ≤ cfg.windowSize := Rat.cast_nonneg.2 hcfg.windowSize
  refine shareIn_windows_le hW
    (fun b => shareIn_window_le (mul_nonneg (Rat.cast_nonneg.2 (hL name)) hW) (Rat.cast_nonneg.2 hq)
    (fun x hx => ?_) ?_ (fun x hx hxn => ?_) (fun x hx hxn => ?_) le_rfl) a n
  · obtain ⟨y, hy, rfl⟩ := List.mem_map.1 hx
    obtain ⟨z, hz, rfl⟩ := List.mem_map.1 hy
    exact Rat.cast_le.2 (hinv.timeline.timed z hz).2.1
  · exact List.pairwise_map.2 (h.limited.apart.imp fun hxy hn => Rat.cast_le.2 (hxy hn))
  · obtain ⟨y, hy, rfl⟩ := List.mem_map.1 hx
    have hyn : y.name = name := hxn
    subst hyn
    exact h.limited.capped y hy
  · obtain ⟨y, hy, rfl⟩ := List.mem_map.1 hx
    show (y.end : ℝ) - (y.start : ℝ) ≤ (q : ℝ)
    exact_mod_cast hlen y hy hxn

/-- `c` gets its second token at 17.5, with half a ms of its limit left. -/
theorem share_le_of_two_tokens : ∃ s, RunWhere (step tenMs) (Orderly tenMs fun _ => 1 / 2) init
      (twoTokens ++ [.select 17500000 [⟨"c", -6⟩, ⟨"c", 12⟩] [⟨1 / 2, 1 / 2, 9 / 2, 13, 0⟩], .record 17500000]) s ∧
    s.timeline.full = [⟨"a", 1, 5⟩, ⟨"c", 6, 12⟩, ⟨"c", 35 / 2, 43 / 2⟩] ∧
    shareIn (spans s.timeline.full) "c" 6 (6 + (2 : ℕ) * (10 : ℚ)) ≤
      (2 : ℕ) * (((1 / 2 : ℚ) : ℝ) * (10 : ℚ) + (6 : ℚ)) := by
  have hrun : ∃ s, RunWhere (step tenMs) (Orderly tenMs fun _ => 1 / 2) init
      (twoTokens ++ [.select 17500000 [⟨"c", -6⟩, ⟨"c", 12⟩] [⟨1 / 2, 1 / 2, 9 / 2, 13, 0⟩], .record 17500000]) s ∧
      s.timeline.full = [⟨"a", 1, 5⟩, ⟨"c", 6, 12⟩, ⟨"c", 35 / 2, 43 / 2⟩] := exists_runWhere (by decide +kernel)
  obtain ⟨s, hrun, hfull⟩ := hrun
  refine ⟨s, hrun, hfull, share_le_of_run tenMs_durations (fun _ => by norm_num) hrun "c" (by norm_num) ?_ 6 2⟩
  rw [hfull]
  decide +kernel

end State

end Gemini.Scheduler
