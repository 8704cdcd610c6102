/-
The maximum over a sliding window, kept in a monotone queue of stamped values: `pushMono` takes
off what the new value dominates, `dropOld` takes off what is too old, and the front is the maximum of
the values that are not. What is too old may grow, never shrink.
-/
import Mathlib.Tactic
import Mathlib.Data.List.DropRight

namespace Gemini.Lib

variable {τ α : Type*} [LinearOrder τ] [LinearOrder α]

/-- Take off the values at the back that are smaller, and append. -/
def pushMono (r : τ × α) (q : List (τ × α)) : List (τ × α) := q.rdropWhile (fun x => decide (x.2 < r.2)) ++ [r]

/-- Take off the old values at the front. -/
def dropOld (old : τ → Bool) (q : List (τ × α)) : List (τ × α) := q.dropWhile fun x => old x.1

/-- The queue stands for the window over a log: it is sorted by time and falls in value, and every
logged value that is not old is dominated by a queued one that is not older. -/
structure Tracks (old : τ → Bool) (log q : List (τ × α)) : Prop where
  mem : ∀ x ∈ q, x ∈ log
  sorted : q.Pairwise fun a b => a.1 ≤ b.1 ∧ b.2 ≤ a.2
  covers : ∀ e ∈ log, old e.1 = false → ∃ x ∈ q, e.1 ≤ x.1 ∧ e.2 ≤ x.2

variable {old old' : τ → Bool} {log q : List (τ × α)} {r : τ × α}

theorem Tracks.nil (old : τ → Bool) : Tracks old ([] : List (τ × α)) [] := ⟨by simp, .nil, by simp⟩

/-- More values may be too old. -/
theorem Tracks.mono (h : Tracks old log q) (hold : ∀ t, old t = true → old' t = true) : Tracks old' log q :=
  ⟨h.mem, h.sorted, fun e he ho => h.covers e he (by
    cases hc : old e.1 with
    | false => rfl
    | true => rw [hold _ hc] at ho; cases ho)⟩

/-- What stays at the back is at least the new value. -/
theorem le_of_mem_rdropWhile (hq : q.Pairwise fun a b => a.1 ≤ b.1 ∧ b.2 ≤ a.2) {x : τ × α}
    (hx : x ∈ q.rdropWhile fun x => decide (x.2 < r.2)) : r.2 ≤ x.2 := by
  have hne : q.rdropWhile (fun x => decide (x.2 < r.2)) ≠ [] := List.ne_nil_of_mem hx
  have hlast := List.rdropWhile_last_not (fun x => decide (x.2 < r.2)) q hne
  have hsub := hq.sublist (List.rdropWhile_prefix (fun x => decide (x.2 < r.2)) q).sublist
  have hge : ((q.rdropWhile fun x => decide (x.2 < r.2)).getLast hne).2 ≤ x.2 := by
    rw [← List.dropLast_append_getLast hne] at hx hsub
    rcases List.mem_append.1 hx with hx | hx
    · exact ((List.pairwise_append.1 hsub).2.2 x hx _ (List.mem_singleton_self _)).2
    · rw [List.mem_singleton.1 hx]
  exact (not_lt.1 (by simpa using hlast)).trans hge

theorem Tracks.push (h : Tracks old log q) (hnew : ∀ e ∈ log, e.1 ≤ r.1) : Tracks old (r :: log) (pushMono r q) := by
  have hsub : ∀ x ∈ q.rdropWhile (fun x => decide (x.2 < r.2)), x ∈ q := fun x hx =>
    (List.rdropWhile_prefix _ q).subset hx
  refine ⟨fun x hx => ?_, List.pairwise_append.2 ⟨?_, List.pairwise_singleton _ _, fun x hx y hy => ?_⟩,
    fun e he ho => ?_⟩
  · rcases List.mem_append.1 hx with hx | hx
    · exact List.mem_cons_of_mem _ (h.mem x (hsub x hx))
    · rw [List.mem_singleton.1 hx]; exact List.mem_cons_self ..
  · exact h.sorted.sublist (List.rdropWhile_prefix _ q).sublist
  · rw [List.mem_singleton.1 hy]
    exact ⟨hnew x (h.mem x (hsub x hx)), le_of_mem_rdropWhile h.sorted hx⟩
  · have hr : r ∈ pushMono r q := List.mem_append_right _ (List.mem_singleton_self _)
    rcases List.mem_cons.1 he with rfl | he
    · exact ⟨e, hr, le_rfl, le_rfl⟩
    · obtain ⟨x, hx, h1, h2⟩ := h.covers e he ho
      -- the value that dominates it stays, or the new one dominates that
      rw [← List.rdropWhile_append_rtakeWhile (p := fun x => decide (x.2 < r.2)) (l := q)] at hx
      rcases List.mem_append.1 hx with hx | hx
      · exact ⟨x, List.mem_append_left _ hx, h1, h2⟩
      · have hlt : x.2 < r.2 := by simpa using List.mem_rtakeWhile_imp hx
        exact ⟨r, hr, hnew e he, h2.trans hlt.le⟩

/-- Only old values are taken off, where old values lie before the others. -/
theorem Tracks.dropOld (h : Tracks old log q) (hold : ∀ t, old t = true → old' t = true)
    (hanti : ∀ a b, a ≤ b → old' b = true → old' a = true) : Tracks old' log (Lib.dropOld old' q) := by
  refine ⟨fun x hx => h.mem x ((List.dropWhile_sublist _).subset hx), h.sorted.sublist (List.dropWhile_sublist _),
    fun e he ho => ?_⟩
  obtain ⟨x, hx, h1, h2⟩ := (h.mono hold).covers e he ho
  refine ⟨x, ?_, h1, h2⟩
  rw [← List.takeWhile_append_dropWhile (p := fun x : τ × α => old' x.1) (l := q)] at hx
  rcases List.mem_append.1 hx with hx | hx
  · have := hanti e.1 x.1 h1 (List.mem_takeWhile_imp (p := fun x : τ × α => old' x.1) hx)
    rw [ho] at this; cases this
  · exact hx

/-- After old values are taken off, the front is the maximum of the others. -/
theorem Tracks.front (h : Tracks old log q) (hanti : ∀ a b, a ≤ b → old b = true → old a = true) :
    ((Lib.dropOld old q).head?.map Prod.snd) = ((log.filter fun e => !old e.1).map Prod.snd).max? := by
  have htr := h.dropOld (fun _ h => h) hanti
  cases hq : Lib.dropOld old q with
  | nil =>
    have hnone : (log.filter fun e => !old e.1) = [] := by
      rw [List.filter_eq_nil_iff]
      intro e he hc
      obtain ⟨x, hx, -⟩ := htr.covers e he (by simpa using hc)
      rw [hq] at hx; cases hx
    simp [hnone]
  | cons x xs =>
    rw [hq] at htr
    have hx : old x.1 = false := by
      have := List.head?_dropWhile_not (fun x : τ × α => old x.1) q
      rw [show q.dropWhile (fun x => old x.1) = x :: xs from hq] at this
      simpa using this
    symm
    rw [List.head?_cons, Option.map_some, List.max?_eq_some_iff]
    refine ⟨List.mem_map.2 ⟨x, List.mem_filter.2 ⟨htr.mem x (List.mem_cons_self ..), by simp [hx]⟩, rfl⟩, fun v hv =>
      ?_⟩
    obtain ⟨e, he, rfl⟩ := List.mem_map.1 hv
    obtain ⟨he, ho⟩ := List.mem_filter.1 he
    obtain ⟨y, hy, -, h2⟩ := htr.covers e he (by simpa using ho)
    rcases List.mem_cons.1 hy with rfl | hy
    · exact h2
    · exact h2.trans ((List.pairwise_cons.1 htr.sorted).1 y hy).2

end Gemini.Lib
