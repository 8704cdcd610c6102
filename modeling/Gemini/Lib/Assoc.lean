/-
Association lists with one entry for a key, for maps that are read, written and erased by key.
-/
import Mathlib.Tactic

namespace Gemini.Lib

variable {α : Type*}

/-- An entry that exists stays. -/
def insertNew (k : ℕ) (v : α) (m : List (ℕ × α)) : List (ℕ × α) := if (m.lookup k).isSome then m else m ++ [(k, v)]

/-- The entry of `k` becomes `v`. -/
def assign (k : ℕ) (v : α) (m : List (ℕ × α)) : List (ℕ × α) :=
  if (m.lookup k).isSome then m.map fun e => if e.1 = k then (k, v) else e else m ++ [(k, v)]

def eraseKey (k : ℕ) (m : List (ℕ × α)) : List (ℕ × α) := m.filter fun e => e.1 ≠ k

def keys (m : List (ℕ × α)) : List ℕ := m.map Prod.fst

theorem mem_eraseKey {k : ℕ} {m : List (ℕ × α)} {e : ℕ × α} (h : e ∈ eraseKey k m) : e ∈ m := (List.mem_filter.1 h).1

/-- Erasing a key brings no entry back. -/
theorem lookup_eraseKey {k j : ℕ} {m : List (ℕ × α)} (h : m.lookup k = none) : (eraseKey j m).lookup k = none := by
  rw [List.lookup_eq_none_iff] at h ⊢
  intro e he
  exact h e (mem_eraseKey he)

theorem lookup_eq_none_of_lt {m : List (ℕ × α)} {k : ℕ} (h : ∀ e ∈ m, e.1 < k) : m.lookup k = none := by
  rw [List.lookup_eq_none_iff]
  intro e he
  have := h e he
  simp; omega

section

variable {k j : ℕ} {v : α} {m : List (ℕ × α)} {e : ℕ × α}

theorem mem_keys : k ∈ keys m ↔ ∃ e ∈ m, e.1 = k := List.mem_map

theorem lookup_eq_none : m.lookup k = none ↔ k ∉ keys m := by
  rw [List.lookup_eq_none_iff, mem_keys]
  push Not
  refine forall₂_congr fun e _ => ?_
  rw [bne_iff_ne]
  exact ne_comm

theorem mem_of_lookup (h : m.lookup k = some v) : (k, v) ∈ m := by
  obtain ⟨l₁, l₂, rfl, -⟩ := List.lookup_eq_some_iff.1 h
  simp

theorem mem_insertNew (h : e ∈ insertNew k v m) : e ∈ m ∨ e = (k, v) ∧ k ∉ keys m := by
  unfold insertNew at h
  split at h
  · exact .inl h
  · rename_i hk
    rw [Option.not_isSome_iff_eq_none, lookup_eq_none] at hk
    rcases List.mem_append.1 h with h | h
    · exact .inl h
    · exact .inr ⟨List.mem_singleton.1 h, hk⟩

theorem keys_insertNew (h : j ∈ keys m) : j ∈ keys (insertNew k v m) := by
  unfold insertNew
  split
  · exact h
  · unfold keys at h ⊢
    rw [List.map_append]
    exact List.mem_append_left _ h

theorem mem_assign (h : e ∈ assign k v m) : e = (k, v) ∨ e ∈ m ∧ e.1 ≠ k := by
  unfold assign at h
  split at h
  · obtain ⟨d, hd, h⟩ := List.mem_map.1 h
    split at h
    · exact .inl h.symm
    · rename_i hk
      exact .inr ⟨h ▸ hd, h ▸ hk⟩
  · rename_i hk
    rw [Option.not_isSome_iff_eq_none, lookup_eq_none] at hk
    rcases List.mem_append.1 h with h | h
    · exact .inr ⟨h, fun heq => hk (mem_keys.2 ⟨e, h, heq⟩)⟩
    · exact .inl (List.mem_singleton.1 h)

theorem keys_assign (h : j = k ∨ j ∈ keys m) : j ∈ keys (assign k v m) := by
  unfold assign
  split
  · rename_i hk
    have hj : j ∈ keys m := by
      rcases h with rfl | h
      · by_contra hn
        rw [lookup_eq_none.2 hn] at hk; cases hk
      · exact h
    obtain ⟨e, he, rfl⟩ := mem_keys.1 hj
    refine mem_keys.2 ⟨_, List.mem_map.2 ⟨e, he, rfl⟩, ?_⟩
    split
    · rename_i heq; exact heq.symm
    · rfl
  · rcases h with rfl | h
    · exact mem_keys.2 ⟨_, List.mem_append_right _ (List.mem_singleton_self _), rfl⟩
    · obtain ⟨e, he, rfl⟩ := mem_keys.1 h
      exact mem_keys.2 ⟨e, List.mem_append_left _ he, rfl⟩

theorem keys_eraseKey (h : j ∈ keys m) (hne : j ≠ k) : j ∈ keys (eraseKey k m) := by
  obtain ⟨e, he, rfl⟩ := mem_keys.1 h
  exact mem_keys.2 ⟨e, List.mem_filter.2 ⟨he, by simpa using hne⟩, rfl⟩

/-! ## Maps as bags of entries -/

theorem eraseKey_of_notMem (h : k ∉ keys m) : eraseKey k m = m := by
  apply List.filter_eq_self.2
  intro e he
  rw [decide_eq_true_iff]
  rintro rfl
  exact h (mem_keys.2 ⟨e, he, rfl⟩)

theorem eraseKey_cons_self (k : ℕ) (v : α) (m : List (ℕ × α)) : eraseKey k ((k, v) :: m) = eraseKey k m := by
  simp [eraseKey]

theorem eraseKey_cons_of_ne (h : j ≠ k) (v : α) (m : List (ℕ × α)) :
    eraseKey k ((j, v) :: m) = (j, v) :: eraseKey k m := by
  simp [eraseKey, h]

/-- A map is the entry of a key and the others. -/
theorem perm_eraseKey : ∀ {m : List (ℕ × α)}, (keys m).Nodup → m.lookup k = some v → m.Perm ((k, v) :: eraseKey k m)
  | [], _, h => by cases h
  | (j, x) :: m, hn, h => by
    obtain ⟨hj, hn⟩ := List.nodup_cons.1 hn
    by_cases hjk : j = k
    · subst hjk
      obtain rfl : x = v := by simpa using h
      rw [eraseKey_cons_self, eraseKey_of_notMem hj]
    · have hk : (k == j) = false := by simpa using Ne.symm hjk
      rw [List.lookup_cons, hk] at h
      rw [eraseKey_cons_of_ne hjk]
      exact ((perm_eraseKey hn h).cons (j, x)).trans (List.Perm.swap ..)

theorem keys_eraseKey_sublist (k : ℕ) (m : List (ℕ × α)) : (keys (eraseKey k m)).Sublist (keys m) :=
  List.filter_sublist.map _

theorem notMem_keys_eraseKey (k : ℕ) (m : List (ℕ × α)) : k ∉ keys (eraseKey k m) := by
  intro h
  obtain ⟨e, he, hk⟩ := mem_keys.1 h
  simpa [hk] using (List.mem_filter.1 he).2

/-- An assignment replaces the entry of its key. -/
theorem perm_assign (hn : (keys m).Nodup) (k : ℕ) (v : α) : (assign k v m).Perm ((k, v) :: eraseKey k m) := by
  have hmap : ∀ {m : List (ℕ × α)}, (keys m).Nodup → k ∈ keys m →
      (m.map fun e => if e.1 = k then (k, v) else e).Perm ((k, v) :: eraseKey k m) := by
    intro m
    induction m with
    | nil => exact fun _ h => absurd h List.not_mem_nil
    | cons e m ih =>
      intro hn hk
      obtain ⟨j, x⟩ := e
      obtain ⟨hj, hn⟩ := List.nodup_cons.1 hn
      by_cases hjk : j = k
      · subst hjk
        have hrest : (m.map fun e => if e.1 = j then (j, v) else e) = m := by
          apply (List.map_congr_left fun e he => ?_).trans (List.map_id m)
          exact if_neg fun hej => hj (mem_keys.2 ⟨e, he, hej⟩)
        rw [List.map_cons, if_pos rfl, hrest, eraseKey_cons_self, eraseKey_of_notMem hj]
      · rw [List.map_cons, if_neg hjk, eraseKey_cons_of_ne hjk]
        have hk : k ∈ keys m := (List.mem_cons.1 hk).resolve_left (Ne.symm hjk)
        exact ((ih hn hk).cons (j, x)).trans (List.Perm.swap ..)
  unfold assign
  split
  · rename_i hk
    apply hmap hn
    by_contra hnone
    rw [lookup_eq_none.2 hnone] at hk
    cases hk
  · rename_i hk
    rw [Option.not_isSome_iff_eq_none, lookup_eq_none] at hk
    rw [eraseKey_of_notMem hk]
    exact List.perm_append_singleton ..

theorem keys_assign_nodup (hn : (keys m).Nodup) (k : ℕ) (v : α) : (keys (assign k v m)).Nodup := by
  rw [keys, ((perm_assign hn k v).map Prod.fst).nodup_iff]
  exact List.nodup_cons.2 ⟨notMem_keys_eraseKey k m, hn.sublist (keys_eraseKey_sublist k m)⟩

theorem keys_insertNew_nodup (hn : (keys m).Nodup) (k : ℕ) (v : α) : (keys (insertNew k v m)).Nodup := by
  unfold insertNew
  split
  · exact hn
  · rename_i hk
    rw [Option.not_isSome_iff_eq_none, lookup_eq_none] at hk
    rw [keys, List.map_append]
    exact (List.perm_append_singleton ..).nodup_iff.2 (List.nodup_cons.2 ⟨hk, hn⟩)

end

/-! ## Lookups -/

section

variable {k j : ℕ} {v w : α} {m : List (ℕ × α)}

theorem lookup_insertNew_of_some (h : m.lookup j = some w) : (insertNew k v m).lookup j = some w := by
  unfold insertNew
  split
  · exact h
  · rw [List.lookup_append, h]
    rfl

theorem lookup_map_of_ne (hne : j ≠ k) : (m.map fun e => if e.1 = k then (k, v) else e).lookup j = m.lookup j := by
  induction m with
  | nil => rfl
  | cons e m ih =>
    obtain ⟨i, x⟩ := e
    rw [List.map_cons]
    by_cases hik : i = k
    · subst hik
      have hji : (j == i) = false := beq_false_of_ne hne
      rw [if_pos rfl, List.lookup_cons, List.lookup_cons, hji]
      exact ih
    · rw [if_neg hik, List.lookup_cons, List.lookup_cons, ih]

theorem lookup_map_self (h : (m.lookup k).isSome = true) :
    (m.map fun e => if e.1 = k then (k, v) else e).lookup k = some v := by
  induction m with
  | nil => cases h
  | cons e m ih =>
    obtain ⟨i, x⟩ := e
    rw [List.map_cons]
    by_cases hik : i = k
    · subst hik
      rw [if_pos rfl, List.lookup_cons, beq_self_eq_true]
    · have hki : (k == i) = false := beq_false_of_ne (Ne.symm hik)
      rw [if_neg hik, List.lookup_cons, hki]
      rw [List.lookup_cons, hki] at h
      exact ih h

theorem lookup_assign_self (k : ℕ) (v : α) (m : List (ℕ × α)) : (assign k v m).lookup k = some v := by
  unfold assign
  split
  · rename_i h
    exact lookup_map_self h
  · rename_i h
    rw [Option.not_isSome_iff_eq_none] at h
    rw [List.lookup_append, h, List.lookup_cons, beq_self_eq_true]
    rfl

theorem lookup_assign_of_ne (hne : j ≠ k) (v : α) (m : List (ℕ × α)) : (assign k v m).lookup j = m.lookup j := by
  have hjk : (j == k) = false := beq_false_of_ne hne
  unfold assign
  split
  · exact lookup_map_of_ne hne
  · rw [List.lookup_append, List.lookup_cons, hjk, List.lookup_nil, Option.or_none]

theorem lookup_eraseKey_of_ne (hne : j ≠ k) (m : List (ℕ × α)) : (eraseKey k m).lookup j = m.lookup j := by
  induction m with
  | nil => rfl
  | cons e m ih =>
    obtain ⟨i, x⟩ := e
    by_cases hik : i = k
    · subst hik
      have hji : (j == i) = false := beq_false_of_ne hne
      rw [eraseKey_cons_self, List.lookup_cons, hji, ih]
    · rw [eraseKey_cons_of_ne hik, List.lookup_cons, List.lookup_cons, ih]

/-- To assign what is there changes nothing. -/
theorem assign_lookup_self (hn : (keys m).Nodup) (h : m.lookup k = some v) : assign k v m = m := by
  have hsome : (m.lookup k).isSome = true := by rw [h]; rfl
  rw [assign, if_pos hsome]
  apply (List.map_congr_left fun e he => ?_).trans (List.map_id m)
  split
  · rename_i hek
    rcases List.mem_cons.1 ((perm_eraseKey hn h).mem_iff.1 he) with rfl | he
    · rfl
    · exact absurd (mem_keys.2 ⟨e, he, hek⟩) (notMem_keys_eraseKey k m)
  · rfl

end

/-! ## Maps of the values -/

section

variable {β : Type*} (f : α → β) {k : ℕ} {v : α} {m : List (ℕ × α)}

def mapValues (m : List (ℕ × α)) : List (ℕ × β) := m.map fun e => (e.1, f e.2)

theorem lookup_mapValues (k : ℕ) (m : List (ℕ × α)) : (mapValues f m).lookup k = (m.lookup k).map f := by
  induction m with
  | nil => rfl
  | cons e m ih =>
    obtain ⟨i, x⟩ := e
    unfold mapValues at ih ⊢
    rw [List.map_cons, List.lookup_cons, List.lookup_cons, ih]
    cases k == i <;> rfl

theorem keys_mapValues (m : List (ℕ × α)) : keys (mapValues f m) = keys m := by
  unfold keys mapValues
  rw [List.map_map]
  rfl

theorem mapValues_insertNew (k : ℕ) (v : α) (m : List (ℕ × α)) :
    mapValues f (insertNew k v m) = insertNew k (f v) (mapValues f m) := by
  unfold insertNew
  rw [lookup_mapValues, Option.isSome_map]
  split
  · rfl
  · unfold mapValues
    rw [List.map_append]
    rfl

theorem mapValues_assign (k : ℕ) (v : α) (m : List (ℕ × α)) :
    mapValues f (assign k v m) = assign k (f v) (mapValues f m) := by
  unfold assign
  rw [lookup_mapValues, Option.isSome_map]
  split
  · unfold mapValues
    rw [List.map_map, List.map_map]
    apply List.map_congr_left
    intro e _
    by_cases h : e.1 = k <;> simp [h]
  · unfold mapValues
    rw [List.map_append]
    rfl

theorem mapValues_eraseKey (k : ℕ) (m : List (ℕ × α)) : mapValues f (eraseKey k m) = eraseKey k (mapValues f m) := by
  unfold mapValues eraseKey
  rw [List.filter_map]
  rfl

end

/-! ## The sum of a map -/

section

variable {M : Type*} [AddCommMonoid M] {m : List (ℕ × M)} {k : ℕ}

def total (m : List (ℕ × M)) : M := (m.map Prod.snd).sum

/-- The entry of a key and the others. -/
theorem total_eraseKey (hn : (keys m).Nodup) (k : ℕ) : total (eraseKey k m) + (m.lookup k).getD 0 = total m := by
  cases h : m.lookup k with
  | none => rw [eraseKey_of_notMem (lookup_eq_none.1 h), Option.getD_none, add_zero]
  | some v =>
    rw [total, total, ((perm_eraseKey hn h).map Prod.snd).sum_eq, List.map_cons, List.sum_cons, add_comm]
    rfl

theorem total_assign (hn : (keys m).Nodup) (k : ℕ) (v : M) :
    total (assign k v m) + (m.lookup k).getD 0 = total m + v := by
  have hnew : total (assign k v m) = v + total (eraseKey k m) := by
    rw [total, ((perm_assign hn k v).map Prod.snd).sum_eq, List.map_cons, List.sum_cons]
    rfl
  rw [hnew, add_assoc, total_eraseKey hn, add_comm]

theorem total_insertNew (k : ℕ) (m : List (ℕ × M)) : total (insertNew k 0 m) = total m := by
  unfold insertNew
  split
  · rfl
  · simp [total]

/-- Entries of any kind, without the only one of a key. -/
theorem sum_filter_ne {β κ : Type*} [DecidableEq κ] {key : β → κ} {bs : List β} {b : β} (hn : (bs.map key).Nodup)
    (hb : b ∈ bs) (f : β → M) : ((bs.filter fun c => key c ≠ key b).map f).sum + f b = (bs.map f).sum := by
  classical
  have hne : ∀ c ∈ bs, decide (key c ≠ key b) = (c != b) := by
    intro c hc
    have hiff : key c = key b ↔ c = b := ⟨fun h => List.inj_on_of_nodup_map hn hc hb h, fun h => by rw [h]⟩
    rw [Bool.eq_iff_iff, decide_eq_true_iff, bne_iff_ne, ne_eq, ne_eq, hiff]
  rw [List.filter_congr hne, ← (List.Nodup.of_map _ hn).erase_eq_filter, add_comm]
  exact List.sum_map_erase f hb

end

end Gemini.Lib
