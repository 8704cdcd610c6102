/-
A stream of records of one size that arrives in chunks, the last of them perhaps inside a record. A
reader that takes every chunk for a record gets the records exactly if every chunk is as long as one.
-/
import Mathlib.Tactic

namespace Gemini.Lib

variable {α : Type*} {size : ℕ} {records chunks : List (List α)}

/-- Chunks that are not empty and not longer than a record, in which the records arrive up to some
element of theirs. -/
structure Chunked (size : ℕ) (records chunks : List (List α)) : Prop where
  sizes : ∀ r ∈ records, r.length = size
  nonempty : ∀ c ∈ chunks, c ≠ []
  le : ∀ c ∈ chunks, c.length ≤ size
  arrived : chunks.flatten <+: records.flatten

/-- The records that arrive whole. -/
def completeRecords (size : ℕ) (records chunks : List (List α)) : List (List α) :=
  records.take (chunks.flatten.length / size)

theorem length_flatten_of_sizes {l : List (List α)} (h : ∀ c ∈ l, c.length = size) :
    l.flatten.length = l.length * size := by
  rw [List.length_flatten, List.map_congr_left h, List.map_const', List.sum_replicate, smul_eq_mul]

/-- Chunks that make up as many elements as they can are full. -/
theorem sizes_of_length_flatten : ∀ {l : List (List α)}, (∀ c ∈ l, c.length ≤ size) →
    l.flatten.length ≤ l.length * size ∧ (l.length * size ≤ l.flatten.length → ∀ c ∈ l, c.length = size)
  | [], _ => by simp
  | c :: l, h => by
    obtain ⟨hle, hfull⟩ := sizes_of_length_flatten fun c' hc' => h c' (List.mem_cons_of_mem _ hc')
    have hc := h c (by simp)
    simp only [List.flatten_cons, List.length_append, List.length_cons, Nat.succ_mul]
    refine ⟨by omega, fun hlen c' hc' => ?_⟩
    rcases List.mem_cons.1 hc' with rfl | hc'
    · omega
    · exact hfull (by omega) c' hc'

/-- Full chunks are the first records. -/
theorem prefix_of_sizes : ∀ {l records : List (List α)}, (∀ c ∈ l, c.length = size) →
    (∀ r ∈ records, r.length = size) → 0 < size → l.flatten <+: records.flatten → l <+: records
  | [], _, _, _, _, _ => List.nil_prefix
  | c :: l, [], hl, _, hpos, h => by
    have hc := hl c (by simp)
    obtain ⟨rfl, -⟩ : c = [] ∧ l.flatten = [] := by simpa using h
    simp only [List.length_nil] at hc
    omega
  | c :: l, r :: records, hl, hr, hpos, h => by
    have hlen : c.length = r.length := by rw [hl c (by simp), hr r (by simp)]
    rw [List.flatten_cons, List.flatten_cons] at h
    obtain ⟨rest, hrest⟩ := h
    rw [List.append_assoc] at hrest
    obtain ⟨rfl, hrest⟩ := List.append_inj hrest hlen
    have := prefix_of_sizes (fun c' hc' => hl c' (List.mem_cons_of_mem _ hc'))
      (fun r' hr' => hr r' (List.mem_cons_of_mem _ hr')) hpos
      ⟨rest, List.append_cancel_left hrest⟩
    exact List.cons_prefix_cons.2 ⟨rfl, this⟩

namespace Chunked

theorem length_completeRecords (h : Chunked size records chunks) :
    (completeRecords size records chunks).length = chunks.flatten.length / size := by
  have hlen := h.arrived.length_le
  rw [length_flatten_of_sizes h.sizes] at hlen
  rw [completeRecords, List.length_take]
  exact Nat.min_eq_left (Nat.div_le_of_le_mul (by rwa [Nat.mul_comm] at hlen))

/-- Full chunks are the records that arrive. -/
theorem eq_completeRecords (h : Chunked size records chunks) (hpos : 0 < size) (hfull : ∀ c ∈ chunks, c.length = size) :
    chunks = completeRecords size records chunks := by
  rw [completeRecords, length_flatten_of_sizes hfull, Nat.mul_div_cancel _ hpos]
  exact List.prefix_iff_eq_take.1 (prefix_of_sizes hfull h.sizes hpos h.arrived)

/-- As many records as chunks have arrived only if every chunk is full. -/
theorem sizes_of_length (h : Chunked size records chunks)
    (hlen : (completeRecords size records chunks).length = chunks.length) : ∀ c ∈ chunks, c.length = size := by
  rw [h.length_completeRecords] at hlen
  apply (sizes_of_length_flatten h.le).2
  rw [← hlen]
  exact Nat.div_mul_le_self _ _

/-- The first chunk begins the first record. -/
theorem head_prefix {c : List α} {cs : List (List α)} (h : Chunked size records (c :: cs)) :
    ∃ r rs, records = r :: rs ∧ c <+: r := by
  have hc := h.nonempty c (by simp)
  have hle := h.le c (by simp)
  have hpre : c <+: records.flatten := (List.prefix_append c cs.flatten).trans (by simpa using h.arrived)
  cases records with
  | nil => exact absurd (by simpa using hpre) hc
  | cons r rs =>
    refine ⟨r, rs, rfl, ?_⟩
    rw [List.flatten_cons] at hpre
    exact List.prefix_of_prefix_length_le hpre (List.prefix_append r _) (by rw [h.sizes r (by simp)]; exact hle)

end Chunked

end Gemini.Lib
