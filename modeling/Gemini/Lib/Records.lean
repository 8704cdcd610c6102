/-
Records that stand one after another in a buffer, each of which says where the next one starts, and
the loop that goes through them. `next` is what is read at a position: a record, and the position
behind it.
-/
import Mathlib.Tactic

namespace Gemini.Lib

variable {α : Type*} {next : ℕ → Option (α × ℕ)}

/-- The loop `while (i < length)`, with the records it finds. -/
def records (next : ℕ → Option (α × ℕ)) (length : ℕ) : ℕ → ℕ → Option (List α)
  | 0, i => if i < length then none else some []
  | fuel + 1, i => if i < length then (next i).bind fun (x, j) => (records next length fuel j).map (x :: ·) else some []

/-- Records that stand from one position to another. -/
inductive Laid (next : ℕ → Option (α × ℕ)) : ℕ → List α → ℕ → Prop
  | nil (i : ℕ) : Laid next i [] i
  | cons {i j k : ℕ} {x : α} {xs : List α} (h : next i = some (x, j)) (hlt : i < j) (hs : Laid next j xs k) :
      Laid next i (x :: xs) k

theorem Laid.le {i k : ℕ} {xs : List α} (h : Laid next i xs k) : i ≤ k := by
  induction h with
  | nil i => exact le_rfl
  | cons _ hlt _ ih => exact hlt.le.trans ih

/-- The loop is at its end when no record is left. -/
theorem Laid.lt_iff {i k : ℕ} {xs : List α} (h : Laid next i xs k) : i < k ↔ xs ≠ [] := by
  cases h with
  | nil i => simp
  | cons _ hlt hs => simpa using hlt.trans_le hs.le

/-- There are no more records than positions. -/
theorem Laid.length_le {i k : ℕ} {xs : List α} (h : Laid next i xs k) : xs.length + i ≤ k := by
  induction h with
  | nil i => simp
  | cons _ hlt _ ih =>
    rw [List.length_cons]
    omega

/-- The loop finds the records, and stops behind the last. -/
theorem records_of_laid {i k fuel : ℕ} {xs : List α} (h : Laid next i xs k) (hf : xs.length ≤ fuel) :
    records next k fuel i = some xs := by
  induction h generalizing fuel with
  | nil i => cases fuel <;> simp [records]
  | cons hn hlt hs ih =>
    obtain ⟨fuel, rfl⟩ := Nat.exists_eq_succ_of_ne_zero (Nat.ne_of_gt (Nat.lt_of_lt_of_le (Nat.succ_pos _) hf))
    have hrest := ih (Nat.le_of_succ_le_succ hf)
    simp only [records, if_pos (hlt.trans_le hs.le), hn, Option.bind_some, hrest, Option.map_some]

/-- Encoded records are laid out in any buffer that holds them, if each is read where it stands. -/
theorem laid_of_encoded {β : Type*} {encode : β → List UInt8} {value : β → α} {read : List UInt8 → ℕ → Option (α × ℕ)}
    (hread : ∀ x done rest, read (done ++ (encode x ++ rest)) done.length =
    some (value x, done.length + (encode x).length))
    (hpos : ∀ x, encode x ≠ []) (xs : List β) (done rest : List UInt8) :
    Laid (read (done ++ (xs.flatMap encode ++ rest))) done.length (xs.map value)
      (done.length + (xs.flatMap encode).length) := by
  induction xs generalizing done with
  | nil => exact .nil _
  | cons x xs ih =>
    have hlen := List.length_pos_iff.2 (hpos x)
    have hnext := ih (done ++ encode x)
    simp only [List.length_append, List.append_assoc] at hnext
    simp only [List.flatMap_cons, List.append_assoc, List.length_append, List.map_cons]
    refine .cons (hread x done _) (by omega) ?_
    rw [← Nat.add_assoc]
    exact hnext

end Gemini.Lib
