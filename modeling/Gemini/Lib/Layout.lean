/-
Values in memory: types with a representation of fixed size in bytes, little-endian integers, and
reads and writes at a position of a buffer, which have no result outside of it.
-/
import Mathlib.Tactic

namespace Gemini.Lib

/-! ## Representations -/

/-- A type whose values are stored in a fixed number of bytes. -/
class Layout (α : Type) where
  size : ℕ
  toBytes : α → List UInt8
  ofBytes : List UInt8 → α
  length_toBytes : ∀ x, (toBytes x).length = size
  ofBytes_toBytes : ∀ x, ofBytes (toBytes x) = x

attribute [simp] Layout.length_toBytes Layout.ofBytes_toBytes

/-- The `n` low bytes of a number, least significant first. -/
def leBytes : ℕ → ℕ → List UInt8
  | 0, _ => []
  | n + 1, v => UInt8.ofNat (v % 256) :: leBytes n (v / 256)

/-- The number that bytes stand for, least significant first. -/
def leValue : List UInt8 → ℕ
  | [] => 0
  | b :: bs => b.toNat + 256 * leValue bs

theorem length_leBytes : ∀ n v, (leBytes n v).length = n
  | 0, _ => rfl
  | n + 1, v => by simp [leBytes, length_leBytes n]

theorem leValue_leBytes : ∀ n v, leValue (leBytes n v) = v % 256 ^ n
  | 0, v => by simp [leBytes, leValue, Nat.mod_one]
  | n + 1, v => by
    have hb : (UInt8.ofNat (v % 256)).toNat = v % 256 := by simp
    rw [leBytes, leValue, leValue_leBytes n, hb, pow_succ', Nat.mod_mul]

theorem leValue_lt : ∀ bs, leValue bs < 256 ^ bs.length
  | [] => by simp [leValue]
  | b :: bs => by
    have hb := b.toNat_lt
    have hbs := leValue_lt bs
    rw [leValue, List.length_cons, pow_succ']
    omega

theorem leValue_eq_zero : ∀ {bs}, leValue bs = 0 ↔ ∀ b ∈ bs, b = 0
  | [] => by simp [leValue]
  | b :: bs => by
    have hb : b.toNat = 0 ↔ b = 0 := by rw [← UInt8.toNat_inj]; rfl
    rw [leValue, Nat.add_eq_zero_iff, hb, List.forall_mem_cons, ← leValue_eq_zero]
    simp

/-- Integers of `n` bytes. -/
@[reducible] def bitVecLayout (n : ℕ) : Layout (BitVec (8 * n)) where
  size := n
  toBytes v := leBytes n v.toNat
  ofBytes bs := BitVec.ofNat (8 * n) (leValue bs)
  length_toBytes v := length_leBytes n v.toNat
  ofBytes_toBytes v := by
    have hlt : v.toNat < 256 ^ n := by have := v.isLt; rwa [pow_mul] at this
    rw [leValue_leBytes, Nat.mod_eq_of_lt hlt, BitVec.ofNat_toNat, BitVec.setWidth_eq]

instance : Layout (BitVec 32) := bitVecLayout 4
instance : Layout (BitVec 64) := bitVecLayout 8

/-- An integer is zero if its bytes are. -/
theorem ofBytes_eq_zero {bs : List UInt8} (h : bs.length = 8) :
    (Layout.ofBytes bs : BitVec 64) = 0 ↔ ∀ b ∈ bs, b = 0 := by
  have hlt := leValue_lt bs
  rw [h] at hlt
  rw [← leValue_eq_zero, show (Layout.ofBytes bs : BitVec 64) = BitVec.ofNat 64 (leValue bs) from rfl,
    ← BitVec.toNat_inj, BitVec.toNat_ofNat, Nat.mod_eq_of_lt (by omega)]
  rfl

instance : Layout UInt8 where
  size := 1
  toBytes b := [b]
  ofBytes bs := bs.headD 0
  length_toBytes _ := rfl
  ofBytes_toBytes _ := rfl

/-! ## Buffers -/

/-- `memcpy(buf + pos, bytes)`. -/
def writeAt (pos : ℕ) (bytes buf : List UInt8) : Option (List UInt8) :=
  if pos + bytes.length ≤ buf.length then some (buf.take pos ++ bytes ++ buf.drop (pos + bytes.length)) else none

/-- The `n` bytes from `buf + pos` on. -/
def readAt (pos n : ℕ) (buf : List UInt8) : Option (List UInt8) :=
  if pos + n ≤ buf.length then some ((buf.drop pos).take n) else none

/-- A write behind what is written appends to it. -/
theorem writeAt_append {done bytes rest : List UInt8} (h : bytes.length ≤ rest.length) :
    writeAt done.length bytes (done ++ rest) = some (done ++ bytes ++ rest.drop bytes.length) := by
  have hfit : done.length + bytes.length ≤ (done ++ rest).length := by simp [h]
  rw [writeAt, if_pos hfit, List.take_left, List.drop_append]
  simp

/-- A read finds what was written at its position. -/
theorem readAt_append {done bytes rest : List UInt8} {n : ℕ} (hn : bytes.length = n) :
    readAt done.length n (done ++ (bytes ++ rest)) = some bytes := by
  have hfit : done.length + n ≤ (done ++ (bytes ++ rest)).length := by simp [← hn]
  rw [readAt, if_pos hfit, List.drop_left, ← hn, List.take_left]

end Gemini.Lib
