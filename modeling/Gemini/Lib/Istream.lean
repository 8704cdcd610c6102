/-
Formatted input as in C++11: a stream over a text with its `eofbit` and `failbit`, and `operator>>` for
words and decimal numbers. An extraction from a stream that is not good, or of which only white space is
left, fails and stores nothing; a failed conversion stores 0, and one out of range the nearest bound. The
text is kept in lines, and a stream knows where it stands.
-/
import Mathlib.Data.List.DropRight
import Mathlib.Data.Rat.Defs
import Mathlib.Tactic

namespace Gemini.Lib.Istream

/-! ## Text -/

/-- White space within a line. -/
def isBlank (c : Char) : Bool := c.toNat == 9 || c.toNat == 11 || c.toNat == 12 || c.toNat == 13 || c.toNat == 32

/-- What is left of a text: the rest of the current line, which has the number `line`, and the lines behind
it. `field` is the number of extractions from the current line. -/
structure Text where
  rest : List Char
  lines : List (List Char)
  line : ℕ
  field : ℕ
deriving DecidableEq, Repr

namespace Text

def ofLine (text : List Char) : Text := ⟨text, [], 0, 0⟩

def ofContent (content : List Char) : Text :=
  ⟨(content.splitOn '\n').headD [], (content.splitOn '\n').tail, 0, 0⟩

/-- White space is skipped, also the ends of lines. -/
def skipFrom : List (List Char) → List Char → ℕ → ℕ → Text
  | [], rest, line, field => ⟨rest.dropWhile isBlank, [], line, field⟩
  | l :: ls, rest, line, field =>
    if rest.dropWhile isBlank = [] then skipFrom ls l (line + 1) 0 else ⟨rest.dropWhile isBlank, l :: ls, line, field⟩

def skip (t : Text) : Text := skipFrom t.lines t.rest t.line t.field

def atEnd (t : Text) : Bool := t.rest.isEmpty && t.lines.isEmpty

end Text

/-! ## Streams -/

structure Stream where
  text : Text
  eof : Bool
  fail : Bool
deriving DecidableEq, Repr

/-- The value to be stored, whether the conversion has succeeded, and the characters that are left. -/
structure Extracted (α : Type*) where
  value : α
  ok : Bool
  rest : List Char
deriving DecidableEq, Repr

namespace Stream

def ofLine (text : List Char) : Stream := ⟨.ofLine text, false, false⟩

def ofContent (content : List Char) : Stream := ⟨.ofContent content, false, false⟩

/-- There is no field left to extract. -/
def Exhausted (s : Stream) : Prop := s.eof = true ∨ s.fail = true ∨ s.text.skip.rest = []

instance (s : Stream) : Decidable s.Exhausted := inferInstanceAs (Decidable (_ ∨ _))

/-- `operator>>`: the value that is stored, if any is, and the stream after it. -/
def extract {α : Type*} (f : List Char → Extracted α) (s : Stream) : Option α × Stream :=
  if s.Exhausted then
    -- the sentry fails; it has reached the end if the stream was good
    (none, if s.eof = true ∨ s.fail = true then { s with fail := true } else ⟨s.text.skip, true, true⟩)
  else
    let t := s.text.skip
    let x := f t.rest
    let t' : Text := { t with rest := x.rest, field := t.field + 1 }
    (some x.value, ⟨t', t'.atEnd, !x.ok⟩)

end Stream

/-! ## Words and numbers -/

/-- `operator>>` for an array of characters. -/
def word (cs : List Char) : Extracted String :=
  ⟨String.ofList (cs.takeWhile fun c => !isBlank c), true, cs.dropWhile fun c => !isBlank c⟩

/-- An optional sign, and whether it is a minus. -/
def takeSign : List Char → Bool × List Char
  | '-' :: cs => (true, cs)
  | '+' :: cs => (false, cs)
  | cs => (false, cs)

def digits (cs : List Char) : List Char := cs.takeWhile Char.isDigit

def afterDigits (cs : List Char) : List Char := cs.dropWhile Char.isDigit

/-- The value of a string of digits. -/
def natOf (ds : List Char) : ℕ := ds.foldl (fun n c => 10 * n + (c.toNat - 48)) 0

/-- A signed integer between two bounds. -/
def integer (lo hi : ℤ) (cs : List Char) : Extracted ℤ :=
  let cs' := (takeSign cs).2
  let n : ℤ := natOf (digits cs')
  let v := if (takeSign cs).1 then -n else n
  if digits cs' = [] then ⟨0, false, cs'⟩
  else if v < lo then ⟨lo, false, afterDigits cs'⟩
  else if hi < v then ⟨hi, false, afterDigits cs'⟩
  else ⟨v, true, afterDigits cs'⟩

/-- `int` -/
def int32 : List Char → Extracted ℤ := integer (-2 ^ 31) (2 ^ 31 - 1)

/-- `size_t`; a minus negates modulo 2^64. -/
def size64 (cs : List Char) : Extracted UInt64 :=
  let cs' := (takeSign cs).2
  let n := natOf (digits cs')
  if digits cs' = [] then ⟨0, false, cs'⟩
  else if 2 ^ 64 ≤ n then ⟨0 - 1, false, afterDigits cs'⟩
  else ⟨if (takeSign cs).1 then 0 - .ofNat n else .ofNat n, true, afterDigits cs'⟩

/-- The largest `double`. -/
def maxDouble : ℚ := (2 ^ 53 - 1) * 2 ^ 971

/-- A decimal point and the digits behind it. -/
def fraction : List Char → List Char × List Char
  | '.' :: cs => (digits cs, afterDigits cs)
  | cs => ([], cs)

/-- An exponent, behind a mantissa: whether it is complete, its value, and the characters behind it. -/
def exponent : List Char → Bool × ℤ × List Char
  | c :: cs =>
    if c = 'e' ∨ c = 'E' then
      let cs' := (takeSign cs).2
      let e : ℤ := natOf (digits cs')
      (digits cs' ≠ [], if (takeSign cs).1 then -e else e, afterDigits cs')
    else (true, 0, c :: cs)
  | [] => (true, 0, [])

/-- `double`, as an exact number. -/
def double (cs : List Char) : Extracted ℚ :=
  let cs' := (takeSign cs).2
  let fr := fraction (afterDigits cs')
  let mantissa := digits cs' ++ fr.1
  if mantissa = [] then ⟨0, false, fr.2⟩
  else
    let ex := exponent fr.2
    if ex.1 then
      let v : ℚ := natOf mantissa * 10 ^ (ex.2.1 - fr.1.length)
      let sign : ℚ := if (takeSign cs).1 then -1 else 1
      if maxDouble < v then ⟨sign * maxDouble, false, ex.2.2⟩ else ⟨sign * v, true, ex.2.2⟩
    else ⟨0, false, ex.2.2⟩

/-! ## Where a stream stands -/

namespace Text

theorem skipFrom_rest (ls : List (List Char)) (rest : List Char) (line field : ℕ) :
    (skipFrom ls rest line field).rest.dropWhile isBlank = (skipFrom ls rest line field).rest := by
  induction ls generalizing rest line field with
  | nil => exact List.dropWhile_idempotent ..
  | cons l ls ih =>
    unfold skipFrom
    split
    · exact ih ..
    · exact List.dropWhile_idempotent ..

/-- Skipping stops in the line, if there is something left of it. -/
theorem skip_of_ne {t : Text} (h : t.rest.dropWhile isBlank ≠ []) :
    t.skip = { t with rest := t.rest.dropWhile isBlank } := by
  obtain ⟨rest, lines, line, field⟩ := t
  cases lines with
  | nil => rfl
  | cons l ls => exact if_neg h

theorem skip_skip {t : Text} (h : t.skip.rest ≠ []) : t.skip.skip = t.skip := by
  have hrest : t.skip.rest.dropWhile isBlank = t.skip.rest := skipFrom_rest ..
  rw [skip_of_ne (by rwa [hrest]), hrest]

/-- A part of a text: the lines behind the current one, and the current line unless something was
extracted from it. -/
structure PartOf (content : List Char) (t : Text) : Prop where
  behind : (content.splitOn '\n').drop (t.line + 1) = t.lines
  current : ∃ l, (content.splitOn '\n')[t.line]? = some l ∧
    (t.field = 0 → l.dropWhile isBlank = t.rest.dropWhile isBlank)

theorem partOf_ofContent (content : List Char) : PartOf content (ofContent content) := by
  obtain ⟨l, ls, hls⟩ : ∃ l ls, content.splitOn '\n' = l :: ls := List.exists_cons_of_ne_nil (List.splitOn_ne_nil _ _)
  unfold ofContent
  constructor
  · rw [hls]
    rfl
  · refine ⟨l, ?_, fun _ => ?_⟩
    · rw [hls]
      rfl
    · rw [hls]
      rfl

theorem partOf_skipFrom {content : List Char} (ls : List (List Char)) (rest : List Char) (line field : ℕ)
    (h : PartOf content ⟨rest, ls, line, field⟩) : PartOf content (skipFrom ls rest line field) := by
  induction ls generalizing rest line field with
  | nil =>
    obtain ⟨l, hl, hrest⟩ := h.current
    exact ⟨h.behind, l, hl, fun hf => (hrest hf).trans (List.dropWhile_idempotent ..).symm⟩
  | cons l ls ih =>
    unfold skipFrom
    split
    · -- the next line becomes the current one
      have hbehind : (content.splitOn '\n').drop (line + 1) = l :: ls := h.behind
      apply ih
      refine ⟨?_, l, ?_, fun _ => rfl⟩
      · show (content.splitOn '\n').drop (line + 1 + 1) = ls
        rw [← List.drop_drop, hbehind]
        rfl
      · have hhead := congrArg List.head? hbehind
        rwa [List.head?_drop] at hhead
    · obtain ⟨l', hl, hrest⟩ := h.current
      exact ⟨h.behind, l', hl, fun hf => (hrest hf).trans (List.dropWhile_idempotent ..).symm⟩

theorem PartOf.skip {content : List Char} {t : Text} (h : PartOf content t) : PartOf content t.skip :=
  partOf_skipFrom _ _ _ _ h

end Text

/-! ## Extractions -/

namespace Stream

variable {α : Type*} {f : List Char → Extracted α} {s s₁ : Stream}

theorem extract_of_exhausted (h : s.Exhausted) : (s.extract f).1 = none ∧ (s.extract f).2.fail = true := by
  unfold extract
  rw [if_pos h]
  constructor
  · rfl
  · show (if s.eof = true ∨ s.fail = true then _ else _ : Stream).fail = true
    split <;> rfl

theorem extract_of_not_exhausted (h : ¬ s.Exhausted) : s.extract f =
    (some (f s.text.skip.rest).value,
      ⟨{ s.text.skip with rest := (f s.text.skip.rest).rest, field := s.text.skip.field + 1 },
        Text.atEnd { s.text.skip with rest := (f s.text.skip.rest).rest, field := s.text.skip.field + 1 },
        !(f s.text.skip.rest).ok⟩) := if_neg h

theorem exhausted_of_fail (h : s.fail = true) : s.Exhausted := .inr (.inl h)

/-- A stream that has failed stays so. -/
theorem not_fail_of_extract (h : (s.extract f).2.fail = false) : ¬ s.Exhausted := by
  intro he
  rw [(extract_of_exhausted he).2] at h
  cases h

theorem fail_of_extract (h : (s.extract f).2.fail = false) : s.fail = false := by
  rw [← Bool.not_eq_true]
  exact fun hs => not_fail_of_extract h (exhausted_of_fail hs)

/-- Something is stored unless the stream fails. -/
theorem exists_of_extract (h : (s.extract f).2.fail = false) : ∃ v, (s.extract f).1 = some v :=
  ⟨_, congrArg Prod.fst (extract_of_not_exhausted (not_fail_of_extract h))⟩

theorem partOf_extract {content : List Char} (h : Text.PartOf content s.text) :
    Text.PartOf content (s.extract f).2.text := by
  by_cases he : s.Exhausted
  · unfold extract
    rw [if_pos he]
    show Text.PartOf content (if s.eof = true ∨ s.fail = true then _ else _ : Stream).text
    split
    · exact h
    · exact h.skip
  · rw [extract_of_not_exhausted he]
    obtain ⟨l, hl, -⟩ := h.skip.current
    exact ⟨h.skip.behind, l, hl, fun hf => absurd hf (Nat.succ_ne_zero _)⟩

/-- Two streams stand before the same characters, which are all that is left to the second. -/
structure SameLine (s s₁ : Stream) : Prop where
  rest : s.text.rest = s₁.text.rest
  lines : s₁.text.lines = []
  eof : s.eof = true → s₁.eof = true
  fail : s.fail = true → s₁.fail = true

/-- What is extracted from a line does not depend on the lines behind it. -/
theorem SameLine.extract (h : SameLine s s₁) (hok : (s₁.extract f).2.fail = false) :
    SameLine (s.extract f).2 (s₁.extract f).2 ∧ (s.extract f).1 = (s₁.extract f).1 ∧
      (s.extract f).2.text.line = s.text.line := by
  have he₁ := not_fail_of_extract hok
  obtain ⟨heof, hfail, hrest⟩ : ¬ s₁.eof = true ∧ ¬ s₁.fail = true ∧ ¬ s₁.text.skip.rest = [] := by
    simpa [Exhausted] using he₁
  have hskip₁ : s₁.text.skip = { s₁.text with rest := s₁.text.rest.dropWhile isBlank } := by
    obtain ⟨⟨rest, lines, line, field⟩, eof, fail⟩ := s₁
    obtain rfl : lines = [] := h.lines
    rfl
  rw [hskip₁] at hrest
  have hskip : s.text.skip = { s.text with rest := s₁.text.rest.dropWhile isBlank } := by
    rw [Text.skip_of_ne (by rw [h.rest]; exact hrest), h.rest]
  have he : ¬ s.Exhausted := by
    rintro (hs | hs | hs)
    · exact heof (h.eof hs)
    · exact hfail (h.fail hs)
    · rw [hskip] at hs
      exact hrest hs
  rw [extract_of_not_exhausted he, extract_of_not_exhausted he₁, hskip, hskip₁]
  refine ⟨⟨rfl, h.lines, fun hend => ?_, id⟩, rfl, rfl⟩
  simp only [Text.atEnd, Bool.and_eq_true, List.isEmpty_iff] at hend ⊢
  exact ⟨hend.1, h.lines⟩

/-- Leading white space does not matter. -/
theorem extract_skip (h : ¬ s.Exhausted) : (⟨s.text.skip, false, false⟩ : Stream).extract f = s.extract f := by
  have hrest : s.text.skip.rest ≠ [] := fun heq => h (.inr (.inr heq))
  have hskip := Text.skip_skip hrest
  have he : ¬ (⟨s.text.skip, false, false⟩ : Stream).Exhausted := by
    rintro (hs | hs | hs)
    · cases hs
    · cases hs
    · exact hrest (hskip ▸ hs)
  rw [extract_of_not_exhausted h, extract_of_not_exhausted he]
  simp only [hskip]

end Stream

end Gemini.Lib.Istream
