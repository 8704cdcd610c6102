/-
`read_resource_config` on any content of its file. No extraction is checked and the variables live across
the turns of the loop, so a client gets what the variables hold when its name is read: of one line of the
file if that line is complete, and otherwise a mixture with what an earlier line, a failed conversion or
nothing at all has left there.
-/
import Gemini.Lib.Istream
import Gemini.Scheduler.Daemon

namespace Gemini.Scheduler.ConfigFile

open Gemini.Lib.Istream

/-! ## The loop -/

/-- The variables that a line is read into. -/
structure Vars where
  clientName : String
  gpuMinFraction : ℚ
  gpuMaxFraction : ℚ
  gpuMemorySize : UInt64
deriving DecidableEq, Repr

/-- The variables at the end of a turn; `origin` is a ghost, the number of the line `client_name` was read
from if it is the first field there. -/
structure Entry where
  vars : Vars
  origin : Option ℕ
deriving DecidableEq, Repr

/-- The line of which the last extraction has taken the first field. -/
def originOf (s : Stream) : Option ℕ := if s.text.field = 1 then some s.text.line else none

/-- `fin >> client_name >> gpu_min_fraction >> gpu_max_fraction >> gpu_memory_size` -/
def readFields (s : Stream) (e : Entry) : Entry × Stream :=
  let name := s.extract word
  let minFraction := name.2.extract double
  let maxFraction := minFraction.2.extract double
  let memorySize := maxFraction.2.extract size64
  ({ vars := {
      clientName := name.1.getD e.vars.clientName
      gpuMinFraction := minFraction.1.getD e.vars.gpuMinFraction
      gpuMaxFraction := maxFraction.1.getD e.vars.gpuMaxFraction
      gpuMemorySize := memorySize.1.getD e.vars.gpuMemorySize }
     origin := if name.1.isSome then originOf name.2 else e.origin },
    memorySize.2)

/-- The entries that the loop creates. -/
def entries : ℕ → Stream → Entry → List Entry
  | 0, _, _ => []
  | n + 1, s, e => (readFields s e).1 :: entries n (readFields s e).2 (readFields s e).1

/-- The local variables before anything is stored in them. -/
structure Uninitialised where
  containerNum : ℤ
  vars : Vars
deriving DecidableEq, Repr

/-- `fin >> container_num`: the number of turns, and the stream after it. -/
def readContainerNum (u : Uninitialised) (content : List Char) : ℕ × Stream :=
  let num := (Stream.ofContent content).extract int32
  ((num.1.getD u.containerNum).toNat, num.2)

def created (u : Uninitialised) (content : List Char) : List Entry :=
  entries (readContainerNum u content).1 (readContainerNum u content).2 ⟨u.vars, none⟩

/-- `client_info_map[client_name] = client_inf` -/
def insertClient (cfg : Config) (m : ClientInfoMap) (v : Vars) : ClientInfoMap :=
  Function.update m v.clientName
    (some (.new cfg.quota cfg.minQuota (v.gpuMaxFraction * cfg.windowSize) v.gpuMinFraction v.gpuMaxFraction
      v.gpuMemorySize))

def readResourceConfig (cfg : Config) (u : Uninitialised) (content : List Char) (m : ClientInfoMap) : ClientInfoMap :=
  (created u content).foldl (fun m e => insertClient cfg m e.vars) m

/-! ## Lines -/

/-- What is read of a complete line. -/
def readLine (text : List Char) : Option Vars :=
  let r := readFields (.ofLine text) ⟨⟨"", 0, 0, 0⟩, none⟩
  if r.2.fail then none else some r.1.vars

/-- The name is the first field of a complete line of the file, and everything is what that line says. -/
def FromOneLine (content : List Char) (e : Entry) : Prop :=
  ∃ k text, (content.splitOn '\n')[k]? = some text ∧ e.origin = some k ∧ readLine text = some e.vars

/-- The stream stands before the first field of a complete line. -/
def BeforeLine (s : Stream) : Prop := ¬ s.Exhausted ∧ s.text.skip.field = 0 ∧ (readLine s.text.skip.rest).isSome = true

instance (s : Stream) : Decidable (BeforeLine s) := inferInstanceAs (Decidable (_ ∧ _))

/-- The stream after the fields of a line. -/
def afterFields (s : Stream) : Stream := ((((s.extract word).2.extract double).2.extract double).2.extract size64).2

/-- In each of `n` turns there is a complete line to be read, or nothing at all. -/
def Complete : ℕ → Stream → Prop
  | 0, _ => True
  | n + 1, s => s.Exhausted ∨ (BeforeLine s ∧ Complete n (afterFields s))

/-- The file is complete: the first turn finds a complete line, and each of the others one or nothing. -/
def FileComplete (u : Uninitialised) (content : List Char) : Prop :=
  (readContainerNum u content).1 = 0 ∨
    (BeforeLine (readContainerNum u content).2 ∧
      Complete ((readContainerNum u content).1 - 1) (afterFields (readContainerNum u content).2))

/-! ## One turn -/

section

variable {content : List Char} {s s₁ : Stream} {e : Entry} {v : Vars}

theorem partOf_readFields (h : Text.PartOf content s.text) (e : Entry) : Text.PartOf content (readFields s e).2.text :=
  Stream.partOf_extract (Stream.partOf_extract (Stream.partOf_extract (Stream.partOf_extract h)))

/-- Nothing is stored when nothing is left. -/
theorem readFields_of_exhausted (h : s.Exhausted) (e : Entry) :
    (readFields s e).1 = e ∧ (readFields s e).2.fail = true := by
  have hfail {α : Type} {f : List Char → Extracted α} {s : Stream} (h : s.Exhausted) : (s.extract f).2.Exhausted :=
    Stream.exhausted_of_fail (Stream.extract_of_exhausted h).2
  have hname := hfail (f := word) h
  have hmin := hfail (f := double) hname
  have hmax := hfail (f := double) hmin
  refine ⟨?_, (Stream.extract_of_exhausted hmax).2⟩
  simp only [readFields, (Stream.extract_of_exhausted h).1, (Stream.extract_of_exhausted hname).1,
    (Stream.extract_of_exhausted hmin).1, (Stream.extract_of_exhausted hmax).1, Option.getD_none, Option.isSome_none,
    Bool.false_eq_true, if_false]

theorem origin_readFields (h : ¬ s.Exhausted) (e : Entry) :
    (readFields s e).1.origin = if s.text.skip.field = 0 then some s.text.skip.line else none := by
  simp only [readFields, Stream.extract_of_not_exhausted (f := word) h, Option.isSome_some, if_true, originOf,
    Nat.add_eq_right]

/-- What is read of a line, when it is complete. -/
theorem readLine_some {text : List Char} (h : readLine text = some v) :
    ((readFields (.ofLine text) ⟨⟨"", 0, 0, 0⟩, none⟩).2.fail = false) ∧
      (readFields (.ofLine text) ⟨⟨"", 0, 0, 0⟩, none⟩).1.vars = v := by
  unfold readLine at h
  simp only at h
  split at h
  · cases h
  · rename_i hfail
    exact ⟨by simpa using hfail, Option.some.inj h⟩

theorem readLine_of_exhausted {text : List Char} (h : (Stream.ofLine text).Exhausted) : readLine text = none :=
  if_pos (readFields_of_exhausted h _).2

/-- White space before a line does not matter. -/
theorem readLine_dropWhile (l : List Char) : readLine (l.dropWhile isBlank) = readLine l := by
  by_cases h : (Stream.ofLine l).Exhausted
  · have h' : (Stream.ofLine (l.dropWhile isBlank)).Exhausted := by
      rcases h with h | h | h
      · cases h
      · cases h
      · refine .inr (.inr ?_)
        show (l.dropWhile isBlank).dropWhile isBlank = []
        rw [List.dropWhile_idempotent]
        exact h
    rw [readLine_of_exhausted h, readLine_of_exhausted h']
  · have hsame : (Stream.ofLine (l.dropWhile isBlank)).extract word = (Stream.ofLine l).extract word :=
      Stream.extract_skip h
    unfold readLine readFields
    rw [hsame]

/-- A complete line is read from the whole file as from the line alone. -/
theorem readFields_of_readLine (h : ¬ s.Exhausted) (hline : readLine s.text.skip.rest = some v) (e : Entry) :
    (readFields s e).1.vars = v := by
  obtain ⟨hmem, rfl⟩ := readLine_some hline
  have hmax := Stream.fail_of_extract hmem
  have hmin := Stream.fail_of_extract hmax
  have hname := Stream.fail_of_extract hmin
  -- the stream stays beside that of the line
  have h₀ : Stream.SameLine ⟨s.text.skip, false, false⟩ (.ofLine s.text.skip.rest) := ⟨rfl, rfl, id, id⟩
  obtain ⟨h₁, heq₁, -⟩ := h₀.extract hname
  obtain ⟨h₂, heq₂, -⟩ := h₁.extract hmin
  obtain ⟨h₃, heq₃, -⟩ := h₂.extract hmax
  obtain ⟨-, heq₄, -⟩ := h₃.extract hmem
  rw [Stream.extract_skip h] at heq₁ heq₂ heq₃ heq₄
  obtain ⟨x₁, hx₁⟩ := Stream.exists_of_extract hname
  obtain ⟨x₂, hx₂⟩ := Stream.exists_of_extract hmin
  obtain ⟨x₃, hx₃⟩ := Stream.exists_of_extract hmax
  obtain ⟨x₄, hx₄⟩ := Stream.exists_of_extract hmem
  simp only [readFields, heq₁, heq₂, heq₃, heq₄, hx₁, hx₂, hx₃, hx₄, Option.getD_some]

/-- What the turn creates is of one line exactly if the stream stands before a complete line. -/
theorem fromOneLine_readFields (hpart : Text.PartOf content s.text) (h : ¬ s.Exhausted) (e : Entry) :
    FromOneLine content (readFields s e).1 ↔ BeforeLine s := by
  obtain ⟨l, hl, hcurrent⟩ := hpart.skip.current
  have hread (hfield : s.text.skip.field = 0) : readLine l = readLine s.text.skip.rest := by
    rw [← readLine_dropWhile l, hcurrent hfield, readLine_dropWhile]
  have horigin := origin_readFields h e
  constructor
  · rintro ⟨k, text, htext, hk, hline⟩
    rw [horigin] at hk
    split at hk
    · rename_i hfield
      obtain rfl : s.text.skip.line = k := Option.some.inj hk
      obtain rfl : l = text := Option.some.inj (hl.symm.trans htext)
      refine ⟨h, hfield, ?_⟩
      rw [← hread hfield, hline]
      rfl
    · cases hk
  · rintro ⟨-, hfield, hline⟩
    obtain ⟨v, hv⟩ := Option.isSome_iff_exists.1 hline
    refine ⟨_, l, hl, ?_, ?_⟩
    · rw [horigin, if_pos hfield]
    · rw [hread hfield, hv, readFields_of_readLine h hv]

/-! ## All turns -/

/-- After an entry of one line, all that follow are exactly if each turn finds a complete line or nothing. -/
theorem entries_iff (n : ℕ) (s : Stream) (e : Entry) (hpart : Text.PartOf content s.text) (he : FromOneLine content e) :
    (∀ e' ∈ entries n s e, FromOneLine content e') ↔ Complete n s := by
  induction n generalizing s e with
  | zero => simp [entries, Complete]
  | succ n ih =>
    rw [entries, List.forall_mem_cons, Complete]
    by_cases h : s.Exhausted
    · obtain ⟨heq, hfail⟩ := readFields_of_exhausted h e
      rw [heq, ih _ _ (partOf_readFields hpart e) he]
      refine iff_of_true ⟨he, ?_⟩ (.inl h)
      cases n with
      | zero => trivial
      | succ n => exact .inl (Stream.exhausted_of_fail hfail)
    · rw [fromOneLine_readFields hpart h, or_iff_right h]
      refine and_congr_right fun hbefore => ?_
      exact ih _ _ (partOf_readFields hpart e) ((fromOneLine_readFields hpart h e).2 hbefore)

theorem partOf_readContainerNum (u : Uninitialised) (content : List Char) :
    Text.PartOf content (readContainerNum u content).2.text :=
  Stream.partOf_extract (Text.partOf_ofContent content)

theorem foldl_insertClient_of_ne {cfg : Config} {name : String} {es : List Entry}
    (h : ∀ e ∈ es, e.vars.clientName ≠ name)
    (m : ClientInfoMap) : es.foldl (fun m e => insertClient cfg m e.vars) m name = m name := by
  induction es generalizing m with
  | nil => rfl
  | cons e es ih =>
    obtain ⟨he, hes⟩ := List.forall_mem_cons.1 h
    rw [List.foldl_cons, ih hes]
    exact Function.update_of_ne (Ne.symm he) ..

/-- Every entry that is created is of one complete line, and all other entries are unchanged, exactly if
the file is complete. -/
theorem unmixed_iff (cfg : Config) (u : Uninitialised) (content : List Char) (m : ClientInfoMap) :
    ((∀ e ∈ created u content, FromOneLine content e) ∧
      ∀ name, (∀ e ∈ created u content, e.vars.clientName ≠ name) → readResourceConfig cfg u content m name = m name) ↔
    FileComplete u content := by
  have hothers (name : String) (h : ∀ e ∈ created u content, e.vars.clientName ≠ name) :
      readResourceConfig cfg u content m name = m name := foldl_insertClient_of_ne h m
  have hpart := partOf_readContainerNum u content
  rw [and_iff_left hothers]
  unfold created FileComplete
  cases (readContainerNum u content).1 with
  | zero => simp [entries]
  | succ n =>
    rw [entries, List.forall_mem_cons, or_iff_right (Nat.succ_ne_zero n)]
    by_cases h : (readContainerNum u content).2.Exhausted
    · -- what the uninitialised variables hold
      rw [(readFields_of_exhausted h _).1]
      apply iff_of_false
      · rintro ⟨⟨k, text, -, hk, -⟩, -⟩
        cases hk
      · rintro ⟨hbefore, -⟩
        exact hbefore.1 h
    · rw [fromOneLine_readFields hpart h]
      refine and_congr_right fun hbefore => ?_
      exact entries_iff n _ _ (partOf_readFields hpart _) ((fromOneLine_readFields hpart h _).2 hbefore)

end

/-- The last line is cut off behind its first fraction: its client gets the other fraction and the memory
of the line before. -/
theorem mixed_of_truncated :
    ¬ ∀ e ∈ created ⟨0, ⟨"", 0, 0, 0⟩⟩ "2\na 0.5 1.0 100\nb 0.3".toList,
      FromOneLine "2\na 0.5 1.0 100\nb 0.3".toList e := by
  have hmem : ⟨⟨"b", 3 / 10, 1, 100⟩, some 2⟩ ∈ created ⟨0, ⟨"", 0, 0, 0⟩⟩ "2\na 0.5 1.0 100\nb 0.3".toList := by
    decide +kernel
  have hcut : (("2\na 0.5 1.0 100\nb 0.3".toList.splitOn '\n')[2]?).bind readLine = none := by decide +kernel
  intro h
  obtain ⟨k, text, htext, hk, hline⟩ := h _ hmem
  cases hk
  rw [htext, Option.bind_some, hline] at hcut
  cases hcut

/-! ## Well-formed files -/

/-- Complete lines that are read from a stream one after another. -/
def Lines : List Vars → Stream → Prop
  | [], _ => True
  | v :: vs, s => ¬ s.Exhausted ∧ s.text.skip.field = 0 ∧ readLine s.text.skip.rest = some v ∧ Lines vs (afterFields s)

instance : ∀ (file : List Vars) (s : Stream), Decidable (Lines file s)
  | [], _ => .isTrue trivial
  | _ :: vs, s =>
    have := instDecidableLines vs (afterFields s)
    inferInstanceAs (Decidable (_ ∧ _ ∧ _ ∧ _))

/-- The number of the lines, and the lines. -/
structure WellFormed (content : List Char) (file : List Vars) : Prop where
  containerNum : ((Stream.ofContent content).extract int32).1 = some (file.length : ℤ)
  converted : ((Stream.ofContent content).extract int32).2.fail = false
  lines : Lines file ((Stream.ofContent content).extract int32).2

theorem entries_of_lines (file : List Vars) (s : Stream) (e : Entry) (h : Lines file s) :
    (entries file.length s e).map Entry.vars = file := by
  induction file generalizing s e with
  | nil => rfl
  | cons v vs ih =>
    obtain ⟨hs, -, hv, hvs⟩ := h
    rw [List.length_cons, entries, List.map_cons, readFields_of_readLine hs hv]
    exact congrArg (v :: ·) (ih _ _ hvs)

/-- A well-formed file is loaded line by line. -/
theorem readResourceConfig_of_wellFormed {content : List Char} {file : List Vars} (h : WellFormed content file)
    (cfg : Config)
    (u : Uninitialised) (m : ClientInfoMap) : readResourceConfig cfg u content m = file.foldl (insertClient cfg) m := by
  have hnum : (readContainerNum u content).1 = file.length := by
    unfold readContainerNum
    simp only [h.containerNum, Option.getD_some, Int.toNat_natCast]
  have hvars := entries_of_lines file (readContainerNum u content).2 ⟨u.vars, none⟩ h.lines
  calc readResourceConfig cfg u content m
      = ((created u content).map Entry.vars).foldl (insertClient cfg) m := by rw [readResourceConfig, List.foldl_map]
    _ = file.foldl (insertClient cfg) m := by rw [created, hnum, hvars]

end Gemini.Scheduler.ConfigFile
