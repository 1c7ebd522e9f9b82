import Mathlib.Data.List.TakeWhile
import Yanesemu.Bits

/-!
# Words and lines of a file

`getword` and `getline` of `util/file.cpp`. A file that is read is the list of characters that are
still to come, and its end is the end of the list. Both skip blanks first; both tell whether they
stopped before the end of the file.
-/

namespace Yanesemu.Util

/-- `is_space` of `util/file.cpp`. -/
def isSpace (c : Char) : Bool := c == ' ' || c == '\t'

def isDelim (c : Char) : Bool := c == '\n' || c == ' ' || c == '\t'

/-- What a read leaves: whether it stopped before the end of the file, the string, and the rest. -/
structure Input where
  ok : Bool
  str : List Char
  rest : List Char
  deriving DecidableEq, Repr

/-- `File::getword`. The delimiter is put back. -/
def getword (file : List Char) : Input :=
  let s := file.dropWhile isSpace
  let rest := s.dropWhile (!isDelim ·)
  ⟨!rest.isEmpty, s.takeWhile (!isDelim ·), rest⟩

/-- `File::getline`. The delimiter is taken. -/
def getline (file : List Char) (delim : Char) : Input :=
  let s := file.dropWhile isSpace
  let rest := s.dropWhile (· != delim)
  ⟨!rest.isEmpty, s.takeWhile (· != delim), rest.tail⟩

/-- The file goes on with a line of blanks. -/
def BlankLine (file : List Char) : Prop :=
  ∃ blanks rest, (∀ c ∈ blanks, isSpace c = true) ∧ file = blanks ++ '\n' :: rest

section Read

variable {file : List Char} {delim : Char}

theorem length_dropWhile_le (p : Char → Bool) (s : List Char) :
    (s.dropWhile p).length ≤ s.length := (List.dropWhile_sublist p).length_le

theorem length_rest_getword_le : (getword file).rest.length ≤ file.length :=
  (length_dropWhile_le _ _).trans (length_dropWhile_le _ _)

theorem ok_getword_iff : (getword file).ok = true ↔ (getword file).rest ≠ [] := by
  show (!(getword file).rest.isEmpty) = true ↔ _
  simp

/-- A line takes at least a character, its delimiter if nothing else. -/
theorem length_rest_getline_lt (h : file ≠ []) :
    (getline file delim).rest.length < file.length := by
  have hpos : 0 < file.length := List.length_pos_iff.mpr h
  have hle := (length_dropWhile_le (· != delim) (file.dropWhile isSpace)).trans
    (length_dropWhile_le isSpace file)
  show ((file.dropWhile isSpace).dropWhile (· != delim)).tail.length < file.length
  rw [List.length_tail]
  omega

/-- What comes after the blanks does not begin with one. -/
theorem dropWhile_isSpace_of_blank {blanks rest : List Char} (h : ∀ c ∈ blanks, isSpace c = true) :
    (blanks ++ '\n' :: rest).dropWhile isSpace = '\n' :: rest := by
  rw [List.dropWhile_append_of_pos h]
  rfl

/-- An empty word before the end of the file is a line of blanks. -/
theorem getword_empty_iff :
    (getword file).ok = true ∧ (getword file).str = [] ↔ BlankLine file := by
  constructor
  · intro h
    unfold getword at h
    have hsplit := List.takeWhile_append_dropWhile (p := isSpace) (l := file)
    have hfirst := List.head_dropWhile_not (l := file) isSpace
    cases hs : file.dropWhile isSpace with
    | nil =>
      rw [hs] at h
      exact absurd h.1 (by decide)
    | cons c rest =>
      rw [hs] at h hsplit hfirst
      have hspace : isSpace c = false := hfirst (List.cons_ne_nil _ _)
      have hdelim : isDelim c = true := by
        by_contra hc
        have hword : (c :: rest).takeWhile (!isDelim ·) = c :: rest.takeWhile (!isDelim ·) :=
          List.takeWhile_cons_of_pos (by simpa using hc)
        exact absurd (hword.symm.trans h.2) (List.cons_ne_nil _ _)
      have hnl : c = '\n' := by
        have hor : isDelim c = (c == '\n' || isSpace c) := Bool.or_assoc ..
        rw [hor, hspace, Bool.or_false] at hdelim
        exact eq_of_beq hdelim
      refine ⟨file.takeWhile isSpace, rest, fun x hx => List.mem_takeWhile_imp hx, ?_⟩
      rw [← hnl, hsplit]
  · rintro ⟨blanks, rest, hblanks, rfl⟩
    unfold getword
    rw [dropWhile_isSpace_of_blank hblanks]
    exact ⟨rfl, rfl⟩

/-- The rest of a line of blanks is its end. -/
theorem ok_getline_of_blank (h : BlankLine file) :
    (getline (getword file).rest '\n').ok = true := by
  obtain ⟨blanks, rest, hblanks, rfl⟩ := h
  have hrest : (getword (blanks ++ '\n' :: rest)).rest = '\n' :: rest := by
    unfold getword
    rw [dropWhile_isSpace_of_blank hblanks]
    rfl
  rw [hrest]
  rfl

/-! ### The lines of a file -/

/-- The lines before the last newline of a file, without the blanks in front. -/
def lines (file : List Char) : List (List Char) :=
  ((file.splitOn '\n').dropLast).map (·.dropWhile isSpace)

theorem lines_of_not_mem (h : '\n' ∉ file) : lines file = [] := by
  unfold lines
  rw [List.splitOn_eq_singleton h]
  rfl

theorem lines_append {line : List Char} (h : '\n' ∉ line) (rest : List Char) :
    lines (line ++ '\n' :: rest) = line.dropWhile isSpace :: lines rest := by
  have hne : rest.splitOn '\n' ≠ [] := by simp
  unfold lines
  rw [List.splitOn_append_cons_self_of_not_mem h, List.dropLast_cons_of_ne_nil hne, List.map_cons]

theorem getline_of_not_mem (h : '\n' ∉ file) : (getline file '\n').ok = false := by
  have hall : ∀ c ∈ file.dropWhile isSpace, (c != '\n') = true := fun c hc =>
    bne_iff_ne.mpr fun heq => h (heq ▸ (List.dropWhile_sublist isSpace).subset hc)
  unfold getline
  dsimp only
  rw [List.dropWhile_eq_nil_iff.mpr hall]
  rfl

theorem getline_append {line : List Char} (h : '\n' ∉ line) (rest : List Char) :
    getline (line ++ '\n' :: rest) '\n' = ⟨true, line.dropWhile isSpace, rest⟩ := by
  have hskip : (line ++ '\n' :: rest).dropWhile isSpace =
      line.dropWhile isSpace ++ '\n' :: rest := by
    rw [List.dropWhile_append]
    split_ifs with hnil
    · rw [List.isEmpty_iff.mp hnil]
      rfl
    · rfl
  have hall : ∀ c ∈ line.dropWhile isSpace, (c != '\n') = true := fun c hc =>
    bne_iff_ne.mpr fun heq => h (heq ▸ (List.dropWhile_sublist isSpace).subset hc)
  unfold getline
  dsimp only
  rw [hskip, List.takeWhile_append_of_pos hall, List.dropWhile_append_of_pos hall]
  simp

/-- `getline` reads the lines of a file one after the other. -/
theorem getline_spec (file : List Char) :
    ((getline file '\n').ok = false ∧ lines file = []) ∨
      ((getline file '\n').ok = true ∧ (getline file '\n').rest.length < file.length ∧
        lines file = (getline file '\n').str :: lines (getline file '\n').rest) := by
  by_cases hnl : '\n' ∈ file
  · obtain ⟨line, rest, rfl, hline⟩ := List.eq_append_cons_of_mem hnl
    rw [getline_append hline, lines_append hline]
    refine .inr ⟨rfl, ?_, rfl⟩
    show rest.length < (line ++ '\n' :: rest).length
    rw [List.length_append, List.length_cons]
    omega
  · exact .inl ⟨getline_of_not_mem hnl, lines_of_not_mem hnl⟩

end Read

end Yanesemu.Util
