import Yanesemu.Lib.Run
import Mathlib.Data.List.Basic

/-!
# The command line

`parse` of `util/cmdline.cpp`, and the options of `main.cpp`. An argument is the characters before
its NUL; the texts of the warnings are left out, and so is what only `print_usage` reads.

An argument that is not a dash and one more character is to be two dashes and the long name of an
option. `parse` looks it up with `is_valid(*(currarg.begin() + 2), ..)`, and what the iterator gives
is a character, so it is the lookup by short name: the third character of the argument decides,
whatever comes after it (`parse_exact_iff`). For an argument `-` that is the character after its
NUL.
-/

namespace Yanesemu.Util

open EventRun

/-! ### Options and arguments -/

inductive ParamType
  | none | optional | mustHave
  deriving DecidableEq, Repr

structure Argument where
  shortOpt : Char
  longOpt : List Char
  paramt : ParamType := .none
  validator : List Char → Bool := fun _ => true

abbrev ValidArgStruct := List Argument

/-- The maps are total: `operator[]` gives `false` or the empty string for a key that is new. -/
structure ArgResult where
  has : Char → Bool := fun _ => false
  params : Char → List Char := fun _ => []
  items : List (List Char) := []

/-- `is_valid` for a character. -/
def isValid (arg : Char) (validArgs : ValidArgStruct) : Option Argument :=
  validArgs.find? (·.shortOpt == arg)

/-- `cmdflags` of `main.cpp`. -/
def cmdflags : ValidArgStruct :=
  [{ shortOpt := 'h', longOpt := "help".toList },
    { shortOpt := 'v', longOpt := "version".toList },
    { shortOpt := 'd', longOpt := "debugger".toList }]

section Parse

variable (past : List (List Char) → Char)

/-- The character at an index of the first argument of `argv`. There is a NUL after the last one,
and `past` says what is in the memory after that. -/
def charAt (argv : List (List Char)) (i : ℕ) : Char :=
  let arg := argv.headD []
  if i < arg.length then arg.getD i '\x00' else if i = arg.length then '\x00' else past argv

/-- `nextarg && nextarg[0] != '-'`. -/
def isParam (nextarg : Option (List Char)) : Bool :=
  nextarg.any fun s => s.head? != some '-'

/-- The index of the character an argument with a dash is looked up by. -/
def lookupIndex (argv : List (List Char)) : ℕ :=
  if charAt past argv 1 ≠ '-' ∧ (argv.headD []).length = 2 then 1 else 2

/-- The indices of `currarg` that a round reads. -/
def readIndices (argv : List (List Char)) : List ℕ :=
  if charAt past argv 0 ≠ '-' then [0] else [0, 1, lookupIndex past argv]

/-- The arguments to come, and the result so far. -/
structure Parsing where
  argv : List (List Char)
  res : ArgResult := {}

/-- `MUST_HAVE` without a parameter. -/
def missesParam (arg : Argument) (nextarg : Option (List Char)) : Bool :=
  arg.paramt == .mustHave && !isParam nextarg

/-- The rest of a round when the argument was found and is not to be skipped. -/
def collect (arg : Argument) (rest : List (List Char)) (res : ArgResult) : Parsing :=
  let res := { res with has := Function.update res.has arg.shortOpt true }
  match rest with
  | nextarg :: rest' =>
    if arg.paramt ≠ .none ∧ isParam (some nextarg) = true ∧ arg.validator nextarg = true then
      ⟨rest', { res with params := Function.update res.params arg.shortOpt nextarg }⟩
    else ⟨rest, res⟩
  | [] => ⟨[], res⟩

variable (validArgs : ValidArgStruct)

/-- The body of the loop of `parse`. -/
def parseNext (p : Parsing) : Parsing :=
  match p.argv with
  | [] => p
  | currarg :: rest =>
    if charAt past p.argv 0 ≠ '-' then ⟨rest, { p.res with items := p.res.items ++ [currarg] }⟩
    else match isValid (charAt past p.argv (lookupIndex past p.argv)) validArgs with
      | none => ⟨rest, p.res⟩
      | some arg =>
        if missesParam arg rest.head? || p.res.has arg.shortOpt then ⟨rest, p.res⟩
        else collect arg rest p.res

/-- `parse` on the arguments after the program's name, given up after `fuel` rounds. -/
def parse (argv : List (List Char)) (fuel : ℕ) : Option ArgResult :=
  (whileLoop (fun p => !p.argv.isEmpty) (parseNext past validArgs) fuel ⟨argv, {}⟩).map (·.res)

/-- `k` rounds of the loop. -/
def parsing (argv : List (List Char)) (k : ℕ) : Parsing :=
  (parseNext past validArgs)^[k] ⟨argv, {}⟩

/-! ### What a round does -/

/-- The round sets the flag of `arg`. -/
def Sets (p : Parsing) (arg : Argument) : Prop :=
  isValid (charAt past p.argv (lookupIndex past p.argv)) validArgs = some arg ∧
    missesParam arg p.argv.tail.head? = false ∧ p.res.has arg.shortOpt = false

theorem charAt_zero {arg : List Char} {rest : List (List Char)} :
    charAt past (arg :: rest) 0 = '-' ↔ arg.head? = some '-' := by
  cases arg with
  | nil => simp [charAt]
  | cons c cs => simp [charAt]

theorem collect_argv_suffix (arg : Argument) (rest : List (List Char)) (res : ArgResult) :
    (collect arg rest res).argv <:+ rest := by
  unfold collect
  cases rest with
  | nil => exact List.suffix_rfl
  | cons nextarg rest' =>
    dsimp only
    split_ifs
    · exact List.suffix_cons nextarg rest'
    · exact List.suffix_rfl

theorem has_collect (arg : Argument) (rest : List (List Char)) (res : ArgResult) :
    (collect arg rest res).res.has = Function.update res.has arg.shortOpt true := by
  unfold collect
  cases rest with
  | nil => rfl
  | cons nextarg rest' =>
    dsimp only
    split_ifs <;> rfl

/-- An argument without a dash is an item, one with a dash sets a flag or is skipped. -/
theorem parseNext_cases {p : Parsing} {currarg : List Char} {rest : List (List Char)}
    (hp : p.argv = currarg :: rest) :
    (currarg.head? ≠ some '-' ∧
      parseNext past validArgs p = ⟨rest, { p.res with items := p.res.items ++ [currarg] }⟩) ∨
    (currarg.head? = some '-' ∧ ∃ arg, Sets past validArgs p arg ∧
      parseNext past validArgs p = collect arg rest p.res) ∨
    (currarg.head? = some '-' ∧ (∀ arg, ¬Sets past validArgs p arg) ∧
      parseNext past validArgs p = ⟨rest, p.res⟩) := by
  obtain ⟨argv, res⟩ := p
  obtain rfl : argv = currarg :: rest := hp
  by_cases hdash : currarg.head? = some '-'
  · have hchar : charAt past (currarg :: rest) 0 = '-' := (charAt_zero past).mpr hdash
    refine .inr ?_
    unfold parseNext Sets
    dsimp only
    rw [if_neg (not_not_intro hchar)]
    cases hvalid : isValid (charAt past (currarg :: rest) (lookupIndex past (currarg :: rest)))
        validArgs with
    | none => exact .inr ⟨hdash, fun arg h => Option.some_ne_none arg h.1.symm, rfl⟩
    | some arg =>
      dsimp only
      split_ifs with hskip
      · refine .inr ⟨hdash, fun arg' h => ?_, rfl⟩
        obtain rfl : arg = arg' := Option.some.inj h.1
        have hskip' : missesParam arg rest.head? = true ∨ res.has arg.shortOpt = true := by
          simpa using hskip
        rcases hskip' with hmiss | hset
        · exact Bool.noConfusion (hmiss.symm.trans h.2.1)
        · exact Bool.noConfusion (hset.symm.trans h.2.2)
      · have hgo : missesParam arg rest.head? = false ∧ res.has arg.shortOpt = false := by
          simpa using hskip
        exact .inl ⟨hdash, arg, ⟨rfl, hgo⟩, rfl⟩
  · refine .inl ⟨hdash, ?_⟩
    unfold parseNext
    dsimp only
    rw [if_pos (mt (charAt_zero past).mp hdash)]

theorem parseNext_nil {p : Parsing} (hp : p.argv = []) : parseNext past validArgs p = p := by
  unfold parseNext
  rw [hp]

/-- A round takes at least one argument. -/
theorem parseNext_argv_suffix (p : Parsing) :
    (parseNext past validArgs p).argv <:+ p.argv.tail := by
  cases hp : p.argv with
  | nil => rw [parseNext_nil past validArgs hp, hp]; exact List.suffix_rfl
  | cons currarg rest =>
    rcases parseNext_cases past validArgs hp with
      ⟨-, h⟩ | ⟨-, arg, -, h⟩ | ⟨-, -, h⟩
    · rw [h]; exact List.suffix_rfl
    · rw [h]; exact collect_argv_suffix arg rest p.res
    · rw [h]; exact List.suffix_rfl

/-- A flag is set once for all. -/
theorem has_parseNext {p : Parsing} {c : Char} (h : p.res.has c = true) :
    (parseNext past validArgs p).res.has c = true := by
  cases hp : p.argv with
  | nil => rwa [parseNext_nil past validArgs hp]
  | cons currarg rest =>
    rcases parseNext_cases past validArgs hp with
      ⟨-, hn⟩ | ⟨-, arg, -, hn⟩ | ⟨-, -, hn⟩
    · rwa [hn]
    · rw [hn, has_collect, Function.update_apply]
      split_ifs
      · rfl
      · exact h
    · rwa [hn]

/-! ### Runs -/

section Run

variable (argv : List (List Char))

theorem parsing_succ (k : ℕ) :
    parsing past validArgs argv (k + 1) =
      parseNext past validArgs (parsing past validArgs argv k) :=
  Function.iterate_succ_apply' ..

theorem parsing_argv (k : ℕ) :
    (parsing past validArgs argv k).argv <:+ argv ∧
      (parsing past validArgs argv k).argv.length ≤ argv.length - k := by
  induction k with
  | zero => exact ⟨List.suffix_rfl, Nat.le_refl _⟩
  | succ k ih =>
    have hstep := parseNext_argv_suffix past validArgs (parsing past validArgs argv k)
    rw [← parsing_succ] at hstep
    refine ⟨(hstep.trans (List.tail_suffix _)).trans ih.1, ?_⟩
    have hle := hstep.length_le
    rw [List.length_tail] at hle
    omega

theorem has_parsing {k m : ℕ} (hkm : k ≤ m) {c : Char}
    (h : (parsing past validArgs argv k).res.has c = true) :
    (parsing past validArgs argv m).res.has c = true := by
  induction hkm with
  | refl => exact h
  | step _ ih =>
    rw [parsing_succ]
    exact has_parseNext past validArgs ih

theorem parse_eq {fuel : ℕ} (hf : argv.length ≤ fuel) :
    parse past validArgs argv fuel = some (parsing past validArgs argv argv.length).res := by
  have hguard : guarded (fun p => !p.argv.isEmpty) (parseNext past validArgs) =
      parseNext past validArgs := by
    funext p
    unfold guarded
    split_ifs with h
    · rfl
    · exact (parseNext_nil past validArgs (by simpa using h)).symm
  have hend : (parsing past validArgs argv argv.length).argv = [] := by
    have hle := (parsing_argv past validArgs argv argv.length).2
    rw [Nat.sub_self] at hle
    exact List.eq_nil_of_length_eq_zero (Nat.le_zero.mp hle)
  have hrun := whileLoop_of_iterate_guarded (t := fun p : Parsing => !p.argv.isEmpty)
    (f := parseNext past validArgs) (n := argv.length) (s := ⟨argv, {}⟩)
  rw [hguard] at hrun
  unfold parse
  have hdone : (!(parsing past validArgs argv argv.length).argv.isEmpty) = false := by
    rw [hend]
    rfl
  rw [whileLoop_of_le (hrun hdone) hf, Option.map_some]
  rfl

end Run

/-! ### Exactness -/

/-- The argument is the short or the long form of the option. -/
def Names (arg : List Char) (e : Argument) : Prop :=
  arg = ['-', e.shortOpt] ∨ arg = '-' :: '-' :: e.longOpt

variable {past validArgs}

instance (arg : List Char) (e : Argument) : Decidable (Names arg e) :=
  inferInstanceAs (Decidable (_ ∨ _))

variable (past validArgs) in
/-- A flag stands for an argument that names it, any other argument with a dash is skipped, and
nothing after the NUL of an argument is read. -/
structure Exact (argv : List (List Char)) (res : ArgResult) : Prop where
  has : ∀ c, res.has c = true → ∃ arg ∈ argv, ∃ e ∈ validArgs, e.shortOpt = c ∧ Names arg e
  rejected : ∀ k arg rest, (parsing past validArgs argv k).argv = arg :: rest →
    arg.head? = some '-' → (∀ e ∈ validArgs, ¬Names arg e) →
      parsing past validArgs argv (k + 1) = ⟨rest, (parsing past validArgs argv k).res⟩
  reads : ∀ k arg rest, (parsing past validArgs argv k).argv = arg :: rest →
    ∀ i ∈ readIndices past (arg :: rest), i ≤ arg.length

/-- The form of a dash and one more character, which is looked up right. -/
def IsShort (arg : List Char) : Prop := ∃ c, c ≠ '-' ∧ arg = ['-', c]

theorem lookup_of_short {arg : List Char} {rest : List (List Char)} (h : IsShort arg) :
    lookupIndex past (arg :: rest) = 1 ∧
      arg = ['-', charAt past (arg :: rest) (lookupIndex past (arg :: rest))] := by
  obtain ⟨c, hc, rfl⟩ := h
  have hindex : lookupIndex past (['-', c] :: rest) = 1 := if_pos ⟨hc, rfl⟩
  rw [hindex]
  exact ⟨rfl, rfl⟩

variable (past) in
theorem lookup_of_not_short {arg : List Char} (rest : List (List Char))
    (hdash : arg.head? = some '-') (hne : arg ≠ ['-']) (h : ¬IsShort arg) :
    2 ≤ arg.length ∧ lookupIndex past (arg :: rest) = 2 ∧
      charAt past (arg :: rest) (lookupIndex past (arg :: rest)) = arg.getD 2 '\x00' := by
  obtain ⟨cs, rfl⟩ := List.head?_eq_some_iff.mp hdash
  obtain ⟨c, ds, rfl⟩ := List.exists_cons_of_ne_nil fun h' : cs = [] => hne (by rw [h'])
  have hindex : lookupIndex past (('-' :: c :: ds) :: rest) = 2 := by
    refine if_neg ?_
    rintro ⟨hc, hlen⟩
    have hnil : ds = [] := List.eq_nil_of_length_eq_zero (by simpa using hlen)
    exact h ⟨c, hc, by rw [hnil]⟩
  rw [hindex]
  refine ⟨by simp, rfl, ?_⟩
  cases ds <;> simp [charAt]

theorem isValid_eq_some {c : Char} {arg : Argument} (h : isValid c validArgs = some arg) :
    arg ∈ validArgs ∧ arg.shortOpt = c :=
  ⟨List.mem_of_find?_eq_some h, by simpa using List.find?_some h⟩

theorem names_of_short {p : Parsing} {currarg : List Char} {rest : List (List Char)}
    {arg : Argument} (hp : p.argv = currarg :: rest) (hshort : IsShort currarg)
    (h : Sets past validArgs p arg) : arg ∈ validArgs ∧ Names currarg arg := by
  have hvalid := h.1
  rw [hp] at hvalid
  obtain ⟨hmem, hopt⟩ := isValid_eq_some hvalid
  refine ⟨hmem, .inl ?_⟩
  rw [hopt]
  exact (lookup_of_short hshort).2

variable (validArgs) in
/-- The round reads its argument right. Only an argument with a dash that is not a dash and one more
character can go wrong: a single dash does, and the others where their third character is the short
name of an option that this round can set, unless the argument names some option and that option is
named by some argument of the line. -/
def ReadRight (argv : List (List Char)) (p : Parsing) : Prop :=
  ∀ currarg rest, p.argv = currarg :: rest → currarg.head? = some '-' → ¬IsShort currarg →
    currarg ≠ ['-'] ∧ ∀ arg, isValid (currarg.getD 2 '\x00') validArgs = some arg →
      missesParam arg rest.head? = false → p.res.has arg.shortOpt = false →
        (∃ e ∈ validArgs, Names currarg e) ∧
        ∃ other ∈ argv, ∃ e ∈ validArgs, e.shortOpt = arg.shortOpt ∧ Names other e

section Right

variable {argv : List (List Char)}

/-- The option a round sets is named, and so is an option by the argument of the round. -/
theorem ReadRight.named {p : Parsing} {currarg : List Char} {rest : List (List Char)}
    {arg : Argument} (h : ReadRight validArgs argv p) (hp : p.argv = currarg :: rest)
    (hdash : currarg.head? = some '-') (hmem : currarg ∈ argv)
    (hset : Sets past validArgs p arg) :
    (∃ e ∈ validArgs, Names currarg e) ∧
      ∃ other ∈ argv, ∃ e ∈ validArgs, e.shortOpt = arg.shortOpt ∧ Names other e := by
  by_cases hshort : IsShort currarg
  · obtain ⟨hvalid, hnames⟩ := names_of_short hp hshort hset
    exact ⟨⟨arg, hvalid, hnames⟩, currarg, hmem, arg, hvalid, rfl, hnames⟩
  · obtain ⟨hne, hright⟩ := h currarg rest hp hdash hshort
    obtain ⟨-, -, hchar⟩ := lookup_of_not_short past rest hdash hne hshort
    obtain ⟨hvalid, hparam, hnew⟩ := hset
    rw [hp] at hvalid hparam
    rw [hchar] at hvalid
    exact hright arg hvalid hparam hnew

/-- The argument of a round is one of the line. -/
theorem mem_of_parsing {k : ℕ} {currarg : List Char} {rest : List (List Char)}
    (hp : (parsing past validArgs argv k).argv = currarg :: rest) : currarg ∈ argv := by
  have hsuffix := (parsing_argv past validArgs argv k).1
  rw [hp] at hsuffix
  exact hsuffix.subset List.mem_cons_self

theorem named_of_has (h : ∀ k, ReadRight validArgs argv (parsing past validArgs argv k)) {k : ℕ}
    {c : Char} (hc : (parsing past validArgs argv k).res.has c = true) :
    ∃ other ∈ argv, ∃ e ∈ validArgs, e.shortOpt = c ∧ Names other e := by
  induction k with
  | zero => cases hc
  | succ k ih =>
    rw [parsing_succ] at hc
    cases hp : (parsing past validArgs argv k).argv with
    | nil =>
      rw [parseNext_nil past validArgs hp] at hc
      exact ih hc
    | cons currarg rest =>
      rcases parseNext_cases past validArgs hp with
        ⟨-, hn⟩ | ⟨hdash, arg, hset, hn⟩ | ⟨-, -, hn⟩
      · rw [hn] at hc
        exact ih hc
      · rw [hn, has_collect, Function.update_apply] at hc
        split_ifs at hc with heq
        · rw [heq]
          exact ((h k).named hp hdash (mem_of_parsing hp) hset).2
        · exact ih hc
      · rw [hn] at hc
        exact ih hc

theorem exact_of_readRight
    (h : ∀ k, ReadRight validArgs argv (parsing past validArgs argv k)) :
    Exact past validArgs argv (parsing past validArgs argv argv.length).res where
  has _ hc := named_of_has h hc
  rejected k currarg rest hp hdash hnone := by
    rw [parsing_succ]
    rcases parseNext_cases past validArgs hp with
      ⟨hitem, -⟩ | ⟨-, arg, hset, -⟩ | ⟨-, -, hn⟩
    · exact absurd hdash hitem
    · obtain ⟨⟨e, he, hnames⟩, -⟩ := (h k).named hp hdash (mem_of_parsing hp) hset
      exact absurd hnames (hnone e he)
    · exact hn
  reads k currarg rest hp i hi := by
    unfold readIndices at hi
    split_ifs at hi with hitem
    · rw [List.mem_singleton.mp hi]
      exact Nat.zero_le _
    · have hdash : currarg.head? = some '-' := (charAt_zero past).mp (not_not.mp hitem)
      have hbound : 1 ≤ currarg.length ∧ lookupIndex past (currarg :: rest) ≤ currarg.length := by
        by_cases hshort : IsShort currarg
        · rw [(lookup_of_short hshort).1]
          obtain ⟨c, -, rfl⟩ := hshort
          exact ⟨by simp, by simp⟩
        · obtain ⟨hlen, hindex, -⟩ := lookup_of_not_short past rest hdash
            (h k currarg rest hp hdash hshort).1 hshort
          rw [hindex]
          exact ⟨by omega, hlen⟩
      simp only [List.mem_cons, List.not_mem_nil, or_false] at hi
      rcases hi with rfl | rfl | rfl
      · exact Nat.zero_le _
      · exact hbound.1
      · exact hbound.2

theorem readRight_of_exact
    (h : Exact past validArgs argv (parsing past validArgs argv argv.length).res) (k : ℕ) :
    ReadRight validArgs argv (parsing past validArgs argv k) := by
  intro currarg rest hp hdash hshort
  have hne : currarg ≠ ['-'] := by
    rintro rfl
    exact absurd (h.reads k _ rest hp 2 (by simp [readIndices, lookupIndex, charAt])) (by decide)
  refine ⟨hne, fun arg hvalid hparam hnew => ?_⟩
  obtain ⟨-, -, hchar⟩ := lookup_of_not_short past rest hdash hne hshort
  have hset : Sets past validArgs (parsing past validArgs argv k) arg := by
    refine ⟨?_, ?_, hnew⟩
    · rw [hp, hchar]
      exact hvalid
    · rw [hp]
      exact hparam
  have hhas : (parsing past validArgs argv (k + 1)).res.has arg.shortOpt = true := by
    rw [parsing_succ]
    rcases parseNext_cases past validArgs hp with
      ⟨hitem, -⟩ | ⟨-, arg', hset', hn⟩ | ⟨-, hnone, -⟩
    · exact absurd hdash hitem
    · obtain rfl : arg = arg' := Option.some.inj (hset.1.symm.trans hset'.1)
      rw [hn, has_collect, Function.update_self]
    · exact absurd hset (hnone arg)
  constructor
  · by_contra hnone
    have hsame := h.rejected k currarg rest hp hdash fun e he hnames => hnone ⟨e, he, hnames⟩
    rw [hsame] at hhas
    exact Bool.noConfusion (hnew.symm.trans hhas)
  · have hlt : k + 1 ≤ argv.length := by
      have hlen := (parsing_argv past validArgs argv k).2
      rw [hp, List.length_cons] at hlen
      omega
    exact h.has _ (has_parsing past validArgs argv hlt hhas)

end Right

variable (past validArgs) in
/-- **Arguments.** `parse` ends, and it is exact if and only if every round reads its argument
right. -/
theorem parse_exact_iff (argv : List (List Char)) :
    ∃ res, (∀ fuel ≥ argv.length, parse past validArgs argv fuel = some res) ∧
      (Exact past validArgs argv res ↔
        ∀ k, ReadRight validArgs argv (parsing past validArgs argv k)) :=
  ⟨_, fun _ hf => parse_eq past validArgs argv hf, readRight_of_exact, exact_of_readRight⟩

/-- `--hello` is taken for `-h`. -/
theorem not_parse_exact_hello :
    ∃ res, parse (fun _ => '\x00') cmdflags ["--hello".toList] 1 = some res ∧
      ¬Exact (fun _ => '\x00') cmdflags ["--hello".toList] res := by
  have hnone : ∀ arg ∈ ["--hello".toList], ∀ e ∈ cmdflags, ¬Names arg e := by decide
  refine ⟨_, rfl, fun h => ?_⟩
  obtain ⟨arg, harg, e, he, -, hnames⟩ := h.has 'h' rfl
  exact hnone arg harg e he hnames

end Parse

end Yanesemu.Util
