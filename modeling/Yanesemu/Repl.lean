import Yanesemu.CommandArgs
import Yanesemu.FileInput

/-!
# The read-eval loop of the debugger

`parse` and `CliDebugger::repl` of `core/clidbg.cpp`, with the command tables. What a command does
is in the modules before; here a command is executed or not. The loop runs on all that is ever
typed, and the debugger calls it again and again.

The member `cmd` has no initialiser. A line of blanks stands for the command before it, and as the
first line of all it makes the loop look up whatever is in the member, for which C++ gives no
meaning: that is `Outcome.unfound`, and the model stops there. It is the only way to get there
(`repl_sound_iff`).
-/

namespace Yanesemu

open EventRun Util

namespace CliDebugger

/-! ### Commands -/

inductive Command
  | help | «continue» | runframe | «break» | listBreak | delbreak | backtrace | next | step
  | status | readAddr | writeAddr | block | disassemble | disblock | trace | stopTrace | reset
  | quit | invalid | last
  deriving DecidableEq, Repr

/-- `CommandInfo` without the description, which nothing reads. -/
structure CommandInfo where
  name : String
  «abbrev» : String
  minargs : ℕ
  deriving DecidableEq, Repr

/-- The table `O`. -/
def commands : List (Command × CommandInfo) :=
  [(.help, ⟨"help", "h", 0⟩),
    (.continue, ⟨"continue", "c", 0⟩),
    (.runframe, ⟨"runframe", "nmi", 0⟩),
    (.break, ⟨"break", "b", 2⟩),
    (.listBreak, ⟨"listbreaks", "lb", 0⟩),
    (.delbreak, ⟨"deletebreak", "dlb", 1⟩),
    (.backtrace, ⟨"backtrace", "bt", 0⟩),
    (.next, ⟨"next", "n", 0⟩),
    (.step, ⟨"step", "s", 0⟩),
    (.status, ⟨"status", "st", 0⟩),
    (.readAddr, ⟨"read", "rd", 1⟩),
    (.writeAddr, ⟨"write", "wr", 2⟩),
    (.block, ⟨"block", "bl", 2⟩),
    (.disassemble, ⟨"disassemble", "dis", 1⟩),
    (.disblock, ⟨"disblock", "disb", 2⟩),
    (.trace, ⟨"trace", "tr", 1⟩),
    (.stopTrace, ⟨"stoptrace", "str", 0⟩),
    (.reset, ⟨"reset", "res", 0⟩),
    (.quit, ⟨"quit", "q", 0⟩)]

def cmdStrtab : List (List Char × Command) :=
  commands.flatMap fun c => [(c.2.name.toList, c.1), (c.2.«abbrev».toList, c.1)]

def cmdInfotab : List (Command × CommandInfo) := commands ++ [(.invalid, ⟨"", "", 0⟩)]

/-- The value of `exec_command`: whether to quit the loop. -/
def execCommand : Command → Bool
  | .continue | .runframe | .next | .step | .quit => true
  | _ => false

/-! ### The loop -/

/-- What `parse` leaves: the command, its arguments and the rest of the input. -/
structure Parsed where
  cmd : Command
  args : CmdArgs
  rest : List Char
  deriving DecidableEq, Repr

def parse (input : List Char) : Parsed :=
  let cmd := getword input
  if !cmd.ok then ⟨.quit, [], cmd.rest⟩
  else
    let args := getline cmd.rest '\n'
    if !args.ok then ⟨.quit, [], args.rest⟩
    else if cmd.str = [] then ⟨.last, [], args.rest⟩
    else match cmdStrtab.lookup cmd.str with
      | none => ⟨.invalid, [], args.rest⟩
      | some c => ⟨c, pieces args.str ' ', args.rest⟩

end CliDebugger

/-- `cmd` is `none` as long as nothing has been assigned to it. -/
structure CliDebugger where
  cmd : Option CliDebugger.Command := none
  cmdargs : CmdArgs := []
  deriving DecidableEq, Repr

namespace CliDebugger

inductive Outcome
  | unfound
  | refused (text : String)
  | executed
  deriving DecidableEq, Repr

/-- The second half of a round, with the command and arguments there are by then. -/
def outcome (d : CliDebugger) : Outcome :=
  match d.cmd.bind (cmdInfotab.lookup ·) with
  | none => .unfound
  | some info =>
    if d.cmdargs.length < info.minargs then .refused (notEnough info.name) else .executed

/-- A round of the loop: the input it began with, what it ran and what came of it. -/
structure Round where
  input : List Char
  dbg : CliDebugger
  outcome : Outcome
  deriving DecidableEq, Repr

/-- The debugger, the input to come, `exit`, and the rounds so far. -/
structure Repl where
  dbg : CliDebugger
  input : List Char
  exit : Bool
  rounds : List Round
  deriving DecidableEq, Repr

def round (s : Repl) : Repl :=
  let p := parse s.input
  let dbg : CliDebugger := if p.cmd ≠ .last then ⟨some p.cmd, p.args⟩ else s.dbg
  { dbg
    input := p.rest
    exit := dbg.outcome == .executed && dbg.cmd.any execCommand
    rounds := s.rounds ++ [⟨s.input, dbg, dbg.outcome⟩] }

/-- The run has met a lookup without an entry. -/
def Repl.stuck (s : Repl) : Bool := s.rounds.any (·.outcome == .unfound)

/-- `repl`, given up after `fuel` rounds. -/
def repl (fuel : ℕ) (s : Repl) : Option Repl :=
  whileLoop (fun s => !s.exit && !s.stuck) round fuel { s with exit := false }

/-- `n` calls of `repl`, one after the other. -/
def calls (fuel : ℕ) : ℕ → Repl → Option Repl
  | 0, s => some s
  | n + 1, s => (repl fuel s).bind (calls fuel n)

/-- A new debugger with this input to come. -/
def fresh (input : List Char) : Repl := ⟨{}, input, false, []⟩

/-! ### What a line can be -/

theorem lookup_cmdInfotab {c : Command} (hc : c ≠ .last) :
    (cmdInfotab.lookup c).isSome = true := by
  cases c
  case last => exact absurd rfl hc
  all_goals rfl

theorem lookup_cmdStrtab_ne_last {word : List Char} {c : Command}
    (h : cmdStrtab.lookup word = some c) : c ≠ .last := by
  have hall : ∀ entry ∈ cmdStrtab, entry.2 ≠ .last := by decide
  obtain ⟨l₁, l₂, hsplit, -⟩ := List.lookup_eq_some_iff.mp h
  exact hall (word, c) (by rw [hsplit]; simp)

/-- Only a line of blanks stands for the last command. -/
theorem parse_cmd_eq_last_iff {input : List Char} :
    (parse input).cmd = .last ↔ BlankLine input := by
  constructor
  · intro h
    unfold parse at h
    dsimp only at h
    split_ifs at h with hword hargs hempty
    · exact getword_empty_iff.mp ⟨by simpa using hword, hempty⟩
    · split at h
      · cases h
      · next hlookup => exact absurd h (lookup_cmdStrtab_ne_last hlookup)
  · intro h
    obtain ⟨hword, hempty⟩ := getword_empty_iff.mpr h
    unfold parse
    dsimp only
    rw [hword, ok_getline_of_blank h, hempty]
    rfl

theorem parse_nil : parse [] = ⟨.quit, [], []⟩ := rfl

theorem length_rest_parse_lt {input : List Char} (h : input ≠ []) :
    (parse input).rest.length < input.length := by
  have hrest : (parse input).rest =
      if !(getword input).ok then (getword input).rest
      else (getline (getword input).rest '\n').rest := by
    unfold parse
    dsimp only
    split_ifs
    · rfl
    · rfl
    · rfl
    · split <;> rfl
  rw [hrest]
  split_ifs with hok
  · have hnil : (getword input).rest = [] := by
      by_contra hne
      rw [ok_getword_iff.mpr hne] at hok
      cases hok
    rw [hnil]
    exact List.length_pos_iff.mpr h
  · have hne : (getword input).rest ≠ [] := ok_getword_iff.mp (by simpa using hok)
    exact (length_rest_getline_lt hne).trans_le length_rest_getword_le

/-! ### Rounds -/

/-- What the rounds of a debugger are to be like. -/
structure Sound (rounds : List Round) : Prop where
  found : ∀ r ∈ rounds, r.outcome ≠ .unfound
  enough : ∀ r ∈ rounds, r.outcome = .executed → ∀ cmd info, r.dbg.cmd = some cmd →
    cmdInfotab.lookup cmd = some info → info.minargs ≤ r.dbg.cmdargs.length
  repeats : rounds.IsChain fun r' r => BlankLine r.input → r.dbg = r'.dbg
  nothing : ∀ r ∈ rounds.head?, BlankLine r.input → r.outcome ≠ .executed

theorem Sound.nil : Sound [] := ⟨by simp, by simp, List.isChain_nil, by simp⟩

/-- A command is executed with the arguments it needs. -/
theorem enough_of_outcome {d : CliDebugger} (h : d.outcome = .executed) {cmd : Command}
    {info : CommandInfo} (hcmd : d.cmd = some cmd) (hinfo : cmdInfotab.lookup cmd = some info) :
    info.minargs ≤ d.cmdargs.length := by
  have hlookup : d.cmd.bind (cmdInfotab.lookup ·) = some info := by rw [hcmd]; exact hinfo
  unfold outcome at h
  rw [hlookup] at h
  dsimp only at h
  split_ifs at h with hlt
  exact Nat.le_of_not_lt hlt

theorem outcome_ne_unfound {d : CliDebugger} {cmd : Command} (hcmd : d.cmd = some cmd)
    (hne : cmd ≠ .last) : d.outcome ≠ .unfound := by
  obtain ⟨info, hinfo⟩ := Option.isSome_iff_exists.mp (lookup_cmdInfotab hne)
  have hlookup : d.cmd.bind (cmdInfotab.lookup ·) = some info := by rw [hcmd]; exact hinfo
  unfold outcome
  rw [hlookup]
  dsimp only
  split_ifs <;> exact Outcome.noConfusion

/-- The rounds so far are sound, and the debugger holds the command of the last one; before the
first one the input does not begin with a line of blanks. -/
structure Healthy (s : Repl) : Prop where
  sound : Sound s.rounds
  current : s.rounds = [] ∧ ¬BlankLine s.input ∨
    ∃ r cmd, s.rounds.getLast? = some r ∧ r.dbg = s.dbg ∧ s.dbg.cmd = some cmd ∧ cmd ≠ .last

/-- The debugger a round runs its command with. -/
def chosen (s : Repl) : CliDebugger :=
  let p := parse s.input
  if p.cmd ≠ .last then ⟨some p.cmd, p.args⟩ else s.dbg

theorem round_eq (s : Repl) :
    round s =
      { dbg := chosen s
        input := (parse s.input).rest
        exit := (chosen s).outcome == .executed && (chosen s).cmd.any execCommand
        rounds := s.rounds ++ [⟨s.input, chosen s, (chosen s).outcome⟩] } := rfl

theorem chosen_of_blank {s : Repl} (h : BlankLine s.input) : chosen s = s.dbg :=
  if_neg (not_not_intro (parse_cmd_eq_last_iff.mpr h))

/-- A round whose command is known keeps the rounds sound if a line of blanks repeats the one
before, and there is one before it. -/
theorem Sound.concat {rounds : List Round} (h : Sound rounds) {input : List Char}
    {d : CliDebugger} (hfound : d.outcome ≠ .unfound)
    (hrepeats : ∀ r ∈ rounds.getLast?, BlankLine input → d = r.dbg)
    (hfirst : rounds = [] → ¬BlankLine input) : Sound (rounds ++ [⟨input, d, d.outcome⟩]) where
  found r hr := by
    rcases List.mem_append.mp hr with hr | hr
    · exact h.found r hr
    · rw [List.mem_singleton.mp hr]
      exact hfound
  enough r hr := by
    rcases List.mem_append.mp hr with hr | hr
    · exact h.enough r hr
    · rw [List.mem_singleton.mp hr]
      exact fun hexec _ _ => enough_of_outcome hexec
  repeats := by
    rw [List.isChain_append]
    refine ⟨h.repeats, List.isChain_singleton _, ?_⟩
    rintro r hr _ ⟨⟩
    exact hrepeats r hr
  nothing r hr hblank := by
    by_cases hnil : rounds = []
    · rw [hnil] at hr
      cases hr
      exact absurd hblank (hfirst hnil)
    · rw [List.head?_append_of_ne_nil _ hnil] at hr
      exact h.nothing r hr hblank

/-- A round has a command: that of its line, or of the round before. -/
theorem Healthy.exists_cmd {s : Repl} (h : Healthy s) :
    ∃ cmd, (chosen s).cmd = some cmd ∧ cmd ≠ .last := by
  by_cases hblank : BlankLine s.input
  · rcases h.current with ⟨-, hnot⟩ | ⟨r, cmd, -, -, hcmd, hne⟩
    · exact absurd hblank hnot
    · exact ⟨cmd, by rw [chosen_of_blank hblank, hcmd], hne⟩
  · have hne := mt parse_cmd_eq_last_iff.mp hblank
    exact ⟨(parse s.input).cmd, congrArg CliDebugger.cmd (if_pos hne), hne⟩

theorem Healthy.round {s : Repl} (h : Healthy s) : Healthy (round s) := by
  obtain ⟨cmd, hcmd, hne⟩ := h.exists_cmd
  rw [round_eq]
  refine ⟨h.sound.concat (outcome_ne_unfound hcmd hne) ?_ ?_,
    .inr ⟨_, cmd, List.getLast?_concat, rfl, hcmd, hne⟩⟩
  · intro r hr hblank
    rcases h.current with ⟨hnil, -⟩ | ⟨r', -, hlast, hdbg, -⟩
    · rw [hnil] at hr
      cases hr
    · obtain rfl : r' = r := Option.some.inj (hlast.symm.trans hr)
      exact (chosen_of_blank hblank).trans hdbg.symm
  · intro hnil
    rcases h.current with ⟨-, hnot⟩ | ⟨r', -, hlast, -⟩
    · exact hnot
    · rw [hnil] at hlast
      cases hlast

/-! ### Calls -/

/-- At the end of the input the loop quits. -/
theorem exit_round_of_nil {s : Repl} (h : s.input = []) : (round s).exit = true := by
  have hchosen : chosen s = ⟨some .quit, []⟩ := by
    unfold chosen
    rw [h, parse_nil]
    rfl
  rw [round_eq, hchosen]
  rfl

/-- A call ends, at the latest with the input, and what every round keeps holds then. -/
theorem repl_ends {P : Repl → Prop} (hround : ∀ s, P s → P (round s)) {s : Repl}
    (hs : P { s with exit := false }) :
    ∃ s', (∀ fuel > s.input.length, repl fuel s = some s') ∧ P s' ∧
      s'.input.length ≤ s.input.length ∧ (s'.exit || s'.stuck) = true := by
  have hstep : ∀ m (t : Repl), (P t ∧ t.input.length ≤ s.input.length ∧
      ((!t.exit && !t.stuck) = true → t.input.length < m)) → (!t.exit && !t.stuck) = true →
      ∃ m' < m, P (round t) ∧ (round t).input.length ≤ s.input.length ∧
        ((!(round t).exit && !(round t).stuck) = true → (round t).input.length < m') := by
    rintro m t ⟨hP, hle, hlt⟩ ht
    have hlt' := hlt ht
    by_cases hnil : t.input = []
    · refine ⟨0, by omega, hround t hP, ?_, fun h => ?_⟩
      · show (parse t.input).rest.length ≤ _
        rw [hnil]
        exact Nat.zero_le _
      · rw [exit_round_of_nil hnil] at h
        cases h
    · have hdec : (round t).input.length < t.input.length := length_rest_parse_lt hnil
      exact ⟨(round t).input.length + 1, by omega, hround t hP, by omega, fun _ => by omega⟩
  obtain ⟨s', m', hrun, ⟨hP, hle, -⟩, hend⟩ :=
    whileLoop_total hstep ⟨hs, Nat.le_refl _, fun _ => Nat.lt_succ_self _⟩
  refine ⟨s', fun fuel hf => hrun fuel hf, hP, hle, ?_⟩
  cases hexit : s'.exit <;> cases hstuck : s'.stuck <;> simp_all

/-- All calls end, and what every round and every new call keep holds then. -/
theorem calls_end {P : Repl → Prop} (hround : ∀ s, P s → P (round s))
    (hcall : ∀ s, P s → P { s with exit := false }) (n : ℕ) {s : Repl} (hs : P s) :
    ∃ s', (∀ fuel > s.input.length, calls fuel n s = some s') ∧ P s' := by
  induction n generalizing s with
  | zero => exact ⟨s, fun _ _ => rfl, hs⟩
  | succ n ih =>
    obtain ⟨s₁, hrun, hP, hle, -⟩ := repl_ends hround (hcall s hs)
    obtain ⟨s', hcalls, hP'⟩ := ih hP
    refine ⟨s', fun fuel hf => ?_, hP'⟩
    rw [calls, hrun fuel hf]
    exact hcalls fuel (hle.trans_lt hf)

theorem healthy_fresh {input : List Char} (h : ¬BlankLine input) : Healthy (fresh input) :=
  ⟨Sound.nil, .inl ⟨rfl, h⟩⟩

/-- One of the rounds looked up a command that was never set. -/
def Failed (s : Repl) : Prop := ∃ r ∈ s.rounds, r.outcome = .unfound

theorem Failed.round {s : Repl} (h : Failed s) : Failed (round s) := by
  obtain ⟨r, hr, hout⟩ := h
  exact ⟨r, List.mem_append_left _ hr, hout⟩

/-- A new debugger fails on a line of blanks. -/
theorem failed_round_fresh {input : List Char} (h : BlankLine input) :
    Failed (round (fresh input)) := by
  have hchosen : chosen (fresh input) = {} := chosen_of_blank h
  rw [round_eq, hchosen]
  exact ⟨_, List.mem_append_right _ (List.mem_singleton_self _), rfl⟩

theorem Failed.not_sound {s : Repl} (h : Failed s) : ¬Sound s.rounds := by
  obtain ⟨r, hr, hout⟩ := h
  exact fun hsound => hsound.found r hr hout

/-- **The loop.** Whatever is typed and however often the debugger calls it, the loop ends, and its
rounds are as they are to be unless the first line of all is one of blanks. -/
theorem repl_sound_iff (input : List Char) (n : ℕ) :
    ∃ s, (∀ fuel > input.length, calls fuel n (fresh input) = some s) ∧
      (Sound s.rounds ↔ n = 0 ∨ ¬BlankLine input) := by
  by_cases hblank : BlankLine input
  · cases n with
    | zero => exact ⟨fresh input, fun _ _ => rfl, fun _ => .inl rfl, fun _ => Sound.nil⟩
    | succ n =>
      have hfirst : ∀ s, Failed s ∨ s = fresh input → Failed (round s) ∨ round s = fresh input := by
        rintro s (hs | rfl)
        · exact .inl hs.round
        · exact .inl (failed_round_fresh hblank)
      obtain ⟨s₁, hrun, hs₁, hle, hend⟩ := repl_ends hfirst (s := fresh input) (.inr rfl)
      have hfailed : Failed s₁ := by
        rcases hs₁ with hs₁ | rfl
        · exact hs₁
        · cases hend
      obtain ⟨s, hcalls, hs⟩ := calls_end (fun _ h => h.round) (fun _ h => h) n hfailed
      refine ⟨s, fun fuel hf => ?_, ?_⟩
      · rw [calls, hrun fuel hf]
        exact hcalls fuel (hle.trans_lt hf)
      · refine ⟨fun h => absurd h hs.not_sound, ?_⟩
        rintro (h | h)
        · cases h
        · exact absurd hblank h
  · obtain ⟨s, hrun, hs⟩ :=
      calls_end (fun _ h => h.round) (fun _ h => ⟨h.sound, h.current⟩) n (healthy_fresh hblank)
    exact ⟨s, hrun, fun _ => .inr hblank, fun _ => hs.sound⟩

/-- `<Enter>` on a new debugger. -/
theorem not_repl_sound_enter :
    ∃ s, calls 2 1 (fresh ['\n']) = some s ∧ ¬Sound s.rounds :=
  ⟨_, rfl, fun h => h.found _ (List.mem_singleton_self _) rfl⟩

end CliDebugger

end Yanesemu
