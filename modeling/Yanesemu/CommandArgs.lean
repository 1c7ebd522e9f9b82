import Yanesemu.CliDebugger
import Yanesemu.StringOps

/-!
# Commands with their arguments

The commands of `core/clidbg.cpp` that set and delete breakpoints and read and write an address,
with their arguments as `strsplit` leaves them. A command that is not carried out prints why, which
is what `.error` holds; the texts of the others are left out. `repl` has counted the arguments.

All numbers go through `strconv`, so a command takes what `strconv` takes: a number that fits, with
anything after it (`noAddress_iff`, `refused_iff`).
-/

namespace Yanesemu

open Util

abbrev CmdArgs : Type := List (List Char)

namespace Debugger

/-- `setbreak`, with the index it returns. -/
def setbreak (d : Debugger) (p : Breakpoint) : ℕ × Debugger :=
  (d.breakvec.length, { d with breakvec := d.breakvec ++ [p] })

def delbreak (d : Debugger) (index : ℕ) : Debugger :=
  { d with breakvec := d.breakvec.eraseIdx index }

def write (addr : Uint16) (value : Uint8) (e : Emulator) : Emulator := e.ramWrite (addr, value)

end Debugger

/-- What `repl` prints if there are fewer arguments than the command needs. -/
def notEnough (name : String) : String :=
  "Not enough arguments for command " ++ name ++ ". Try 'help'.\n"

/-- The letter of a breakpoint's mode. -/
def breakMode : List Char → Option AccessMode
  | ['r'] => some .r
  | ['w'] => some .w
  | ['x'] => some .x
  | _ => none

def execBreak (args : CmdArgs) (d : Debugger) : Except String (ℕ × Debugger) :=
  match args with
  | modeArg :: startArg :: rest =>
    match breakMode modeArg with
    | none => .error "Invalid mode for breakpoint. Try 'help'.\n"
    | some mode =>
      let start := strconv 16 startArg 16
      let last := match rest with
        | [] => start
        | lastArg :: _ => strconv 16 lastArg 16
      match start, last with
      | some start, some last =>
        if last.toNat ≤ start.toNat then .error "Invalid range.\n"
        else .ok (d.setbreak ⟨start, last, mode⟩)
      | _, _ => .error "Invalid range.\n"
  | _ => .error (notEnough "break")

def execDelbreak (args : CmdArgs) (d : Debugger) : Except String Debugger :=
  match args with
  | indexArg :: _ =>
    match strconv 16 indexArg 16 with
    | none => .error "Index not valid.\n"
    | some index =>
      if d.breakvec.length ≤ index.toNat then .error "Index not valid.\n"
      else .ok (d.delbreak index.toNat)
  | _ => .error (notEnough "deletebreak")

def execReadAddr (args : CmdArgs) (e : Emulator) : Except String (Uint8 × Emulator) :=
  match args with
  | addrArg :: _ =>
    match strconv 16 addrArg 16 with
    | none => .error ("Invalid address: " ++ String.ofList addrArg ++ ".\n")
    | some addr => .ok (Debugger.read addr e)
  | _ => .error (notEnough "read")

/-- An address in the cartridge is only warned about. -/
def execWriteAddr (args : CmdArgs) (e : Emulator) : Except String Emulator :=
  match args with
  | addrArg :: newvalArg :: _ =>
    match strconv 16 addrArg 16, strconv 8 newvalArg 16 with
    | some addr, some newval => .ok (Debugger.write addr newval e)
    | _, _ => .error "Invalid value found while parsing command arguments.\n"
  | _ => .error (notEnough "write")

section Args

/-- The command is not carried out. -/
def Refused {α : Type} : Except String α → Prop
  | .error _ => True
  | .ok _ => False

/-- No command takes `str` for an address or an index. -/
structure NoAddress (str : List Char) : Prop where
  breakStart : ∀ mode rest d, Refused (execBreak (mode :: str :: rest) d)
  breakLast : ∀ mode start rest d, Refused (execBreak (mode :: start :: str :: rest) d)
  delbreak : ∀ rest d, Refused (execDelbreak (str :: rest) d)
  read : ∀ rest e, Refused (execReadAddr (str :: rest) e)
  write : ∀ newval rest e, Refused (execWriteAddr (str :: newval :: rest) e)

/-- No command takes `str` for the value of a byte. -/
def NoValue (str : List Char) : Prop :=
  ∀ addr rest e, Refused (execWriteAddr (addr :: str :: rest) e)

variable {str : List Char}

theorem noAddress_of_none (h : strconv 16 str 16 = none) : NoAddress str := by
  constructor
  · intro mode rest d
    cases hmode : breakMode mode <;> simp only [execBreak, hmode, h] <;> trivial
  · intro mode start rest d
    cases hmode : breakMode mode <;> cases hstart : strconv 16 start 16 <;>
      simp only [execBreak, hmode, hstart, h] <;> trivial
  · intro rest d
    simp only [execDelbreak, h]
    trivial
  · intro rest e
    simp only [execReadAddr, h]
    trivial
  · intro newval rest e
    simp only [execWriteAddr, h]
    trivial

theorem noAddress_iff : NoAddress str ↔ strconv 16 str 16 = none := by
  refine ⟨fun h => ?_, noAddress_of_none⟩
  cases hstr : strconv 16 str 16 with
  | none => rfl
  | some addr =>
    have hread := h.read [] (.construct Emulator.zeroed)
    simp only [execReadAddr, hstr] at hread
    exact hread.elim

theorem noValue_iff : NoValue str ↔ strconv 8 str 16 = none := by
  constructor
  · intro h
    have haddr : strconv 16 ['0'] 16 = some 0 := by decide
    have hwrite := h ['0'] [] (.construct Emulator.zeroed)
    cases hstr : strconv 8 str 16 with
    | none => rfl
    | some newval =>
      simp only [execWriteAddr, haddr, hstr] at hwrite
      exact hwrite.elim
  · intro h addr rest e
    cases haddr : strconv 16 addr 16 <;> simp only [execWriteAddr, haddr, h] <;> trivial

/-- Strings that denote no number that fits are refused, but for those that go on after one. -/
theorem refused_iff {w : ℕ} :
    ((∀ v : BitVec w, ¬Denotes 16 str v.toNat) → strconv w str 16 = none) ↔
      ¬NumberThenMore w 16 str := by
  constructor
  · intro h hmore
    obtain ⟨⟨v, hv⟩, hno⟩ := strconv_of_numberThenMore hmore
    rw [h fun v => hno v.toNat] at hv
    cases hv
  · intro hmore hno
    rw [Option.eq_none_iff_forall_ne_some]
    intro v hv
    exact hno v ((strconv_eq_some_of_not_more hmore).mp hv)

/-- **Arguments.** `strconv` takes exactly the strings that are a number that fits, as that number,
unless the string goes on after one with something that is no digit. What is no such number is
then refused as an address, an index or a value. -/
theorem strconv_whole_iff (str : List Char) :
    (∀ w, (∀ v : BitVec w, strconv w str 16 = some v ↔ Denotes 16 str v.toNat) ↔
      ¬NumberThenMore w 16 str) ∧
    (((∀ v : Uint16, ¬Denotes 16 str v.toNat) → NoAddress str) ↔ ¬NumberThenMore 16 16 str) ∧
    (((∀ v : Uint8, ¬Denotes 16 str v.toNat) → NoValue str) ↔ ¬NumberThenMore 8 16 str) := by
  refine ⟨fun w => ?_, ?_, ?_⟩
  · constructor
    · intro h hmore
      obtain ⟨⟨v, hv⟩, hno⟩ := strconv_of_numberThenMore hmore
      exact hno v.toNat ((h v).mp hv)
    · intro hmore v
      exact strconv_eq_some_of_not_more hmore
  · rw [noAddress_iff]
    exact refused_iff
  · rw [noValue_iff]
    exact refused_iff

/-- `12zz` is read as 12, and `0q` deletes the first breakpoint. -/
theorem strconv_takes_prefix :
    strconv 16 ['1', '2', 'z', 'z'] 16 = some 0x12 ∧
      (∀ v, ¬Denotes 16 ['1', '2', 'z', 'z'] v) ∧
      ¬(∀ v : Uint16, strconv 16 ['1', '2', 'z', 'z'] 16 = some v ↔
        Denotes 16 ['1', '2', 'z', 'z'] v.toNat) ∧
      execDelbreak [['0', 'q']] { breakvec := [⟨0x10, 0x20, .r⟩] } = .ok {} := by
  have hread : strconv 16 ['1', '2', 'z', 'z'] 16 = some 0x12 := by decide
  have hno (v : ℕ) : ¬Denotes 16 ['1', '2', 'z', 'z'] v := by
    rintro ⟨-, hdigits, -⟩
    exact absurd (hdigits 'z' (by decide)) (by decide)
  exact ⟨hread, hno, fun h => hno _ ((h 0x12).mp hread), by rfl⟩

end Args

end Yanesemu
