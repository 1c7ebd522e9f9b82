import Mathlib.Order.Bounds.Basic
import Yanesemu.Backtrace
import Yanesemu.CommandArgs

/-!
# Breakpoints

The commands `break` and `deletebreak` change the breakpoints, and every access of the CPU is
compared with them. The comparison includes both ends and finds the first breakpoint
(`raises_iff`), whatever commands and accesses came before. Every breakpoint can be typed
(`breakArgs_typedArgs`); but `break` wants its end above its start, so it refuses a single address,
which is also what an omitted end stands for.
-/

namespace Yanesemu.Debugger

open Interaction EventRun Util

variable {σ : Type} {B : Handler cpuSig σ} {cb : BreakCallback}

/-! ### Accesses -/

/-- The breakpoint is for accesses of this kind to this address. -/
def Hits (addr : Uint16) (mode : AccessMode) (p : Breakpoint) : Prop :=
  p.mode = mode ∧ p.start.toNat ≤ addr.toNat ∧ addr.toNat ≤ p.last.toNat

/-- The indexes of the breakpoints an access hits. -/
def hitsAt (d : Debugger) (addr : Uint16) (mode : AccessMode) : Set ℕ :=
  {i | ∃ p, d.breakvec[i]? = some p ∧ Hits addr mode p}

/-- The access delivers a BREAK event with this index. -/
def Raises (B : Handler cpuSig σ) (callback : Option BreakCallback) (d : Debugger) (x : Access σ)
    (index : ℕ) : Prop :=
  ∃ new, (access B callback d x).events = new ++ d.events ∧
    ∃ ev ∈ new, ev.type = .brk ∧ ev.index = index

/-- The comparison finds the smallest index. -/
theorem findBreak_eq_some_iff (d : Debugger) (addr : Uint16) (mode : AccessMode) (i : ℕ) :
    d.findBreak addr mode = some i ↔ IsLeast (d.hitsAt addr mode) i := by
  have hhits (p : Breakpoint) : (p.mode == mode && decide (p.start.toNat ≤ addr.toNat) &&
      decide (addr.toNat ≤ p.last.toNat)) = true ↔ Hits addr mode p := by
    simp [Hits, and_assoc]
  unfold findBreak
  rw [List.findIdx?_eq_some_iff_getElem]
  constructor
  · rintro ⟨hlen, hi, hbefore⟩
    refine ⟨⟨_, List.getElem?_eq_getElem hlen, (hhits _).mp hi⟩, ?_⟩
    rintro j ⟨p, hp, hj⟩
    by_contra hlt
    obtain ⟨hjlen, rfl⟩ := List.getElem?_eq_some_iff.mp hp
    exact hbefore j (by omega) ((hhits _).mpr hj)
  · rintro ⟨⟨p, hp, hi⟩, hleast⟩
    obtain ⟨hlen, rfl⟩ := List.getElem?_eq_some_iff.mp hp
    refine ⟨hlen, (hhits _).mpr hi, fun j hj hhit => ?_⟩
    have hle := hleast ⟨_, List.getElem?_eq_getElem (by omega), (hhits _).mp hhit⟩
    omega

section Events

variable (hcb : ∀ c ev e, (post B (cb c ev) e).chip.events = e.chip.events) (c : Cpu)
  (st : Cpu.Status) (addr : Uint16) (mode : AccessMode) (e : Sys Debugger σ)
include hcb

theorem events_deliver (ev : Event) :
    (post B (deliver cb c ev) e).chip.events = ev :: e.chip.events := by
  unfold deliver
  rw [post_bind, hcb]
  rfl

theorem events_checkBreak : (post B (checkBreak cb c st addr mode) e).chip.events =
    ((e.chip.findBreak addr mode).map fun i => ⟨.brk, st, i⟩).toList ++ e.chip.events := by
  unfold checkBreak
  rw [post_bind, val_get, post_get]
  cases e.chip.findBreak addr mode with
  | none => rfl
  | some index => exact events_deliver hcb c e _

theorem events_checkStop : ∃ stops, (post B (checkStop cb c st addr mode) e).chip.events =
    stops ++ e.chip.events ∧ ∀ ev ∈ stops, ev.type = .fetch := by
  unfold checkStop
  rw [post_bind, val_get, post_get]
  cases e.chip.nextstop with
  | none => exact ⟨[], rfl, by simp⟩
  | some stop =>
    by_cases hv : mode = .r ∧ IsVector addr
    · exact ⟨[], by simp [hv], by simp⟩
    · by_cases ha : mode = .x ∧ addr = stop
      · exact ⟨[⟨.fetch, st, 0⟩], by simp [ha, events_deliver hcb], by simp⟩
      · exact ⟨[], by simp [hv, ha], by simp⟩

omit c st addr mode e in
/-- **Accesses.** An access raises a BREAK event exactly if it hits a breakpoint, and the index is
the smallest one. -/
theorem raises_iff {d : Debugger} (hq : d.quit = false) (x : Access σ) (i : ℕ) :
    Raises B (some cb) d x i ↔ IsLeast (d.hitsAt x.addr x.mode) i := by
  rw [← findBreak_eq_some_iff]
  have hstart : ∀ e : Sys Debugger σ,
      e = (if x.mode = .x then ⟨d.updateBacktrace x.st, x.env⟩ else ⟨d, x.env⟩) →
      e.chip.events = d.events ∧
        e.chip.findBreak x.addr x.mode = d.findBreak x.addr x.mode := by
    rintro e rfl
    obtain ⟨-, hevents, -, hbreakvec⟩ := updateBacktrace_frame x.st d
    unfold findBreak
    split
    · exact ⟨hevents, by rw [hbreakvec]⟩
    · exact ⟨rfl, rfl⟩
  obtain ⟨hevents, hfind⟩ := hstart _ rfl
  obtain ⟨stops, hstops, hfetch⟩ := events_checkStop hcb x.cpu x.st x.addr x.mode
    (post B (checkBreak cb x.cpu x.st x.addr x.mode)
      (if x.mode = .x then ⟨d.updateBacktrace x.st, x.env⟩ else ⟨d, x.env⟩))
  have hall : (access B (some cb) d x).events =
      stops ++ ((d.findBreak x.addr x.mode).map fun i => ⟨.brk, x.st, i⟩).toList ++ d.events := by
    unfold access
    rw [fetchCallback_watches _ _ _ _ _ hq, hstops, events_checkBreak hcb, hevents, hfind,
      List.append_assoc]
  unfold Raises
  rw [hall]
  constructor
  · rintro ⟨new, hnew, ev, hev, htype, hindex⟩
    rw [← List.append_cancel_right hnew] at hev
    rcases List.mem_append.mp hev with hev | hev
    · rw [hfetch ev hev] at htype
      cases htype
    · obtain ⟨j, hj, rfl⟩ := Option.map_eq_some_iff.mp (Option.mem_toList.mp hev)
      rw [hj]
      exact congrArg some hindex
  · intro hi
    refine ⟨_, rfl, ⟨.brk, x.st, i⟩, List.mem_append_right _ ?_, rfl, rfl⟩
    rw [hi]
    exact List.mem_singleton_self _

end Events

/-! ### Commands -/

/-- What happens in a session, as far as the breakpoints are concerned. -/
inductive SessionOp (σ : Type)
  | access (x : Access σ)
  | brk (args : CmdArgs)
  | delbreak (args : CmdArgs)

/-- A refused command changes nothing. -/
def sessionStep (B : Handler cpuSig σ) (callback : Option BreakCallback) (d : Debugger) :
    SessionOp σ → Debugger
  | .access x => access B callback d x
  | .brk args =>
    match execBreak args d with
    | .ok r => r.2
    | .error _ => d
  | .delbreak args =>
    match execDelbreak args d with
    | .ok d' => d'
    | .error _ => d

/-- **Addresses.** A number as the debugger prints it is read as itself. -/
theorem strconv_fmtHex {w : ℕ} (width : ℕ) (v : BitVec w) :
    strconv w (fmtHex width v.toNat).toList 16 = some v := by
  obtain ⟨hne, hdigits, hnumber⟩ := denotes_toDigits v.toNat
  have hpad : ∀ c ∈ ((Nat.toDigits 16 v.toNat).map Char.toUpper).leftpad width '0',
      (digit 16 c).isSome := by
    intro c hc
    rcases List.mem_append.mp hc with hc | hc
    · rw [List.eq_of_mem_replicate hc]
      decide
    · exact hdigits c hc
  unfold fmtHex
  rw [String.toList_ofList, strconv_eq_some_iff, takeWhile_of_digits hpad]
  refine ⟨?_, hpad, ?_⟩
  · exact List.append_ne_nil_of_right_ne_nil _ hne
  · rw [number_leftpad 16 (by decide), hnumber]

/-- What the arguments of `break` say, the end being the start if it is left out. -/
def breakArgs : CmdArgs → Option Breakpoint
  | [modeArg, startArg] =>
    (breakMode modeArg).bind fun mode => (strconv 16 startArg 16).map fun start =>
      ⟨start, start, mode⟩
  | modeArg :: startArg :: lastArg :: _ =>
    (breakMode modeArg).bind fun mode => (strconv 16 startArg 16).bind fun start =>
      (strconv 16 lastArg 16).map fun last => ⟨start, last, mode⟩
  | _ => none

/-- A breakpoint as it is typed. -/
def typedArgs (p : Breakpoint) : CmdArgs :=
  [match p.mode with
    | .r => ['r']
    | .w => ['w']
    | .x => ['x'],
    (fmtHex 4 p.start.toNat).toList, (fmtHex 4 p.last.toNat).toList]

/-- Every breakpoint can be typed. -/
theorem breakArgs_typedArgs (p : Breakpoint) : breakArgs (typedArgs p) = some p := by
  have hmode : breakMode (match p.mode with
      | .r => ['r']
      | .w => ['w']
      | .x => ['x']) = some p.mode := by
    cases p.mode <;> rfl
  unfold breakArgs typedArgs
  dsimp only
  rw [hmode, strconv_fmtHex, strconv_fmtHex]
  rfl

/-- Arguments that say something are refused if the end is not above the start. -/
theorem execBreak_of_args {args : CmdArgs} {p : Breakpoint} (h : breakArgs args = some p)
    (d : Debugger) : execBreak args d =
      if p.last.toNat ≤ p.start.toNat then .error "Invalid range.\n" else .ok (d.setbreak p) := by
  match args with
  | [] => cases h
  | [_] => cases h
  | [modeArg, startArg] =>
    obtain ⟨mode, hmode, h⟩ := Option.bind_eq_some_iff.mp h
    obtain ⟨start, hstart, rfl⟩ := Option.map_eq_some_iff.mp h
    simp [execBreak, hmode, hstart]
  | modeArg :: startArg :: lastArg :: _ =>
    obtain ⟨mode, hmode, h⟩ := Option.bind_eq_some_iff.mp h
    obtain ⟨start, hstart, h⟩ := Option.bind_eq_some_iff.mp h
    obtain ⟨last, hlast, rfl⟩ := Option.map_eq_some_iff.mp h
    simp [execBreak, hmode, hstart, hlast]

/-- The breakpoint is set, and in every later session an access raises a BREAK event exactly if it
hits a breakpoint set then, with the smallest index. -/
def SetsBreak (B : Handler cpuSig σ) (callback : Option BreakCallback) (args : CmdArgs)
    (d : Debugger) (p : Breakpoint) : Prop :=
  ∃ d', execBreak args d = .ok (d.breakvec.length, d') ∧ d'.breakvec = d.breakvec ++ [p] ∧
    ∀ ops, ∀ m ∈ moments (sessionStep B callback) d' ops, ∀ x, m.2 = .access x →
      m.1.quit = false → ∀ i, Raises B callback m.1 x i ↔ IsLeast (m.1.hitsAt x.addr x.mode) i

/-- **Breakpoints.** `break` sets the breakpoint its arguments say, and from then on accesses raise
the events they should, exactly if the end is above the start. -/
theorem break_iff (hcb : ∀ c ev e, (post B (cb c ev) e).chip.events = e.chip.events)
    {args : CmdArgs} {p : Breakpoint} (hargs : breakArgs args = some p) (d : Debugger) :
    SetsBreak B (some cb) args d p ↔ p.start.toNat < p.last.toNat := by
  unfold SetsBreak
  rw [execBreak_of_args hargs]
  constructor
  · rintro ⟨d', h, -⟩
    by_contra hle
    rw [if_pos (Nat.le_of_not_lt hle)] at h
    cases h
  · intro hlt
    rw [if_neg (Nat.not_le_of_lt hlt)]
    refine ⟨_, rfl, rfl, ?_⟩
    rintro ops m - x - hq i
    exact raises_iff hcb hq x i

/-- Reads from `0x10` to `0x20`. -/
theorem break_range : SetsBreak flatMem (some stepper) [['r'], ['1', '0'], ['2', '0']] {}
    ⟨0x10, 0x20, .r⟩ := by
  have hcb (c : Cpu) (ev : Event) (e : Sys Debugger Mem) :
      (post flatMem (stepper c ev) e).chip.events = e.chip.events := by
    unfold stepper
    cases ev.type with
    | fetch => simp [step]
    | brk => rfl
  exact (break_iff hcb (by decide) {}).mpr (by decide)

/-- A single address is refused, written twice or once. -/
theorem break_single : execBreak [['x'], ['8', '0', '0', '0'], ['8', '0', '0', '0']] {} =
      .error "Invalid range.\n" ∧
    execBreak [['x'], ['8', '0', '0', '0']] {} = .error "Invalid range.\n" ∧
    ¬SetsBreak flatMem (some stepper) [['x'], ['8', '0', '0', '0']] {} ⟨0x8000, 0x8000, .x⟩ := by
  have hargs : breakArgs [['x'], ['8', '0', '0', '0']] = some ⟨0x8000, 0x8000, .x⟩ := by decide
  have hrefused : execBreak [['x'], ['8', '0', '0', '0']] {} = .error "Invalid range.\n" :=
    execBreak_of_args hargs {}
  refine ⟨execBreak_of_args (p := ⟨0x8000, 0x8000, .x⟩) (by decide) {}, hrefused, ?_⟩
  rintro ⟨d', h, -⟩
  rw [hrefused] at h
  cases h

end Yanesemu.Debugger
