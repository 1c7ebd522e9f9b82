import Yanesemu.CpuEffects
import Yanesemu.Isa

/-!
# Disassembly

`disassemble` of `core/instrinfo.cpp` prints the operand of an opcode it finds in `INSTR_MODE` in
the format of its addressing mode, and `[Unknown]` for any other opcode.

1. A text names one instruction: name, mode and the operand bytes it shows can be read off it
   (`Instr.text_inj`).
2. `Tells` compares a text with a step of the CPU: the operation it names, in the mode it shows
   and on the operand it shows, is what was executed.
3. The two tables agree but for two rows (`executeTab_instrMode`). `tells_iff` says what that
   means for the states of the CPU.
4. What an operation is for, the functions of the source aside, is said by the machine of
   `Isa.State`, and a step that a text tells is one of that machine (`Tells.view`).
-/

namespace Yanesemu

/-! ### Formats -/

/-- A replacement field with the format `0<width>X`. -/
def fmtHex (width n : ℕ) : String :=
  String.ofList (((Nat.toDigits 16 n).map Char.toUpper).leftpad width '0')

/-- The name of a row as a string, `#name`. -/
def Mnemonic.str : Mnemonic → String
  | adc => "adc"
  | and => "and"
  | asl => "asl"
  | bcc => "bcc"
  | bcs => "bcs"
  | beq => "beq"
  | bit => "bit"
  | bmi => "bmi"
  | bne => "bne"
  | bpl => "bpl"
  | brk => "brk"
  | bvc => "bvc"
  | bvs => "bvs"
  | clc => "clc"
  | cld => "cld"
  | cli => "cli"
  | clv => "clv"
  | cmp => "cmp"
  | cpx => "cpx"
  | cpy => "cpy"
  | dec => "dec"
  | dex => "dex"
  | dey => "dey"
  | eor => "eor"
  | inc => "inc"
  | inx => "inx"
  | iny => "iny"
  | jmp => "jmp"
  | jsr => "jsr"
  | lda => "lda"
  | ldx => "ldx"
  | ldy => "ldy"
  | lsr => "lsr"
  | nop => "nop"
  | ora => "ora"
  | pha => "pha"
  | php => "php"
  | pla => "pla"
  | plp => "plp"
  | rol => "rol"
  | ror => "ror"
  | rti => "rti"
  | rts => "rts"
  | sbc => "sbc"
  | sec => "sec"
  | sei => "sei"
  | sta => "sta"
  | stx => "stx"
  | sty => "sty"
  | tax => "tax"
  | tay => "tay"
  | tsx => "tsx"
  | txa => "txa"
  | txs => "txs"
  | tya => "tya"

/-- The functions `disass_<mode>`. -/
def disass (mode : AddrMode) (name : String) (oplow ophigh : Uint8) : String :=
  let low := fmtHex 2 oplow.toNat
  let high := fmtHex 2 ophigh.toNat
  match mode with
  | .impld => name
  | .accum => name ++ " A"
  | .branch => name ++ " " ++ toString oplow.toInt
  | .imm => name ++ " #$" ++ low
  | .zero => name ++ " $" ++ low
  | .zerox => name ++ " $" ++ low ++ ",x"
  | .zeroy => name ++ " $" ++ low ++ ",y"
  | .indx => name ++ " ($" ++ low ++ ",x)"
  | .indy => name ++ " ($" ++ low ++ "),y"
  | .abs => name ++ " $" ++ high ++ low
  | .absx => name ++ " $" ++ high ++ low ++ ",x"
  | .absy => name ++ " $" ++ high ++ low ++ ",y"
  | .ind => name ++ " ($" ++ high ++ low ++ ")"

def disassemble (instr oplow ophigh : Uint8) : String :=
  match instrMode instr with
  | some (name, mode) => disass mode name.str oplow ophigh
  | none => "[Unknown]"

/-! ### What a text names -/

/-- An instruction with its operand bytes. -/
structure Instr where
  name : Mnemonic
  mode : AddrMode
  low : Uint8
  high : Uint8
  deriving DecidableEq, Repr

namespace Instr

/-- The operand bytes the mode has. -/
def bytes (i : Instr) : List Uint8 := [i.low, i.high].take (i.mode.numBytes - 1)

def text (i : Instr) : String := disass i.mode i.name.str i.low i.high

end Instr

/-! ### Names -/

namespace Mnemonic

/-- The names of the table. -/
def all : List Mnemonic :=
  [.adc, .and, .asl, .bcc, .bcs, .beq, .bit, .bmi, .bne, .bpl, .brk, .bvc, .bvs, .clc, .cld,
    .cli, .clv, .cmp, .cpx, .cpy, .dec, .dex, .dey, .eor, .inc, .inx, .iny, .jmp, .jsr, .lda,
    .ldx, .ldy, .lsr, .nop, .ora, .pha, .php, .pla, .plp, .rol, .ror, .rti, .rts, .sbc, .sec,
    .sei, .sta, .stx, .sty, .tax, .tay, .tsx, .txa, .txs, .tya]

def ofStr (s : List Char) : Option Mnemonic := all.find? fun name => name.str.toList == s

theorem ofStr_str (name : Mnemonic) : ofStr name.str.toList = some name := by
  cases name <;> decide

theorem length_str (name : Mnemonic) : name.str.toList.length = 3 := by
  cases name <;> decide

end Mnemonic

/-! ### Operands -/

/-- The digits of a byte. -/
def hexHigh (v : Uint8) : Char := (Nat.digitChar (v.toNat / 16)).toUpper

def hexLow (v : Uint8) : Char := (Nat.digitChar (v.toNat % 16)).toUpper

theorem fmtHex_byte (v : Uint8) : (fmtHex 2 v.toNat).toList = [hexHigh v, hexLow v] := by
  have hv := v.isLt
  unfold fmtHex hexHigh hexLow
  rw [String.toList_ofList]
  by_cases h : v.toNat < 16
  · rw [Nat.toDigits_of_lt_base h, Nat.div_eq_of_lt h, Nat.mod_eq_of_lt h]
    rfl
  · rw [Nat.toDigits_of_base_le (by decide) (by omega), Nat.toDigits_of_lt_base (by omega)]
    rfl

/-- A digit as a number. -/
def hexValue (c : Char) : ℕ := if c.isDigit then c.toNat - 48 else c.toNat - 55

theorem hexValue_digitChar : ∀ d < 16, hexValue (Nat.digitChar d).toUpper = d := by decide

theorem hexValue_digits (v : Uint8) :
    hexValue (hexHigh v) * 16 + hexValue (hexLow v) = v.toNat := by
  have hv := v.isLt
  unfold hexHigh hexLow
  rw [hexValue_digitChar _ (by omega), hexValue_digitChar _ (by omega)]
  omega

theorem hexDigits_inj {v w : Uint8} (hhigh : hexHigh v = hexHigh w) (hlow : hexLow v = hexLow w) :
    v = w := by
  apply BitVec.eq_of_toNat_eq
  rw [← hexValue_digits v, ← hexValue_digits w, hhigh, hlow]

theorem digitChar_ne : ∀ d < 16,
    (Nat.digitChar d).toUpper ≠ ',' ∧ (Nat.digitChar d).toUpper ≠ ')' := by decide

/-- A digit is none of the characters an operand has after its digits. -/
theorem hexHigh_ne (v : Uint8) : hexHigh v ≠ ',' ∧ hexHigh v ≠ ')' := by
  have hv := v.isLt
  exact digitChar_ne _ (by omega)

/-- The characters of the decimal number of a branch. -/
def decimal (v : Uint8) : List Char := (toString v.toInt).toList

/-- The number a branch shows. -/
def ofDecimal : List Char → ℤ
  | '-' :: ds => -(ds.foldl (fun n d => 10 * n + (d.toNat - 48)) 0 : ℕ)
  | ds => (ds.foldl (fun n d => 10 * n + (d.toNat - 48)) 0 : ℕ)

theorem isDigit_toDigits {n : ℕ} {c : Char} (hc : c ∈ Nat.toDigits 10 n) : c.isDigit = true :=
  Nat.isDigit_of_mem_toDigits (by decide) (by decide) hc

/-- A number is its digits, behind a sign if it is negative. -/
theorem decimal_eq (v : Uint8) : decimal v =
    if 0 ≤ v.toInt then Nat.toDigits 10 v.toInt.toNat
    else '-' :: Nat.toDigits 10 (-v.toInt).toNat := by
  unfold decimal
  rw [Int.toString_eq_repr, Int.repr_eq_if]
  split
  · exact Nat.toList_repr
  · rw [String.toList_append, Nat.toList_repr]
    rfl

theorem ofDecimal_toDigits (n : ℕ) : ofDecimal (Nat.toDigits 10 n) = n := by
  have hfold : Nat.ofDigitChars 10 (Nat.toDigits 10 n) 0 = n := Nat.ofDigitChars_ten_toDigits
  have hdigit := fun c => isDigit_toDigits (n := n) (c := c)
  generalize Nat.toDigits 10 n = ds at hfold hdigit
  unfold ofDecimal
  split
  · exact absurd (hdigit '-' List.mem_cons_self) (by decide)
  · exact congrArg Int.ofNat hfold

theorem ofDecimal_decimal (v : Uint8) : ofDecimal (decimal v) = v.toInt := by
  rw [decimal_eq]
  split
  · rw [ofDecimal_toDigits]
    omega
  · have hfold : Nat.ofDigitChars 10 (Nat.toDigits 10 (-v.toInt).toNat) 0 = (-v.toInt).toNat :=
      Nat.ofDigitChars_ten_toDigits
    show -((Nat.ofDigitChars 10 (Nat.toDigits 10 (-v.toInt).toNat) 0 : ℕ) : ℤ) = v.toInt
    rw [hfold]
    omega

theorem decimal_inj {v w : Uint8} (h : decimal v = decimal w) : v = w := by
  apply BitVec.eq_of_toInt_eq
  rw [← ofDecimal_decimal, ← ofDecimal_decimal, h]

/-- A number begins with a digit or with a sign. -/
theorem decimal_cons (v : Uint8) :
    ∃ c cs, decimal v = c :: cs ∧ c ≠ 'A' ∧ c ≠ '#' ∧ c ≠ '$' ∧ c ≠ '(' := by
  rw [decimal_eq]
  split
  · cases hdigits : Nat.toDigits 10 v.toInt.toNat with
    | nil => exact absurd hdigits Nat.toDigits_ne_nil
    | cons c cs =>
      have hc : c.isDigit = true := isDigit_toDigits (hdigits ▸ List.mem_cons_self)
      refine ⟨c, cs, rfl, ?_, ?_, ?_, ?_⟩ <;>
        · rintro rfl
          exact absurd hc (by decide)
  · exact ⟨'-', _, rfl, by decide⟩

/-- The text of the operand. -/
def operandText (mode : AddrMode) (low high : Uint8) : List Char :=
  match mode with
  | .impld => []
  | .accum => [' ', 'A']
  | .branch => ' ' :: decimal low
  | .imm => [' ', '#', '$', hexHigh low, hexLow low]
  | .zero => [' ', '$', hexHigh low, hexLow low]
  | .zerox => [' ', '$', hexHigh low, hexLow low, ',', 'x']
  | .zeroy => [' ', '$', hexHigh low, hexLow low, ',', 'y']
  | .indx => [' ', '(', '$', hexHigh low, hexLow low, ',', 'x', ')']
  | .indy => [' ', '(', '$', hexHigh low, hexLow low, ')', ',', 'y']
  | .abs => [' ', '$', hexHigh high, hexLow high, hexHigh low, hexLow low]
  | .absx => [' ', '$', hexHigh high, hexLow high, hexHigh low, hexLow low, ',', 'x']
  | .absy => [' ', '$', hexHigh high, hexLow high, hexHigh low, hexLow low, ',', 'y']
  | .ind => [' ', '(', '$', hexHigh high, hexLow high, hexHigh low, hexLow low, ')']

theorem toList_disass (mode : AddrMode) (name : String) (low high : Uint8) :
    (disass mode name low high).toList = name.toList ++ operandText mode low high := by
  cases mode <;> simp [disass, operandText, fmtHex_byte, decimal]

/-- A branch is told from the other modes by the character after the blank. -/
theorem operandText_ne_branch {mode : AddrMode} (hmode : mode ≠ .branch) (low high low' : Uint8) :
    operandText mode low high ≠ ' ' :: decimal low' := by
  obtain ⟨c, cs, hc, hA, hhash, hdollar, hparen⟩ := decimal_cons low'
  rw [hc]
  cases mode with
  | branch => exact absurd rfl hmode
  | _ => simp [operandText, hA.symm, hhash.symm, hdollar.symm, hparen.symm]

/-- The mode and the operand bytes can be read off the text of the operand. -/
theorem operandText_inj {i j : Instr}
    (h : operandText i.mode i.low i.high = operandText j.mode j.low j.high) :
    i.mode = j.mode ∧ i.bytes = j.bytes := by
  rcases i with ⟨name, mode, low, high⟩
  rcases j with ⟨name', mode', low', high'⟩
  dsimp only at h
  by_cases hb : mode = .branch
  · subst hb
    by_cases hb' : mode' = .branch
    · subst hb'
      obtain rfl : low = low' := decimal_inj (List.cons_injective h)
      exact ⟨rfl, rfl⟩
    · exact absurd h.symm (operandText_ne_branch hb' low' high' low)
  · by_cases hb' : mode' = .branch
    · subst hb'
      exact absurd h (operandText_ne_branch hb low high low')
    · obtain ⟨hcomma, hclose⟩ := hexHigh_ne low
      obtain ⟨hcomma', hclose'⟩ := hexHigh_ne low'
      have hlow := hexDigits_inj (v := low) (w := low')
      have hhigh := hexDigits_inj (v := high) (w := high')
      cases mode <;> cases mode' <;>
        simp_all [operandText, Instr.bytes, AddrMode.numBytes, hcomma'.symm, hclose'.symm]

/-- **Texts.** A text names one instruction, up to operand bytes its mode does not have. -/
theorem Instr.text_inj {i j : Instr} (h : i.text = j.text) :
    i.name = j.name ∧ i.mode = j.mode ∧ i.bytes = j.bytes := by
  have htext := congrArg String.toList h
  unfold Instr.text at htext
  rw [toList_disass, toList_disass] at htext
  have hlen : i.name.str.toList.length = j.name.str.toList.length := by
    rw [Mnemonic.length_str, Mnemonic.length_str]
  obtain ⟨hname, hoperand⟩ := List.append_inj htext hlen
  refine ⟨?_, operandText_inj hoperand⟩
  apply Option.some_injective
  rw [← Mnemonic.ofStr_str, ← Mnemonic.ofStr_str, hname]

theorem Instr.text_ne_unknown (i : Instr) : i.text ≠ "[Unknown]" := by
  intro h
  have htext := congrArg (fun t => t.toList.take 3) h
  unfold Instr.text at htext
  simp only [toList_disass] at htext
  rw [List.take_left' (Mnemonic.length_str i.name)] at htext
  have hname := i.name.ofStr_str
  rw [htext] at hname
  have hnone : Mnemonic.ofStr ("[Unknown]".toList.take 3) = none := by decide
  rw [hnone] at hname
  cases hname

end Yanesemu

namespace Yanesemu.Cpu

open Interaction

/-! ### What a text says -/

/-- The operation of a name; JMP is two functions of the source. -/
def operation (mode : AddrMode) : Mnemonic → Operation
  | .adc => .read .adc
  | .and => .read .and
  | .asl => .modify .asl
  | .bcc => .branch .carry false
  | .bcs => .branch .carry true
  | .beq => .branch .zero true
  | .bit => .read .bit
  | .bmi => .branch .neg true
  | .bne => .branch .zero false
  | .bpl => .branch .neg false
  | .brk => .impld .brk
  | .bvc => .branch .ov false
  | .bvs => .branch .ov true
  | .clc => .flag .carry false
  | .cld => .flag .decimal false
  | .cli => .flag .intdis false
  | .clv => .flag .ov false
  | .cmp => .read .cmp
  | .cpx => .read .cpx
  | .cpy => .read .cpy
  | .dec => .modify .dec
  | .dex => .impld .dex
  | .dey => .impld .dey
  | .eor => .read .eor
  | .inc => .modify .inc
  | .inx => .impld .inx
  | .iny => .impld .iny
  | .jmp => .impld (if mode = .ind then .jmpInd else .jmp)
  | .jsr => .impld .jsr
  | .lda => .read .lda
  | .ldx => .read .ldx
  | .ldy => .read .ldy
  | .lsr => .modify .lsr
  | .nop => .impld .nop
  | .ora => .read .ora
  | .pha => .impld .pha
  | .php => .impld .php
  | .pla => .impld .pla
  | .plp => .impld .plp
  | .rol => .modify .rol
  | .ror => .modify .ror
  | .rti => .impld .rti
  | .rts => .impld .rts
  | .sbc => .read .sbc
  | .sec => .flag .carry true
  | .sei => .flag .intdis true
  | .sta => .store .acc
  | .stx => .store .x
  | .sty => .store .y
  | .tax => .transfer .acc .x
  | .tay => .transfer .acc .y
  | .tsx => .transfer .sp .x
  | .txa => .transfer .x .acc
  | .txs => .transfer .x .sp
  | .tya => .transfer .y .acc

variable {σ : Type}

/-- The step from `s`, whose program counter is past the opcode, to `s'` is that of `i`: of its
operation in its mode, on its operand bytes. -/
structure Runs (H : Handler cpuSig σ) (i : Instr) (s s' : Sys Cpu σ) : Prop where
  operand : ∀ k b, i.bytes[k]? = some b → readVal H (s.chip.r.pc + BitVec.ofNat 16 k) s.env = b
  effect : ∃ c : Case, c.row = some (operation i.mode i.name, i.mode) ∧ s' = post H c.exec s

/-- A text tells what happens from `s` to `s'`. -/
structure Tells (H : Handler cpuSig σ) (text : String) (s s' : Sys Cpu σ) : Prop where
  shows : text = "[Unknown]" ∨ ∃ i : Instr, i.text = text
  runs : ∀ i : Instr, i.text = text → Runs H i s s'
  unknown : text = "[Unknown]" → s' = s

/-! ### The two tables -/

/-- STY zp,X is in the table under the name of STA, and SED is not in it. -/
theorem executeTab_instrMode : ∀ id : Uint8, id ≠ 0x94 → id ≠ 0xF8 →
    (executeTab id).row = (instrMode id).map fun p => (operation p.2 p.1, p.2) := by
  decide +kernel

/-- The opcode has the right row in the table, or the wrong one makes no difference. -/
def Agrees (id : Uint8) (r : Regs) : Prop := id ≠ 0xF8 ∧ (id = 0x94 → r.acc = r.y)

instance (id : Uint8) (r : Regs) : Decidable (Agrees id r) := inferInstanceAs (Decidable (_ ∧ _))

/-- The case that is executed, under the name the table has for it. -/
theorem exists_case {H : Handler cpuSig σ} {id : Uint8} {s : Sys Cpu σ} (h : Agrees id s.chip.r)
    {name : Mnemonic} {mode : AddrMode} (hrow : instrMode id = some (name, mode)) :
    ∃ c : Case, c.row = some (operation mode name, mode) ∧
      post H (execute id) s = post H c.exec s := by
  by_cases h94 : id = 0x94
  · subst h94
    cases hrow
    refine ⟨.write .zerox .acc, rfl, ?_⟩
    show post H (WriteMode.zerox.func s.chip.r.y) s = post H (WriteMode.zerox.func s.chip.r.acc) s
    rw [h.2 rfl]
  · have htab := executeTab_instrMode id h94 h.1
    rw [hrow] at htab
    exact ⟨executeTab id, htab, rfl⟩

/-- **A step.** On any bus, an opcode that agrees with the table is told by its text. -/
theorem tells_execute (H : Handler cpuSig σ) {id : Uint8} {s : Sys Cpu σ} (h : Agrees id s.chip.r)
    {low high : Uint8} (hlow : readVal H s.chip.r.pc s.env = low)
    (hhigh : readVal H (s.chip.r.pc + 1) s.env = high) :
    Tells H (disassemble id low high) s (post H (execute id) s) := by
  unfold disassemble
  cases hrow : instrMode id with
  | none =>
    refine ⟨.inl rfl, fun i hi => absurd hi i.text_ne_unknown, fun _ => ?_⟩
    have hid : id ≠ 0x94 := by
      rintro rfl
      cases hrow
    have htab := executeTab_instrMode id hid h.1
    rw [hrow] at htab
    show post H (executeTab id).exec s = s
    cases hc : executeTab id with
    | unknown => rfl
    | _ => rw [hc] at htab; cases htab
  | some row =>
    rcases row with ⟨name, mode⟩
    have hne := Instr.text_ne_unknown ⟨name, mode, low, high⟩
    refine ⟨.inr ⟨⟨name, mode, low, high⟩, rfl⟩, ?_, fun hu => absurd hu hne⟩
    intro i hi
    obtain ⟨hname, hmode, hbytes⟩ := Instr.text_inj (j := ⟨name, mode, low, high⟩) hi
    constructor
    · intro k b hb
      rw [hbytes] at hb
      have hb' : [low, high][k]? = some b := by
        simp only [Instr.bytes, List.getElem?_take] at hb
        split at hb
        · exact hb
        · cases hb
      rcases k with _ | _ | k
      · cases hb'
        rw [← hlow]
        exact congrArg (fun a => readVal H a s.env) (BitVec.add_zero _)
      · cases hb'
        exact hhigh
      · cases hb'
    · rw [hname, hmode]
      exact exists_case h hrow

/-! ### On a flat memory -/

/-- The text of STY zp,X is that of STA: it tells the step if the two registers agree only. -/
theorem acc_eq_y_of_tells {s : Sys Cpu Mem} {low high : Uint8}
    (h : Tells flatMem (disassemble 0x94 low high) s (post flatMem (execute 0x94) s)) :
    s.chip.r.acc = s.chip.r.y := by
  obtain ⟨c, hrow, heq⟩ := (h.runs ⟨.sta, .zerox, low, high⟩ rfl).effect
  have hc : c = .write .zerox .acc := Case.row_injective hrow
  subst hc
  have hy := writeMode_env s .zerox s.chip.r.y
  have hacc := writeMode_env s .zerox s.chip.r.acc
  have henv : (post flatMem (WriteMode.zerox.func s.chip.r.y) s).env =
      (post flatMem (WriteMode.zerox.func s.chip.r.acc) s).env := congrArg Sys.env heq
  rw [hy, hacc] at henv
  have hcell := congrFun henv (effAddr s.chip.r s.env s.chip.r.pc WriteMode.zerox.addrMode)
  rw [Function.update_self, Function.update_self] at hcell
  exact hcell.symm

/-- SED is shown as unknown, but takes a cycle. -/
theorem not_tells_sed {s : Sys Cpu Mem} {low high : Uint8} :
    ¬Tells flatMem (disassemble 0xF8 low high) s (post flatMem (execute 0xF8) s) := by
  intro h
  have hcycles : s.chip.r.cycles + 1 = s.chip.r.cycles := congrArg (·.chip.r.cycles) (h.unknown rfl)
  bv_omega

/-- **Disassembly.** For every state and every opcode: the text of the bytes at the program counter
tells what executing the opcode does, but for SED, and for STY zp,X unless it stores what STA
would. -/
theorem tells_iff (id : Uint8) (s : Sys Cpu Mem) :
    Tells flatMem (disassemble id (s.env s.chip.r.pc) (s.env (s.chip.r.pc + 1))) s
        (post flatMem (execute id) s) ↔ Agrees id s.chip.r := by
  constructor
  · intro h
    constructor
    · rintro rfl
      exact not_tells_sed h
    · rintro rfl
      exact acc_eq_y_of_tells h
  · intro h
    exact tells_execute flatMem h rfl rfl

/-! ### On the machine -/

/-- The state before the opcode was fetched. -/
def unfetched (s : Sys Cpu Mem) : Sys Cpu Mem :=
  ⟨{ s.chip with r.pc := s.chip.r.pc - 1, r.cycles := s.chip.r.cycles - 1 }, s.env⟩

theorem fetched_unfetched (s : Sys Cpu Mem) : fetched flatMem (unfetched s) = s := by
  have hpc : s.chip.r.pc - 1 + 1 = s.chip.r.pc := BitVec.sub_add_cancel _ _
  have hcycles : s.chip.r.cycles - 1 + 1 = s.chip.r.cycles := BitVec.sub_add_cancel _ _
  show (⟨{ s.chip with r.pc := s.chip.r.pc - 1 + 1, r.cycles := s.chip.r.cycles - 1 + 1 },
    s.env⟩ : Sys Cpu Mem) = s
  rw [hpc, hcycles]

/-- **Texts on the machine.** A step that a text tells is what the machine makes of the operation
and the mode in the text. -/
theorem Tells.view {text : String} {s s' : Sys Cpu Mem} (h : Tells flatMem text s s') {i : Instr}
    (hi : i.text = text) :
    Isa.view s' = (Isa.view (unfetched s)).instr (operation i.mode i.name) i.mode := by
  obtain ⟨c, hrow, rfl⟩ := (h.runs i hi).effect
  have hexec := Isa.view_exec (unfetched s) hrow
  rwa [fetched_unfetched] at hexec

end Yanesemu.Cpu
