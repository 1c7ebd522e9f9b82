import Yanesemu.CliDebugger
import Yanesemu.RegisterReads

/-!
# Inspecting the machine

A debugger should not disturb what it looks at. `Debugger::read` avoids the effects of a register
access by `readreg_no_sideeff`, but only at the first eight addresses of the registers, which are
repeated up to `0x3FFF`; `CPU::status` reads the bus and avoids nothing.

1. The bus stays as it is, so each function is a sequence of register reads that its addresses
   decide (`after_reads`).
2. Three bytes in a row, and a block without PPUDATA, have PPUSTATUS before OAMDATA
   (`after_window_iff`, `statusFirst_blockAddrs`), so `after_regRead_iff` applies.
3. `disassemble_block` finds its addresses by what it reads. As long as the machine is as it was,
   they are those of the memory at the start (`nthStart`).
-/

namespace Yanesemu.Emulator

open Interaction EventRun

/-! ### Reading the bus -/

/-- The register a read of the CPU's bus gets to. -/
def busReg (b : RamBus) (a : Uint16) : Option Uint16 :=
  if b.reader a = .ppuReg then some (ppuReg a) else none

/-- The register `Debugger::read` gets to with all its effects. -/
def mirrorReg (b : RamBus) (a : Uint16) : Option Uint16 :=
  if 0x2000 ≤ a.toNat ∧ a.toNat ≤ 0x2007 then none else busReg b a

theorem ramRead_snd (e : Emulator) (a : Uint16) :
    (e.ramRead a).2 = after regRead e (busReg e.rambus a).toList := by
  show (e.readRam a (e.rambus.reader a)).2 = _
  unfold busReg
  cases e.rambus.reader a with
  | ppuReg => rfl
  | _ => rfl

theorem onPpu_readregNoSideeff (e : Emulator) (which : Uint16) :
    (e.onPpu (Ppu.readregNoSideeff which)).2 = e := by
  unfold onPpu Ppu.readregNoSideeff
  rw [post_bind, val_get, post_get]
  split
  any_goals rfl
  split
  · rfl
  · rfl

theorem read_snd (e : Emulator) (a : Uint16) :
    (Debugger.read a e).2 = after regRead e (mirrorReg e.rambus a).toList := by
  unfold Debugger.read mirrorReg
  split
  · exact onPpu_readregNoSideeff e a
  · exact ramRead_snd e a

/-- A function that reads one register at most reads the registers of its addresses in order. -/
theorem after_reads {f : Emulator → Uint16 → Emulator} {reg : RamBus → Uint16 → Option Uint16}
    (hf : ∀ e a, f e a = after regRead e (reg e.rambus a).toList) (e : Emulator)
    (as : List Uint16) : after f e as = after regRead e (as.filterMap (reg e.rambus)) := by
  induction as generalizing e with
  | nil => rfl
  | cons a as ih =>
    rw [after_cons, hf]
    cases h : reg e.rambus a with
    | none => rw [List.filterMap_cons_none h, Option.toList_none, after_nil, ih]
    | some w =>
      rw [List.filterMap_cons_some h, Option.toList_some, after_cons, after_cons, after_nil, ih]
      unfold regRead
      rw [rambus_onPpu]

/-- The machine after reads by the debugger. -/
def readEach (e : Emulator) (as : List Uint16) : Emulator :=
  after (fun e a => (Debugger.read a e).2) e as

theorem readEach_eq (e : Emulator) (as : List Uint16) :
    e.readEach as = after regRead e (as.filterMap (mirrorReg e.rambus)) :=
  after_reads read_snd e as

theorem cpu_ramRead (e : Emulator) (a : Uint16) : (e.ramRead a).2.cpu = e.cpu := by
  obtain ⟨p, v, pal, h⟩ := onlyPpu_readRam e a (e.rambus.reader a)
  show (e.readRam a (e.rambus.reader a)).2.cpu = _
  rw [h]

theorem cpuStatus_snd (e : Emulator) :
    (Debugger.cpuStatus e).2 = after regRead e
      ([e.cpu.r.pc, e.cpu.r.pc + 1, e.cpu.r.pc + 2].filterMap (busReg e.rambus)) := by
  rw [← after_reads ramRead_snd]
  have hcpu : (after (fun e a => (e.ramRead a).2) e
      [e.cpu.r.pc, e.cpu.r.pc + 1, e.cpu.r.pc + 2]).cpu = e.cpu :=
    after_inv (I := fun e' : Emulator => e'.cpu = e.cpu)
      (fun e' a h => (cpu_ramRead e' a).trans h) rfl _
  have hset (e' : Emulator) (h : e'.cpu = e.cpu) : { e' with cpu := e.cpu } = e' := by
    rw [← h]
  exact hset _ hcpu

theorem ppuStatus_snd (e : Emulator) : (Debugger.ppuStatus e).2 = e := rfl

/-! ### Three bytes of an instruction -/

theorem busReg_eq_some {b : RamBus} {a w : Uint16} (h : busReg b a = some w) : w = ppuReg a := by
  unfold busReg at h
  split at h
  · exact (Option.some.inj h).symm
  · cases h

theorem mirrorReg_eq_some {b : RamBus} {a w : Uint16} (h : mirrorReg b a = some w) :
    w = ppuReg a := by
  unfold mirrorReg at h
  split at h
  · cases h
  · exact busReg_eq_some h

theorem ppuReg_eq_iff {a w : Uint16} (hlo : 0x2000 ≤ w.toNat) (hhi : w.toNat < 0x2008) :
    ppuReg a = w ↔ a.toNat % 8 = w.toNat % 8 := by
  rw [← BitVec.toNat_inj, toNat_ppuReg]
  omega

/-- The addresses of an instruction's bytes. -/
def window (a : Uint16) : List Uint16 := [a, a + 1, a + 2]

section Window

variable {reg : Uint16 → Option Uint16} (hreg : ∀ {a w}, reg a = some w → w = ppuReg a)
include hreg

theorem statusFirst_filterMap {as : List Uint16}
    (h : as.Pairwise fun a b => (reg a).isSome → (reg b).isSome → a.toNat % 8 = 4 →
      b.toNat % 8 ≠ 2) : StatusFirst (as.filterMap reg) := by
  unfold StatusFirst
  rw [List.pairwise_filterMap]
  refine h.imp fun {a b} hab v hv w hw h4 h2 => ?_
  have ha : ppuReg a = 0x2004 := (hreg hv).symm.trans h4
  have hb : ppuReg b = 0x2002 := (hreg hw).symm.trans h2
  rw [ppuReg_eq_iff (by decide) (by decide)] at ha hb
  exact hab (by rw [hv]; rfl) (by rw [hw]; rfl) ha hb

/-- Of three addresses in a row OAMDATA is not before PPUSTATUS. -/
theorem after_window_iff (e : Emulator) (a : Uint16) :
    after regRead e ((window a).filterMap reg) = e ↔ Harmless ((window a).filterMap reg) e.ppu := by
  have hlen : ((window a).filterMap reg).length ≤ 3 := List.length_filterMap_le reg (window a)
  have hcount : ((window a).filterMap reg).count 0x2007 ≤ 3 := List.count_le_length.trans hlen
  refine after_regRead_iff (by omega) fun _ => statusFirst_filterMap hreg ?_
  have h1 : (a + 1).toNat = (a.toNat + 1) % 65536 := BitVec.toNat_add a 1
  have h2 : (a + 2).toNat = (a.toNat + 2) % 65536 := BitVec.toNat_add a 2
  unfold window
  simp only [List.pairwise_cons, List.mem_cons, List.not_mem_nil, or_false, forall_eq_or_imp,
    forall_eq, IsEmpty.forall_iff, implies_true, List.Pairwise.nil, and_true]
  refine ⟨⟨fun _ _ h => ?_, fun _ _ h => ?_⟩, fun _ _ h => ?_⟩ <;> omega

end Window

theorem cpuStatus_iff (e : Emulator) :
    (Debugger.cpuStatus e).2 = e ↔
      Harmless ((window e.cpu.r.pc).filterMap (busReg e.rambus)) e.ppu := by
  rw [cpuStatus_snd]
  exact after_window_iff busReg_eq_some e e.cpu.r.pc

theorem read_iff (e : Emulator) (a : Uint16) :
    (Debugger.read a e).2 = e ↔ Harmless (mirrorReg e.rambus a).toList e.ppu := by
  rw [read_snd]
  cases mirrorReg e.rambus a with
  | none => exact after_regRead_iff (by decide) fun _ => List.Pairwise.nil
  | some w =>
    have hcount : [w].count 0x2007 ≤ 1 := List.count_le_length
    exact after_regRead_iff (by rw [Option.toList_some]; omega) fun _ =>
      List.pairwise_singleton _ w

/-! ### Disassembling a block -/

/-- The address after the instruction at `a`, by the memory of `e`. -/
def nextStart (e : Emulator) (a : Uint16) : Uint16 :=
  a + BitVec.ofNat 16 (numBytes (Debugger.read a e).1)

/-- Where the loop of `disassemble_block` is after `n` rounds, by the memory of `e`. -/
def nthStart (e : Emulator) (start last : Uint16) (n : ℕ) : Uint16 :=
  (guarded (fun a => decide (a.toNat ≤ last.toNat)) (nextStart e))^[n] start

/-- `disassemble_block` on the machine `e` after `n` rounds. -/
def disassembled (e : Emulator) (start last : Uint16) (n : ℕ) : Disassembly Emulator :=
  (guarded (fun d => decide (d.start.toNat ≤ last.toNat)) (disassembleNext Debugger.read))^[n]
    ⟨start, [], e⟩

/-- Every instruction disassembled is read without harm. -/
def HarmlessWalk (e : Emulator) (start last : Uint16) : Prop :=
  ∀ n, (nthStart e start last n).toNat ≤ last.toNat →
    Harmless ((window (nthStart e start last n)).filterMap (mirrorReg e.rambus)) e.ppu

section Disassemble

variable {e : Emulator} {start last : Uint16} {n : ℕ}

theorem env_disassembleNext (d : Disassembly Emulator) :
    (disassembleNext Debugger.read d).env = d.env.readEach (window d.start) := rfl

theorem disassembled_succ (e : Emulator) (start last : Uint16) (n : ℕ) :
    disassembled e start last (n + 1) =
      if (disassembled e start last n).start.toNat ≤ last.toNat then
        disassembleNext Debugger.read (disassembled e start last n)
      else disassembled e start last n :=
  (Function.iterate_succ_apply' ..).trans (if_congr decide_eq_true_iff rfl rfl)

theorem nthStart_succ (e : Emulator) (start last : Uint16) (n : ℕ) :
    nthStart e start last (n + 1) =
      if (nthStart e start last n).toNat ≤ last.toNat then nextStart e (nthStart e start last n)
      else nthStart e start last n :=
  (Function.iterate_succ_apply' ..).trans (if_congr decide_eq_true_iff rfl rfl)

/-- A round on a machine that is as it was goes on to the next start. -/
theorem start_disassembled_succ (henv : (disassembled e start last n).env = e)
    (hstart : (disassembled e start last n).start = nthStart e start last n) :
    (disassembled e start last (n + 1)).start = nthStart e start last (n + 1) := by
  rw [disassembled_succ, nthStart_succ, hstart]
  split
  · show nextStart (disassembled e start last n).env (disassembled e start last n).start = _
    rw [henv, hstart]
  · exact hstart

/-- A round within the range reads the bytes of an instruction. -/
theorem env_disassembled_succ (henv : (disassembled e start last n).env = e)
    (hstart : (disassembled e start last n).start = nthStart e start last n)
    (hlast : (nthStart e start last n).toNat ≤ last.toNat) :
    (disassembled e start last (n + 1)).env = after regRead e
      ((window (nthStart e start last n)).filterMap (mirrorReg e.rambus)) := by
  rw [disassembled_succ, hstart, if_pos hlast, env_disassembleNext, henv, hstart, readEach_eq]

theorem disassembled_of_harmless (h : HarmlessWalk e start last) (n : ℕ) :
    (disassembled e start last n).env = e ∧
      (disassembled e start last n).start = nthStart e start last n := by
  induction n with
  | zero => exact ⟨rfl, rfl⟩
  | succ n ih =>
    obtain ⟨henv, hstart⟩ := ih
    refine ⟨?_, start_disassembled_succ henv hstart⟩
    by_cases hlast : (nthStart e start last n).toNat ≤ last.toNat
    · rw [env_disassembled_succ henv hstart hlast, after_window_iff mirrorReg_eq_some]
      exact h n hlast
    · rw [disassembled_succ, hstart, if_neg hlast, henv]

/-- The machine is as it was after every round exactly if the walk is harmless. -/
theorem disassembled_iff :
    (∀ n, (disassembled e start last n).env = e) ↔ HarmlessWalk e start last := by
  constructor
  · intro h
    have hstart (n : ℕ) : (disassembled e start last n).start = nthStart e start last n := by
      induction n with
      | zero => rfl
      | succ n ih => exact start_disassembled_succ (h n) ih
    intro n hlast
    rw [← after_window_iff mirrorReg_eq_some, ← env_disassembled_succ (h n) (hstart n) hlast]
    exact h (n + 1)
  · intro h n
    exact (disassembled_of_harmless h n).1

theorem disassembleBlock_of_harmless (h : HarmlessWalk e start last) {fuel : ℕ}
    {d : Disassembly Emulator}
    (hd : disassembleBlock Debugger.read start last fuel e = some d) : d.env = e := by
  have hrounds : disassembled e start last fuel = d := iterate_guarded_of_whileLoop hd
  rw [← hrounds]
  exact (disassembled_of_harmless h fuel).1

end Disassemble

/-! ### Printing a block -/

/-- `n` addresses from `a` on. -/
def blockAddrs (a n : ℕ) : List Uint16 := (List.range' a n).map (BitVec.ofNat 16)

theorem blockAddrs_append (a m n : ℕ) :
    blockAddrs a m ++ blockAddrs (a + m) n = blockAddrs a (m + n) := by
  unfold blockAddrs
  rw [← List.map_append, List.range'_append_1]

section Print

variable {σ : Type} (readval : Uint16 → σ → Uint8 × σ) {start last : Uint16}

/-- A cursor inside the block does not wrap around. -/
theorem toNat_cursor_succ {i : Uint16} (h : i.toNat + start.toNat < last.toNat) :
    (i + 1).toNat = i.toNat + 1 := by
  have hlast := last.isLt
  rw [BitVec.toNat_add]
  show (i.toNat + 1) % 65536 = _
  omega

theorem cursor_add (i start : Uint16) : i + start = BitVec.ofNat 16 (start.toNat + i.toNat) := by
  rw [BitVec.ofNat_add, BitVec.ofNat_toNat, BitVec.ofNat_toNat, BitVec.setWidth_eq,
    BitVec.setWidth_eq, BitVec.add_comm]

/-- Of the columns of a line the first is read, and then those from the next cursor on. -/
theorem columns_succ (n : ℕ) {i : Uint16} (h : i.toNat + start.toNat < last.toNat) :
    min (n + 1) (last.toNat - start.toNat - i.toNat) =
      min n (last.toNat - start.toNat - (i + 1).toNat) + 1 := by
  rw [toNat_cursor_succ h]
  omega

/-- The inner loop reads up to the end of the line or of the block. -/
theorem printColumns_spec (n : ℕ) {i : Uint16} (e : σ)
    (hi : i.toNat + start.toNat ≤ last.toNat) :
    (printColumns readval start last n i e).1.1.toNat =
        i.toNat + min n (last.toNat - start.toNat - i.toNat) ∧
      (printColumns readval start last n i e).2 = after (fun s a => (readval a s).2) e
        (blockAddrs (start.toNat + i.toNat) (min n (last.toNat - start.toNat - i.toNat))) := by
  induction n generalizing i e with
  | zero =>
    rw [Nat.zero_min]
    exact ⟨rfl, rfl⟩
  | succ n ih =>
    unfold printColumns
    split
    · next hlt =>
      have hnext := toNat_cursor_succ hlt
      obtain ⟨hcol, henv⟩ := ih (i := i + 1) (readval (i + start) e).2 (by omega)
      rw [columns_succ n hlt]
      refine ⟨?_, ?_⟩
      · dsimp only
        rw [hcol, hnext]
        omega
      · dsimp only
        rw [henv, hnext, ← Nat.add_assoc]
        unfold blockAddrs
        rw [List.range'_succ, List.map_cons, after_cons, cursor_add]
    · next hge =>
      have hmin : min (n + 1) (last.toNat - start.toNat - i.toNat) = 0 := by omega
      rw [hmin]
      exact ⟨rfl, rfl⟩

/-- The addresses before `i` have been read, and `m` are left. -/
structure Printed (start last : Uint16) (e : σ) (m : ℕ) (p : Printout σ) : Prop where
  left : m + p.i.toNat = last.toNat - start.toNat
  env : p.env = after (fun s a => (readval a s).2) e (blockAddrs start.toNat p.i.toNat)

variable {readval} in
theorem Printed.printLine {e : σ} {m : ℕ} {p : Printout σ} (h : Printed readval start last e m p)
    (hle : start.toNat ≤ last.toNat) :
    Printed readval start last e (m - 16) (printLine readval start last p) := by
  have hleft := h.left
  have hrange : p.i.toNat + start.toNat ≤ last.toNat := by omega
  obtain ⟨hi, henv⟩ := printColumns_spec readval 16 p.env hrange
  have hm : last.toNat - start.toNat - p.i.toNat = m := by omega
  rw [hm] at hi henv
  refine ⟨?_, ?_⟩
  · show m - 16 + (printColumns readval start last 16 p.i p.env).1.1.toNat = _
    omega
  · show (printColumns readval start last 16 p.i p.env).2 = after _ e
      (blockAddrs start.toNat (printColumns readval start last 16 p.i p.env).1.1.toNat)
    rw [hi, henv, h.env, ← after_append, blockAddrs_append]

/-- `print_block` ends, and has read the addresses from `start` to the one before `last`. -/
theorem printBlock_spec (e : σ) (hle : start.toNat ≤ last.toNat) :
    ∃ p, (∀ fuel ≥ last.toNat - start.toNat, printBlock readval start last fuel e = some p) ∧
      p.env = after (fun s a => (readval a s).2) e
        (blockAddrs start.toNat (last.toNat - start.toNat)) := by
  have hstart : Printed readval start last e (last.toNat - start.toNat) ⟨0, [], e⟩ := ⟨rfl, rfl⟩
  obtain ⟨p, m, hrun, hp, hend⟩ := whileLoop_total
    (t := fun p : Printout σ => decide (p.i.toNat < last.toNat - start.toNat))
    (fun m p hp ht => ⟨m - 16, by have := hp.left; have := of_decide_eq_true ht; omega,
      hp.printLine hle⟩) hstart
  have hi : p.i.toNat = last.toNat - start.toNat := by
    have hleft := hp.left
    have hge := of_decide_eq_false hend
    omega
  refine ⟨p, hrun, ?_⟩
  rw [hp.env, hi]

-- a line has sixteen columns
example : (printBlock (fun a (_ : Unit) => (a.setWidth 8, ())) 0x1F0 0x202 2 ()).map (·.lines) =
    some [(0x1F0, [0xF0, 0xF1, 0xF2, 0xF3, 0xF4, 0xF5, 0xF6, 0xF7, 0xF8, 0xF9, 0xFA, 0xFB, 0xFC,
      0xFD, 0xFE, 0xFF]), (0x200, [0x00, 0x01])] := by decide

end Print

/-- On a wired bus the mirrors of the registers end at `0x3FFF`. -/
theorem mirrorReg_of_wired {b : RamBus} (hb : RamWired b) (a : Uint16) :
    mirrorReg b a =
      if 0x2008 ≤ a.toNat ∧ a.toNat < 0x4000 then some (ppuReg a) else none := by
  have harea : ramArea a = .ppuReg ↔ 0x2000 ≤ a.toNat ∧ a.toNat < 0x4000 := by
    unfold ramArea
    split_ifs <;> simp <;> omega
  unfold mirrorReg busReg
  rw [(hb a).2.1]
  split_ifs with h1 h2 h3 h4
  · omega
  · rfl
  · rfl
  · rw [harea] at h3
    omega
  · rw [harea] at h3
    omega
  · rfl

theorem mirrorReg_eq_data_iff {b : RamBus} (hb : RamWired b) {a : Uint16} :
    mirrorReg b a = some 0x2007 ↔
      (0x2008 ≤ a.toNat ∧ a.toNat < 0x4000) ∧ a.toNat % 8 = 7 := by
  rw [mirrorReg_of_wired hb]
  split_ifs with h
  · rw [Option.some_inj, ppuReg_eq_iff (by decide) (by decide), and_iff_right h]
    rfl
  · simp [h]

section Block

variable {b : RamBus} (hb : RamWired b) {a n : ℕ} (hn : a + n ≤ 65536)
include hb hn

/-- The mirrors hold fewer than 2048 addresses of PPUDATA. -/
theorem count_blockAddrs :
    ((blockAddrs a n).filterMap (mirrorReg b)).count 0x2007 ≤ min (a + n) 0x4000 / 8 - 0x401 := by
  induction n with
  | zero => exact Nat.zero_le _
  | succ n ih =>
    have hlt : (BitVec.ofNat 16 (a + n)).toNat = a + n := by
      rw [BitVec.toNat_ofNat]
      exact Nat.mod_eq_of_lt (by omega)
    have hlast : blockAddrs a (n + 1) = blockAddrs a n ++ [BitVec.ofNat 16 (a + n)] :=
      (blockAddrs_append a n 1).symm
    have hcount := ih (by omega)
    rw [hlast, List.filterMap_append, List.count_append]
    by_cases h7 : mirrorReg b (BitVec.ofNat 16 (a + n)) = some 0x2007
    · have hone : ([BitVec.ofNat 16 (a + n)].filterMap (mirrorReg b)).count 0x2007 ≤ 1 :=
        List.count_le_length.trans (List.length_filterMap_le _ _)
      rw [mirrorReg_eq_data_iff hb, hlt] at h7
      omega
    · have hzero : ([BitVec.ofNat 16 (a + n)].filterMap (mirrorReg b)).count 0x2007 = 0 := by
        rw [List.count_eq_zero, List.mem_filterMap]
        rintro ⟨x, hx, h⟩
        rw [List.mem_singleton.mp hx] at h
        exact h7 h
      omega

/-- Between OAMDATA and the next PPUSTATUS there is PPUDATA. -/
theorem statusFirst_blockAddrs (h7 : 0x2007 ∉ (blockAddrs a n).filterMap (mirrorReg b)) :
    StatusFirst ((blockAddrs a n).filterMap (mirrorReg b)) := by
  refine statusFirst_filterMap mirrorReg_eq_some ?_
  unfold blockAddrs
  rw [List.pairwise_map]
  refine (List.pairwise_lt_range' ..).imp_of_mem fun {x y} hx hy hxy hxs hys h4 h2 => h7 ?_
  rw [List.mem_range'_1] at hx hy
  have hnat {z : ℕ} (hz : z < a + n) : (BitVec.ofNat 16 z).toNat = z := by
    rw [BitVec.toNat_ofNat]
    exact Nat.mod_eq_of_lt (by omega)
  rw [mirrorReg_of_wired hb, Option.isSome_ite, hnat hx.2] at hxs
  rw [mirrorReg_of_wired hb, Option.isSome_ite, hnat hy.2] at hys
  rw [hnat hx.2] at h4
  rw [hnat hy.2] at h2
  rw [List.mem_filterMap]
  refine ⟨BitVec.ofNat 16 (x + 3), List.mem_map_of_mem ?_, ?_⟩
  · rw [List.mem_range'_1]
    omega
  · rw [mirrorReg_eq_data_iff hb, hnat (by omega)]
    omega

theorem readEach_blockAddrs_iff (e : Emulator) (he : e.rambus = b) :
    e.readEach (blockAddrs a n) = e ↔
      Harmless ((blockAddrs a n).filterMap (mirrorReg e.rambus)) e.ppu := by
  subst he
  rw [readEach_eq]
  have hcount := count_blockAddrs hb hn
  exact after_regRead_iff (by omega) (statusFirst_blockAddrs hb hn)

end Block

/-! ### Undisturbed machines -/

/-- Nothing a command reads has an effect. -/
def Quiet (e : Emulator) : Command → Prop
  | .status true => True
  | .status false => Harmless ((window e.cpu.r.pc).filterMap (busReg e.rambus)) e.ppu
  | .readAddr (some addr) => Harmless (mirrorReg e.rambus addr).toList e.ppu
  | .block (some start) (some last) =>
    Harmless ((blockAddrs start.toNat (last.toNat - start.toNat)).filterMap (mirrorReg e.rambus))
      e.ppu
  | .disblock (some start) (some last) => start.toNat < last.toNat → HarmlessWalk e start last
  | _ => True

theorem harmless_nil (p : Ppu) : Harmless [] p := by
  constructor <;> simp

section Exec

variable {e : Emulator}

theorem execCommand_block_iff (hb : RamWired e.rambus) (start last : Uint16) {fuel : ℕ}
    (hfuel : 0x10000 ≤ fuel) :
    execCommand fuel e (.block (some start) (some last)) = some e ↔
      Quiet e (.block (some start) (some last)) := by
  have hlast := last.isLt
  rw [execCommand, Quiet]
  split
  · next hle =>
    have hzero : last.toNat - start.toNat = 0 := by omega
    rw [hzero]
    exact ⟨fun _ => harmless_nil e.ppu, fun _ => rfl⟩
  · have hle : start.toNat ≤ last.toNat := by omega
    obtain ⟨p, hrun, henv⟩ := printBlock_spec Debugger.read e hle
    rw [hrun fuel (by omega), Option.map_some, Option.some_inj, henv]
    exact readEach_blockAddrs_iff hb (by omega) e rfl

theorem execCommand_iff (hb : RamWired e.rambus) {cmd : Command}
    (hcmd : ∀ start last, cmd ≠ .disblock start last) {fuel : ℕ} (hfuel : 0x10000 ≤ fuel) :
    execCommand fuel e cmd = some e ↔ Quiet e cmd := by
  match cmd with
  | .status true => exact ⟨fun _ => trivial, fun _ => congrArg some (ppuStatus_snd e)⟩
  | .status false => exact Option.some_inj.trans (cpuStatus_iff e)
  | .readAddr (some addr) => exact Option.some_inj.trans (read_iff e addr)
  | .block (some start) (some last) => exact execCommand_block_iff hb start last hfuel
  | .readAddr none => exact ⟨fun _ => trivial, fun _ => rfl⟩
  | .block none _ => exact ⟨fun _ => trivial, fun _ => rfl⟩
  | .block (some _) none => exact ⟨fun _ => trivial, fun _ => rfl⟩
  | .disblock start last => exact absurd rfl (hcmd start last)

theorem execCommand_disblock {start last : Uint16} {fuel : ℕ} {e' : Emulator}
    (hquiet : Quiet e (.disblock (some start) (some last)))
    (h : execCommand fuel e (.disblock (some start) (some last)) = some e') : e' = e := by
  rw [execCommand] at h
  split at h
  · exact (Option.some.inj h).symm
  · next hlt =>
    obtain ⟨d, hd, rfl⟩ := Option.map_eq_some_iff.mp h
    exact disassembleBlock_of_harmless (hquiet (Nat.lt_of_not_le hlt)) hd

end Exec

/-- **Inspection.** `read` and `cpu_status` leave the machine as it is exactly if the registers
they get to over the bus are read without harm, and `ppu_status` always does. The commands `read`,
`status` and `block` do exactly if everything they read is harmless, and `disblock` does after
each of its rounds exactly if every instruction it gets to is. -/
theorem inspection_iff (e : Emulator) :
    (∀ a, (Debugger.read a e).2 = e ↔ Harmless (mirrorReg e.rambus a).toList e.ppu) ∧
    ((Debugger.cpuStatus e).2 = e ↔
      Harmless ((window e.cpu.r.pc).filterMap (busReg e.rambus)) e.ppu) ∧
    (Debugger.ppuStatus e).2 = e ∧
    (RamWired e.rambus → ∀ cmd, (∀ start last, cmd ≠ .disblock start last) →
      ∀ fuel ≥ 0x10000, execCommand fuel e cmd = some e ↔ Quiet e cmd) ∧
    ∀ start last : Uint16, start.toNat < last.toNat →
      ((∀ n, (disassembled e start last n).env = e) ↔
        Quiet e (.disblock (some start) (some last))) ∧
      (Quiet e (.disblock (some start) (some last)) → ∀ fuel e',
        execCommand fuel e (.disblock (some start) (some last)) = some e' → e' = e) := by
  refine ⟨read_iff e, cpuStatus_iff e, ppuStatus_snd e, ?_, ?_⟩
  · intro hb cmd hcmd fuel hfuel
    exact execCommand_iff hb hcmd hfuel
  · intro start last hlt
    refine ⟨?_, fun hquiet fuel e' h => execCommand_disblock hquiet h⟩
    rw [disassembled_iff]
    exact ⟨fun h _ => h, fun h => h hlt⟩

/-- The debugger reads a mirror of PPUDATA after power: the PPU's address has moved on. -/
theorem read_disturbs :
    (Debugger.read 0x200F insertedZeros.power).2 ≠ insertedZeros.power ∧
      (Debugger.read 0x200F insertedZeros.power).2.ppu.vram.addr ≠
        insertedZeros.power.ppu.vram.addr := by
  have hb : RamWired insertedZeros.power.rambus := by
    rw [rambus_power]
    exact ramWired_insertRom rfl
  generalize insertedZeros.power = e at *
  have hread : (Debugger.read 0x200F e).2 = after regRead e [0x2007] := by
    rw [read_snd, (mirrorReg_eq_data_iff hb).mpr (by decide), Option.toList_some]
  have haddr : (Debugger.read 0x200F e).2.ppu.vram.addr ≠ e.ppu.vram.addr := by
    rw [hread, (addr_after_regRead e [0x2007]).2]
    intro h
    exact absurd ((nthAddr_eq_self_iff (by decide)).mp h) (by decide)
  refine ⟨fun h => haddr ?_, haddr⟩
  rw [h]

end Yanesemu.Emulator
