import Yanesemu.Inspect
import Yanesemu.InstrLengths

/-!
# Blocks

The loops of `disassemble_block` and `print_block`, on any reader. Both count in 16 bits.

`disassemble_block` compares with an end that belongs to the block. `walk` is the chain of the
instructions in numbers that do not wrap around; the loop follows it exactly if the first
instruction after the block starts before `0x10000` (`disassembleBlock_iff`). Otherwise the cursor
starts again at the bottom. `print_block` counts lengths up to an end that does not belong to the
block, so it always prints all of it (`printBlock_rows`).
-/

namespace Yanesemu

open EventRun

variable {σ : Type} (readval : Uint16 → σ → Uint8 × σ)

/-! ### Disassembling -/

theorem numBytes_pos (id : Uint8) : 0 < numBytes id := by
  have := Cpu.numBytes_cases id
  omega

theorem numBytes_le (id : Uint8) : numBytes id ≤ 3 := by
  have := Cpu.numBytes_cases id
  omega

/-- What `disassemble_block` processes for the instruction at `a`. -/
def disassembledLine (a : Uint16) (s : σ) : Uint16 × Uint8 × Uint8 × Uint8 :=
  let id := readval a s
  let low := readval (a + 1) id.2
  let high := readval (a + 2) low.2
  (a, id.1, low.1, high.1)

/-- The start of the instruction after the one at `x.1`, and what three reads make of `x.2`. -/
def walkNext (x : ℕ × σ) : ℕ × σ :=
  let a := BitVec.ofNat 16 x.1
  (x.1 + numBytes (readval a x.2).1,
    (readval (a + 2) (readval (a + 1) (readval a x.2).2).2).2)

/-- The start of the instruction `n` of the chain that begins at `start`, and the environment it
is read in. -/
def walk (start : Uint16) (e : σ) (n : ℕ) : ℕ × σ := (walkNext readval)^[n] (start.toNat, e)

section Disassemble

variable (start last : Uint16) (e : σ)

/-- The line of the instruction `n`. -/
def walkLine (n : ℕ) : Uint16 × Uint8 × Uint8 × Uint8 :=
  disassembledLine readval (BitVec.ofNat 16 (walk readval start e n).1) (walk readval start e n).2

/-- The lines are those of the instructions of the chain that start in the block. -/
def CoversBlock (lines : List (Uint16 × Uint8 × Uint8 × Uint8)) : Prop :=
  ∃ n, lines = (List.range n).map (walkLine readval start e) ∧
    ∀ k, k < n ↔ (walk readval start e k).1 ≤ last.toNat

/-- An instruction that starts in the block is followed by an address of 16 bits. -/
def EndsBelow : Prop :=
  ∀ n, (walk readval start e n).1 ≤ last.toNat → (walk readval start e (n + 1)).1 < 0x10000

/-- The loop of `disassemble_block` after `n` rounds. -/
def rounds (n : ℕ) : Disassembly σ :=
  (guarded (fun d => decide (d.start.toNat ≤ last.toNat)) (disassembleNext readval))^[n]
    ⟨start, [], e⟩

theorem walk_succ (n : ℕ) :
    walk readval start e (n + 1) = walkNext readval (walk readval start e n) :=
  Function.iterate_succ_apply' ..

/-- Each instruction starts where the one before ends. -/
theorem walk_succ_fst (n : ℕ) : (walk readval start e (n + 1)).1 =
    (walk readval start e n).1 + numBytes (walkLine readval start e n).2.1 := by
  rw [walk_succ]
  rfl

theorem walk_strictMono : StrictMono fun n => (walk readval start e n).1 := by
  refine strictMono_nat_of_lt_succ fun n => ?_
  rw [walk_succ_fst]
  exact Nat.lt_add_of_pos_right (numBytes_pos _)

theorem rounds_succ (n : ℕ) : rounds readval start last e (n + 1) =
    if (rounds readval start last e n).start.toNat ≤ last.toNat then
      disassembleNext readval (rounds readval start last e n)
    else rounds readval start last e n :=
  (Function.iterate_succ_apply' ..).trans (if_congr decide_eq_true_iff rfl rfl)

/-- A round adds its line, and goes on to the next start in 16 bits. -/
theorem disassembleNext_walk (n : ℕ) (lines : List (Uint16 × Uint8 × Uint8 × Uint8)) :
    disassembleNext readval
        ⟨BitVec.ofNat 16 (walk readval start e n).1, lines, (walk readval start e n).2⟩ =
      ⟨BitVec.ofNat 16 (walk readval start e (n + 1)).1,
        lines ++ [walkLine readval start e n], (walk readval start e (n + 1)).2⟩ := by
  rw [walk_succ]
  unfold disassembleNext walkNext walkLine disassembledLine
  dsimp only
  rw [BitVec.ofNat_add]

/-- As long as the chain stays below `0x10000` the loop follows it. -/
theorem rounds_of_walk {n : ℕ}
    (h : ∀ k < n, (walk readval start e k).1 ≤ last.toNat ∧ (walk readval start e k).1 < 0x10000) :
    rounds readval start last e n = ⟨BitVec.ofNat 16 (walk readval start e n).1,
      (List.range n).map (walkLine readval start e), (walk readval start e n).2⟩ := by
  induction n with
  | zero =>
    show (⟨start, [], e⟩ : Disassembly σ) = ⟨BitVec.ofNat 16 start.toNat, [], e⟩
    rw [BitVec.ofNat_toNat, BitVec.setWidth_eq]
  | succ n ih =>
    obtain ⟨hlast, hlt⟩ := h n (Nat.lt_succ_self n)
    have hstart : (BitVec.ofNat 16 (walk readval start e n).1).toNat ≤ last.toNat := by
      rwa [BitVec.toNat_ofNat, Nat.mod_eq_of_lt hlt]
    rw [rounds_succ, ih fun k hk => h k (Nat.lt_succ_of_lt hk), if_pos hstart,
      disassembleNext_walk, List.range_succ, List.map_append]
    rfl

theorem length_rounds_le (n k : ℕ) : (rounds readval start last e n).lines.length ≤
    (rounds readval start last e (n + k)).lines.length := by
  induction k with
  | zero => exact Nat.le_refl _
  | succ k ih =>
    refine ih.trans ?_
    rw [← Nat.add_assoc, rounds_succ]
    split
    · exact (List.prefix_append ..).length_le
    · exact Nat.le_refl _

variable {readval start last e} in
/-- If the chain ends below `0x10000` the loop ends after its last instruction in the block. -/
theorem disassembleBlock_of_endsBelow (h : EndsBelow readval start last e) :
    ∃ fuel d, disassembleBlock readval start last fuel e = some d ∧
      CoversBlock readval start last e d.lines := by
  have hpast : ∃ n, last.toNat < (walk readval start e n).1 :=
    ⟨last.toNat + 1, (walk_strictMono readval start e).le_apply⟩
  have hcount (k : ℕ) : k < Nat.find hpast ↔ (walk readval start e k).1 ≤ last.toNat := by
    constructor
    · intro hk
      exact Nat.le_of_not_lt (Nat.find_min hpast hk)
    · intro hk
      have hlt := Nat.lt_of_le_of_lt hk (Nat.find_spec hpast)
      exact (walk_strictMono readval start e).lt_iff_lt.mp hlt
  have hlast := last.isLt
  have hrounds := rounds_of_walk readval start last e fun k (hk : k < Nat.find hpast) =>
    ⟨(hcount k).mp hk, Nat.lt_of_le_of_lt ((hcount k).mp hk) hlast⟩
  have hnext : (walk readval start e (Nat.find hpast)).1 < 0x10000 := by
    cases hn : Nat.find hpast with
    | zero => exact start.isLt
    | succ n => exact h n ((hcount n).mp (by omega))
  have hend : decide ((rounds readval start last e (Nat.find hpast)).start.toNat ≤ last.toNat) =
      false := by
    rw [hrounds, decide_eq_false_iff_not, BitVec.toNat_ofNat, Nat.mod_eq_of_lt hnext]
    exact Nat.not_le_of_lt (Nat.find_spec hpast)
  refine ⟨Nat.find hpast, _, whileLoop_of_iterate_guarded hend, Nat.find hpast, ?_, hcount⟩
  show (rounds readval start last e (Nat.find hpast)).lines = _
  rw [hrounds]

variable {readval start last e} in
/-- If the chain goes on past `0xFFFF` the loop begins a round more, at the bottom. -/
theorem endsBelow_of_coversBlock {fuel : ℕ} {d : Disassembly σ}
    (hd : disassembleBlock readval start last fuel e = some d)
    (hcovers : CoversBlock readval start last e d.lines) : EndsBelow readval start last e := by
  obtain ⟨count, hlines, hcount⟩ := hcovers
  intro n hn
  by_contra hwrap
  have hlast := last.isLt
  have hlt : n < count := (hcount n).mpr hn
  have hnext : ¬n + 1 < count := by
    rw [hcount]
    omega
  have hbefore (k : ℕ) (hk : k < n + 1) : (walk readval start e k).1 ≤ last.toNat :=
    ((walk_strictMono readval start e).monotone (Nat.le_of_lt_succ hk)).trans hn
  have hrounds := rounds_of_walk readval start last e fun k hk =>
    ⟨hbefore k hk, Nat.lt_of_le_of_lt (hbefore k hk) hlast⟩
  have hbytes := numBytes_le (walkLine readval start e n).2.1
  have hsucc := walk_succ_fst readval start e n
  have hbottom : (rounds readval start last e (n + 1)).start.toNat ≤ last.toNat := by
    rw [hrounds, BitVec.toNat_ofNat]
    omega
  have hlen : (rounds readval start last e (n + 1 + 1)).lines.length = n + 2 := by
    rw [rounds_succ, if_pos hbottom, hrounds]
    simp [disassembleNext]
  have hmore := length_rounds_le readval start last e (n + 1 + 1) fuel
  have hd' : rounds readval start last e (n + 1 + 1 + fuel) = d :=
    iterate_guarded_of_whileLoop (whileLoop_of_le hd (Nat.le_add_left ..))
  rw [hd', hlines, hlen, List.length_map, List.length_range] at hmore
  omega

/-- **Disassembling a block.** The chain of the instructions from `start` goes up. The loop ends
and has processed exactly those that start in the block, exactly if none of them goes on past
`0xFFFE`. -/
theorem disassembleBlock_iff :
    StrictMono (fun n => (walk readval start e n).1) ∧
    (∀ n, (walk readval start e (n + 1)).1 =
      (walk readval start e n).1 + numBytes (walkLine readval start e n).2.1) ∧
    ((∃ fuel d, disassembleBlock readval start last fuel e = some d ∧
      CoversBlock readval start last e d.lines) ↔ EndsBelow readval start last e) := by
  refine ⟨walk_strictMono readval start e, walk_succ_fst readval start e, ?_,
    disassembleBlock_of_endsBelow⟩
  rintro ⟨fuel, d, hd, hcovers⟩
  exact endsBelow_of_coversBlock hd hcovers

/-- Up to `0xFFFF` the loop never ends. -/
theorem disassembleBlock_top (fuel : ℕ) : disassembleBlock readval start 0xFFFF fuel e = none := by
  unfold disassembleBlock
  generalize (⟨start, [], e⟩ : Disassembly σ) = d
  have htest (d : Disassembly σ) : decide (d.start.toNat ≤ (0xFFFF : Uint16).toNat) = true :=
    decide_eq_true (Nat.le_of_lt_succ d.start.isLt)
  induction fuel generalizing d with
  | zero => exact if_pos (htest d)
  | succ fuel ih =>
    rw [whileLoop, if_pos (htest d)]
    exact ih _

end Disassemble

/-- The end of a memory full of NOPs. -/
theorem not_disassembleBlock_nops : ¬∃ fuel d,
    disassembleBlock (fun a (mem : Mem) => (mem a, mem)) 0xFFF0 0xFFFF fuel Cpu.nops = some d := by
  rintro ⟨fuel, d, hd⟩
  rw [disassembleBlock_top] at hd
  cases hd

/-! ### Printing -/

section Print

open Emulator

variable (start last : Uint16) (e : σ)

/-- The value at offset `k` of the block, when what comes before has been read. -/
def blockValue (k : ℕ) : Uint8 :=
  (readval (BitVec.ofNat 16 (start.toNat + k))
    (after (fun s a => (readval a s).2) e (blockAddrs start.toNat k))).1

/-- Row `r` of a block of `len` addresses: where it starts, and its values, sixteen or what is
left. -/
def blockRow (len r : ℕ) : ℕ × List Uint8 :=
  (16 * r + start.toNat,
    (List.range' (16 * r) (min 16 (len - 16 * r))).map (blockValue readval start e))

variable {start last e}

/-- The inner loop prints the values up to the end of the row or of the block. -/
theorem printColumns_values (n : ℕ) {i : Uint16} {s : σ}
    (hi : i.toNat + start.toNat ≤ last.toNat)
    (hs : s = after (fun s a => (readval a s).2) e (blockAddrs start.toNat i.toNat)) :
    (printColumns readval start last n i s).1.2 =
      (List.range' i.toNat (min n (last.toNat - start.toNat - i.toNat))).map
        (blockValue readval start e) := by
  induction n generalizing i s with
  | zero =>
    rw [Nat.zero_min]
    rfl
  | succ n ih =>
    unfold printColumns
    split
    · next hlt =>
      have hnext := toNat_cursor_succ hlt
      rw [columns_succ n hlt, List.range'_succ, List.map_cons]
      dsimp only
      congr 1
      · unfold blockValue
        rw [cursor_add, hs]
      · rw [ih (by omega) ?_, hnext]
        rw [hnext, ← blockAddrs_append, after_append, ← hs, cursor_add]
        rfl
    · next hge =>
      have hmin : min (n + 1) (last.toNat - start.toNat - i.toNat) = 0 := by omega
      rw [hmin]
      rfl

/-- The first `r` rows of a block, all of which begin in it, have been printed. -/
structure PrintedRows (start last : Uint16) (e : σ) (m : ℕ) (p : Printout σ) : Prop where
  printed : Printed readval start last e m p
  rows : ∃ r, p.lines =
      (List.range r).map (blockRow readval start e (last.toNat - start.toNat)) ∧
    p.i.toNat = min (16 * r) (last.toNat - start.toNat) ∧
    16 * r < last.toNat - start.toNat + 16

variable {readval} in
theorem PrintedRows.printLine {m : ℕ} {p : Printout σ}
    (h : PrintedRows readval start last e m p) (hle : start.toNat ≤ last.toNat)
    (ht : p.i.toNat < last.toNat - start.toNat) :
    PrintedRows readval start last e (m - 16) (printLine readval start last p) := by
  have hnext := h.printed.printLine hle
  obtain ⟨r, hlines, hi, hr⟩ := h.rows
  have hir : p.i.toNat = 16 * r := by omega
  have hleft := h.printed.left
  have hrange : p.i.toNat + start.toNat ≤ last.toNat := by omega
  have hvalues := printColumns_values readval 16 hrange h.printed.env
  have hleft' := hnext.left
  refine ⟨hnext, r + 1, ?_, by omega, by omega⟩
  show p.lines ++
    [(p.i.toNat + start.toNat, (printColumns readval start last 16 p.i p.env).1.2)] = _
  rw [hvalues, hlines, List.range_succ, List.map_append, hir]
  rfl

/-- The rows one after the other are the values of the block. -/
theorem flatten_blockRows (e : σ) (start : Uint16) (len r : ℕ) :
    ((List.range r).map fun k => (blockRow readval start e len k).2).flatten =
      (List.range (min (16 * r) len)).map (blockValue readval start e) := by
  induction r with
  | zero => simp
  | succ r ih =>
    rw [List.range_succ, List.map_append, List.flatten_append, ih]
    show (List.range (min (16 * r) len)).map (blockValue readval start e) ++
      ([(List.range' (16 * r) (min 16 (len - 16 * r))).map
        (blockValue readval start e)]).flatten = _
    rw [List.flatten_singleton, ← List.map_append, List.range_eq_range', List.range_eq_range']
    congr 1
    by_cases hr : 16 * r ≤ len
    · have hmin : min (16 * r) len = 16 * r := by omega
      have hsum : min (16 * (r + 1)) len = 16 * r + min 16 (len - 16 * r) := by omega
      rw [hmin, hsum, ← List.range'_append_1, Nat.zero_add]
    · have hmin : min 16 (len - 16 * r) = 0 := by omega
      have hsum : min (16 * (r + 1)) len = min (16 * r) len := by omega
      rw [hmin, hsum, List.range'_zero, List.append_nil]

/-- **Printing a block.** The loops end and have read the addresses of the block in order, each
once, and printed what they read in rows of sixteen, each with its first address and the last one
with what is left. -/
theorem printBlock_rows (readval : Uint16 → σ → Uint8 × σ) (e : σ)
    (hlt : start.toNat < last.toNat) :
    ∃ p, (∀ fuel ≥ last.toNat - start.toNat, printBlock readval start last fuel e = some p) ∧
      p.env = after (fun s a => (readval a s).2) e
        (blockAddrs start.toNat (last.toNat - start.toNat)) ∧
      (blockAddrs start.toNat (last.toNat - start.toNat)).map BitVec.toNat =
        List.range' start.toNat (last.toNat - start.toNat) ∧
      p.lines = (List.range ((last.toNat - start.toNat + 15) / 16)).map
        (blockRow readval start e (last.toNat - start.toNat)) ∧
      (p.lines.map Prod.snd).flatten =
        (List.range (last.toNat - start.toNat)).map (blockValue readval start e) := by
  have hle := Nat.le_of_lt hlt
  have hstart : PrintedRows readval start last e (last.toNat - start.toNat) ⟨0, [], e⟩ :=
    ⟨⟨rfl, rfl⟩, 0, rfl, (Nat.zero_min _).symm, by omega⟩
  obtain ⟨p, m, hrun, hp, hend⟩ := whileLoop_total
    (t := fun p : Printout σ => decide (p.i.toNat < last.toNat - start.toNat))
    (fun m p hp ht => ⟨m - 16, by have := hp.printed.left; have := of_decide_eq_true ht; omega,
      hp.printLine hle (of_decide_eq_true ht)⟩) hstart
  obtain ⟨r, hlines, hi, hr⟩ := hp.rows
  have hge := of_decide_eq_false hend
  have hrows : r = (last.toNat - start.toNat + 15) / 16 := by omega
  refine ⟨p, hrun, ?_, ?_, ?_, ?_⟩
  · have hleft := hp.printed.left
    have hall : p.i.toNat = last.toNat - start.toNat := by omega
    rw [hp.printed.env, hall]
  · have hlast := last.isLt
    unfold blockAddrs
    rw [List.map_map]
    refine List.map_congr_left (g := id) (fun a ha => ?_) |>.trans (List.map_id _)
    rw [List.mem_range'_1] at ha
    show (BitVec.ofNat 16 a).toNat = a
    rw [BitVec.toNat_ofNat]
    exact Nat.mod_eq_of_lt (by omega)
  · rw [hlines, hrows]
  · rw [hlines, List.map_map]
    refine (flatten_blockRows readval e start _ r).trans ?_
    congr 2
    omega

/-- Two rows, of which the second has two values. -/
theorem printBlock_rows_eighteen : ∃ p : Printout Unit,
    (∀ fuel ≥ 18, printBlock (fun a _ => (a.setWidth 8, ())) 0x1F0 0x202 fuel () = some p) ∧
      p.lines.map Prod.fst = [0x1F0, 0x200] := by
  have hlt : (0x1F0 : Uint16).toNat < (0x202 : Uint16).toNat := by decide
  obtain ⟨p, hrun, -, -, hlines, -⟩ :=
    printBlock_rows (fun a (_ : Unit) => (a.setWidth 8, ())) () hlt
  refine ⟨p, hrun, ?_⟩
  rw [hlines]
  rfl

end Print

end Yanesemu
