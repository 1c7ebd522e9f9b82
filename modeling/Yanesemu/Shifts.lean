import Yanesemu.Arithmetic

/-!
# Multi-byte shifts

A number of several bytes is shifted in memory, byte by byte through the carry: to the left from
the least significant byte on, to the right from the most significant one on. `Shifts` is such a
part of a run on a flat memory: each step executes one instruction, in any of its modes, on a given
cell, and what is done between the steps keeps the carry and the cells of the number.

A pass to the left is a `Carries` of the doubled digits. So is a pass to the right, read backwards:
its carries run against the order of the digits and its results are what is doubled. That the one
undoes the other follows from the two equations between the numbers.
-/

namespace Yanesemu.Cpu

open Interaction Digits

/-! ### One step -/

/-- The next `run` executes `name`, in some mode, on the cell `a`. -/
structure Modifies (s : Sys Cpu Mem) (name : InstrMod) (a : Uint16) : Prop where
  nmi : s.chip.sig.execnmi = false
  irq : s.chip.sig.execirq = false
  operand : ∃ mode : ModifyMode, mode ≠ .accum ∧
    manual (s.env s.chip.r.pc) = some (.modify name, mode.addrMode) ∧
    effAddr s.chip.r s.env (s.chip.r.pc + 1) mode.addrMode = a

section Modifies

variable {s : Sys Cpu Mem} {name : InstrMod} {a : Uint16} (h : Modifies s name a)
include h

theorem Modifies.env :
    (post flatMem run s).env = Function.update s.env a (name.result (s.env a) s.chip.r) := by
  obtain ⟨mode, hmode, hop, rfl⟩ := h.operand
  have hcase := executeTab_of_manual (c := .modify name mode) hop
  have hresult (v : Uint8) : name.result v (fetched flatMem s).chip.r =
      name.result v s.chip.r := name.result_eq (sameData_of_pc_cycles _ _ _) v
  rw [post_run_flat s h.nmi h.irq, hcase]
  refine (modifyMode_env (fetched flatMem s) hmode name).trans ?_
  rw [effAddr_fetched, hresult]
  rfl

theorem Modifies.carry :
    (post flatMem run s).chip.r.flags.carry =
      name.carryOut s.chip.r.flags.carry (s.env a).toNat := by
  obtain ⟨mode, hmode, hop, rfl⟩ := h.operand
  have hcase := executeTab_of_manual (c := .modify name mode) hop
  have hregs : mode.regs name = name.regs := by
    cases mode with
    | accum => exact absurd rfl hmode
    | _ => rfl
  rw [post_run_flat s h.nmi h.irq, hcase,
    (exec_data flatMem (fetched flatMem s) _).flags]
  show (mode.regs name _ _).flags.carry = _
  rw [hregs, modifyMode_load _ hmode, effAddr_fetched, name.regs_carry]
  rfl

theorem Modifies.env_of_ne {b : Uint16} (hb : b ≠ a) : (post flatMem run s).env b = s.env b := by
  rw [h.env, Function.update_of_ne hb]

/-- The carry a shift takes in: the plain ones take none. -/
def carryIn (c : Bool) : InstrMod → Bool
  | .rol | .ror => c
  | _ => false

/-- **One digit to the left.** -/
theorem Modifies.left (hname : name = .rol ∨ name = .asl) :
    2 * (s.env a).toNat + (carryIn s.chip.r.flags.carry name).toNat =
      ((post flatMem run s).env a).toNat +
        256 * (post flatMem run s).chip.r.flags.carry.toNat := by
  have hv := (s.env a).isLt
  have hc := s.chip.r.flags.carry.toNat_le
  rw [h.env, Function.update_self, h.carry, name.toNat_result]
  rcases hname with rfl | rfl <;>
    simp only [InstrMod.number, InstrMod.carryOut, carryIn, Bool.toNat_false] <;>
    cases hbit : decide (128 ≤ (s.env a).toNat) <;>
    simp only [decide_eq_true_eq, decide_eq_false_iff_not] at hbit <;>
    simp only [Bool.toNat_false, Bool.toNat_true] <;> omega

/-- **One digit to the right.** -/
theorem Modifies.right (hname : name = .ror ∨ name = .lsr) :
    2 * ((post flatMem run s).env a).toNat + (post flatMem run s).chip.r.flags.carry.toNat =
      (s.env a).toNat + 256 * (carryIn s.chip.r.flags.carry name).toNat := by
  rw [h.env, Function.update_self, h.carry, name.toNat_result]
  rcases hname with rfl | rfl <;>
    simp only [InstrMod.number, InstrMod.carryOut, carryIn, Bool.toNat_false] <;>
    cases hbit : decide ((s.env a).toNat % 2 = 1) <;>
    simp only [decide_eq_true_eq, decide_eq_false_iff_not] at hbit <;>
    simp only [Bool.toNat_false, Bool.toNat_true] <;> omega

end Modifies

/-! ### Passes -/

/-- The carry and the cells of a number are the same. -/
structure SameNumber (cells : List Uint16) (s t : Sys Cpu Mem) : Prop where
  carry : t.chip.r.flags.carry = s.chip.r.flags.carry
  cells : ∀ a ∈ cells, t.env a = s.env a

/-- The instructions and the cells of the steps, in the order of execution. -/
inductive Shifts (cells : List Uint16) :
    Sys Cpu Mem → List (InstrMod × Uint16) → Sys Cpu Mem → Prop
  | nil {s t : Sys Cpu Mem} (h : SameNumber cells s t) : Shifts cells s [] t
  | cons {s s' t : Sys Cpu Mem} {name : InstrMod} {a : Uint16} {steps : List (InstrMod × Uint16)}
      (h : SameNumber cells s s') (hm : Modifies s' name a)
      (rest : Shifts cells (post flatMem run s') steps t) :
      Shifts cells s ((name, a) :: steps) t

/-- A number of bytes in memory, the cell of the least significant one first. -/
def number (cells : List Uint16) (m : Mem) : ℕ := value (cells.map m)

section Passes

variable {cells : List Uint16}

theorem map_snd_steps (name : InstrMod) (todo : List Uint16) :
    (todo.map fun b => (name, b)).map Prod.snd = todo := by
  rw [List.map_map]
  exact List.map_id _

/-- A cell no step is about keeps its byte. -/
theorem Shifts.env_of_not_mem {steps : List (InstrMod × Uint16)} {s t : Sys Cpu Mem}
    (h : Shifts cells s steps t) {b : Uint16} (hb : b ∈ cells) (hne : b ∉ steps.map Prod.snd) :
    t.env b = s.env b := by
  induction h with
  | nil h => exact h.cells b hb
  | cons h hm _ ih =>
    rw [List.map_cons, List.mem_cons, not_or] at hne
    rw [ih hne.2, hm.env_of_ne hne.1, h.cells b hb]

/-- The cells still to come are as they were before the step. -/
theorem SameNumber.map_run {s s' : Sys Cpu Mem} (hsame : SameNumber cells s s') {name : InstrMod}
    {a : Uint16} (hm : Modifies s' name a) {todo : List Uint16} (hsub : todo ⊆ cells)
    (hnotin : a ∉ todo) (f : Uint8 → ℕ) :
    (todo.map fun b => f ((post flatMem run s').env b)) = todo.map fun b => f (s.env b) := by
  refine List.map_congr_left fun b hb => ?_
  have hba : b ≠ a := by
    rintro rfl
    exact hnotin hb
  rw [hm.env_of_ne hba, hsame.cells b (hsub hb)]

/-- A pass to the left; the first instruction decides whether the carry comes in. -/
theorem Shifts.left {first : InstrMod} (hfirst : first = .rol ∨ first = .asl) {a : Uint16}
    {todo : List Uint16} {s t : Sys Cpu Mem}
    (h : Shifts cells s ((first, a) :: todo.map fun b => (.rol, b)) t)
    (hsub : a :: todo ⊆ cells) (hnd : (a :: todo).Nodup) :
    Carries 256 (carryIn s.chip.r.flags.carry first).toNat
      ((a :: todo).map fun b => 2 * (s.env b).toNat)
      ((a :: todo).map fun b => (t.env b).toNat) t.chip.r.flags.carry.toNat := by
  induction todo generalizing s a first with
  | nil =>
    cases h with
    | @cons _ s' _ _ _ _ hsame hm rest =>
      cases rest with
      | nil hend =>
        have ha : a ∈ cells := hsub (List.mem_cons_self ..)
        have hdigit := hm.left hfirst
        rw [hsame.cells a ha, hsame.carry, ← hend.cells a ha, ← hend.carry] at hdigit
        exact .cons hdigit (.nil _)
  | cons a' todo ih =>
    cases h with
    | @cons _ s' _ _ _ _ hsame hm rest =>
      obtain ⟨hnotin, hnd'⟩ := List.nodup_cons.mp hnd
      obtain ⟨ha, hsub'⟩ := List.cons_subset.mp hsub
      have hcarries := ih (.inl rfl) rest hsub' hnd'
      rw [hsame.map_run hm hsub' hnotin fun v => 2 * v.toNat] at hcarries
      have hkeep : t.env a = (post flatMem run s').env a := by
        refine rest.env_of_not_mem ha ?_
        rwa [map_snd_steps]
      have hdigit := hm.left hfirst
      rw [hsame.cells a ha, hsame.carry, ← hkeep] at hdigit
      exact .cons hdigit hcarries

/-- A pass to the right, from the top cell `a` on. Its carries run downwards. -/
theorem Shifts.right {first : InstrMod} (hfirst : first = .ror ∨ first = .lsr) {a : Uint16}
    {todo : List Uint16} {s t : Sys Cpu Mem}
    (h : Shifts cells s ((first, a) :: todo.reverse.map fun b => (.ror, b)) t)
    (hsub : a :: todo ⊆ cells) (hnd : (a :: todo).Nodup) :
    Carries 256 t.chip.r.flags.carry.toNat
      ((todo ++ [a]).map fun b => 2 * (t.env b).toNat)
      ((todo ++ [a]).map fun b => (s.env b).toNat)
      (carryIn s.chip.r.flags.carry first).toNat := by
  induction todo using List.reverseRecOn generalizing s a first with
  | nil =>
    cases h with
    | @cons _ s' _ _ _ _ hsame hm rest =>
      cases rest with
      | nil hend =>
        have ha : a ∈ cells := hsub (List.mem_cons_self ..)
        have hdigit := hm.right hfirst
        rw [hsame.cells a ha, hsame.carry, ← hend.cells a ha, ← hend.carry] at hdigit
        exact .cons hdigit (.nil _)
  | append_singleton todo a' ih =>
    cases h with
    | @cons _ s' _ _ _ _ hsame hm rest =>
      obtain ⟨hnotin, hnd'⟩ := List.nodup_cons.mp hnd
      obtain ⟨ha, hsub'⟩ := List.cons_subset.mp hsub
      have hperm : (todo ++ [a']).Perm (a' :: todo) := List.perm_append_singleton a' todo
      have hkeep : t.env a = (post flatMem run s').env a := by
        refine rest.env_of_not_mem ha ?_
        rwa [map_snd_steps, List.mem_reverse]
      rw [List.reverse_append, List.reverse_singleton, List.singleton_append, List.map_cons] at rest
      have hcarries := ih (.inl rfl) rest (fun b hb => hsub' (hperm.mem_iff.mpr hb))
        (hperm.nodup_iff.mp hnd')
      rw [hsame.map_run hm hsub' hnotin BitVec.toNat] at hcarries
      have hdigit := hm.right hfirst
      rw [hsame.cells a ha, hsame.carry, ← hkeep] at hdigit
      have hsnoc (f : Uint16 → ℕ) :
          (todo ++ [a'] ++ [a]).map f = (todo ++ [a']).map f ++ [f a] := List.map_append
      rw [hsnoc, hsnoc]
      exact hcarries.snoc hdigit

/-- The steps to the left: `first` on the least significant byte and ROL on the others. -/
def leftSteps (first : InstrMod) : List Uint16 → List (InstrMod × Uint16)
  | [] => []
  | a :: rest => (first, a) :: rest.map fun b => (.rol, b)

/-- The steps to the right: `first` on the most significant byte and ROR on the others. -/
def rightSteps (first : InstrMod) (cells : List Uint16) : List (InstrMod × Uint16) :=
  match cells.reverse with
  | [] => []
  | a :: rest => (first, a) :: rest.map fun b => (.ror, b)

theorem number_eq (m : Mem) :
    number cells m = Nat.ofDigits 256 (cells.map fun b => (m b).toNat) := by
  unfold number value
  rw [List.map_map]
  rfl

variable {first : InstrMod} {s t : Sys Cpu Mem} (hne : cells ≠ []) (hnd : cells.Nodup)
include hne hnd

theorem Shifts.left_number (hfirst : first = .rol ∨ first = .asl)
    (h : Shifts cells s (leftSteps first cells) t) :
    2 * number cells s.env + (carryIn s.chip.r.flags.carry first).toNat =
      number cells t.env + 256 ^ cells.length * t.chip.r.flags.carry.toNat := by
  obtain ⟨a, rest, rfl⟩ := List.exists_cons_of_ne_nil hne
  have hvalue := (h.left hfirst (List.Subset.refl _) hnd).value
  rw [ofDigits_map_mul, List.length_map] at hvalue
  rw [number_eq, number_eq]
  exact hvalue

theorem Shifts.right_number (hfirst : first = .ror ∨ first = .lsr)
    (h : Shifts cells s (rightSteps first cells) t) :
    2 * number cells t.env + t.chip.r.flags.carry.toNat =
      number cells s.env + 256 ^ cells.length * (carryIn s.chip.r.flags.carry first).toNat := by
  obtain ⟨a, rest, hrev⟩ := List.exists_cons_of_ne_nil (mt List.reverse_eq_nil_iff.mp hne)
  have hcells : cells = rest.reverse ++ [a] := by
    rw [← List.reverse_cons, ← hrev, List.reverse_reverse]
  have hperm : cells.Perm (a :: rest.reverse) := by
    rw [hcells]
    exact List.perm_append_singleton a _
  unfold rightSteps at h
  rw [hrev] at h
  change Shifts cells s ((first, a) :: rest.map _) t at h
  rw [← List.reverse_reverse rest] at h
  have hvalue :=
    (h.right hfirst (fun b hb => hperm.mem_iff.mpr hb) (hperm.nodup_iff.mp hnd)).value
  rw [ofDigits_map_mul, List.length_map, ← hcells] at hvalue
  rw [number_eq, number_eq]
  exact hvalue

end Passes

/-! ### Numbers -/

section Numbers

variable {cells : List Uint16}

theorem number_lt (m : Mem) : number cells m < 256 ^ cells.length := value_lt (List.length_map _)

theorem pow_eq_two_mul (hne : cells ≠ []) :
    256 ^ cells.length = 2 * 2 ^ (8 * cells.length - 1) := by
  have hlen := List.length_pos_iff.mpr hne
  rw [← Nat.pow_succ', Nat.succ_eq_add_one, Nat.sub_add_cancel (by omega), Nat.pow_mul]

/-- A number below `2 ^ (i + 1)` has its top bit in the half it is in. -/
theorem testBit_top {N i : ℕ} (hN : N < 2 * 2 ^ i) : N.testBit i = decide (2 ^ i ≤ N) := by
  rw [Nat.testBit_eq_decide_div_mod_eq]
  apply decide_eq_decide.mpr
  by_cases hle : 2 ^ i ≤ N
  · have hdiv : N / 2 ^ i = 1 := Nat.div_eq_of_lt_le (by omega) (by omega)
    simp [hdiv, hle]
  · rw [Nat.div_eq_of_lt (by omega)]
    simp [hle]

/-- What the equation of a pass to the left says of the number and the carry it leaves. -/
theorem left_result {i N N' c : ℕ} {c' : Bool} (hN : N < 2 * 2 ^ i) (hN' : N' < 2 * 2 ^ i)
    (hc : c ≤ 1) (h : 2 * N + c = N' + 2 * 2 ^ i * c'.toNat) :
    N' = (2 * N + c) % (2 * 2 ^ i) ∧ c' = N.testBit i := by
  rw [testBit_top hN]
  refine ⟨?_, ?_⟩
  · rw [h, Nat.add_mul_mod_self_left, Nat.mod_eq_of_lt hN']
  · cases c' with
    | false =>
      rw [Bool.toNat_false, Nat.mul_zero] at h
      exact (decide_eq_false (by omega)).symm
    | true =>
      rw [Bool.toNat_true, Nat.mul_one] at h
      exact (decide_eq_true (by omega)).symm

/-- The same of a pass to the right. -/
theorem right_result {i N N' c : ℕ} {c' : Bool}
    (h : 2 * N' + c'.toNat = N + 2 * 2 ^ i * c) : N' = N / 2 + c * 2 ^ i ∧ c' = N.testBit 0 := by
  have hc := c'.toNat_le
  have hmul : 2 * 2 ^ i * c = 2 * (c * 2 ^ i) := by ring
  rw [hmul] at h
  rw [Nat.testBit_zero]
  refine ⟨by omega, ?_⟩
  cases c' with
  | false =>
    rw [Bool.toNat_false] at h
    exact (decide_eq_false (by omega)).symm
  | true =>
    rw [Bool.toNat_true] at h
    exact (decide_eq_true (by omega)).symm

/-- The number determines its bytes. -/
theorem cells_of_number {m m' : Mem} (h : number cells m' = number cells m) :
    ∀ a ∈ cells, m' a = m a := by
  rw [number_eq, number_eq] at h
  have hdigit (n : Mem) : ∀ d ∈ cells.map fun b => (n b).toNat, d < 256 := by
    intro d hd
    obtain ⟨b, -, rfl⟩ := List.mem_map.mp hd
    exact (n b).isLt
  have hmap := Nat.ofDigits_inj_of_len_eq (by decide) (by simp) (hdigit m') (hdigit m) h
  intro a ha
  exact BitVec.eq_of_toNat_eq (List.map_inj_left.mp hmap a ha)

end Numbers

/-- **Multi-byte shifts.** ROL from the least significant byte on doubles the number and takes the
carry in at the bottom; ROR from the most significant byte on halves it and takes the carry in at
the top; each leaves the bit that falls out in the carry, and the second undoes the first. With
ASL or LSR for the first step no carry comes in. -/
theorem multi_byte_shifts {cells : List Uint16} (hne : cells ≠ []) (hnd : cells.Nodup)
    (s t : Sys Cpu Mem) :
    let N := number cells s.env
    let n := cells.length
    let c := s.chip.r.flags.carry.toNat
    (Shifts cells s (leftSteps .rol cells) t →
      number cells t.env = (2 * N + c) % 256 ^ n ∧
        t.chip.r.flags.carry = N.testBit (8 * n - 1)) ∧
    (Shifts cells s (rightSteps .ror cells) t →
      number cells t.env = N / 2 + c * 2 ^ (8 * n - 1) ∧ t.chip.r.flags.carry = N.testBit 0) ∧
    (∀ u, Shifts cells s (leftSteps .rol cells) t → Shifts cells t (rightSteps .ror cells) u →
      (∀ a ∈ cells, u.env a = s.env a) ∧ u.chip.r.flags.carry = s.chip.r.flags.carry) ∧
    (Shifts cells s (leftSteps .asl cells) t →
      number cells t.env = 2 * N % 256 ^ n ∧ t.chip.r.flags.carry = N.testBit (8 * n - 1)) ∧
    (Shifts cells s (rightSteps .lsr cells) t →
      number cells t.env = N / 2 ∧ t.chip.r.flags.carry = N.testBit 0) := by
  intro N n c
  have hpow : 256 ^ n = 2 * 2 ^ (8 * n - 1) := pow_eq_two_mul hne
  have hc : c ≤ 1 := s.chip.r.flags.carry.toNat_le
  have hlt (m : Mem) : number cells m < 2 * 2 ^ (8 * n - 1) := hpow ▸ number_lt m
  refine ⟨?_, ?_, ?_, ?_, ?_⟩
  · intro h
    have hnum := h.left_number hne hnd (.inl rfl)
    rw [hpow] at hnum ⊢
    exact left_result (hlt _) (hlt _) hc hnum
  · intro h
    have hnum := h.right_number hne hnd (.inl rfl)
    rw [hpow] at hnum
    exact right_result hnum
  · intro u h h'
    have hleft := h.left_number hne hnd (.inl rfl)
    have hright := h'.right_number hne hnd (.inl rfl)
    -- both equations speak of the number and the carry in between
    have hsum : 2 * number cells u.env + u.chip.r.flags.carry.toNat =
        2 * number cells s.env + s.chip.r.flags.carry.toNat := hright.trans hleft.symm
    have hu := u.chip.r.flags.carry.toNat_le
    have hs := s.chip.r.flags.carry.toNat_le
    refine ⟨cells_of_number (by omega), ?_⟩
    have hbit : u.chip.r.flags.carry.toNat = s.chip.r.flags.carry.toNat := by omega
    cases hu' : u.chip.r.flags.carry <;> cases hs' : s.chip.r.flags.carry <;>
      simp [hu', hs'] at hbit ⊢
  · intro h
    have hnum := h.left_number hne hnd (.inr rfl)
    rw [hpow] at hnum ⊢
    exact left_result (c := 0) (hlt _) (hlt _) (Nat.zero_le 1) hnum
  · intro h
    have hnum := h.right_number hne hnd (.inr rfl)
    rw [hpow] at hnum
    change _ = _ + _ * 0 at hnum
    have hres := right_result hnum
    rwa [Nat.zero_mul, Nat.add_zero] at hres

/-- `ROL $10; ROL $11; ROR $11; ROR $10` with `$8001` in the two cells. -/
def shiftProgram : Sys Cpu Mem :=
  ⟨{ r.flags.carry := true }, program
    [0x26, 0x10, 0x26, 0x11, 0x66, 0x11, 0x66, 0x10, 0, 0, 0, 0, 0, 0, 0, 0, 0x01, 0x80]⟩

theorem sameNumber_self (cells : List Uint16) (s : Sys Cpu Mem) : SameNumber cells s s :=
  ⟨rfl, fun _ _ => rfl⟩

/-- To the left the number becomes `$0003` with the carry set, and back again. -/
theorem multi_byte_shifts_two :
    number [0x10, 0x11] ((post flatMem run)^[2] shiftProgram).env = 3 ∧
      ((post flatMem run)^[4] shiftProgram).env 0x11 = 0x80 := by
  have hleft : Shifts [0x10, 0x11] shiftProgram (leftSteps .rol [0x10, 0x11])
      ((post flatMem run)^[2] shiftProgram) :=
    .cons (sameNumber_self _ _) ⟨rfl, rfl, .zero, nofun, rfl, rfl⟩
      (.cons (sameNumber_self _ _) ⟨rfl, rfl, .zero, nofun, rfl, rfl⟩ (.nil (sameNumber_self _ _)))
  have hright : Shifts [0x10, 0x11] ((post flatMem run)^[2] shiftProgram)
      (rightSteps .ror [0x10, 0x11]) ((post flatMem run)^[4] shiftProgram) :=
    .cons (sameNumber_self _ _) ⟨rfl, rfl, .zero, nofun, rfl, rfl⟩
      (.cons (sameNumber_self _ _) ⟨rfl, rfl, .zero, nofun, rfl, rfl⟩ (.nil (sameNumber_self _ _)))
  have hne : ([0x10, 0x11] : List Uint16) ≠ [] := nofun
  obtain ⟨hrol, -, hback, -⟩ := multi_byte_shifts hne (by decide) shiftProgram
    ((post flatMem run)^[2] shiftProgram)
  exact ⟨(hrol hleft).1, (hback _ hleft hright).1 0x11 (by decide)⟩

end Yanesemu.Cpu
