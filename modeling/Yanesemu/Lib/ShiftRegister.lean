import Mathlib.Data.Nat.Notation

/-!
# Shift registers

A register of cells that moves towards cell 0, and into which words are loaded from time to time.
A fill loads the cells from `lo` to `lo + len - 1` and overwrites what is there; a shift drops
cell 0.

What the cells hold is left open. With bits in them `cells` is the register itself; with names in
them (`holder`) it says where each bit of each word is, and `cells_eq_value` that the register
holds the bits so named. So what becomes of a bit is a question about names only.
-/

namespace ShiftRegister

inductive Op
  | hold
  | shift
  | fill (word : ℕ)
  deriving DecidableEq, Repr

variable {α β : Type} (lo len : ℕ)

def step (words : ℕ → ℕ → α) (r : ℕ → α) : Op → ℕ → α
  | .hold => r
  | .shift => fun i => r (i + 1)
  | .fill word => fun i => if lo ≤ i ∧ i < lo + len then words word (i - lo) else r i

/-- The register after the first `n` operations. -/
def cells (words : ℕ → ℕ → α) (ops : ℕ → Op) (r : ℕ → α) : ℕ → ℕ → α
  | 0 => r
  | n + 1 => step lo len words (cells words ops r n) (ops n)

/-- What a cell holds: what was in a cell at the start, or a bit of a word. -/
inductive Name
  | start (cell : ℕ)
  | bit (word i : ℕ)
  deriving DecidableEq, Repr

def Name.value (words : ℕ → ℕ → α) (r : ℕ → α) : Name → α
  | start cell => r cell
  | bit word i => words word i

/-- The names in the register after the first `n` operations. -/
def holder (ops : ℕ → Op) : ℕ → ℕ → Name := cells lo len Name.bit ops Name.start

section Rules

variable {lo len} {words : ℕ → ℕ → α} {ops : ℕ → Op} {r : ℕ → α}

theorem comp_step (f : α → β) (op : Op) :
    f ∘ step lo len words r op = step lo len (fun word => f ∘ words word) (f ∘ r) op := by
  cases op with
  | hold => rfl
  | shift => rfl
  | fill word =>
    funext i
    exact apply_ite f ..

/-- Renaming what the cells hold. -/
theorem comp_cells (f : α → β) (n : ℕ) :
    f ∘ cells lo len words ops r n = cells lo len (fun word => f ∘ words word) ops (f ∘ r) n := by
  induction n with
  | zero => rfl
  | succ n ih =>
    unfold cells
    rw [comp_step, ih]

/-- **Names.** Each cell holds what its name says. -/
theorem cells_eq_value (n i : ℕ) :
    cells lo len words ops r n i = (holder lo len ops n i).value words r := by
  have hnames : Name.value words r ∘ holder lo len ops n = cells lo len words ops r n :=
    comp_cells (Name.value words r) n
  exact (congrFun hnames i).symm

/-- A register that takes the steps is the register of the definition. -/
theorem eq_cells {f : ℕ → ℕ → α} (h0 : f 0 = r) {bound : ℕ}
    (hstep : ∀ n < bound, f (n + 1) = step lo len words (f n) (ops n)) {n : ℕ}
    (hn : n ≤ bound) : f n = cells lo len words ops r n := by
  induction n with
  | zero => exact h0
  | succ n ih =>
    rw [hstep n hn, ih (Nat.le_of_lt hn)]
    rfl

/-- The operations that are still to come do not matter. -/
theorem cells_congr {ops' : ℕ → Op} {n : ℕ} (h : ∀ m < n, ops m = ops' m) :
    cells lo len words ops r n = cells lo len words ops' r n := by
  induction n with
  | zero => rfl
  | succ n ih =>
    unfold cells
    rw [h n (Nat.lt_succ_self n), ih fun m hm => h m (Nat.lt_succ_of_lt hm)]

/-- A row of shifts. -/
theorem cells_of_shifts {n j : ℕ} (hops : ∀ m < j, ops (n + m) = .shift) (i : ℕ) :
    cells lo len words ops r (n + j) i = cells lo len words ops r n (i + j) := by
  induction j generalizing i with
  | zero => rfl
  | succ j ih =>
    have hlast := hops j (Nat.lt_succ_self j)
    have hfirst := ih (fun m hm => hops m (Nat.lt_succ_of_lt hm)) (i + 1)
    show step lo len words (cells lo len words ops r (n + j)) (ops (n + j)) i = _
    rw [hlast, show i + (j + 1) = i + 1 + j by omega]
    exact hfirst

/-- A fill and a row of shifts after it. -/
theorem cells_of_fill {n j word : ℕ} (hfill : ops n = .fill word)
    (hops : ∀ m < j, ops (n + 1 + m) = .shift) (i : ℕ) :
    cells lo len words ops r (n + 1 + j) i =
      if lo ≤ i + j ∧ i + j < lo + len then words word (i + j - lo)
      else cells lo len words ops r n (i + j) := by
  rw [cells_of_shifts hops]
  show step lo len words (cells lo len words ops r n) (ops n) (i + j) = _
  rw [hfill]
  rfl

end Rules

end ShiftRegister
