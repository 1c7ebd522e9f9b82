import Mathlib.Data.BitVec
import Mathlib.Logic.Function.Basic

/-!
# Stacks in a ring of cells

A stack that grows downwards in `2 ^ w` cells, with a pointer of `w` bits that wraps around. It has
no bounds check: a push always writes the cell of the pointer, a pull always reads the cell after
it. `matched` says what a stack is for: a list of pushes and pulls is well nested, at most `cap`
deep, and each pull gets the value of its push. `run_of_matched` is that the ring does this up to
its full capacity.
-/

namespace RingStack

variable {w : ℕ} {V : Type}

inductive Op (V : Type)
  | push (v : V)
  | pull

structure Stack (w : ℕ) (V : Type) where
  mem : BitVec w → V
  sp : BitVec w

namespace Stack

def push (s : Stack w V) (v : V) : Stack w V := ⟨Function.update s.mem s.sp v, s.sp - 1⟩

def pull (s : Stack w V) : V × Stack w V := (s.mem (s.sp + 1), ⟨s.mem, s.sp + 1⟩)

/-- The values pulled and the ring after the operations. -/
def run : Stack w V → List (Op V) → List V × Stack w V
  | s, [] => ([], s)
  | s, .push v :: ops => (s.push v).run ops
  | s, .pull :: ops => (s.pull.1 :: (s.pull.2.run ops).1, (s.pull.2.run ops).2)

end Stack

/-- The values of the matching pushes, for operations that start on the stack `st`. They must
leave nothing on it, pull nothing from an empty one and never hold more than `cap` values. -/
def matched (cap : ℕ) : List V → List (Op V) → Option (List V)
  | [], [] => some []
  | _ :: _, [] => none
  | st, .push v :: ops => if st.length < cap then matched cap (v :: st) ops else none
  | [], .pull :: _ => none
  | v :: st, .pull :: ops => (matched cap st ops).map (v :: ·)

/-- The cells after the pointer hold the values, the last pushed first. -/
def Holds (mem : BitVec w → V) : BitVec w → List V → Prop
  | _, [] => True
  | sp, v :: st => mem (sp + 1) = v ∧ Holds mem (sp + 1) st

/-- The cells after `sp`, counted from `sp` itself. -/
theorem succ_add_ofNat (sp : BitVec w) (i : ℕ) :
    sp + 1 + BitVec.ofNat w i = sp + BitVec.ofNat w (i + 1) := by
  rw [Nat.add_comm i 1, BitVec.ofNat_add, ← BitVec.add_assoc]
  rfl

/-- The values stay when another cell is written. -/
theorem Holds.update {mem : BitVec w → V} {sp x : BitVec w} {v : V} {st : List V}
    (h : Holds mem sp st) (hx : ∀ i < st.length, sp + BitVec.ofNat w (i + 1) ≠ x) :
    Holds (Function.update mem x v) sp st := by
  induction st generalizing sp with
  | nil => trivial
  | cons u st ih =>
    obtain ⟨hu, hst⟩ := h
    rw [List.length_cons] at hx
    refine ⟨?_, ih hst ?_⟩
    · have hne : sp + 1 ≠ x := hx 0 (by omega)
      rw [Function.update_of_ne hne, hu]
    · intro i hi
      rw [succ_add_ofNat]
      exact hx (i + 1) (by omega)

/-- Fewer than `2 ^ w` steps do not lead around the ring. -/
theorem add_ofNat_ne_self (sp : BitVec w) {i : ℕ} (h0 : 0 < i) (hi : i < 2 ^ w) :
    sp + BitVec.ofNat w i ≠ sp := by
  intro heq
  have hzero : BitVec.ofNat w i = 0#w := by simpa using heq
  have hnat := congrArg BitVec.toNat hzero
  rw [BitVec.toNat_ofNat, Nat.mod_eq_of_lt hi, BitVec.toNat_ofNat, Nat.zero_mod] at hnat
  omega

theorem Holds.push {mem : BitVec w → V} {sp : BitVec w} {st : List V} (h : Holds mem sp st)
    (hlen : st.length < 2 ^ w) (v : V) :
    Holds (Function.update mem sp v) (sp - 1) (v :: st) := by
  have hsp : sp - 1 + 1 = sp := BitVec.sub_add_cancel sp 1
  refine ⟨?_, ?_⟩
  · rw [hsp]
    exact Function.update_self ..
  · rw [hsp]
    apply h.update
    intro i hi
    exact add_ofNat_ne_self sp (Nat.succ_pos i) (by omega)

/-- **Last in, first out.** A ring of `2 ^ w` cells is a stack of that capacity: the pulls get the
values of their pushes, and the pointer comes back. -/
theorem run_of_matched {s : Stack w V} {st : List V} {ops : List (Op V)} {vs : List V}
    (hs : Holds s.mem s.sp st) (h : matched (2 ^ w) st ops = some vs) :
    (s.run ops).1 = vs ∧ (s.run ops).2.sp = s.sp + BitVec.ofNat w st.length := by
  induction ops generalizing s st vs with
  | nil =>
    cases st with
    | nil =>
      cases h
      exact ⟨rfl, (BitVec.add_zero s.sp).symm⟩
    | cons v st => cases h
  | cons op ops ih =>
    cases op with
    | push v =>
      rw [matched] at h
      split at h
      · next hlen =>
        obtain ⟨hvs, hsp⟩ := ih (s := s.push v) (hs.push hlen v) h
        refine ⟨hvs, hsp.trans ?_⟩
        show s.sp - 1 + BitVec.ofNat w (st.length + 1) = _
        rw [← succ_add_ofNat, BitVec.sub_add_cancel]
      · cases h
    | pull =>
      cases st with
      | nil => cases h
      | cons v st =>
        rw [matched, Option.map_eq_some_iff] at h
        obtain ⟨us, hmatched, rfl⟩ := h
        obtain ⟨hv, hst⟩ := hs
        obtain ⟨hvs, hsp⟩ := ih (s := s.pull.2) hst hmatched
        refine ⟨?_, hsp.trans ?_⟩
        · rw [Stack.run, hvs]
          exact congrArg (· :: us) hv
        · exact succ_add_ofNat s.sp st.length

end RingStack
