import Mathlib.Data.List.Induction
import Mathlib.Logic.Function.Basic
import Yanesemu.Lib.Run

/-!
# Memories that are written one cell at a time

A history of writes is a list of pairs of an address and a value. Several addresses may stand for
one cell, so a cell is given by the set of its addresses: `lastWrite P ws` is the value of the
last write of `ws` to an address in `P`. `read_after_writes` is the rule every memory comes down
to: what one write does to the cell decides what the cell holds after any number of them.

`store` is the history that writes a list of values to a sequence of cells.
-/

namespace EventRun

variable {K V S : Type}

/-- The value of the last write to an address satisfying `P`. -/
def lastWrite (P : K → Prop) [DecidablePred P] (ws : List (K × V)) : Option V :=
  ((ws.filter fun w => P w.1).getLast?).map Prod.snd

section LastWrite

variable {P : K → Prop} [DecidablePred P]

@[simp] theorem lastWrite_nil : lastWrite P ([] : List (K × V)) = none := rfl

theorem lastWrite_concat (ws : List (K × V)) (w : K × V) :
    lastWrite P (ws ++ [w]) = if P w.1 then some w.2 else lastWrite P ws := by
  unfold lastWrite
  rw [List.filter_append]
  split
  · next h => simp [h]
  · next h => simp [h]

theorem lastWrite_of_last {front back : List (K × V)} {w : K × V} (hw : P w.1)
    (hback : ∀ w' ∈ back, ¬P w'.1) : lastWrite P (front ++ w :: back) = some w.2 := by
  induction back using List.reverseRecOn with
  | nil => rw [lastWrite_concat, if_pos hw]
  | append_singleton back w' ih =>
    rw [List.forall_mem_append] at hback
    rw [← List.cons_append, ← List.append_assoc, lastWrite_concat,
      if_neg (hback.2 w' (List.mem_singleton_self w')), ih hback.1]

theorem isSome_lastWrite_iff (ws : List (K × V)) :
    (lastWrite P ws).isSome = true ↔ ∃ w ∈ ws, P w.1 := by
  induction ws using List.reverseRecOn with
  | nil => simp
  | append_singleton ws w ih =>
    rw [lastWrite_concat]
    split_ifs with hw
    · exact ⟨fun _ => ⟨w, by simp, hw⟩, fun _ => rfl⟩
    · rw [ih]
      constructor
      · rintro ⟨w', hw', hP⟩
        exact ⟨w', List.mem_append_left _ hw', hP⟩
      · rintro ⟨w', hw', hP⟩
        rcases List.mem_append.mp hw' with hw' | hw'
        · exact ⟨w', hw', hP⟩
        · exact absurd (List.mem_singleton.mp hw' ▸ hP) hw

/-- A table that is filled in order holds the last entry for each key. -/
theorem after_update [DecidableEq K] (ws : List (K × V)) (k : K) :
    after (fun (m : K → Option V) w => Function.update m w.1 (some w.2)) (fun _ => none) ws k =
      lastWrite (· = k) ws := by
  induction ws using List.reverseRecOn with
  | nil => rfl
  | append_singleton ws w ih =>
    rw [after_concat, lastWrite_concat, Function.update_apply]
    by_cases hk : w.1 = k
    · rw [if_pos hk.symm, if_pos hk]
    · rw [if_neg fun h => hk h.symm, if_neg hk, ih]

/-- A table filled in order by a computation that can fail. It succeeds if each entry does. -/
theorem foldlM_update_ok [DecidableEq K] {A E : Type} {f : A → Except E V} {key : A → K}
    {val : A → V} {l : List A} (h : ∀ a ∈ l, f a = .ok (val a)) (m : K → Option V) :
    l.foldlM (fun m a => do
      let v ← f a
      return Function.update m (key a) (some v)) m =
      .ok (after (fun (m : K → Option V) w => Function.update m w.1 (some w.2)) m
        (l.map fun a => (key a, val a))) := by
  induction l generalizing m with
  | nil => rfl
  | cons a l ih =>
    rw [List.foldlM_cons, h a List.mem_cons_self]
    exact ih (fun b hb => h b (List.mem_cons_of_mem a hb)) _

theorem exists_ok_of_foldlM_update [DecidableEq K] {A E : Type} {f : A → Except E V} {key : A → K}
    {l : List A} {m m' : K → Option V}
    (h : l.foldlM (fun m a => do
      let v ← f a
      return Function.update m (key a) (some v)) m = .ok m') : ∀ a ∈ l, ∃ v, f a = .ok v := by
  induction l generalizing m with
  | nil => simp
  | cons a l ih =>
    rw [List.foldlM_cons] at h
    cases ha : f a with
    | error e =>
      rw [ha] at h
      cases h
    | ok v =>
      rw [ha] at h
      exact List.forall_mem_cons.mpr ⟨⟨v, ha⟩, ih h⟩

/-- **Last writes.** If a write to `P` sets the cell and any other write leaves it alone, the cell
holds the last value written to `P`, or what it held at the start. -/
theorem read_after_writes {step : S → K × V → S} {I : S → Prop} (cell : S → V)
    (hI : ∀ s w, I s → I (step s w)) (hhit : ∀ s w, I s → P w.1 → cell (step s w) = w.2)
    (hmiss : ∀ s w, I s → ¬P w.1 → cell (step s w) = cell s) {s : S} (hs : I s)
    (ws : List (K × V)) : cell (after step s ws) = (lastWrite P ws).getD (cell s) := by
  induction ws using List.reverseRecOn with
  | nil => rfl
  | append_singleton ws w ih =>
    have hws : I (after step s ws) := after_inv hI hs ws
    rw [after_concat, lastWrite_concat]
    by_cases hw : P w.1
    · rw [if_pos hw, hhit _ _ hws hw]
      rfl
    · rw [if_neg hw, hmiss _ _ hws hw, ih]

end LastWrite

/-! ## Blocks -/

section Store

variable [DecidableEq K] {cell : ℕ → K}

/-- The values `vs` are written to `cell i`, `cell (i + 1)`, … -/
def store (cell : ℕ → K) : ℕ → List V → (K → V) → K → V
  | _, [], mem => mem
  | i, v :: vs, mem => store cell (i + 1) vs (Function.update mem (cell i) v)

theorem store_of_ne {i : ℕ} {vs : List V} {mem : K → V} {k : K}
    (hk : ∀ j, i ≤ j → j < i + vs.length → cell j ≠ k) : store cell i vs mem k = mem k := by
  induction vs generalizing i mem with
  | nil => rfl
  | cons v vs ih =>
    rw [List.length_cons] at hk
    rw [store, ih fun j hj hj' => hk j (by omega) (by omega)]
    exact Function.update_of_ne (hk i (Nat.le_refl i) (by omega)).symm ..

/-- **Blocks.** Values stored in different cells are all there. -/
theorem store_read {i : ℕ} {vs : List V} {mem : K → V}
    (hcell : ∀ j k, i ≤ j → j < k → k < i + vs.length → cell j ≠ cell k) :
    (List.range' i vs.length).map (fun j => store cell i vs mem (cell j)) = vs := by
  induction vs generalizing i mem with
  | nil => rfl
  | cons v vs ih =>
    rw [List.length_cons] at hcell ⊢
    rw [List.range'_succ, List.map_cons]
    congr 1
    · rw [store, store_of_ne fun j hj hj' => (hcell i j (Nat.le_refl i) hj (by omega)).symm]
      exact Function.update_self ..
    · exact ih fun j k hj hjk hk => hcell j k (by omega) hjk (by omega)

end Store

end EventRun
