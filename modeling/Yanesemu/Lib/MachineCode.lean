import Mathlib.Logic.Function.Iterate

/-!
# Runs of machine code

A machine makes one step after the other, and a piece of code is a stretch of its states. `Goes
step G n s t` says that the machine gets from `s` to `t` in `n` steps and that each of them starts
in a state with `G`. Getting there is part of it: a piece of code that never ends goes nowhere.

A jump is nothing special for the rules. A guard that a second machine respects carries a piece of
code over to that machine (`Goes.simulate`).
-/

namespace MachineCode

variable {S T : Type} {step : S → S} {G : S → Prop} {n m : ℕ} {s t u : S}

/-- The machine goes from `s` to `t` in `n` steps, each from a state with `G`. -/
structure Goes (step : S → S) (G : S → Prop) (n : ℕ) (s t : S) : Prop where
  guard : ∀ k < n, G (step^[k] s)
  stop : step^[n] s = t

namespace Goes

theorem refl (s : S) : Goes step G 0 s s := ⟨fun _ hk => absurd hk (Nat.not_lt_zero _), rfl⟩

/-- One piece of code after the other. -/
theorem trans (h : Goes step G n s t) (h' : Goes step G m t u) : Goes step G (n + m) s u := by
  refine ⟨?_, ?_⟩
  · intro k hk
    rcases Nat.lt_or_ge k n with hlt | hge
    · exact h.guard k hlt
    · obtain ⟨j, rfl⟩ := Nat.exists_eq_add_of_le hge
      rw [Nat.add_comm, Function.iterate_add_apply, h.stop]
      exact h'.guard j (by omega)
  · rw [Nat.add_comm, Function.iterate_add_apply, h.stop, h'.stop]

/-- One step. -/
theorem one (h : G s ∧ step s = t) : Goes step G 1 s t := by
  refine ⟨?_, h.2⟩
  intro k hk
  obtain rfl : k = 0 := Nat.lt_one_iff.mp hk
  exact h.1

/-- A step, then the rest. -/
theorem head (h : G s ∧ step s = t) (h' : Goes step G n t u) : Goes step G (n + 1) s u := by
  rw [Nat.add_comm]
  exact (one h).trans h'

/-- **Simulation.** A second machine that follows the steps of the guard gets where the code goes.
The relation may use up a budget of one for each step. -/
theorem simulate {step' : T → T} {Sim : ℕ → S → T → Prop} {v : T} (h : Goes step G n s t)
    (hsim : ∀ m s v, Sim (m + 1) s v → G s → Sim m (step s) (step' v)) (hs : Sim n s v) :
    Sim 0 t (step'^[n] v) := by
  have hkept : ∀ k ≤ n, Sim (n - k) (step^[k] s) (step'^[k] v) := by
    intro k
    induction k with
    | zero => exact fun _ => hs
    | succ k ih =>
      intro hk
      have hb : n - k = n - (k + 1) + 1 := by omega
      rw [Function.iterate_succ_apply', Function.iterate_succ_apply']
      exact hsim _ _ _ (hb ▸ ih (Nat.le_of_succ_le hk)) (h.guard k hk)
  have hend := hkept n (Nat.le_refl n)
  rwa [Nat.sub_self, h.stop] at hend

/-- **Frames.** What every step on the way keeps is still there at the end. -/
theorem keeps {F : S → Prop} (h : Goes step G n s t) (hF : ∀ s, G s → F s → F (step s))
    (hs : F s) : F t := by
  have hkept : ∀ k ≤ n, F (step^[k] s) := by
    intro k
    induction k with
    | zero => exact fun _ => hs
    | succ k ih =>
      intro hk
      rw [Function.iterate_succ_apply']
      exact hF _ (h.guard k hk) (ih (Nat.le_of_succ_le hk))
  rw [← h.stop]
  exact hkept n (Nat.le_refl n)

end Goes

end MachineCode
