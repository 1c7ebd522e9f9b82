import Mathlib.Data.List.Basic
import Mathlib.Logic.Function.Iterate

/-!
# Runs of a machine driven by events

A machine takes events one at a time: `step s e` is the state after the event `e` in the state
`s`. `after` is the state a list of events leads to, `moments` the list of pairs of a state and
the event that met it there, in order. A property of every run is a statement about `after` for
an arbitrary list, a property of everything that happens in a run one about its `moments`.

`Since` is the temporal operator of that name, on the moments of a run.

`whileLoop` is a machine that drives itself as long as a test holds. It is given rounds to use up,
so that it is a total function; `whileLoop_total` is the rule for loops that end.
-/

namespace EventRun

variable {S Ev : Type} (step : S → Ev → S)

/-- The state after the events `es`. -/
def after (s : S) (es : List Ev) : S := es.foldl step s

/-- The states of a run in which its events arrive, each with its event. -/
def moments : S → List Ev → List (S × Ev)
  | _, [] => []
  | s, e :: es => (s, e) :: moments (step s e) es

variable {step}

@[simp] theorem after_nil (s : S) : after step s [] = s := rfl

@[simp] theorem after_cons (s : S) (e : Ev) (es : List Ev) :
    after step s (e :: es) = after step (step s e) es := rfl

theorem after_append (s : S) (es fs : List Ev) :
    after step s (es ++ fs) = after step (after step s es) fs := by
  unfold after; rw [List.foldl_append]

theorem after_concat (s : S) (es : List Ev) (e : Ev) :
    after step s (es ++ [e]) = step (after step s es) e := by
  rw [after_append]; rfl

@[simp] theorem moments_nil (s : S) : moments step s [] = [] := rfl

@[simp] theorem moments_cons (s : S) (e : Ev) (es : List Ev) :
    moments step s (e :: es) = (s, e) :: moments step (step s e) es := rfl

/-- A moment of a run is what a prefix of its events leads to, with the next event. -/
theorem mem_moments_iff {s : S} {es : List Ev} {m : S × Ev} :
    m ∈ moments step s es ↔ ∃ pre suf, es = pre ++ m.2 :: suf ∧ m.1 = after step s pre := by
  induction es generalizing s with
  | nil => simp
  | cons e es ih =>
    rw [moments_cons, List.mem_cons, ih]
    constructor
    · rintro (rfl | ⟨pre, suf, rfl, hm⟩)
      · exact ⟨[], es, rfl, rfl⟩
      · exact ⟨e :: pre, suf, rfl, hm⟩
    · rintro ⟨pre, suf, he, hm⟩
      cases pre with
      | nil =>
        rw [List.nil_append, List.cons.injEq] at he
        exact Or.inl (Prod.ext hm he.1.symm)
      | cons e' pre =>
        rw [List.cons_append, List.cons.injEq] at he
        obtain ⟨rfl, he⟩ := he
        exact Or.inr ⟨pre, suf, he, hm⟩

/-- **Invariants.** What holds at the start and is kept by every event holds after every run. -/
theorem after_inv {I : S → Prop} (hstep : ∀ s e, I s → I (step s e)) {s : S} (hs : I s)
    (es : List Ev) : I (after step s es) := by
  induction es generalizing s with
  | nil => exact hs
  | cons e es ih => exact ih (hstep s e hs)

/-- Invariants that need a guard on each event: they hold after every run that keeps the guard. -/
theorem after_inv_of_guard {I : S → Prop} {G : S → Ev → Prop}
    (hstep : ∀ s e, I s → G s e → I (step s e)) {s : S} (hs : I s) (es : List Ev)
    (hG : ∀ m ∈ moments step s es, G m.1 m.2) : I (after step s es) := by
  induction es generalizing s with
  | nil => exact hs
  | cons e es ih =>
    refine ih (hstep s e hs (hG (s, e) (List.mem_cons_self ..))) ?_
    intro m hm
    exact hG m (List.mem_cons_of_mem _ hm)

/-- Guards that are exact: if the events that keep `I` are those that pass `G`, then `I` holds all
along exactly the runs that start with it and whose events all pass. -/
theorem inv_prefix_iff {I : S → Prop} {G : S → Ev → Prop}
    (hstep : ∀ s e, I s → (I (step s e) ↔ G s e)) {s : S} {es : List Ev} :
    (∀ pre, pre <+: es → I (after step s pre)) ↔ I s ∧ ∀ m ∈ moments step s es, G m.1 m.2 := by
  constructor
  · intro h
    refine ⟨h [] List.nil_prefix, ?_⟩
    intro m hm
    obtain ⟨pre, suf, rfl, hpre⟩ := mem_moments_iff.mp hm
    have hnext : I (after step s (pre ++ [m.2])) := h _ ⟨suf, by simp⟩
    rw [after_concat] at hnext
    rw [hpre]
    exact (hstep _ _ (h pre (List.prefix_append _ _))).mp hnext
  · rintro ⟨hs, hG⟩ pre ⟨suf, rfl⟩
    refine after_inv_of_guard (fun s e hI hg => (hstep s e hI).mpr hg) hs pre ?_
    intro m hm
    obtain ⟨a, b, rfl, ha⟩ := mem_moments_iff.mp hm
    exact hG m (mem_moments_iff.mpr ⟨a, b ++ suf, by simp, ha⟩)

/-- **Simulation.** A view that each event changes in a way of its own follows a machine of its
own. -/
theorem view_after {R : Type} {step' : R → Ev → R} (view : S → R)
    (hstep : ∀ s e, view (step s e) = step' (view s) e) (s : S) (es : List Ev) :
    view (after step s es) = after step' (view s) es := by
  induction es generalizing s with
  | nil => rfl
  | cons e es ih => rw [after_cons, after_cons, ih, hstep]

/-- Events that change nothing can be left out. -/
theorem after_filter {p : Ev → Bool} (hp : ∀ s e, p e = false → step s e = s) (s : S)
    (es : List Ev) : after step s (es.filter p) = after step s es := by
  induction es generalizing s with
  | nil => rfl
  | cons e es ih =>
    cases he : p e with
    | true => rw [List.filter_cons_of_pos he, after_cons, after_cons, ih]
    | false =>
      rw [List.filter_cons_of_neg (by simp [he]), after_cons, hp s e he, ih]

theorem moments_concat (s : S) (es : List Ev) (e : Ev) :
    moments step s (es ++ [e]) = moments step s es ++ [(after step s es, e)] := by
  induction es generalizing s with
  | nil => rfl
  | cons e' es ih => simp [ih]

/-! ## Since -/

variable (step) in
/-- An event for which `B` held has happened, and `K` has held of every later one. -/
def Since (B K : S → Ev → Prop) (s : S) (es : List Ev) : Prop :=
  ∃ pre e suf, es = pre ++ e :: suf ∧ B (after step s pre) e ∧
    ∀ m ∈ moments step (step (after step s pre) e) suf, K m.1 m.2

theorem not_since_nil {B K : S → Ev → Prop} {s : S} : ¬Since step B K s [] := by
  rintro ⟨pre, e, suf, h, -⟩
  cases pre <;> cases h

/-- The recursion of `Since` at the end of the run. -/
theorem since_concat {B K : S → Ev → Prop} {s : S} {es : List Ev} {e : Ev} :
    Since step B K s (es ++ [e]) ↔
      B (after step s es) e ∨ (Since step B K s es ∧ K (after step s es) e) := by
  constructor
  · rintro ⟨pre, e', suf, h, hB, hK⟩
    rcases List.eq_nil_or_concat suf with rfl | ⟨suf, e'', rfl⟩
    · obtain ⟨rfl, he⟩ := List.append_inj' h rfl
      obtain rfl : e = e' := List.singleton_inj.mp he
      exact Or.inl hB
    · have hcut : es ++ [e] = (pre ++ e' :: suf) ++ [e''] := by simpa using h
      obtain ⟨rfl, he⟩ := List.append_inj' hcut rfl
      obtain rfl : e = e'' := List.singleton_inj.mp he
      rw [List.concat_eq_append, moments_concat] at hK
      have hafter : after step s (pre ++ e' :: suf) =
          after step (step (after step s pre) e') suf := by
        rw [after_append, after_cons]
      refine Or.inr ⟨⟨pre, e', suf, rfl, hB, ?_⟩, ?_⟩
      · intro m hm
        exact hK m (List.mem_append_left _ hm)
      · rw [hafter]
        exact hK (_, e) (List.mem_append_right _ (List.mem_singleton_self _))
  · rintro (hB | ⟨⟨pre, e', suf, rfl, hB, hK⟩, hlast⟩)
    · exact ⟨es, e, [], rfl, hB, by simp⟩
    · refine ⟨pre, e', suf ++ [e], by simp, hB, ?_⟩
      intro m hm
      rw [moments_concat] at hm
      rcases List.mem_append.mp hm with hm | hm
      · exact hK m hm
      · obtain rfl := List.mem_singleton.mp hm
        rwa [after_append, after_cons] at hlast

/-! ## Loops -/

/-- `while (t s) s = f s`, given up after `fuel` rounds. -/
def whileLoop (t : S → Bool) (f : S → S) : ℕ → S → Option S
  | 0, s => if t s then none else some s
  | fuel + 1, s => if t s then whileLoop t f fuel (f s) else some s

/-- **Loops that end.** `I m s` says that `m` more rounds are enough: if a round always leaves
fewer, the loop ends with the invariant and without its test, and more fuel changes nothing. -/
theorem whileLoop_total {t : S → Bool} {f : S → S} {I : ℕ → S → Prop}
    (hround : ∀ m s, I m s → t s = true → ∃ m' < m, I m' (f s)) {m : ℕ} {s : S}
    (hs : I m s) :
    ∃ s' m', (∀ fuel ≥ m, whileLoop t f fuel s = some s') ∧ I m' s' ∧ t s' = false := by
  induction m using Nat.strongRecOn generalizing s with
  | ind m ih =>
    cases ht : t s with
    | false =>
      refine ⟨s, m, ?_, hs, ht⟩
      intro fuel _
      cases fuel <;> simp [whileLoop, ht]
    | true =>
      obtain ⟨m₁, hlt, hs₁⟩ := hround m s hs ht
      obtain ⟨s', m', hrun, hs', ht'⟩ := ih m₁ hlt hs₁
      refine ⟨s', m', ?_, hs', ht'⟩
      intro fuel hf
      obtain ⟨fuel, rfl⟩ : ∃ k, fuel = k + 1 := ⟨fuel - 1, by omega⟩
      rw [whileLoop, if_pos ht]
      exact hrun fuel (by omega)

/-- What every round keeps holds when the loop has ended. -/
theorem whileLoop_inv {t : S → Bool} {f : S → S} {I : S → Prop} (hf : ∀ s, I s → I (f s))
    {fuel : ℕ} {s s' : S} (h : whileLoop t f fuel s = some s') (hs : I s) : I s' := by
  induction fuel generalizing s with
  | zero =>
    unfold whileLoop at h
    split at h
    · cases h
    · cases h
      exact hs
  | succ fuel ih =>
    unfold whileLoop at h
    split at h
    · exact ih h (hf s hs)
    · cases h
      exact hs

/-- One round, if the test holds. -/
def guarded (t : S → Bool) (f : S → S) (s : S) : S := if t s then f s else s

/-- Where a loop ends is where its guarded rounds end. -/
theorem iterate_guarded_of_whileLoop {t : S → Bool} {f : S → S} {fuel : ℕ} {s s' : S}
    (h : whileLoop t f fuel s = some s') : (guarded t f)^[fuel] s = s' := by
  induction fuel generalizing s with
  | zero =>
    unfold whileLoop at h
    split at h
    · cases h
    · cases h
      rfl
  | succ fuel ih =>
    unfold whileLoop at h
    rw [Function.iterate_succ_apply]
    split at h
    · next ht =>
      rw [guarded, if_pos ht]
      exact ih h
    · next ht =>
      have hfix : guarded t f s = s := if_neg ht
      rw [hfix, Function.iterate_fixed hfix]
      exact Option.some.inj h

/-- A loop whose test fails after `n` guarded rounds has ended. -/
theorem whileLoop_of_iterate_guarded {t : S → Bool} {f : S → S} {n : ℕ} {s : S}
    (h : t ((guarded t f)^[n] s) = false) : whileLoop t f n s = some ((guarded t f)^[n] s) := by
  induction n generalizing s with
  | zero => exact if_neg (Bool.not_eq_true _ ▸ h)
  | succ n ih =>
    rw [Function.iterate_succ_apply] at h ⊢
    rw [whileLoop]
    by_cases ht : t s = true
    · have hround : guarded t f s = f s := if_pos ht
      rw [hround] at h ⊢
      rw [if_pos ht, ih h]
    · have hfix : guarded t f s = s := if_neg ht
      rw [if_neg ht, hfix, Function.iterate_fixed hfix]

/-- A loop that has ended has enough fuel. -/
theorem whileLoop_of_le {t : S → Bool} {f : S → S} {fuel fuel' : ℕ} {s s' : S}
    (h : whileLoop t f fuel s = some s') (hle : fuel ≤ fuel') :
    whileLoop t f fuel' s = some s' := by
  induction fuel' generalizing fuel s with
  | zero =>
    obtain rfl : fuel = 0 := by omega
    exact h
  | succ n ih =>
    unfold whileLoop
    cases ht : t s with
    | false => cases fuel <;> simpa [whileLoop, ht] using h
    | true =>
      cases fuel with
      | zero => simp [whileLoop, ht] at h
      | succ fuel =>
        rw [whileLoop, if_pos ht] at h
        exact ih h (by omega)

/-! ## Cyclic counters -/

/-- A reading that each step takes one further, modulo `m`, counts the steps. -/
theorem iterate_cyclic {f : S → S} {I : S → Prop} {r : S → ℕ} {m : ℕ}
    (hf : ∀ s, I s → I (f s) ∧ r (f s) = (r s + 1) % m) {s : S} (hs : I s) (hr : r s < m) (n : ℕ) :
    I (f^[n] s) ∧ r (f^[n] s) = (r s + n) % m := by
  induction n with
  | zero => exact ⟨hs, (Nat.mod_eq_of_lt hr).symm⟩
  | succ n ih =>
    obtain ⟨hinv, hread⟩ := hf _ ih.1
    rw [Function.iterate_succ_apply']
    refine ⟨hinv, ?_⟩
    rw [hread, ih.2, Nat.mod_add_mod, Nat.add_assoc]

end EventRun
