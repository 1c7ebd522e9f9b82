import Mathlib.Logic.Basic

/-!
# Programs that ask their environment

A program over a signature `E` is a tree of operations: each node asks the environment for one
operation of `E` and continues with the answer. A handler gives the operations a meaning on an
environment state `σ`; the same program can be run on a plain memory or on a whole machine.

A component with a state `C` of its own is a program in `ChipM E C`, the state monad over
programs. `exec H m s` runs it on the pair `s` of component and environment; `val` and `post`
are its result and its final pair, `asked` the operations it asked for, and the lemmas below push
them through `do` blocks. `wp` is the weakest precondition that does not depend on the
environment: it quantifies over every answer. `Keeps` is its use for frame conditions, with one
rule for each construct.

`run_sim` is the rule every comparison of two environments goes through: two handlers that keep
a relation and give equal answers cannot be told apart by any program. `observed` puts an observer
beside an environment, for what only takes note of the operations.
-/

namespace Interaction

/-- The operations a program can ask for, with the type of each answer. -/
structure Sig where
  Op : Type
  Ans : Op → Type

/-- A program over `E` with results in `α`. -/
inductive Prog (E : Sig) (α : Type) : Type
  | ret (a : α)
  | ask (o : E.Op) (k : E.Ans o → Prog E α)

/-- What each operation answers and does to an environment state. -/
abbrev Handler (E : Sig) (σ : Type) : Type := (o : E.Op) → σ → E.Ans o × σ

variable {E : Sig} {C α β σ σ' τ : Type}

namespace Prog

/-- Sequencing. -/
def bind : Prog E α → (α → Prog E β) → Prog E β
  | ret a, f => f a
  | ask o k, f => ask o fun x => (k x).bind f

instance : Monad (Prog E) where
  pure := ret
  bind := Prog.bind

/-- One operation. -/
def op (o : E.Op) : Prog E (E.Ans o) := ask o ret

/-- The run of a program on an environment. -/
def run (H : Handler E σ) : Prog E α → σ → α × σ
  | ret a, e => (a, e)
  | ask o k, e => (k (H o e).1).run H (H o e).2

theorem run_bind (H : Handler E σ) (p : Prog E α) (f : α → Prog E β) (e : σ) :
    (p.bind f).run H e = (f (p.run H e).1).run H (p.run H e).2 := by
  induction p generalizing e with
  | ret a => rfl
  | ask o k ih => exact ih _ _

/-- The operations asked for in a run, in order. -/
def asked (H : Handler E σ) : Prog E α → σ → List E.Op
  | ret _, _ => []
  | ask o k, e => o :: (k (H o e).1).asked H (H o e).2

theorem asked_bind (H : Handler E σ) (p : Prog E α) (f : α → Prog E β) (e : σ) :
    (p.bind f).asked H e = p.asked H e ++ (f (p.run H e).1).asked H (p.run H e).2 := by
  induction p generalizing e with
  | ret a => rfl
  | ask o k ih => exact congrArg (o :: ·) (ih _ _)

/-- Whatever the environment answers, every operation the program asks for satisfies `P` and
its result satisfies `Q`. -/
def Always (P : E.Op → Prop) (Q : α → Prop) : Prog E α → Prop
  | ret a => Q a
  | ask o k => P o ∧ ∀ x, (k x).Always P Q

theorem always_bind {P : E.Op → Prop} {Q : β → Prop} {p : Prog E α} {f : α → Prog E β} :
    (p.bind f).Always P Q ↔ p.Always P fun a => (f a).Always P Q := by
  induction p with
  | ret a => exact Iff.rfl
  | ask o k ih => exact and_congr_right fun _ => forall_congr' ih

theorem Always.mono {P P' : E.Op → Prop} {Q Q' : α → Prop} {p : Prog E α}
    (h : p.Always P Q) (hP : ∀ o, P o → P' o) (hQ : ∀ a, Q a → Q' a) : p.Always P' Q' := by
  induction p with
  | ret a => exact hQ a h
  | ask o k ih => exact ⟨hP o h.1, fun x => ih x (h.2 x)⟩

theorem Always.of_run {P : E.Op → Prop} {Q : α → Prop} {p : Prog E α} (h : p.Always P Q)
    (H : Handler E σ) (e : σ) : Q (p.run H e).1 ∧ ∀ o ∈ p.asked H e, P o := by
  induction p generalizing e with
  | ret a => exact ⟨h, by simp [asked]⟩
  | ask o k ih =>
    obtain ⟨hQ, hP⟩ := ih _ (h.2 (H o e).1) (H o e).2
    refine ⟨hQ, ?_⟩
    intro o' ho'
    rcases List.mem_cons.mp ho' with rfl | ho'
    · exact h.1
    · exact hP o' ho'

end Prog

/-! ## Comparing two environments -/

/-- `H` and `H'` keep `R` and answer alike on every operation satisfying `P`. -/
def Agree (P : E.Op → Prop) (R : σ → σ' → Prop) (H : Handler E σ) (H' : Handler E σ') : Prop :=
  ∀ o e e', P o → R e e' → (H o e).1 = (H' o e').1 ∧ R (H o e).2 (H' o e').2

/-- **Simulation.** A program cannot tell apart two handlers that agree on what it asks for. -/
theorem run_sim {P : E.Op → Prop} {R : σ → σ' → Prop} {H : Handler E σ} {H' : Handler E σ'}
    (hH : Agree P R H H') {p : Prog E α} {e : σ} {e' : σ'} (hp : ∀ o ∈ p.asked H e, P o)
    (he : R e e') :
    (p.run H e).1 = (p.run H' e').1 ∧ R (p.run H e).2 (p.run H' e').2 ∧
      p.asked H e = p.asked H' e' := by
  induction p generalizing e e' with
  | ret a => exact ⟨rfl, he, rfl⟩
  | ask o k ih =>
    obtain ⟨hans, hR⟩ := hH o e e' (hp o (List.mem_cons_self ..)) he
    obtain ⟨h1, h2, h3⟩ :=
      ih (H o e).1 (fun o' ho' => hp o' (List.mem_cons_of_mem _ ho')) hR
    have hrun : (Prog.ask o k).run H' e' = (k (H o e).1).run H' (H' o e').2 := by
      rw [hans]; rfl
    have hasked : (Prog.ask o k).asked H' e' = o :: (k (H o e).1).asked H' (H' o e').2 := by
      rw [hans]; rfl
    rw [hrun, hasked, ← h3]
    exact ⟨h1, h2, rfl⟩

/-- A run moves its environment along every preorder that each operation follows. -/
theorem run_along {P : E.Op → Prop} {R : σ → σ → Prop} (hrefl : ∀ e, R e e)
    (htrans : ∀ a b c, R a b → R b c → R a c) {H : Handler E σ}
    (hH : ∀ o e, P o → R e (H o e).2) {p : Prog E α} {e : σ} (hp : ∀ o ∈ p.asked H e, P o) :
    R e (p.run H e).2 := by
  have hagree : Agree P (fun a b => a = b ∧ R e b) H H := by
    rintro o a _ ho ⟨rfl, ha⟩
    exact ⟨rfl, rfl, htrans _ _ _ ha (hH o a ho)⟩
  exact (run_sim hagree hp ⟨rfl, hrefl e⟩).2.1.2

/-! ## Components with a state of their own -/

/-- A component in the environment it is attached to. -/
@[ext] structure Sys (C σ : Type) where
  chip : C
  env : σ

/-- Programs of a component with state `C`. -/
abbrev ChipM (E : Sig) (C : Type) : Type → Type := StateT C (Prog E)

/-- One operation of the environment. -/
def ask (o : E.Op) : ChipM E C (E.Ans o) := fun c => (Prog.op o).bind fun x => .ret (x, c)

/-- The run of a component's program. -/
def exec (H : Handler E σ) (m : ChipM E C α) (s : Sys C σ) : α × Sys C σ :=
  let r := (m.run s.chip).run H s.env
  (r.1.1, ⟨r.1.2, r.2⟩)

/-- The result of a run. -/
def val (H : Handler E σ) (m : ChipM E C α) (s : Sys C σ) : α := (exec H m s).1

/-- The component and its environment after a run. -/
def post (H : Handler E σ) (m : ChipM E C α) (s : Sys C σ) : Sys C σ := (exec H m s).2

/-- The operations asked for in a run, in order. -/
def asked (H : Handler E σ) (m : ChipM E C α) (s : Sys C σ) : List E.Op :=
  (m.run s.chip).asked H s.env

section Rules

variable (H : Handler E σ) (s : Sys C σ)

theorem exec_bind (m : ChipM E C α) (f : α → ChipM E C β) :
    exec H (m >>= f) s = exec H (f (val H m s)) (post H m s) := by
  have h := Prog.run_bind H (m.run s.chip) (fun p => (f p.1).run p.2) s.env
  simp only [exec, val, post]
  exact congrArg (fun r : (β × C) × σ => (r.1.1, (⟨r.1.2, r.2⟩ : Sys C σ))) h

@[simp] theorem val_bind (m : ChipM E C α) (f : α → ChipM E C β) :
    val H (m >>= f) s = val H (f (val H m s)) (post H m s) :=
  congrArg Prod.fst (exec_bind H s m f)

@[simp] theorem post_bind (m : ChipM E C α) (f : α → ChipM E C β) :
    post H (m >>= f) s = post H (f (val H m s)) (post H m s) :=
  congrArg Prod.snd (exec_bind H s m f)

@[simp] theorem val_pure (a : α) : val H (pure a : ChipM E C α) s = a := rfl

@[simp] theorem post_pure (a : α) : post H (pure a : ChipM E C α) s = s := rfl

@[simp] theorem val_get : val H (get : ChipM E C C) s = s.chip := rfl

@[simp] theorem post_get : post H (get : ChipM E C C) s = s := rfl

@[simp] theorem post_modify (f : C → C) :
    post H (modify f : ChipM E C PUnit) s = ⟨f s.chip, s.env⟩ := rfl

@[simp] theorem val_ask (o : E.Op) : val H (ask o : ChipM E C _) s = (H o s.env).1 := rfl

@[simp] theorem post_ask (o : E.Op) :
    post H (ask o : ChipM E C _) s = ⟨s.chip, (H o s.env).2⟩ := rfl

@[simp] theorem val_ite (c : Prop) [Decidable c] (a b : ChipM E C α) :
    val H (if c then a else b) s = if c then val H a s else val H b s := by
  split <;> rfl

@[simp] theorem post_ite (c : Prop) [Decidable c] (a b : ChipM E C α) :
    post H (if c then a else b) s = if c then post H a s else post H b s := by
  split <;> rfl

@[simp] theorem asked_bind (m : ChipM E C α) (f : α → ChipM E C β) :
    asked H (m >>= f) s = asked H m s ++ asked H (f (val H m s)) (post H m s) :=
  Prog.asked_bind H (m.run s.chip) (fun p => (f p.1).run p.2) s.env

@[simp] theorem asked_pure (a : α) : asked H (pure a : ChipM E C α) s = [] := rfl

@[simp] theorem asked_get : asked H (get : ChipM E C C) s = [] := rfl

@[simp] theorem asked_modify (f : C → C) : asked H (modify f : ChipM E C PUnit) s = [] := rfl

@[simp] theorem asked_ask (o : E.Op) : asked H (ask o : ChipM E C _) s = [o] := rfl

@[simp] theorem asked_ite (c : Prop) [Decidable c] (a b : ChipM E C α) :
    asked H (if c then a else b) s = if c then asked H a s else asked H b s := by
  split <;> rfl

end Rules

/-! ## Weakest preconditions -/

/-- Whatever the environment answers, `m` started in `c` asks only for operations satisfying
`P`, and its result and final state satisfy `Q`. -/
def wp (P : E.Op → Prop) (m : ChipM E C α) (Q : α → C → Prop) (c : C) : Prop :=
  (m.run c).Always P fun r => Q r.1 r.2

section Wp

variable {P : E.Op → Prop} {c : C}

@[simp] theorem wp_bind {m : ChipM E C α} {f : α → ChipM E C β} {Q : β → C → Prop} :
    wp P (m >>= f) Q c ↔ wp P m (fun a c' => wp P (f a) Q c') c :=
  Prog.always_bind (p := m.run c) (f := fun p => (f p.1).run p.2)

@[simp] theorem wp_pure {a : α} {Q : α → C → Prop} :
    wp P (pure a : ChipM E C α) Q c ↔ Q a c := Iff.rfl

@[simp] theorem wp_get {Q : C → C → Prop} : wp P (get : ChipM E C C) Q c ↔ Q c c := Iff.rfl

@[simp] theorem wp_modify {f : C → C} {Q : PUnit → C → Prop} :
    wp P (modify f : ChipM E C PUnit) Q c ↔ Q ⟨⟩ (f c) := Iff.rfl

@[simp] theorem wp_ask {o : E.Op} {Q : E.Ans o → C → Prop} :
    wp P (ask o : ChipM E C _) Q c ↔ P o ∧ ∀ x, Q x c := Iff.rfl

@[simp] theorem wp_ite {b : Prop} [Decidable b] {m m' : ChipM E C α} {Q : α → C → Prop} :
    wp P (if b then m else m') Q c ↔ if b then wp P m Q c else wp P m' Q c := by
  split <;> rfl

theorem wp_mono {P' : E.Op → Prop} {m : ChipM E C α} {Q Q' : α → C → Prop} (h : wp P m Q c)
    (hP : ∀ o, P o → P' o) (hQ : ∀ a c', Q a c' → Q' a c') : wp P' m Q' c :=
  h.mono hP fun r => hQ r.1 r.2

/-- What a precondition promises holds of every run, on every environment. -/
theorem wp_post {m : ChipM E C α} {Q : α → C → Prop} {s : Sys C σ} (h : wp P m Q s.chip)
    (H : Handler E σ) : Q (val H m s) (post H m s).chip ∧ ∀ o ∈ asked H m s, P o :=
  Prog.Always.of_run h H s.env

end Wp

/-! ## Frames -/

/-- Whatever the environment answers and wherever it starts, `m` asks only for operations
satisfying `P` and moves the component along `R`. -/
def Keeps (P : E.Op → Prop) (R : C → C → Prop) (m : ChipM E C α) : Prop :=
  ∀ c, wp P m (fun _ c' => R c c') c

section Keeps

variable {P : E.Op → Prop} {R : C → C → Prop}

theorem Keeps.pure (hrefl : ∀ c, R c c) (a : α) : Keeps P R (pure a : ChipM E C α) := hrefl

theorem Keeps.get (hrefl : ∀ c, R c c) : Keeps P R (get : ChipM E C C) := hrefl

theorem Keeps.modify {f : C → C} (hf : ∀ c, R c (f c)) : Keeps P R (modify f : ChipM E C PUnit) :=
  hf

theorem Keeps.ask (hrefl : ∀ c, R c c) {o : E.Op} (ho : P o) :
    Keeps P R (ask o : ChipM E C _) := fun c => ⟨ho, fun _ => hrefl c⟩

theorem Keeps.bind (htrans : ∀ a b c, R a b → R b c → R a c) {m : ChipM E C α}
    {f : α → ChipM E C β} (hm : Keeps P R m) (hf : ∀ a, Keeps P R (f a)) :
    Keeps P R (m >>= f) := by
  intro c
  rw [wp_bind]
  exact wp_mono (hm c) (fun _ ho => ho) fun a c' hc' =>
    wp_mono (hf a c') (fun _ ho => ho) fun _ c'' hc'' => htrans c c' c'' hc' hc''

theorem Keeps.ite {b : Prop} [Decidable b] {m m' : ChipM E C α} (hm : Keeps P R m)
    (hm' : Keeps P R m') : Keeps P R (if b then m else m') := by
  split
  · exact hm
  · exact hm'

theorem Keeps.mono {P' : E.Op → Prop} {R' : C → C → Prop} {m : ChipM E C α} (h : Keeps P R m)
    (hP : ∀ o, P o → P' o) (hR : ∀ c c', R c c' → R' c c') : Keeps P' R' m :=
  fun c => wp_mono (h c) hP fun _ => hR c

theorem Keeps.post {m : ChipM E C α} (h : Keeps P R m) (H : Handler E σ) (s : Sys C σ) :
    R s.chip (post H m s).chip := (wp_post (h s.chip) H).1

theorem Keeps.of_asked {m : ChipM E C α} (h : Keeps P R m) (H : Handler E σ) (s : Sys C σ) :
    ∀ o ∈ asked H m s, P o := (wp_post (h s.chip) H).2

end Keeps

/-! ## The rules for components -/

theorem post_sim {P : E.Op → Prop} {R : σ → σ' → Prop} {H : Handler E σ} {H' : Handler E σ'}
    (hH : Agree P R H H') {m : ChipM E C α} {s : Sys C σ} {t : σ'}
    (hp : ∀ o ∈ asked H m s, P o) (ht : R s.env t) :
    val H m s = val H' m ⟨s.chip, t⟩ ∧ (post H m s).chip = (post H' m ⟨s.chip, t⟩).chip ∧
      R (post H m s).env (post H' m ⟨s.chip, t⟩).env := by
  obtain ⟨h1, h2, -⟩ := run_sim hH hp ht
  exact ⟨congrArg Prod.fst h1, congrArg Prod.snd h1, h2⟩

theorem post_env_along {P : E.Op → Prop} {R : σ → σ → Prop} (hrefl : ∀ e, R e e)
    (htrans : ∀ a b c, R a b → R b c → R a c) {H : Handler E σ}
    (hH : ∀ o e, P o → R e (H o e).2) {m : ChipM E C α} {s : Sys C σ}
    (hp : ∀ o ∈ asked H m s, P o) : R s.env (post H m s).env :=
  run_along hrefl htrans hH hp

/-! ## Observers -/

/-- The handler with an observer beside it that sees every operation. -/
def observed (H : Handler E σ) (see : τ → E.Op → τ) : Handler E (σ × τ) :=
  fun o e => ((H o e.1).1, (H o e.1).2, see e.2 o)

section Observed

variable (H : Handler E σ) (see : τ → E.Op → τ)

/-- **Observation.** An observer changes nothing and sees what is asked for, in order. -/
theorem run_observed (p : Prog E α) (e : σ) (t : τ) :
    p.run (observed H see) (e, t) =
      ((p.run H e).1, (p.run H e).2, (p.asked H e).foldl see t) := by
  induction p generalizing e t with
  | ret a => rfl
  | ask o k ih => exact ih (H o e).1 (H o e).2 (see t o)

theorem post_observed (m : ChipM E C α) (s : Sys C σ) (t : τ) :
    post (observed H see) m ⟨s.chip, s.env, t⟩ =
      ⟨(post H m s).chip, (post H m s).env, (asked H m s).foldl see t⟩ := by
  have hrun := run_observed H see (m.run s.chip) s.env t
  unfold post exec
  rw [hrun]
  rfl

end Observed

end Interaction
