import Yanesemu.Trace

/-!
# The backtrace

A debugger sees the accesses of the CPU one by one. `access` is what one of them does to it, with
whatever the bus is then; a run of the CPU is a list of accesses (`accesses_of_run`), and the
backtrace is what `update_backtrace` makes of the statuses of its opcode fetches
(`vector_accesses`).

`update_backtrace` keeps calls and jumps in one vector, and a return takes the last entry away if
it is a call.

1. A jump is never taken away, nor what is below it. What a properly nested row of instructions
   leaves behind ends with a jump, so the return after it finds no call (`leftover`).
2. Without jumps the vector is as long as there are calls that have not returned; with one it is
   never empty again (`Level`).
-/

namespace Yanesemu

open Interaction EventRun

/-! ### Accesses -/

/-- A call of `fetch_callback`, with the environment it is called in. -/
structure Access (σ : Type) where
  cpu : Cpu
  st : Cpu.Status
  addr : Uint16
  mode : AccessMode
  env : σ

namespace Debugger

variable {σ : Type} (B : Handler cpuSig σ) (callback : Option BreakCallback)

def access (d : Debugger) (x : Access σ) : Debugger :=
  (post B (fetchCallback callback x.cpu x.st x.addr x.mode) ⟨d, x.env⟩).chip

/-- The status of an opcode fetch is passed on to `update_backtrace`. -/
def Updates (m : Debugger × Access σ) : Prop := m.2.mode = .x ∧ Watches callback m.1

instance (m : Debugger × Access σ) : Decidable (Updates callback m) :=
  inferInstanceAs (Decidable (_ ∧ _))

/-- The statuses passed on in a run, in order. -/
def updates (d : Debugger) (xs : List (Access σ)) : List Cpu.Status :=
  ((moments (access B callback) d xs).filter (Updates callback ·)).map (·.2.st)

/-- Whatever the CPU does, the debugger is where a list of accesses leads to. -/
theorem accesses_of_run {α : Type} (m : CpuM α) (s : Sys Cpu (Sys Debugger σ)) :
    ∃ xs, (post (debugged B callback) m s).env.chip = after (access B callback) s.env.chip xs := by
  refine post_env_along (P := fun _ => True)
    (R := fun e e' : Sys Debugger σ => ∃ xs, e'.chip = after (access B callback) e.chip xs)
    (fun _ => ⟨[], rfl⟩) ?_ ?_ (fun _ _ => trivial)
  · rintro e e' e'' ⟨xs, h⟩ ⟨ys, h'⟩
    exact ⟨xs ++ ys, by rw [h', h, after_append]⟩
  · rintro o e -
    cases o with
    | read a => exact ⟨[], rfl⟩
    | write a v => exact ⟨[], rfl⟩
    | fetchCallback c addr mode =>
      refine ⟨[⟨c, val B Cpu.status ⟨c, e.env⟩, addr, mode,
        (post B Cpu.status ⟨c, e.env⟩).env⟩], ?_⟩
      show (post B (do fetchCallback callback c (← onCpu c Cpu.status) addr mode) e).chip = _
      rw [post_bind, post_onCpu, val_onCpu]
      rfl

variable {B callback}

theorem updates_cons (d : Debugger) (x : Access σ) (xs : List (Access σ)) :
    updates B callback d (x :: xs) =
      if Updates callback (d, x) then x.st :: updates B callback (access B callback d x) xs
      else updates B callback (access B callback d x) xs := by
  unfold updates
  rw [moments_cons, List.filter_cons]
  split <;> split <;> simp_all

/-! ### The vector -/

/-- The backtrace after a status, from what it was. -/
def note (d : Debugger) (st : Cpu.Status) : Debugger := d.updateBacktrace st

/-- The two fields `update_backtrace` touches. -/
def vector (d : Debugger) : List Cpu.Status × Bool := (d.btrace, d.emptyBack)

/-- JSR. -/
def IsCall (st : Cpu.Status) : Prop := st.id = 0x20

/-- JMP and JMP indirect. -/
def IsJmp (st : Cpu.Status) : Prop := st.id = 0x4C ∨ st.id = 0x6C

/-- RTS. -/
def IsReturn (st : Cpu.Status) : Prop := st.id = 0x60

instance : DecidablePred IsCall := fun _ => inferInstanceAs (Decidable (_ = _))
instance : DecidablePred IsJmp := fun _ => inferInstanceAs (Decidable (_ ∨ _))
instance : DecidablePred IsReturn := fun _ => inferInstanceAs (Decidable (_ = _))

section Note

variable {d : Debugger} {st : Cpu.Status}

/-- What `update_backtrace` does to the vector, and when it looks at the end of an empty one. -/
theorem vector_note (d : Debugger) (st : Cpu.Status) : vector (note d st) =
    if IsCall st ∨ IsJmp st then (d.btrace ++ [st], d.emptyBack)
    else if IsReturn st then
      match d.btrace.getLast? with
      | none => (d.btrace, true)
      | some back => (if IsCall back then d.btrace.dropLast else d.btrace, d.emptyBack)
    else vector d := by
  have hid (n : ℕ) (hn : n < 256) : st.id.toNat = n ↔ st.id = BitVec.ofNat 8 n := by
    rw [← BitVec.toNat_inj, BitVec.toNat_ofNat, Nat.mod_eq_of_lt hn]
  unfold note updateBacktrace vector IsCall IsJmp IsReturn
  split
  · next h => rw [hid _ (by decide)] at h; simp [h]
  · next h => rw [hid _ (by decide)] at h; simp [h]
  · next h => rw [hid _ (by decide)] at h; simp [h]
  · next h =>
    rw [hid _ (by decide)] at h
    cases hlast : d.btrace.getLast? with
    | none => simp [h]
    | some back => by_cases hback : back.id = 32#8 <;> simp [h, hback]
  · next h20 h4C h6C h60 =>
    rw [hid _ (by decide)] at h20 h4C h6C h60
    simp_all

/-- The vector after a status is decided by the vector before. -/
theorem vector_note_congr {d' : Debugger} (h : vector d = vector d') (st : Cpu.Status) :
    vector (note d st) = vector (note d' st) := by
  have hb : d.btrace = d'.btrace := congrArg Prod.fst h
  have he : d.emptyBack = d'.emptyBack := congrArg Prod.snd h
  rw [vector_note, vector_note, hb, he, h]

theorem btrace_note_push (h : IsCall st ∨ IsJmp st) :
    (note d st).btrace = d.btrace ++ [st] ∧ (note d st).emptyBack = d.emptyBack := by
  have hv := vector_note d st
  rw [if_pos h] at hv
  exact ⟨congrArg Prod.fst hv, congrArg Prod.snd hv⟩

theorem not_jmp_of_call (h : IsCall st) : ¬IsJmp st := by
  unfold IsCall at h
  unfold IsJmp
  rw [h]
  decide

theorem not_push_of_return (h : IsReturn st) : ¬(IsCall st ∨ IsJmp st) := by
  unfold IsReturn at h
  unfold IsCall IsJmp
  rw [h]
  decide

/-- A return takes a call away from the end. -/
theorem btrace_note_return (h : IsReturn st) {back : Cpu.Status}
    (hlast : d.btrace.getLast? = some back) :
    (note d st).btrace = (if IsCall back then d.btrace.dropLast else d.btrace) ∧
      (note d st).emptyBack = d.emptyBack := by
  have hv := vector_note d st
  rw [if_neg (not_push_of_return h), if_pos h, hlast] at hv
  exact ⟨congrArg Prod.fst hv, congrArg Prod.snd hv⟩

theorem emptyBack_note_return (h : IsReturn st) (hnil : d.btrace = []) :
    (note d st).emptyBack = true := by
  have hv := vector_note d st
  rw [if_neg (not_push_of_return h), if_pos h, hnil] at hv
  exact congrArg Prod.snd hv

theorem btrace_note_other (hpush : ¬(IsCall st ∨ IsJmp st)) (hret : ¬IsReturn st) :
    (note d st).btrace = d.btrace ∧ (note d st).emptyBack = d.emptyBack := by
  have hv := vector_note d st
  rw [if_neg hpush, if_neg hret] at hv
  exact ⟨congrArg Prod.fst hv, congrArg Prod.snd hv⟩

end Note

section Accesses

variable (hcb : ∀ cb ∈ callback, Private B cb vector)
include hcb

/-- **The backtrace of a run** is that of the statuses of its opcode fetches. -/
theorem vector_accesses (d : Debugger) (xs : List (Access σ)) :
    vector (after (access B callback) d xs) = vector (after note d (updates B callback d xs)) := by
  suffices h : ∀ d', vector d = vector d' → vector (after (access B callback) d xs) =
      vector (after note d' (updates B callback d xs)) from h d rfl
  induction xs generalizing d with
  | nil => exact fun d' h => h
  | cons x xs ih =>
    intro d' h
    have hx : vector (access B callback d x) =
        if Updates callback (d, x) then vector (note d x.st) else vector d :=
      Private.fetchCallback x.cpu x.st x.addr x.mode ⟨d, x.env⟩ hcb
    rw [after_cons, updates_cons]
    split_ifs at hx ⊢ with hu
    · exact ih _ _ (hx.trans (vector_note_congr h x.st))
    · exact ih _ _ (hx.trans h)

theorem btrace_accesses (d : Debugger) (xs : List (Access σ)) :
    (after (access B callback) d xs).btrace = (after note d (updates B callback d xs)).btrace :=
  congrArg Prod.fst (vector_accesses hcb d xs)

theorem emptyBack_accesses (d : Debugger) (xs : List (Access σ)) :
    (after (access B callback) d xs).emptyBack =
      (after note d (updates B callback d xs)).emptyBack :=
  congrArg Prod.snd (vector_accesses hcb d xs)

end Accesses

/-! ### Calls and returns -/

/-- Instructions in which every call has its return. -/
inductive Nested : List Cpu.Status → Prop
  | nil : Nested []
  | cons {st : Cpu.Status} {w : List Cpu.Status} (hcall : ¬IsCall st) (hret : ¬IsReturn st)
      (hw : Nested w) : Nested (st :: w)
  | call {j r : Cpu.Status} {u w : List Cpu.Status} (hj : IsCall j) (hu : Nested u)
      (hr : IsReturn r) (hw : Nested w) : Nested (j :: (u ++ r :: w))

section Nested

variable {d : Debugger} {j r : Cpu.Status} {u w left : List Cpu.Status}

/-- The return finds the call, unless something that ends with a jump is left over. -/
theorem btrace_returned (hj : IsCall j) (hr : IsReturn r)
    (hu : (after note (note d j) u).btrace = (note d j).btrace ++ left)
    (hleft : ∀ back ∈ left.getLast?, IsJmp back) :
    (note (after note (note d j) u) r).btrace =
      if left = [] then d.btrace else d.btrace ++ j :: left := by
  rw [(btrace_note_push (.inl hj)).1, List.append_assoc, List.singleton_append] at hu
  cases hlast : left.getLast? with
  | none =>
    obtain rfl := List.getLast?_eq_none_iff.mp hlast
    have hback : (after note (note d j) u).btrace.getLast? = some j := by
      rw [hu, List.getLast?_concat]
    rw [(btrace_note_return hr hback).1, if_pos hj, if_pos rfl, hu, List.dropLast_concat]
  | some back =>
    have hne : left ≠ [] := by
      rintro rfl
      cases hlast
    have hback : (after note (note d j) u).btrace.getLast? = some back := by
      rw [hu, ← List.singleton_append, ← List.append_assoc,
        List.getLast?_append_of_ne_nil _ hne, hlast]
    have hjmp := hleft back hlast
    have hnot : ¬IsCall back := fun hcall => not_jmp_of_call hcall hjmp
    rw [(btrace_note_return hr hback).1, if_neg hnot, if_neg hne, hu]

theorem forall_getLast?_append {P : Cpu.Status → Prop} (hu : ∀ back ∈ u.getLast?, P back)
    (hw : ∀ back ∈ w.getLast?, P back) : ∀ back ∈ (u ++ w).getLast?, P back := by
  intro back hback
  rw [List.getLast?_append] at hback
  rcases Option.or_eq_some_iff.mp hback with hback | ⟨-, hback⟩
  · exact hw back hback
  · exact hu back hback

/-- **Leftovers.** A nested row of instructions leaves something behind exactly if it jumps, and
that ends with a jump. -/
theorem leftover (hw : Nested w) (d : Debugger) :
    ∃ left, (after note d w).btrace = d.btrace ++ left ∧
      (left = [] ↔ ∀ st ∈ w, ¬IsJmp st) ∧ ∀ back ∈ left.getLast?, IsJmp back := by
  induction hw generalizing d with
  | nil => exact ⟨[], by simp, by simp, by simp⟩
  | @cons st w hcall hret hw ih =>
    obtain ⟨left, hbt, hjumps, hleft⟩ := ih (note d st)
    rw [after_cons, hbt, List.forall_mem_cons, ← hjumps]
    by_cases hjmp : IsJmp st
    · have hst : ∀ back ∈ [st].getLast?, IsJmp back := by
        rintro back ⟨⟩
        exact hjmp
      refine ⟨[st] ++ left, ?_, by simp [hjmp], forall_getLast?_append hst hleft⟩
      rw [(btrace_note_push (.inr hjmp)).1, List.append_assoc]
    · refine ⟨left, ?_, (and_iff_right hjmp).symm, hleft⟩
      rw [(btrace_note_other (not_or_intro hcall hjmp) hret).1]
  | @call j r u w hj hu hr hw ihu ihw =>
    obtain ⟨inner, hinner, hjmpu, hlastu⟩ := ihu (note d j)
    have hreturned := btrace_returned hj hr hinner hlastu
    obtain ⟨later, hlater, hjmpw, hlastw⟩ := ihw (note (after note (note d j) u) r)
    have hjumps : (∀ st ∈ j :: (u ++ r :: w), ¬IsJmp st) ↔ inner = [] ∧ later = [] := by
      rw [List.forall_mem_cons, List.forall_mem_append, List.forall_mem_cons, hjmpu, hjmpw,
        and_iff_right (not_jmp_of_call hj), and_iff_right fun h => not_push_of_return hr (.inr h)]
    rw [after_cons, after_append, after_cons, hlater, hreturned, hjumps]
    by_cases hnil : inner = []
    · rw [if_pos hnil]
      exact ⟨later, rfl, (and_iff_right hnil).symm, hlastw⟩
    · rw [if_neg hnil]
      have hinnerLast : ∀ back ∈ (j :: inner).getLast?, IsJmp back := by
        rw [List.getLast?_cons_of_ne_nil hnil]
        exact hlastu
      exact ⟨j :: inner ++ later, List.append_assoc .., by simp [hnil],
        forall_getLast?_append hinnerLast hlastw⟩

/-- **Returning.** When a call, instructions in between and the return have been executed, the
backtrace is what it was before the call exactly if none of those in between is a jump. -/
theorem backtrace_restored_iff (hcb : ∀ cb ∈ callback, Private B cb vector) {xs : List (Access σ)}
    (hj : IsCall j) (hw : Nested w) (hr : IsReturn r)
    (hxs : updates B callback d xs = j :: (w ++ [r])) :
    (after (access B callback) d xs).btrace = d.btrace ↔ ∀ st ∈ w, ¬IsJmp st := by
  obtain ⟨left, hleft, hjumps, hlast⟩ := leftover hw (note d j)
  rw [btrace_accesses hcb, hxs, after_cons, after_concat, btrace_returned hj hr hleft hlast,
    ← hjumps]
  split_ifs with hnil
  · exact iff_of_true rfl hnil
  · refine iff_of_false (fun h => ?_) hnil
    have hlen := congrArg List.length h
    rw [List.length_append, List.length_cons] at hlen
    omega

end Nested

/-- A subroutine at `0x10` that jumps to its return at `0x20`. -/
def jumpMem : Mem := fun a =>
  match a.toNat with
  | 0x00 => 0x20
  | 0x01 => 0x10
  | 0x10 => 0x4C
  | 0x11 => 0x20
  | 0x20 => 0x60
  | _ => 0

/-- A subroutine at `0x10` with a NOP and a call of the one at `0x20`, which returns at once. -/
def nestedMem : Mem := fun a =>
  match a.toNat with
  | 0x00 => 0x20
  | 0x01 => 0x10
  | 0x10 => 0xEA
  | 0x11 => 0x20
  | 0x12 => 0x20
  | 0x14 => 0x60
  | 0x20 => 0x60
  | _ => 0

/-- The status of an opcode with its operand. -/
def statusOf (id : Uint8) (opargs : Uint16) : Cpu.Status := ⟨{}, id, opargs⟩

/-- The fetches from the call at zero to its return. -/
def callReturn : List (Access Mem) :=
  [⟨{}, statusOf 0x20 0x10, 0x00, .x, nestedMem⟩, ⟨{}, statusOf 0xEA 0, 0x10, .x, nestedMem⟩,
    ⟨{}, statusOf 0x20 0x20, 0x11, .x, nestedMem⟩, ⟨{}, statusOf 0x60 0, 0x20, .x, nestedMem⟩,
    ⟨{}, statusOf 0x60 0, 0x14, .x, nestedMem⟩]

theorem private_stepper : Private B stepper vector where
  callback c ev e := by
    unfold stepper
    cases ev.type with
    | fetch => simp [step, vector]
    | brk => rfl
  events _ _ := rfl
  nextstop _ _ := rfl

theorem forall_private_stepper : ∀ cb ∈ some stepper, Private B cb vector := by
  rintro cb ⟨⟩
  exact private_stepper

theorem updates_callReturn : updates flatMem (some stepper) {} callReturn =
    statusOf 0x20 0x10 :: ([statusOf 0xEA 0, statusOf 0x20 0x20, statusOf 0x60 0] ++
      [statusOf 0x60 0]) := rfl

theorem isCall_jsr (opargs : Uint16) : IsCall (statusOf 0x20 opargs) := rfl

theorem isReturn_rts : IsReturn (statusOf 0x60 0) := rfl

/-- A NOP, and a call that has its return. -/
theorem nested_callReturn : Nested [statusOf 0xEA 0, statusOf 0x20 0x20, statusOf 0x60 0] :=
  .cons (by decide) (by decide) (.call (isCall_jsr 0x20) .nil isReturn_rts .nil)

theorem backtrace_restored_call :
    (after (access flatMem (some stepper)) {} callReturn).btrace = [] := by
  have hjumps : ∀ st ∈ [statusOf 0xEA 0, statusOf 0x20 0x20, statusOf 0x60 0], ¬IsJmp st := by
    decide
  exact (backtrace_restored_iff forall_private_stepper (isCall_jsr 0x10) nested_callReturn
    isReturn_rts updates_callReturn).mpr hjumps

/-- After the call, the jump and the return the CPU is back, and the backtrace is not. -/
theorem not_backtrace_restored :
    let s := after (Cpu.call (debugged flatMem (some stepper))) ⟨{}, ⟨{}, jumpMem⟩⟩
      [.run, .run, .run]
    s.chip.r.pc = 3 ∧ s.env.chip.btrace.map (·.id) = [0x20, 0x4C] := by
  decide

/-! ### Empty backtraces -/

/-- Every return comes after a jump, or after more calls than returns. -/
def Covered (sts : List Cpu.Status) : Prop :=
  ∀ pre r suf, sts = pre ++ r :: suf → IsReturn r →
    (∃ st ∈ pre, IsJmp st) ∨ pre.countP (IsReturn ·) < pre.countP (IsCall ·)

/-- What the backtrace holds after `pre`, if it was never looked at when it was empty. -/
structure Level (pre : List Cpu.Status) (d : Debugger) : Prop where
  jumps : ∀ st ∈ pre, IsJmp st → st ∈ d.btrace
  calls : (∀ st ∈ pre, ¬IsJmp st) → (∀ back ∈ d.btrace, IsCall back) ∧
    d.btrace.length + pre.countP (IsReturn ·) = pre.countP (IsCall ·)

section Level

variable {pre sts : List Cpu.Status} {d : Debugger} {st : Cpu.Status}

theorem Level.ne_nil_iff (h : Level pre d) : d.btrace ≠ [] ↔
    (∃ st ∈ pre, IsJmp st) ∨ pre.countP (IsReturn ·) < pre.countP (IsCall ·) := by
  by_cases hjmp : ∃ st ∈ pre, IsJmp st
  · obtain ⟨st, hst, hj⟩ := hjmp
    exact iff_of_true (List.ne_nil_of_mem (h.jumps st hst hj)) (.inl ⟨st, hst, hj⟩)
  · obtain ⟨-, hcount⟩ := h.calls fun st hst hj => hjmp ⟨st, hst, hj⟩
    rw [or_iff_right hjmp, ← List.length_pos_iff]
    omega

theorem Level.push (h : Level pre d) (hpush : IsCall st ∨ IsJmp st) :
    Level (pre ++ [st]) (note d st) := by
  have hbt := (btrace_note_push (d := d) hpush).1
  have hret : ¬IsReturn st := fun hr => not_push_of_return hr hpush
  constructor
  · intro x hx hj
    rw [hbt]
    rcases List.mem_append.mp hx with hx | hx
    · exact List.mem_append_left _ (h.jumps x hx hj)
    · exact List.mem_append_right _ hx
  · intro hno
    obtain ⟨hpre, hlast⟩ := List.forall_mem_append.mp hno
    obtain ⟨hcalls, hcount⟩ := h.calls hpre
    have hcall : IsCall st := hpush.resolve_right (hlast st (List.mem_singleton_self st))
    rw [hbt, List.countP_append, List.countP_append, List.length_append]
    refine ⟨List.forall_mem_append.mpr ⟨hcalls, List.forall_mem_singleton.mpr hcall⟩, ?_⟩
    simp [hcall, hret]
    omega

/-- Behind something that is no jump, the jumps are those in front. -/
theorem mem_of_jmp (hjmp : ¬IsJmp st) {x : Cpu.Status} (hx : x ∈ pre ++ [st]) (hj : IsJmp x) :
    x ∈ pre :=
  (List.mem_append.mp hx).resolve_right fun hx => hjmp (List.mem_singleton.mp hx ▸ hj)

/-- A return takes the last entry away if it is a call; without jumps it always is. -/
theorem Level.pop (h : Level pre d) (hret : IsReturn st) (hne : d.btrace ≠ []) :
    Level (pre ++ [st]) (note d st) := by
  obtain ⟨hcall, hjmp⟩ := not_or.mp (not_push_of_return hret)
  obtain ⟨front, back, hfront⟩ := (List.eq_nil_or_concat d.btrace).resolve_left hne
  rw [List.concat_eq_append] at hfront
  have hlast : d.btrace.getLast? = some back := by rw [hfront, List.getLast?_concat]
  have hbt := (btrace_note_return hret hlast).1
  rw [hfront, List.dropLast_concat] at hbt
  constructor
  · intro x hx hj
    have hmem := h.jumps x (mem_of_jmp hjmp hx hj) hj
    rw [hfront] at hmem
    rw [hbt]
    split_ifs with hback
    · exact mem_of_jmp (not_jmp_of_call hback) hmem hj
    · exact hmem
  · intro hno
    obtain ⟨hcalls, hcount⟩ := h.calls (List.forall_mem_append.mp hno).1
    rw [hfront] at hcalls hcount
    obtain ⟨hfrontCalls, hback⟩ := List.forall_mem_append.mp hcalls
    rw [hbt, if_pos (hback back (List.mem_singleton_self back)), List.countP_append,
      List.countP_append]
    refine ⟨hfrontCalls, ?_⟩
    simp [hcall, hret] at hcount ⊢
    omega

theorem Level.other (h : Level pre d) (hpush : ¬(IsCall st ∨ IsJmp st)) (hret : ¬IsReturn st) :
    Level (pre ++ [st]) (note d st) := by
  obtain ⟨hcall, hjmp⟩ := not_or.mp hpush
  have hbt := (btrace_note_other (d := d) hpush hret).1
  constructor
  · intro x hx hj
    rw [hbt]
    exact h.jumps x (mem_of_jmp hjmp hx hj) hj
  · intro hno
    obtain ⟨hcalls, hcount⟩ := h.calls (List.forall_mem_append.mp hno).1
    rw [hbt, List.countP_append, List.countP_append]
    exact ⟨hcalls, by simp [hcall, hret, hcount]⟩

/-- One more status, which is no return if the backtrace is empty. -/
theorem Level.concat (h : Level pre d) (hst : IsReturn st → d.btrace ≠ []) :
    Level (pre ++ [st]) (note d st) := by
  by_cases hpush : IsCall st ∨ IsJmp st
  · exact h.push hpush
  · by_cases hret : IsReturn st
    · exact h.pop hret (hst hret)
    · exact h.other hpush hret

theorem emptyBack_note_iff (d : Debugger) (st : Cpu.Status) :
    (note d st).emptyBack = false ↔
      d.emptyBack = false ∧ (IsReturn st → d.btrace ≠ []) := by
  by_cases hret : IsReturn st
  · cases hlast : d.btrace.getLast? with
    | none =>
      have hnil := List.getLast?_eq_none_iff.mp hlast
      simp [emptyBack_note_return hret hnil, hret, hnil]
    | some back =>
      have hne : d.btrace ≠ [] := List.ne_nil_of_mem (List.mem_of_getLast? hlast)
      simp [(btrace_note_return hret hlast).2, hne]
  · have hsame : (note d st).emptyBack = d.emptyBack := by
      by_cases hpush : IsCall st ∨ IsJmp st
      · exact (btrace_note_push hpush).2
      · exact (btrace_note_other hpush hret).2
    simp [hsame, hret]

theorem covered_nil : Covered [] := by
  intro pre r suf h
  cases pre <;> cases h

theorem covered_concat : Covered (sts ++ [st]) ↔ Covered sts ∧ (IsReturn st →
    (∃ st ∈ sts, IsJmp st) ∨ sts.countP (IsReturn ·) < sts.countP (IsCall ·)) := by
  constructor
  · intro h
    refine ⟨?_, h sts st [] rfl⟩
    rintro pre r suf rfl
    exact h pre r (suf ++ [st]) (by simp)
  · rintro ⟨h, hst⟩ pre r suf hcut
    rcases List.eq_nil_or_concat suf with rfl | ⟨suf, last, rfl⟩
    · obtain ⟨rfl, hr⟩ := List.append_inj' hcut rfl
      obtain rfl : st = r := List.singleton_inj.mp hr
      exact hst
    · have hcut' : sts ++ [st] = (pre ++ r :: suf) ++ [last] := by simpa using hcut
      obtain ⟨rfl, -⟩ := List.append_inj' hcut' rfl
      exact h pre r suf rfl

/-- The backtrace is never looked at when it is empty exactly if every return is covered. -/
theorem emptyBack_note (hbt : d.btrace = []) (hempty : d.emptyBack = false)
    (sts : List Cpu.Status) :
    ((after note d sts).emptyBack = false ↔ Covered sts) ∧
      (Covered sts → Level sts (after note d sts)) := by
  induction sts using List.reverseRecOn with
  | nil =>
    exact ⟨iff_of_true hempty covered_nil, fun _ => ⟨by simp, fun _ => by simp [hbt]⟩⟩
  | append_singleton sts st ih =>
    obtain ⟨hiff, hlevel⟩ := ih
    rw [after_concat, emptyBack_note_iff, hiff, covered_concat]
    have hlast (h : Covered sts) := (hlevel h).ne_nil_iff
    constructor
    · exact and_congr_right fun h => imp_congr_right fun _ => hlast h
    · rintro ⟨h, hst⟩
      exact (hlevel h).concat fun hret => (hlast h).mpr (hst hret)

end Level

/-- **Empty backtraces.** In a session that begins with an empty backtrace, `update_backtrace`
never looks at the end of an empty vector exactly if every return it is told of comes after a jump,
or after more calls than returns. -/
theorem emptyBack_iff (hcb : ∀ cb ∈ callback, Private B cb vector) {d : Debugger}
    (hbt : d.btrace = []) (hempty : d.emptyBack = false) (xs : List (Access σ)) :
    (after (access B callback) d xs).emptyBack = false ↔ Covered (updates B callback d xs) := by
  rw [emptyBack_accesses hcb]
  exact (emptyBack_note hbt hempty _).1

/-- Each of the two returns comes after more calls than returns. -/
theorem covered_callReturn : Covered (updates flatMem (some stepper) {} callReturn) := by
  have hlist : updates flatMem (some stepper) {} callReturn =
      [] ++ [statusOf 0x20 0x10] ++ [statusOf 0xEA 0] ++ [statusOf 0x20 0x20] ++
        [statusOf 0x60 0] ++ [statusOf 0x60 0] := updates_callReturn
  rw [hlist]
  simp only [covered_concat]
  refine ⟨⟨⟨⟨⟨covered_nil, ?_⟩, ?_⟩, ?_⟩, ?_⟩, ?_⟩
  · exact fun h => absurd h (by decide)
  · exact fun h => absurd h (by decide)
  · exact fun h => absurd h (by decide)
  · exact fun _ => .inr (by decide)
  · exact fun _ => .inr (by decide)

theorem emptyBack_call :
    (after (access flatMem (some stepper)) {} callReturn).emptyBack = false :=
  (emptyBack_iff forall_private_stepper rfl rfl callReturn).mpr covered_callReturn

/-- A program that begins with a return. -/
theorem emptyBack_return :
    (Cpu.call (debugged flatMem (some stepper)) ⟨{}, ⟨{}, fun _ => 0x60⟩⟩ .run).env.chip.emptyBack =
      true := by
  decide

end Debugger

end Yanesemu
