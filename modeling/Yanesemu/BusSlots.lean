import Yanesemu.Bus
import Yanesemu.Lib.Run

/-!
# The slots of a bus

`map` keeps the handlers of an area in a slot of three tables and the slot's number in the lookup
table. `Bus.Taken` is the invariant of the slots: they are used in order, so that a new area never
gets a slot in use and the areas mapped before keep theirs.

With a free slot left, `map` stays in its tables (`inTables_iff`). The search bound lets one slot
more through than there are: with none left, `map` looks at the flag behind the last one.

`remap` gives new handlers to a slot, not to the addresses it is called with. It checks that the
area does not begin before its first address and that its last one belongs to it, but not that the
area ends there (`remap_iff`).
-/

namespace Yanesemu.Bus

open EventRun

variable {R W : Type}

/-- One call of `map`. -/
def mapArea (b : Bus R W) (x : Area R W) : Bus R W := b.map x.first x.last x.reader x.writer

theorem mapAll_eq_after (b : Bus R W) (areas : List (Area R W)) :
    b.mapAll areas = after mapArea b areas := rfl

instance (x : Area R W) : DecidablePred x.Has := fun a =>
  inferInstanceAs (Decidable (x.first ≤ a ∧ a < x.last))

/-! ### Dispatch -/

/-- Some area that has the address is the last one. -/
theorem exists_last_area {areas : List (Area R W)} {a : ℕ} (h : ∃ x ∈ areas, x.Has a) :
    ∃ pre x suf, areas = pre ++ x :: suf ∧ x.Has a ∧ ∀ y ∈ suf, ¬y.Has a := by
  induction areas with
  | nil =>
    obtain ⟨x, hx, -⟩ := h
    cases hx
  | cons x areas ih =>
    by_cases hlater : ∃ y ∈ areas, y.Has a
    · obtain ⟨pre, y, suf, rfl, hy, hsuf⟩ := ih hlater
      exact ⟨x :: pre, y, suf, rfl, hy, hsuf⟩
    · obtain ⟨y, hy, hya⟩ := h
      rcases List.mem_cons.mp hy with rfl | hy
      · exact ⟨[], y, areas, rfl, hya, fun z hz hza => hlater ⟨z, hz, hza⟩⟩
      · exact absurd ⟨y, hy, hya⟩ hlater

/-- An access to `addr` stays in the tables and calls the handlers of `x`. -/
structure Dispatches (b : Bus R W) (addr : Uint16) (x : Area R W) : Prop where
  lookup : addr.toNat < b.lookup.size
  slot : b.lookup.get addr.toNat < tabsiz
  reader : b.reader addr = x.reader
  writer : b.writer addr = x.writer

theorem size_map (b : Bus R W) (first last : ℕ) (reader : R) (writer : W) :
    (b.map first last reader writer).lookup.size = b.lookup.size := by
  unfold map
  split <;> rfl

theorem size_mapAll (b : Bus R W) (areas : List (Area R W)) :
    (b.mapAll areas).lookup.size = b.lookup.size := by
  rw [mapAll_eq_after]
  exact after_inv (I := fun b' : Bus R W => b'.lookup.size = b.lookup.size)
    (fun b' x h => (size_map b' _ _ _ _).trans h) rfl areas

/-- **Dispatch.** After `reset` and at most sixteen calls of `map`, every address of an area goes
to the last one that has it. -/
theorem map_dispatches (b : Bus R W) (size : ℕ) (fresh : ℕ → ℕ) {areas : List (Area R W)}
    (hlen : areas.length ≤ tabsiz) (hfit : ∀ x ∈ areas, x.first < x.last ∧ x.last ≤ size)
    {addr : Uint16} (hcov : ∃ x ∈ areas, x.Has addr.toNat) :
    (∃ pre x suf, areas = pre ++ x :: suf ∧ x.Has addr.toNat ∧ ∀ y ∈ suf, ¬y.Has addr.toNat) ∧
    ∀ pre x suf, areas = pre ++ x :: suf → x.Has addr.toNat → (∀ y ∈ suf, ¬y.Has addr.toNat) →
      ((b.reset size fresh).mapAll areas).Dispatches addr x := by
  refine ⟨exists_last_area hcov, ?_⟩
  rintro pre x suf rfl hx hsuf
  have hlen' : 0 + (pre ++ x :: suf).length ≤ tabsiz := by omega
  have hserves := (taken_reset b size fresh).serves_mapAll hlen' hx hsuf
  obtain ⟨-, hlast⟩ := hfit x (by simp)
  rw [List.length_append, List.length_cons] at hlen
  refine ⟨?_, ?_, hserves.reader_eq, hserves.writer_eq⟩
  · rw [size_mapAll]
    exact Nat.lt_of_lt_of_le hx.2 hlast
  · rw [hserves.lookup]
    omega

/-- A bus with nothing in it, its handlers named by numbers. -/
def emptyBus : Bus ℕ ℕ := ⟨⟨0, fun _ => 0⟩, fun _ => 0, fun _ => 0, fun _ => false⟩

/-- An area inside a larger one, and the larger one around it. -/
theorem map_dispatches_nested :
    let outer : Area ℕ ℕ := ⟨0, 0x100, 1, 2⟩
    let inner : Area ℕ ℕ := ⟨0x40, 0x80, 3, 4⟩
    let b' := (emptyBus.reset 0x100 fun _ => 0).mapAll [outer, inner]
    b'.Dispatches 0x50 inner ∧ b'.Dispatches 0x20 outer := by
  intro outer inner b'
  have hfit : ∀ x ∈ [outer, inner], x.first < x.last ∧ x.last ≤ 0x100 := by decide
  exact ⟨(map_dispatches emptyBus 0x100 _ (by decide) hfit ⟨inner, by simp, by decide⟩).2
      [outer] inner [] rfl (by decide) (by simp),
    (map_dispatches emptyBus 0x100 _ (by decide) hfit ⟨outer, by simp, by decide⟩).2
      [] outer [inner] rfl (by decide) (by decide)⟩

/-! ### The search for a slot -/

/-- The flags `searchId` looks at. -/
def searched (assigned : ℕ → Bool) : ℕ → ℕ → List ℕ
  | 0, id => [id]
  | n + 1, id => if assigned id then id :: searched assigned n (id + 1) else [id]

/-- The indexes `map` uses: of the flags it looks at, and of the slot it writes. -/
def indexes (b : Bus R W) : List ℕ :=
  searched b.assigned tabsiz 0 ++ (searchId b.assigned tabsiz 0).toList

/-- `map` reports that the slots are exhausted. -/
def Exhausted (b : Bus R W) : Prop := searchId b.assigned tabsiz 0 = none

/-- A call of `map` stays in the tables, and with every slot taken it reports that and leaves the
bus as it is. -/
structure InTables (b : Bus R W) (x : Area R W) : Prop where
  indexes : ∀ i ∈ b.indexes, i < tabsiz
  full : (∀ i < tabsiz, b.assigned i = true) → b.Exhausted ∧ b.mapArea x = b

/-- The search ends at the first free slot. -/
theorem mem_searched_le {assigned : ℕ → Bool} {n fuel id : ℕ} (hle : id ≤ n)
    (hfree : assigned n = false) : ∀ i ∈ searched assigned fuel id, i ≤ n := by
  induction fuel generalizing id with
  | zero =>
    intro i hi
    obtain rfl := List.mem_singleton.mp hi
    exact hle
  | succ fuel ih =>
    intro i hi
    rw [searched] at hi
    split at hi
    · next hid =>
      have hne : id ≠ n := by
        rintro rfl
        simp [hfree] at hid
      rcases List.mem_cons.mp hi with rfl | hi
      · exact hle
      · exact ih (by omega) i hi
    · obtain rfl := List.mem_singleton.mp hi
      exact hle

/-- Past taken slots the search goes on to the next one. -/
theorem mem_searched {assigned : ℕ → Bool} {n fuel id : ℕ} (hle : id ≤ n) (hfuel : n ≤ id + fuel)
    (htaken : ∀ i, id ≤ i → i < n → assigned i = true) : n ∈ searched assigned fuel id := by
  induction fuel generalizing id with
  | zero =>
    obtain rfl : id = n := by omega
    exact List.mem_singleton_self _
  | succ fuel ih =>
    rcases Nat.eq_or_lt_of_le hle with rfl | hlt
    · rw [searched]
      split
      · exact List.mem_cons_self ..
      · exact List.mem_singleton_self _
    · rw [searched, if_pos (htaken id (Nat.le_refl _) hlt)]
      exact List.mem_cons_of_mem _ (ih hlt (by omega) fun i hi hin => htaken i (by omega) hin)

/-- The slot found is one that was looked at. -/
theorem searchId_mem {assigned : ℕ → Bool} {fuel id n : ℕ}
    (h : searchId assigned fuel id = some n) : n ∈ searched assigned fuel id := by
  induction fuel generalizing id with
  | zero =>
    rw [searchId] at h
    split at h
    · cases h
    · obtain rfl := Option.some.inj h
      exact List.mem_singleton_self _
  | succ fuel ih =>
    rw [searchId] at h
    rw [searched]
    split at h
    · next hid =>
      rw [if_pos hid]
      exact List.mem_cons_of_mem _ (ih h)
    · next hid =>
      rw [if_neg hid]
      obtain rfl := Option.some.inj h
      exact List.mem_singleton_self _

theorem mem_indexes {b : Bus R W} {i : ℕ} : i ∈ b.indexes ↔ i ∈ searched b.assigned tabsiz 0 := by
  unfold indexes
  rw [List.mem_append]
  constructor
  · rintro (h | h)
    · exact h
    · exact searchId_mem (Option.mem_toList.mp h)
  · exact Or.inl

/-- **One call.** A call of `map` is right exactly if a slot is free. -/
theorem inTables_iff (b : Bus R W) (x : Area R W) :
    b.InTables x ↔ ∃ n < tabsiz, b.assigned n = false := by
  constructor
  · intro h
    by_contra hfree
    have htaken (i : ℕ) (hi : i < tabsiz) : b.assigned i = true := by
      by_contra hi'
      exact hfree ⟨i, hi, by simpa using hi'⟩
    have hmem : tabsiz ∈ b.indexes :=
      mem_indexes.mpr (mem_searched (Nat.zero_le _) (by omega) fun i _ hi => htaken i hi)
    exact Nat.lt_irrefl _ (h.indexes tabsiz hmem)
  · rintro ⟨n, hn, hfree⟩
    refine ⟨?_, ?_⟩
    · intro i hi
      exact Nat.lt_of_le_of_lt (mem_searched_le (Nat.zero_le n) hfree i (mem_indexes.mp hi)) hn
    · intro htaken
      rw [htaken n hn] at hfree
      cases hfree

/-- **Sixteen slots.** All calls of `map` after a `reset` are right exactly if there are at most
sixteen of them. -/
theorem all_inTables_iff (b : Bus R W) (size : ℕ) (fresh : ℕ → ℕ) (areas : List (Area R W)) :
    (∀ m ∈ moments mapArea (b.reset size fresh) areas, m.1.InTables m.2) ↔
      areas.length ≤ tabsiz := by
  have htaken := taken_reset b size fresh
  constructor
  · intro h
    by_contra hlen
    obtain ⟨x, suf, hcut⟩ : ∃ x suf, areas.drop tabsiz = x :: suf := by
      cases hdrop : areas.drop tabsiz with
      | nil =>
        have hle := List.drop_eq_nil_iff.mp hdrop
        exact absurd hle hlen
      | cons x suf => exact ⟨x, suf, rfl⟩
    have hareas : areas = areas.take tabsiz ++ x :: suf := by
      rw [← hcut, List.take_append_drop]
    have hfull : ((b.reset size fresh).mapAll (areas.take tabsiz)).Taken tabsiz := by
      have hlen' : (areas.take tabsiz).length = tabsiz := by
        rw [List.length_take]
        omega
      have hall : ((b.reset size fresh).mapAll (areas.take tabsiz)).Taken
          (0 + (areas.take tabsiz).length) := htaken.mapAll (by omega)
      rwa [Nat.zero_add, hlen'] at hall
    have hin := h ((b.reset size fresh).mapAll (areas.take tabsiz), x)
      (mem_moments_iff.mpr ⟨areas.take tabsiz, suf, hareas, mapAll_eq_after _ _⟩)
    obtain ⟨n, hn, hfree⟩ := (inTables_iff _ x).mp hin
    rw [hfull n hn] at hfree
    simp [hn] at hfree
  · intro hlen m hm
    obtain ⟨pre, suf, rfl, hpre⟩ := mem_moments_iff.mp hm
    rw [List.length_append, List.length_cons] at hlen
    rw [inTables_iff, hpre, ← mapAll_eq_after]
    have hpretaken : ((b.reset size fresh).mapAll pre).Taken (0 + pre.length) :=
      htaken.mapAll (by omega)
    refine ⟨0 + pre.length, by omega, ?_⟩
    rw [hpretaken _ (by omega)]
    simp

/-- The seventeenth call looks at the flag behind the sixteen. -/
theorem not_all_inTables :
    ¬∀ m ∈ moments mapArea (emptyBus.reset 0x10000 fun _ => 0)
      (List.replicate 17 ⟨0, 0x2000, 0, 0⟩), m.1.InTables m.2 := by
  intro h
  have hfull := h (after mapArea (emptyBus.reset 0x10000 fun _ => 0)
    (List.replicate 16 ⟨0, 0x2000, 0, 0⟩), ⟨0, 0x2000, 0, 0⟩)
    (mem_moments_iff.mpr ⟨List.replicate 16 _, [], rfl, rfl⟩)
  exact absurd (hfull.indexes 16 (by decide)) (by decide)

/-! ### Remapping -/

/-- One call of `remap`. -/
def remapArea (b : Bus R W) (x : Area R W) : Bus R W := b.remap x.first x.last x.reader x.writer

/-- A call of `map` or of `remap`. -/
inductive Op (R W : Type) where
  | map (x : Area R W)
  | remap (x : Area R W)

def op (b : Bus R W) : Op R W → Bus R W
  | .map x => b.mapArea x
  | .remap x => b.remapArea x

/-- The reader and the writer an address goes to. -/
def handlers (b : Bus R W) (a : ℕ) : R × W :=
  (b.readtab (b.lookup.get a), b.writetab (b.lookup.get a))

/-- `remap` prints a warning: the slot of the first address has the one before it as well, or does
not have the last one. -/
def RemapWarns (b : Bus R W) (x : Area R W) : Prop :=
  (x.first ≠ 0 ∧ b.lookup.get (x.first - 1) = b.lookup.get x.first) ∨
    b.lookup.get (x.last - 1) ≠ b.lookup.get x.first

/-- From `b` to `b'` exactly the addresses of the area have been given its handlers, in a slot of
the tables. -/
structure Remapped (b b' : Bus R W) (x : Area R W) : Prop where
  slot : b.lookup.get x.first < tabsiz
  inside : ∀ a < b.lookup.size, x.Has a → b'.handlers a = (x.reader, x.writer)
  outside : ∀ a < b.lookup.size, ¬x.Has a → b'.handlers a = b.handlers a

variable {b : Bus R W} {x : Area R W}

theorem remapArea_of_warns (h : b.RemapWarns x) : b.remapArea x = b := by
  unfold remapArea remap
  dsimp only
  rcases h with h | h
  · rw [if_pos h]
  · rw [if_pos h]
    exact ite_self b

/-- Without a warning the slot of the first address gets the handlers. -/
theorem handlers_remapArea (h : ¬b.RemapWarns x) (a : ℕ) : (b.remapArea x).handlers a =
    if b.lookup.get a = b.lookup.get x.first then (x.reader, x.writer) else b.handlers a := by
  obtain ⟨hfirst, hlast⟩ := not_or.mp h
  unfold remapArea remap
  dsimp only
  rw [if_neg hfirst, if_neg hlast]
  unfold handlers
  dsimp only
  split_ifs with hslot
  · rw [hslot, Function.update_self, Function.update_self]
  · rw [Function.update_of_ne hslot, Function.update_of_ne hslot]

/-- **Remapping.** On any bus, `remap` warns and leaves the bus alone, or gives new handlers to
exactly the addresses it was called with, exactly if it warns, or the slot of the first address is
in the tables and each address where slot and interval differ had these handlers before. -/
theorem remap_iff (b : Bus R W) (x : Area R W) :
    (b.RemapWarns x ∧ b.remapArea x = b) ∨ b.Remapped (b.remapArea x) x ↔
      b.RemapWarns x ∨ (b.lookup.get x.first < tabsiz ∧ ∀ a < b.lookup.size,
        (b.lookup.get a = b.lookup.get x.first ↔ x.Has a) ∨
          b.handlers a = (x.reader, x.writer)) := by
  by_cases hwarns : b.RemapWarns x
  · have hsame := remapArea_of_warns hwarns
    exact ⟨fun _ => .inl hwarns, fun _ => .inl ⟨hwarns, hsame⟩⟩
  · have hhandlers := handlers_remapArea hwarns
    rw [or_iff_right fun h => hwarns h.1, or_iff_right hwarns]
    constructor
    · rintro ⟨hslot, hinside, houtside⟩
      refine ⟨hslot, fun a ha => ?_⟩
      have hin := hinside a ha
      have hout := houtside a ha
      rw [hhandlers] at hin hout
      by_cases hsame : b.lookup.get a = b.lookup.get x.first <;> by_cases hhas : x.Has a
      · exact .inl (iff_of_true hsame hhas)
      · rw [if_pos hsame] at hout
        exact .inr (hout hhas).symm
      · rw [if_neg hsame] at hin
        exact .inr (hin hhas)
      · exact .inl (iff_of_false hsame hhas)
    · rintro ⟨hslot, hall⟩
      refine ⟨hslot, ?_, ?_⟩
      · intro a ha hhas
        rw [hhandlers]
        split_ifs with hsame
        · rfl
        · exact (hall a ha).resolve_left fun h => hsame (h.mpr hhas)
      · intro a ha hhas
        rw [hhandlers]
        split_ifs with hsame
        · exact ((hall a ha).resolve_left fun h => hhas (h.mp hsame)).symm
        · rfl

/-- The first half of an area is remapped: the other half has the new handlers too. -/
theorem remap_past_end :
    let b := after op (emptyBus.reset 0x100 fun _ => 0) [.map ⟨0, 0x100, 1, 2⟩]
    let half : Area ℕ ℕ := ⟨0, 0x80, 3, 4⟩
    ¬((b.RemapWarns half ∧ b.remapArea half = b) ∨ b.Remapped (b.remapArea half) half) ∧
      b.handlers 0x90 = (1, 2) ∧ (b.remapArea half).handlers 0x90 = (3, 4) := by
  intro b half
  have hwarns : ¬b.RemapWarns half := by
    rintro (⟨h, -⟩ | h)
    · exact h rfl
    · exact h rfl
  refine ⟨?_, rfl, rfl⟩
  rintro (⟨h, -⟩ | h)
  · exact hwarns h
  · have hout : (3, 4) = (1, 2) := h.outside 0x90 (by decide) (by decide)
    exact absurd hout (by decide)

end Yanesemu.Bus
