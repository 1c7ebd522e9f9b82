import Yanesemu.Bits

/-!
# Arrays on the heap and the two buses

`util/heaparray.hpp`, `core/bus.hpp` and the address map of `core/const.hpp`. Memory that has
been allocated and not written holds arbitrary values: an array is a length with a total
function, and `reset` is given the contents of the new memory. An index out of range reads or
writes the function outside the length.

A bus does not hold closures here but the names of the areas its readers and writers serve.
-/

namespace Yanesemu

/-- Writing `bytes` over the start of a buffer, as `fread` does. -/
def overlay {α : Type} (bytes : List α) (buf : ℕ → α) : ℕ → α := fun i => bytes.getD i (buf i)

/-! ### `HeapArray<T>` -/

structure HeapArray (α : Type) where
  len : ℕ
  arr : ℕ → α

namespace HeapArray

variable {α : Type}

def size (a : HeapArray α) : ℕ := a.len

def get (a : HeapArray α) (i : ℕ) : α := a.arr i

/-- `reset(newlen)`, where the new memory holds `fresh`. -/
def reset (newlen : ℕ) (fresh : ℕ → α) : HeapArray α := ⟨newlen, fresh⟩

/-- `std::fill(begin() + start, begin() + end, v)`. -/
def fill (a : HeapArray α) (first last : ℕ) (v : α) : HeapArray α :=
  { a with arr := fun i => if first ≤ i ∧ i < last then v else a.arr i }

/-- `fread` into the start of the array. -/
def load (a : HeapArray α) (bytes : List α) : HeapArray α := { a with arr := overlay bytes a.arr }

@[simp] theorem size_load (a : HeapArray α) (bytes : List α) : (a.load bytes).size = a.size := rfl

@[simp] theorem size_reset (n : ℕ) (fresh : ℕ → α) : (reset n fresh).size = n := rfl

end HeapArray

/-! ### `Bus` -/

/-- Readers are named by `R` and writers by `W`. -/
structure Bus (R W : Type) where
  lookup : HeapArray ℕ
  readtab : ℕ → R
  writetab : ℕ → W
  assigned : ℕ → Bool

namespace Bus

variable {R W : Type}

def tabsiz : ℕ := 16

/-- `reset(newsize)`: the lookup table is new memory, the handlers stay. -/
def reset (b : Bus R W) (newsize : ℕ) (fresh : ℕ → ℕ) : Bus R W :=
  { b with lookup := HeapArray.reset newsize fresh, assigned := fun i =>
      if i < tabsiz then false else b.assigned i }

/-- The search for a free id, with `n` more ids to try after `id`. The bound of the source lets
the id `TABSIZ` through. -/
def searchId (assigned : ℕ → Bool) : ℕ → ℕ → Option ℕ
  | 0, id => if assigned id then none else some id
  | n + 1, id => if assigned id then searchId assigned n (id + 1) else some id

def map (b : Bus R W) (first last : ℕ) (reader : R) (writer : W) : Bus R W :=
  match searchId b.assigned tabsiz 0 with
  | none => b
  | some id =>
    { lookup := b.lookup.fill first last id
      readtab := Function.update b.readtab id reader
      writetab := Function.update b.writetab id writer
      assigned := Function.update b.assigned id true }

/-- The two warnings leave the bus as it is. -/
def remap (b : Bus R W) (first last : ℕ) (reader : R) (writer : W) : Bus R W :=
  let id := b.lookup.get first
  if first ≠ 0 ∧ b.lookup.get (first - 1) = id then b
  else if b.lookup.get (last - 1) ≠ id then b
  else { b with
    readtab := Function.update b.readtab id reader
    writetab := Function.update b.writetab id writer }

/-- The reader `read(addr)` calls. -/
def reader (b : Bus R W) (addr : Uint16) : R := b.readtab (b.lookup.get addr.toNat)

/-- The writer `write(addr, data)` calls. -/
def writer (b : Bus R W) (addr : Uint16) : W := b.writetab (b.lookup.get addr.toNat)

/-! ### What mapping does -/

/-- The ids below `n` are taken, the others are free. -/
def Taken (n : ℕ) (b : Bus R W) : Prop := ∀ i < tabsiz, b.assigned i = decide (i < n)

/-- The address `a` belongs to the area `id`, which has these handlers. -/
structure Serves (b : Bus R W) (a id : ℕ) (reader : R) (writer : W) : Prop where
  lookup : b.lookup.get a = id
  read : b.readtab id = reader
  write : b.writetab id = writer

variable {b : Bus R W} {n a first last id : ℕ} {reader reader' : R} {writer writer' : W}

theorem taken_reset (b : Bus R W) (newsize : ℕ) (fresh : ℕ → ℕ) :
    Taken 0 (b.reset newsize fresh) := by
  intro i hi
  exact if_pos hi

/-- The search finds the first id that is not taken. -/
theorem searchId_eq {assigned : ℕ → Bool} {fuel : ℕ} (hle : id ≤ n) (hfuel : n ≤ id + fuel)
    (hfree : assigned n = false) (htaken : ∀ i, id ≤ i → i < n → assigned i = true) :
    searchId assigned fuel id = some n := by
  induction fuel generalizing id with
  | zero =>
    obtain rfl : id = n := by omega
    simp [searchId, hfree]
  | succ fuel ih =>
    rcases Nat.eq_or_lt_of_le hle with rfl | hlt
    · simp [searchId, hfree]
    · rw [searchId, if_pos (htaken id (Nat.le_refl _) hlt)]
      exact ih hlt (by omega) fun i hi hin => htaken i (by omega) hin

theorem Taken.map_eq (h : Taken n b) (hn : n < tabsiz) :
    b.map first last reader writer =
      { lookup := b.lookup.fill first last n
        readtab := Function.update b.readtab n reader
        writetab := Function.update b.writetab n writer
        assigned := Function.update b.assigned n true } := by
  have hfree : b.assigned n = false := by rw [h n hn]; simp
  have htaken (i : ℕ) (_ : 0 ≤ i) (hi : i < n) : b.assigned i = true := by
    rw [h i (by omega)]
    simp [hi]
  unfold map
  rw [searchId_eq (Nat.zero_le n) (by omega) hfree htaken]

/-- Mapping takes the next id. -/
theorem Taken.map (h : Taken n b) (hn : n < tabsiz) :
    Taken (n + 1) (b.map first last reader writer) := by
  intro i hi
  rw [h.map_eq hn]
  by_cases hin : i = n
  · subst hin
    simp
  · show Function.update b.assigned n true i = _
    rw [Function.update_of_ne hin, h i hi]
    exact decide_eq_decide.mpr (by omega)

/-- The addresses of the area get the new handlers. -/
theorem Taken.serves_map (h : Taken n b) (hn : n < tabsiz) (ha : first ≤ a ∧ a < last) :
    (b.map first last reader writer).Serves a n reader writer := by
  rw [h.map_eq hn]
  exact ⟨if_pos ha, Function.update_self .., Function.update_self ..⟩

/-- The addresses served outside the area keep their handlers. -/
theorem Serves.map (hs : b.Serves a id reader' writer') (h : Taken n b) (hn : n < tabsiz)
    (hid : id < n) (ha : ¬(first ≤ a ∧ a < last)) :
    (b.map first last reader writer).Serves a id reader' writer' := by
  have hne : id ≠ n := by omega
  rw [h.map_eq hn]
  refine ⟨(if_neg ha).trans hs.lookup, ?_, ?_⟩
  · exact (Function.update_of_ne hne ..).trans hs.read
  · exact (Function.update_of_ne hne ..).trans hs.write

/-- Mapping changes the lookup table in the area only. -/
theorem Taken.lookup_map (h : Taken n b) (hn : n < tabsiz) (ha : ¬(first ≤ a ∧ a < last)) :
    (b.map first last reader writer).lookup.get a = b.lookup.get a := by
  rw [h.map_eq hn]
  exact if_neg ha

/-- An area to be mapped. -/
structure Area (R W : Type) where
  first : ℕ
  last : ℕ
  reader : R
  writer : W

def Area.Has (x : Area R W) (a : ℕ) : Prop := x.first ≤ a ∧ a < x.last

/-- One `map` after the other. -/
def mapAll (b : Bus R W) (areas : List (Area R W)) : Bus R W :=
  areas.foldl (fun b x => b.map x.first x.last x.reader x.writer) b

theorem Taken.mapAll {areas : List (Area R W)} (h : Taken n b)
    (hlen : n + areas.length ≤ tabsiz) : Taken (n + areas.length) (b.mapAll areas) := by
  induction areas generalizing b n with
  | nil => exact h
  | cons x areas ih =>
    rw [List.length_cons] at hlen ⊢
    have hx : Taken (n + 1) (b.map x.first x.last x.reader x.writer) := h.map (by omega)
    have hall := ih hx (by omega)
    rw [Nat.add_assoc, Nat.add_comm 1] at hall
    exact hall

theorem Serves.mapAll {areas : List (Area R W)} (hs : b.Serves a id reader' writer')
    (h : Taken n b) (hid : id < n) (hlen : n + areas.length ≤ tabsiz)
    (ha : ∀ x ∈ areas, ¬x.Has a) : (b.mapAll areas).Serves a id reader' writer' := by
  induction areas generalizing b n with
  | nil => exact hs
  | cons x areas ih =>
    rw [List.length_cons] at hlen
    have hx : (b.map x.first x.last x.reader x.writer).Serves a id reader' writer' :=
      hs.map h (by omega) hid (ha x (List.mem_cons_self ..))
    exact ih hx (h.map (by omega)) (by omega) (by omega) fun y hy =>
      ha y (List.mem_cons_of_mem _ hy)

/-- **Mapping areas.** An address is served by the last area that has it, under the id that is
the number of areas before. -/
theorem Taken.serves_mapAll {pre suf : List (Area R W)} {x : Area R W} (h : Taken n b)
    (hlen : n + (pre ++ x :: suf).length ≤ tabsiz) (hx : x.Has a) (hsuf : ∀ y ∈ suf, ¬y.Has a) :
    (b.mapAll (pre ++ x :: suf)).Serves a (n + pre.length) x.reader x.writer := by
  rw [List.length_append, List.length_cons] at hlen
  have hpre : Taken (n + pre.length) (b.mapAll pre) := h.mapAll (by omega)
  unfold Bus.mapAll
  rw [List.foldl_append, List.foldl_cons]
  exact (hpre.serves_map (by omega) hx).mapAll (hpre.map (by omega)) (by omega) (by omega) hsuf

theorem Serves.reader_eq {addr : Uint16} (h : b.Serves addr.toNat id reader writer) :
    b.reader addr = reader := by
  unfold Bus.reader
  rw [h.lookup, h.read]

theorem Serves.writer_eq {addr : Uint16} (h : b.Serves addr.toNat id reader writer) :
    b.writer addr = writer := by
  unfold Bus.writer
  rw [h.lookup, h.write]

/-- An area is remapped if the address before it belongs to another one. -/
theorem Serves.remap (hs : b.Serves a id reader' writer') (hfirst : b.lookup.get first = id)
    (hlast : b.lookup.get (last - 1) = id) (hbefore : first = 0 ∨ b.lookup.get (first - 1) ≠ id) :
    (b.remap first last reader writer).Serves a id reader writer := by
  unfold Bus.remap
  dsimp only
  rw [hfirst, if_neg (by tauto), if_neg (not_not_intro hlast)]
  exact ⟨hs.lookup, Function.update_self .., Function.update_self ..⟩

/-- If it belongs to the area itself, nothing is remapped. -/
theorem remap_eq_self (hfirst : first ≠ 0) (h : b.lookup.get (first - 1) = b.lookup.get first) :
    b.remap first last reader writer = b := by
  unfold Bus.remap
  exact if_pos ⟨hfirst, h⟩

/-- Remapping leaves the other areas alone. -/
theorem Serves.remap_other (hs : b.Serves a id reader' writer') (h : b.lookup.get first ≠ id) :
    (b.remap first last reader writer).Serves a id reader' writer' := by
  unfold Bus.remap
  dsimp only
  split_ifs
  · exact hs
  · exact hs
  · refine ⟨hs.lookup, ?_, ?_⟩
    · exact (Function.update_of_ne h.symm ..).trans hs.read
    · exact (Function.update_of_ne h.symm ..).trans hs.write

theorem Taken.remap (h : Taken n b) : Taken n (b.remap first last reader writer) := by
  unfold Bus.remap
  dsimp only
  split_ifs <;> exact h

end Bus

/-! ### The areas of the two buses -/

inductive Mirroring
  | vert
  | horz
  | other
  deriving DecidableEq, Repr

/-- The areas of the CPU's bus. `cartridge` is the part below the ROM, which reads as zero. -/
inductive RamArea
  | ram
  | ppuReg
  | apu
  | cartridge
  | prgrom
  deriving DecidableEq, Repr

/-- The areas of the PPU's bus. `empty` are the name tables before a cartridge is there. -/
inductive VramArea
  | chrrom
  | empty
  | nametable (mirroring : Mirroring)
  | palette
  deriving DecidableEq, Repr

abbrev RamBus := Bus RamArea RamArea
abbrev VramBus := Bus VramArea VramArea

end Yanesemu
