import Mathlib.Data.List.TakeWhile
import Mathlib.Data.Nat.Digits.Lemmas
import Yanesemu.Bits
import Yanesemu.Lib.Run

/-!
# Strings of the command line

`util/stringops.hpp` and `util/stringops.cpp`: the arguments of a command are the pieces of a line
between blanks (`strsplit`), and a number is read from an argument by `std::from_chars`
(`strconv`). A string is a list of characters.

1. A piece that `strsplit` has found is followed by a delimiter (`delimited`). Joined, the pieces
   are the string but for a delimiter at its end.
2. `from_chars` reads a number off the front and says how far it got. `strconv` does not look at
   that, so it takes a number with anything after it (`strconv_of_numberThenMore`).
3. The digits of a number, with zeros in front or not, denote it (`denotes_toDigits`).
-/

namespace Yanesemu.Util

open EventRun

/-! ### Splitting -/

/-- `s.find(delim, i)`, with `npos` as `none`. -/
def find (s : List Char) (delim : Char) (i : ℕ) : Option ℕ :=
  ((s.drop i).findIdx? (· == delim)).map (i + ·)

/-- The variables of `strsplit`, and whether `break` has left its loop. -/
structure Splitting where
  i : ℕ
  res : List (List Char)
  stop : Bool
  deriving DecidableEq, Repr

/-- The body of the loop of `strsplit`. -/
def splitNext (s : List Char) (delim : Char) (st : Splitting) : Splitting :=
  match find s delim st.i with
  | none => { st with res := st.res ++ [s.drop st.i], stop := true }
  | some p => { st with i := p + 1, res := st.res ++ [(s.take p).drop st.i] }

/-- `strsplit`, given up after `fuel` rounds. -/
def strsplit (s : List Char) (delim : Char) (fuel : ℕ) : Option (List (List Char)) :=
  (whileLoop (fun st => !st.stop && st.i != s.length) (splitNext s delim) fuel ⟨0, [], false⟩).map
    (·.res)

section Split

variable {s : List Char} {d : Char}

/-- Pieces with a delimiter after each. -/
def delimited (d : Char) (pieces : List (List Char)) : List Char :=
  (pieces.map (· ++ [d])).flatten

@[simp] theorem delimited_nil : delimited d [] = [] := rfl

theorem delimited_concat (pieces : List (List Char)) (piece : List Char) :
    delimited d (pieces ++ [piece]) = delimited d pieces ++ piece ++ [d] := by
  simp [delimited]

/-- Joined pieces have a delimiter after each but the last. -/
theorem intercalate_concat (pieces : List (List Char)) (piece : List Char) :
    [d].intercalate (pieces ++ [piece]) = delimited d pieces ++ piece := by
  induction pieces with
  | nil => simp
  | cons p ps ih =>
    rw [List.cons_append, List.intercalate_cons_of_ne_nil (by simp), ih]
    simp [delimited]

theorem find_eq_none {i : ℕ} (h : find s d i = none) : d ∉ s.drop i := by
  intro hd
  have hnone := List.findIdx?_eq_none_iff.mp (Option.map_eq_none_iff.mp h) d hd
  simp at hnone

/-- What `find` skips has no delimiter, and the delimiter comes after it. -/
theorem find_eq_some {i p : ℕ} (h : find s d i = some p) :
    p < s.length ∧ d ∉ (s.take p).drop i ∧ i ≤ p ∧
      s.take (p + 1) = s.take i ++ (s.take p).drop i ++ [d] := by
  obtain ⟨k, hk, rfl⟩ := Option.map_eq_some_iff.mp h
  obtain ⟨hlen, hat, hbefore⟩ := List.findIdx?_eq_some_iff_getElem.mp hk
  have hskip : (s.take (i + k)).drop i = (s.drop i).take k := by
    rw [List.drop_take, Nat.add_sub_cancel_left]
  have hnext : (s.drop i).take (k + 1) = (s.drop i).take k ++ [d] := by
    rw [List.take_succ_eq_append_getElem hlen, eq_of_beq hat]
  rw [List.length_drop] at hlen
  refine ⟨by omega, ?_, Nat.le_add_right i k, ?_⟩
  · rw [hskip]
    intro hd
    obtain ⟨j, hj, hjd⟩ := List.mem_take_iff_getElem.mp hd
    exact hbefore j (by omega) (beq_iff_eq.mpr hjd)
  · rw [hskip, Nat.add_assoc, List.take_add, hnext, List.append_assoc]

/-- The loop has split `s` up to `i` in pieces, or all of it in pieces and a rest, and takes at
most `m` more rounds. -/
inductive Splits (s : List Char) (d : Char) : ℕ → Splitting → Prop
  | going {m i : ℕ} {res : List (List Char)} (hm : i + m = s.length)
      (htake : s.take i = delimited d res) (hres : ∀ piece ∈ res, d ∉ piece) :
      Splits s d m ⟨i, res, false⟩
  | stopped {m i : ℕ} {res : List (List Char)} {rest : List Char} (hrest : rest ≠ [])
      (hs : s = delimited d res ++ rest) (hres : ∀ piece ∈ res ++ [rest], d ∉ piece) :
      Splits s d m ⟨i, res ++ [rest], true⟩

theorem Splits.splitNext {m : ℕ} {st : Splitting} (h : Splits s d m st)
    (ht : (!st.stop && st.i != s.length) = true) :
    ∃ m' < m, Splits s d m' (splitNext s d st) := by
  cases h with
  | stopped => cases ht
  | @going i res hm htake hres =>
    have hi : i ≠ s.length := by simpa using ht
    have hpieces {piece : List Char} (hpiece : d ∉ piece) : ∀ x ∈ res ++ [piece], d ∉ x := by
      intro x hx
      rcases List.mem_append.mp hx with hx | hx
      · exact hres x hx
      · rwa [List.mem_singleton.mp hx]
    unfold Util.splitNext
    cases hfind : find s d i with
    | none =>
      refine ⟨0, by omega, .stopped ?_ ?_ (hpieces (find_eq_none hfind))⟩
      · intro hnil
        have hle : s.length ≤ i := List.drop_eq_nil_iff.mp hnil
        omega
      · rw [← htake, List.take_append_drop]
    | some p =>
      obtain ⟨hp, hpiece, hle, hnext⟩ := find_eq_some hfind
      refine ⟨s.length - (p + 1), by omega, .going (by omega) ?_ (hpieces hpiece)⟩
      rw [hnext, htake, delimited_concat]

/-- `strsplit` ends with a delimiter after each piece, or after each but the last. -/
theorem strsplit_spec (s : List Char) (d : Char) :
    ∃ pieces, (∀ fuel ≥ s.length, strsplit s d fuel = some pieces) ∧
      (∀ piece ∈ pieces, d ∉ piece) ∧
      (s = delimited d pieces ∨
        ∃ front rest, pieces = front ++ [rest] ∧ rest ≠ [] ∧ s = delimited d front ++ rest) := by
  have hstart : Splits s d s.length ⟨0, [], false⟩ := .going (Nat.zero_add _) rfl (by simp)
  obtain ⟨st, m, hrun, hst, hend⟩ := whileLoop_total (fun m st h ht => h.splitNext ht) hstart
  refine ⟨st.res, fun fuel hf => ?_, ?_⟩
  · unfold strsplit
    rw [hrun fuel hf, Option.map_some]
  · cases hst with
    | @going i res hm htake hres =>
      have hi : i = s.length := by simpa using hend
      refine ⟨hres, .inl ?_⟩
      rw [← htake, hi, List.take_length]
    | @stopped i res rest hrest hs hres => exact ⟨hres, .inr ⟨res, rest, rfl, hrest, hs⟩⟩

/-- What `strsplit` returns. -/
def pieces (s : List Char) (d : Char) : List (List Char) := (strsplit s d s.length).getD []

theorem strsplit_eq_pieces {fuel : ℕ} (hf : s.length ≤ fuel) :
    strsplit s d fuel = some (pieces s d) := by
  obtain ⟨res, hrun, -, -⟩ := strsplit_spec s d
  unfold pieces
  rw [hrun fuel hf, hrun s.length (Nat.le_refl _), Option.getD_some]

theorem strsplit_of_le {res : List (List Char)} {fuel fuel' : ℕ}
    (h : strsplit s d fuel = some res) (hle : fuel ≤ fuel') :
    strsplit s d fuel' = some res := by
  unfold strsplit at h ⊢
  obtain ⟨st, hst, rfl⟩ := Option.map_eq_some_iff.mp h
  rw [whileLoop_of_le hst hle, Option.map_some]

/-- With any fuel that is enough, `strsplit` returns the same. -/
theorem eq_pieces_of_strsplit {res : List (List Char)} {fuel : ℕ}
    (h : strsplit s d fuel = some res) : res = pieces s d := by
  have hmax := strsplit_of_le h (Nat.le_max_left fuel s.length)
  rw [strsplit_eq_pieces (Nat.le_max_right ..)] at hmax
  exact (Option.some.inj hmax).symm

/-- The pieces joined are the string, or the string without the delimiter at its end. -/
theorem intercalate_strsplit {res : List (List Char)} {fuel : ℕ}
    (h : strsplit s d fuel = some res) :
    ([d].intercalate res = s ∧ s.getLast? ≠ some d) ∨ s = [d].intercalate res ++ [d] := by
  obtain ⟨res', hrun, hfree, hs⟩ := strsplit_spec s d
  obtain rfl : res = res' := by
    rw [eq_pieces_of_strsplit h, eq_pieces_of_strsplit (hrun s.length (Nat.le_refl _))]
  rcases hs with hs | ⟨front, rest, rfl, hrest, hs⟩
  · rcases List.eq_nil_or_concat res with rfl | ⟨front, last, rfl⟩
    · rw [hs]
      exact .inl ⟨rfl, by simp⟩
    · rw [List.concat_eq_append] at hs ⊢
      rw [delimited_concat] at hs
      rw [intercalate_concat]
      exact .inr hs
  · rw [intercalate_concat]
    refine .inl ⟨hs.symm, fun hlast => ?_⟩
    rw [hs, List.getLast?_append_of_ne_nil _ hrest] at hlast
    exact hfree rest (List.mem_append_right _ (List.mem_singleton_self _))
      (List.mem_of_getLast? hlast)

/-- **Splitting.** `strsplit` ends, no piece has the delimiter, and the pieces joined are the string
without the delimiter at its end, if there is one. Strings with the same pieces are the same but
for that delimiter. -/
theorem strsplit_joins (s : List Char) (d : Char) :
    ∃ pieces, (∀ fuel ≥ s.length, strsplit s d fuel = some pieces) ∧
      (∀ piece ∈ pieces, d ∉ piece) ∧
      (s.getLast? ≠ some d → [d].intercalate pieces = s) ∧
      (s.getLast? = some d → [d].intercalate pieces = s.dropLast) ∧
      (s = [] → pieces = []) ∧
      ∀ s' fuel, strsplit s' d fuel = some pieces → s' = s ∨ s' = s ++ [d] ∨ s = s' ++ [d] := by
  obtain ⟨pieces, hrun, hfree, -⟩ := strsplit_spec s d
  have hjoin := intercalate_strsplit (hrun s.length (Nat.le_refl _))
  refine ⟨pieces, hrun, hfree, ?_, ?_, ?_, ?_⟩
  · intro hlast
    rcases hjoin with ⟨hjoin, -⟩ | hjoin
    · exact hjoin
    · rw [hjoin, List.getLast?_concat] at hlast
      exact absurd rfl hlast
  · intro hlast
    rcases hjoin with ⟨-, hne⟩ | hjoin
    · exact absurd hlast hne
    · rw [hjoin, List.dropLast_concat]
  · rintro rfl
    exact (Option.some.inj (hrun 0 (Nat.le_refl 0))).symm
  · intro s' fuel hs'
    rcases hjoin with ⟨hjoin, -⟩ | hjoin <;>
      rcases intercalate_strsplit hs' with ⟨hjoin', -⟩ | hjoin'
    · exact .inl (hjoin'.symm.trans hjoin)
    · rw [hjoin] at hjoin'
      exact .inr (.inl hjoin')
    · rw [hjoin'] at hjoin
      exact .inr (.inr hjoin)
    · exact .inl (hjoin'.trans hjoin.symm)

example : strsplit "a,,b,".toList ',' 5 = some ["a".toList, [], "b".toList] := by decide

end Split

/-! ### Numbers -/

/-- The value of a character that is a digit of `base`; the letters count on from ten. -/
def digit (base : ℕ) (c : Char) : Option ℕ :=
  let value := if '0' ≤ c ∧ c ≤ '9' then some (c.toNat - '0'.toNat)
    else if 'a' ≤ c ∧ c ≤ 'z' then some (c.toNat - 'a'.toNat + 10)
    else if 'A' ≤ c ∧ c ≤ 'Z' then some (c.toNat - 'A'.toNat + 10)
    else none
  value.filter (· < base)

/-- The number its digits denote, the first one counting most. -/
def number (base : ℕ) (str : List Char) : ℕ :=
  Nat.ofDigits base (str.filterMap (digit base)).reverse

/-- What `std::from_chars` leaves for an unsigned type: `ec`, the value unless `ec` is set, and
how far it got. -/
inductive FromChars (w : ℕ)
  | invalidArgument
  | resultOutOfRange (ptr : ℕ)
  | success (value : BitVec w) (ptr : ℕ)
  deriving DecidableEq, Repr

/-- `std::from_chars`: the longest row of digits at the front. There is no sign and no prefix. -/
def fromChars (w : ℕ) (str : List Char) (base : ℕ) : FromChars w :=
  let pattern := str.takeWhile fun c => (digit base c).isSome
  if pattern = [] then .invalidArgument
  else if number base pattern < 2 ^ w then
    .success (BitVec.ofNat w (number base pattern)) pattern.length
  else .resultOutOfRange pattern.length

def strconv (w : ℕ) (str : List Char) (base : ℕ) : Option (BitVec w) :=
  match fromChars w str base with
  | .success value _ => some value
  | _ => none

section Strconv

variable {w base : ℕ} {str : List Char}

/-- The whole of `str` is a row of digits, and `v` is their number. -/
def Denotes (base : ℕ) (str : List Char) (v : ℕ) : Prop :=
  str ≠ [] ∧ (∀ c ∈ str, (digit base c).isSome) ∧ number base str = v

/-- A number that fits, with something after it that is no digit. -/
def NumberThenMore (w base : ℕ) (str : List Char) : Prop :=
  ∃ ds c rest, str = ds ++ c :: rest ∧ digit base c = none ∧ ∃ v < 2 ^ w, Denotes base ds v

theorem strconv_eq_some_iff {v : BitVec w} :
    strconv w str base = some v ↔
      Denotes base (str.takeWhile fun c => (digit base c).isSome) v.toNat := by
  have hdigits (c : Char) (hc : c ∈ str.takeWhile fun c => (digit base c).isSome) :
      (digit base c).isSome :=
    List.mem_takeWhile_imp (p := fun c => (digit base c).isSome) hc
  unfold strconv fromChars Denotes
  generalize str.takeWhile (fun c => (digit base c).isSome) = pattern at hdigits ⊢
  dsimp only
  rw [and_iff_right hdigits]
  split_ifs with hnil hfits
  · simp [hnil]
  · rw [Option.some_inj, ← BitVec.toNat_inj, BitVec.toNat_ofNat, Nat.mod_eq_of_lt hfits,
      and_iff_right hnil]
  · have hne : number base pattern ≠ v.toNat := fun h => hfits (h ▸ v.isLt)
    simp [hne]

theorem takeWhile_of_digits (h : ∀ c ∈ str, (digit base c).isSome) :
    str.takeWhile (fun c => (digit base c).isSome) = str :=
  List.takeWhile_eq_self_iff.mpr h

/-- The row of digits ends before a character that is no digit. -/
theorem takeWhile_of_more {ds rest : List Char} {c : Char}
    (h : ∀ c ∈ ds, (digit base c).isSome) (hc : digit base c = none) :
    (ds ++ c :: rest).takeWhile (fun c => (digit base c).isSome) = ds := by
  rw [List.takeWhile_append_of_pos h, List.takeWhile_cons_of_neg (by simp [hc]), List.append_nil]

/-- A string is a row of digits, or goes on after one. -/
theorem digits_or_more (base : ℕ) (str : List Char) :
    (∀ c ∈ str, (digit base c).isSome) ∨
      ∃ ds c rest, str = ds ++ c :: rest ∧ digit base c = none ∧
        ∀ c ∈ ds, (digit base c).isSome := by
  induction str with
  | nil => exact .inl (by simp)
  | cons c str ih =>
    cases hc : digit base c with
    | none => exact .inr ⟨[], c, str, rfl, hc, by simp⟩
    | some v =>
      rcases ih with h | ⟨ds, c', rest, rfl, hc', h⟩
      · exact .inl (List.forall_mem_cons.mpr ⟨by rw [hc]; rfl, h⟩)
      · exact .inr ⟨c :: ds, c', rest, rfl, hc', List.forall_mem_cons.mpr ⟨by rw [hc]; rfl, h⟩⟩

theorem not_denotes_of_more {ds rest : List Char} {c : Char} (hc : digit base c = none) (v : ℕ) :
    ¬Denotes base (ds ++ c :: rest) v := by
  rintro ⟨-, hdigits, -⟩
  have hdigit := hdigits c (by simp)
  rw [hc] at hdigit
  cases hdigit

/-- A string that is a number and more is read as that number. -/
theorem strconv_of_numberThenMore (h : NumberThenMore w base str) :
    (∃ v : BitVec w, strconv w str base = some v) ∧ ∀ v, ¬Denotes base str v := by
  obtain ⟨ds, c, rest, rfl, hc, v, hv, hds⟩ := h
  refine ⟨⟨BitVec.ofNat w v, ?_⟩, not_denotes_of_more hc⟩
  rw [strconv_eq_some_iff, takeWhile_of_more hds.2.1 hc, BitVec.toNat_ofNat, Nat.mod_eq_of_lt hv]
  exact hds

/-- **Numbers.** `strconv` takes the numbers that fit and nothing else, unless the string goes on
after one. -/
theorem strconv_eq_some_of_not_more (h : ¬NumberThenMore w base str) {v : BitVec w} :
    strconv w str base = some v ↔ Denotes base str v.toNat := by
  rw [strconv_eq_some_iff]
  rcases digits_or_more base str with hall | ⟨ds, c, rest, rfl, hc, hds⟩
  · rw [takeWhile_of_digits hall]
  · rw [takeWhile_of_more hds hc]
    constructor
    · intro hv
      exact absurd ⟨ds, c, rest, rfl, hc, v.toNat, v.isLt, hv⟩ h
    · intro hv
      exact absurd hv (not_denotes_of_more hc v.toNat)

/-! ### Printed numbers -/

theorem number_concat {base : ℕ} {c : Char} {v : ℕ} (hc : digit base c = some v) (str : List Char) :
    number base (str ++ [c]) = v + base * number base str := by
  have hlast : [c].filterMap (digit base) = [v] := by simp [hc]
  unfold number
  rw [List.filterMap_append, hlast, List.reverse_append, List.reverse_singleton,
    List.singleton_append, Nat.ofDigits_cons]

/-- Zeros in front do not count. -/
theorem number_leftpad (base : ℕ) (hbase : 0 < base) (width : ℕ) (str : List Char) :
    number base (str.leftpad width '0') = number base str := by
  have hzero : digit base '0' = some 0 := by simp [digit, hbase]
  have hzeros (n : ℕ) : (List.replicate n '0').filterMap (digit base) = List.replicate n 0 := by
    induction n with
    | zero => rfl
    | succ n ih => rw [List.replicate_succ, List.filterMap_cons_some hzero, ih, List.replicate_succ]
  unfold number List.leftpad
  rw [List.filterMap_append, hzeros, List.reverse_append, List.reverse_replicate,
    Nat.ofDigits_append_replicate_zero]

theorem digit_digitChar : ∀ d < 16, digit 16 (Nat.digitChar d).toUpper = some d := by decide

theorem denotes_toDigits (n : ℕ) : Denotes 16 ((Nat.toDigits 16 n).map Char.toUpper) n := by
  induction n using Nat.strongRecOn with
  | ind n ih =>
    by_cases hn : n < 16
    · have hd := digit_digitChar n hn
      rw [Nat.toDigits_of_lt_base hn]
      refine ⟨by simp, by simp [hd], ?_⟩
      simp [number, hd]
    · have hd := digit_digitChar (n % 16) (Nat.mod_lt _ (by decide))
      obtain ⟨-, hdigits, hnumber⟩ := ih (n / 16) (by omega)
      rw [Nat.toDigits_of_base_le (by decide) (by omega), List.map_append, List.map_singleton]
      refine ⟨by simp, List.forall_mem_append.mpr ⟨hdigits, by simp [hd]⟩, ?_⟩
      rw [number_concat hd, hnumber]
      omega

end Strconv

end Yanesemu.Util
