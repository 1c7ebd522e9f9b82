import Yanesemu.FileInput
import Yanesemu.Lib.Cells
import Yanesemu.StringOps

/-!
# Settings files

`parse_conf` of `util/settings.cpp`, which fills a table of settings from the lines `key=value` of a
file, and what it needs of the standard library: `std::strtol` with a base of 0 or 10, on a `long`
of 64 bits, and `std::stoi`. A string ends for both at its first NUL. The texts of the warnings are
left out.

A value is a number if `strtol` takes all of it with the base 0. The number that is stored is what
`stoi` makes of it, with the base 10: that is another one for most values in octal and hexadecimal,
and an exception that nobody catches where it does not fit in an `int`
(`parseConf_loads_iff`).
-/

namespace Yanesemu.Util

open EventRun

/-! ### `std::strtol` and `std::stoi` -/

/-- The characters of `s.c_str()`. -/
def cStr (s : List Char) : List Char := s.takeWhile (· != '\x00')

/-- `std::isspace`. -/
def isspace (c : Char) : Bool :=
  c == ' ' || c == '\t' || c == '\n' || c == '\x0b' || c == '\x0c' || c == '\r'

def isSign (c : Char) : Bool := c == '+' || c == '-'

/-- The base an integer constant has, and the constant without its prefix. The prefix of a
hexadecimal constant is one only if a digit follows; a leading zero is a digit itself. -/
def constant (base : ℕ) (s : List Char) : ℕ × List Char :=
  if base ≠ 0 then (base, s)
  else match s with
  | '0' :: x :: c :: rest =>
    if (x = 'x' ∨ x = 'X') ∧ (digit 16 c).isSome then (16, c :: rest) else (8, s)
  | '0' :: _ => (8, s)
  | _ => (10, s)

/-- What `std::strtol` leaves: its value, whether it found a number, whether it set `ERANGE`, and
the string from `endptr` on. -/
structure Strtol where
  value : ℤ
  converted : Bool
  erange : Bool
  rest : List Char
  deriving DecidableEq, Repr

/-- The string from its sign on. -/
def signed (str : List Char) : List Char := (cStr str).dropWhile isspace

/-- The string after its sign. -/
def unsigned (str : List Char) : List Char :=
  if (signed str).head?.any isSign then (signed str).tail else signed str

def strtol (str : List Char) (base : ℕ) : Strtol :=
  let c := constant base (unsigned str)
  let digits := c.2.takeWhile fun x => (digit c.1 x).isSome
  if digits = [] then ⟨0, false, false, cStr str⟩
  else
    let v : ℤ := if (signed str).head? = some '-' then -number c.1 digits else number c.1 digits
    { value := max (-2 ^ 63) (min v (2 ^ 63 - 1))
      converted := true
      erange := decide (v < -2 ^ 63 ∨ 2 ^ 63 - 1 < v)
      rest := c.2.dropWhile fun x => (digit c.1 x).isSome }

/-- The exceptions of `std::stoi`. -/
inductive StdError
  | invalidArgument | outOfRange
  deriving DecidableEq, Repr

def FitsInt (v : ℤ) : Prop := -2 ^ 31 ≤ v ∧ v < 2 ^ 31

instance (v : ℤ) : Decidable (FitsInt v) := inferInstanceAs (Decidable (_ ∧ _))

def stoi (str : List Char) : Except StdError ℤ :=
  let r := strtol str 10
  if !r.converted then .error .invalidArgument
  else if r.erange ∨ ¬FitsInt r.value then .error .outOfRange
  else .ok r.value

/-! ### `parse_conf` -/

inductive Setting
  | bool (b : Bool)
  | string (s : List Char)
  | int (n : ℤ)
  deriving DecidableEq, Repr, Inhabited

inductive SettingType
  | bool | string | number
  deriving DecidableEq, Repr

/-- The alternative the variant holds. -/
def Setting.index : Setting → SettingType
  | bool _ => .bool
  | string _ => .string
  | int _ => .number

structure ValidSetting where
  key : List Char
  type : SettingType
  «def» : Setting
  deriving DecidableEq, Repr

abbrev ValidSettings := List ValidSetting

abbrev SettingMap := List Char → Option Setting

def isInt (s : List Char) : Bool :=
  s.head?.any (fun c => (digit 10 c).isSome || isSign c) && (strtol s 0).rest.isEmpty

def parseValue (s : List Char) : Except StdError Setting :=
  if s = "true".toList then .ok (.bool true)
  else if s = "false".toList then .ok (.bool false)
  else if isInt s then (stoi s).map .int
  else .ok (.string s)

/-- The variables of the loop over the lines. -/
structure Reading where
  file : List Char
  kvmap : List Char → Option (List Char)
  stop : Bool

/-- The key and the value of a line that has them. -/
def keyValue (line : List Char) : Option (List Char × List Char) :=
  if line.head? = some '#' ∨ line = [] then none
  else match pieces line '=' with
  | [k, v] => some (k, v)
  | _ => none

/-- The head of the loop over the lines, and its body. -/
def readNext (r : Reading) : Reading :=
  let line := getline r.file '\n'
  if line.ok then
    { file := line.rest
      kvmap := match keyValue line.str with
        | some (k, v) => Function.update r.kvmap k (some v)
        | none => r.kvmap
      stop := false }
  else { r with file := line.rest, stop := true }

/-- What the loop over the settings stores for one of them. -/
def chosen (kvmap : List Char → Option (List Char)) (setting : ValidSetting) :
    Except StdError Setting :=
  match kvmap setting.key with
  | none => .ok setting.def
  | some str => (parseValue str).map fun value =>
      if value.index ≠ setting.type then setting.def else value

/-- The loop over the settings. -/
def storeSettings (kvmap : List Char → Option (List Char)) (validSettings : ValidSettings) :
    Except StdError SettingMap :=
  validSettings.foldlM (fun (smap : SettingMap) setting => do
    let value ← chosen kvmap setting
    return Function.update smap setting.key (some value)) fun _ => none

/-- `parse_conf`, its loop over the lines given up after `fuel` rounds. -/
def parseConf (fuel : ℕ) (f : List Char) (validSettings : ValidSettings) :
    Option (Except StdError SettingMap) :=
  (whileLoop (!·.stop) readNext fuel ⟨f, fun _ => none, false⟩).map fun r =>
    storeSettings r.kvmap validSettings

/-! ### What a file says -/

/-- The keys and values of a file, in order. -/
def entries (f : List Char) : List (List Char × List Char) := (lines f).filterMap keyValue

/-- The value of a key is the last one the file gives it. -/
def valueOf (f key : List Char) : Option (List Char) := lastWrite (· = key) (entries f)

section Lines

/-- One entry of the table. -/
def addEntry (m : List Char → Option (List Char)) (e : List Char × List Char) :
    List Char → Option (List Char) := Function.update m e.1 (some e.2)

/-- The loop is done, or has a file to read that adds what is missing. -/
def ReadsTo (goal : List Char → Option (List Char)) (m : ℕ) (r : Reading) : Prop :=
  (r.stop = true ∧ r.kvmap = goal) ∨
    (r.stop = false ∧ r.file.length < m ∧ after addEntry r.kvmap (entries r.file) = goal)

theorem ReadsTo.next {goal : List Char → Option (List Char)} {m : ℕ} {r : Reading}
    (h : ReadsTo goal m r) (ht : (!r.stop) = true) : ∃ m' < m, ReadsTo goal m' (readNext r) := by
  rcases h with ⟨hstop, -⟩ | ⟨-, hlen, hgoal⟩
  · rw [hstop] at ht
    cases ht
  rcases getline_spec r.file with ⟨hok, hlines⟩ | ⟨hok, hrest, hlines⟩
  · refine ⟨0, by omega, .inl ?_⟩
    unfold entries at hgoal
    rw [hlines] at hgoal
    unfold readNext
    dsimp only
    rw [hok]
    exact ⟨rfl, hgoal⟩
  · refine ⟨(getline r.file '\n').rest.length + 1, by omega, .inr ?_⟩
    unfold entries at hgoal
    rw [hlines] at hgoal
    unfold readNext
    dsimp only
    rw [hok]
    refine ⟨rfl, Nat.lt_succ_self _, ?_⟩
    cases hkv : keyValue (getline r.file '\n').str with
    | none =>
      rw [List.filterMap_cons_none hkv] at hgoal
      exact hgoal
    | some kv =>
      rw [List.filterMap_cons_some hkv] at hgoal
      exact hgoal

theorem parseConf_eq (f : List Char) (validSettings : ValidSettings) :
    ∀ fuel > f.length, parseConf fuel f validSettings =
      some (storeSettings (valueOf f) validSettings) := by
  have hgoal : after addEntry (fun _ => none) (entries f) = valueOf f :=
    funext fun key => after_update (entries f) key
  have hstart : ReadsTo (valueOf f) (f.length + 1) ⟨f, fun _ => none, false⟩ :=
    .inr ⟨rfl, Nat.lt_succ_self _, hgoal⟩
  obtain ⟨r, m, hrun, hr, hend⟩ := whileLoop_total (fun _ _ h ht => h.next ht) hstart
  intro fuel hf
  unfold parseConf
  rw [hrun fuel hf, Option.map_some]
  rcases hr with ⟨-, hkvmap⟩ | ⟨hstop, -⟩
  · rw [hkvmap]
  · rw [hstop] at hend
    cases hend

end Lines

/-! ### Numbers -/

section Numbers

variable {str : List Char}

theorem constant_zero_of_head {s : List Char} (h : s.head? ≠ some '0') :
    constant 0 s = constant 10 s := by
  cases s with
  | nil => rfl
  | cons c s =>
    have hc : c ≠ '0' := fun hc => h (by rw [hc]; rfl)
    unfold constant
    simp [hc]

/-- A constant of any base begins with a decimal digit. -/
theorem takeWhile_constant {s : List Char}
    (h : (constant 0 s).2.takeWhile (fun x => (digit (constant 0 s).1 x).isSome) ≠ []) :
    s.takeWhile (fun x => (digit 10 x).isSome) ≠ [] := by
  by_cases hzero : s.head? = some '0'
  · obtain ⟨rest, rfl⟩ := List.head?_eq_some_iff.mp hzero
    rw [List.takeWhile_cons_of_pos (by decide)]
    exact List.cons_ne_nil _ _
  · rw [constant_zero_of_head hzero] at h
    exact h

theorem converted_iff {base : ℕ} : (strtol str base).converted = true ↔
    (constant base (unsigned str)).2.takeWhile
      (fun x => (digit (constant base (unsigned str)).1 x).isSome) ≠ [] := by
  unfold strtol
  dsimp only
  by_cases hnil : (constant base (unsigned str)).2.takeWhile
      (fun x => (digit (constant base (unsigned str)).1 x).isSome) = []
  · rw [if_pos hnil]
    simp [hnil]
  · rw [if_neg hnil]
    exact ⟨fun _ => hnil, fun _ => rfl⟩

theorem rest_of_not_converted {base : ℕ} (h : (strtol str base).converted ≠ true) :
    (strtol str base).rest = cStr str := by
  have hnil := not_not.mp (mt converted_iff.mpr h)
  unfold strtol
  dsimp only
  rw [if_pos hnil]

/-- What `is_int` accepts is a number for `stoi` as well. -/
theorem converted_of_isInt (h : isInt str = true) : (strtol str 10).converted = true := by
  obtain ⟨hhead, hrest⟩ := Bool.and_eq_true_iff.mp h
  have hne : cStr str ≠ [] := by
    cases str with
    | nil => cases hhead
    | cons c s =>
      have hfirst : ((digit 10 c).isSome || isSign c) = true := hhead
      have hnul : (c != '\x00') = true := by
        rw [bne_iff_ne]
        rintro rfl
        exact absurd hfirst (by decide)
      unfold cStr
      rw [List.takeWhile_cons_of_pos (p := (· != '\x00')) hnul]
      exact List.cons_ne_nil _ _
  have hzero : (strtol str 0).converted = true := by
    by_contra hnot
    rw [rest_of_not_converted hnot] at hrest
    exact hne (List.isEmpty_iff.mp hrest)
  exact converted_iff.mpr (takeWhile_constant (converted_iff.mp hzero))

theorem not_fitsInt_of_erange {base : ℕ} (h : (strtol str base).erange = true) :
    ¬FitsInt (strtol str base).value := by
  unfold strtol at h ⊢
  dsimp only at h ⊢
  split_ifs at h ⊢ with hnil
  · have hv := of_decide_eq_true h
    unfold FitsInt
    dsimp only
    omega
  · have hv := of_decide_eq_true h
    unfold FitsInt
    dsimp only
    omega

theorem stoi_of_isInt (h : isInt str = true) :
    stoi str = if FitsInt (strtol str 10).value then .ok (strtol str 10).value
      else .error .outOfRange := by
  unfold stoi
  dsimp only
  rw [converted_of_isInt h]
  by_cases hfits : FitsInt (strtol str 10).value
  · have hrange : ¬((strtol str 10).erange = true) := fun he => not_fitsInt_of_erange he hfits
    rw [if_pos hfits]
    simp [hrange, hfits]
  · rw [if_neg hfits]
    simp [hfits]

/-- Without a leading zero the two bases read the same. -/
theorem strtol_zero_eq_ten (h : (unsigned str).head? ≠ some '0') :
    strtol str 0 = strtol str 10 := by
  unfold strtol
  rw [constant_zero_of_head h]

theorem parseValue_of_isInt (h : isInt str = true) : parseValue str = (stoi str).map .int := by
  have htrue : str ≠ "true".toList := by
    rintro rfl
    exact absurd h (by decide)
  have hfalse : str ≠ "false".toList := by
    rintro rfl
    exact absurd h (by decide)
  unfold parseValue
  rw [if_neg htrue, if_neg hfalse, if_pos h]

/-- Only a number can throw. -/
theorem exists_parseValue_iff : (∃ v, parseValue str = .ok v) ↔
    (isInt str = true → FitsInt (strtol str 10).value) := by
  by_cases h : isInt str = true
  · rw [parseValue_of_isInt h, stoi_of_isInt h]
    by_cases hfits : FitsInt (strtol str 10).value
    · rw [if_pos hfits]
      exact ⟨fun _ _ => hfits, fun _ => ⟨_, rfl⟩⟩
    · rw [if_neg hfits]
      constructor
      · rintro ⟨v, hv⟩
        cases hv
      · exact fun h' => absurd (h' h) hfits
  · refine ⟨fun _ h' => absurd h' h, fun _ => ?_⟩
    unfold parseValue
    split_ifs
    · exact ⟨_, rfl⟩
    · exact ⟨_, rfl⟩
    · exact ⟨_, rfl⟩

end Numbers

/-! ### The table of settings -/

/-- The number that `strtol` validated, or the default where it does not fit in an `int`. -/
def validated (str : List Char) («def» : Setting) : Setting :=
  if FitsInt (strtol str 0).value then .int (strtol str 0).value else «def»

/-- A number without a leading zero is the one `stoi` reads. -/
theorem validated_of_head {str : List Char} (h : (unsigned str).head? ≠ some '0')
    (hfits : FitsInt (strtol str 10).value) («def» : Setting) :
    validated str «def» = .int (strtol str 10).value := by
  unfold validated
  rw [strtol_zero_eq_ten h, if_pos hfits]

/-- What `parse_conf` is to return. A setting that is declared twice is that of its last
declaration. -/
structure Loaded (f : List Char) (validSettings : ValidSettings) (smap : SettingMap) : Prop where
  keys : ∀ key, (smap key).isSome = true ↔ ∃ s ∈ validSettings, s.key = key
  values : ∀ front s back, validSettings = front ++ s :: back → (∀ s' ∈ back, s'.key ≠ s.key) →
    ∃ v, smap s.key = some v ∧ v.index = s.type ∧
      (s.type = .number → ∀ str, valueOf f s.key = some str → isInt str = true →
        v = validated str s.def)

section Table

variable {f : List Char} {validSettings : ValidSettings} {s : ValidSetting}
  {kvmap : List Char → Option (List Char)}

theorem chosen_index (hdef : s.def.index = s.type) {v : Setting} (h : chosen kvmap s = .ok v) :
    v.index = s.type := by
  unfold chosen at h
  split at h
  · cases h
    exact hdef
  · next str _ =>
    cases hvalue : parseValue str with
    | error e =>
      rw [hvalue] at h
      cases h
    | ok value =>
      rw [hvalue] at h
      cases h
      dsimp only
      split_ifs with hne
      · exact hdef
      · exact not_not.mp hne

theorem exists_chosen_of_some {str : List Char} (hstr : kvmap s.key = some str) :
    (∃ v, chosen kvmap s = .ok v) ↔ ∃ v, parseValue str = .ok v := by
  unfold chosen
  rw [hstr]
  dsimp only
  cases parseValue str with
  | error e =>
    constructor
    · rintro ⟨v, hv⟩
      cases hv
    · rintro ⟨v, hv⟩
      cases hv
  | ok value => exact ⟨fun _ => ⟨value, rfl⟩, fun _ => ⟨_, rfl⟩⟩

theorem exists_chosen_iff : (∃ v, chosen kvmap s = .ok v) ↔
    ∀ str, kvmap s.key = some str → isInt str = true → FitsInt (strtol str 10).value := by
  cases hk : kvmap s.key with
  | none =>
    have hdefault : chosen kvmap s = .ok s.def := by
      unfold chosen
      rw [hk]
    exact ⟨fun _ _ hstr => absurd hstr (Option.some_ne_none _).symm, fun _ => ⟨s.def, hdefault⟩⟩
  | some str =>
    rw [exists_chosen_of_some hk, exists_parseValue_iff]
    simp

theorem chosen_number {str : List Char} (hstr : kvmap s.key = some str) (hint : isInt str = true)
    (htype : s.type = .number) {v : Setting} (h : chosen kvmap s = .ok v) :
    v = .int (strtol str 10).value := by
  have hfits := exists_chosen_iff.mp ⟨v, h⟩ str hstr hint
  unfold chosen at h
  rw [hstr] at h
  dsimp only at h
  rw [parseValue_of_isInt hint, stoi_of_isInt hint, if_pos hfits] at h
  cases h
  exact if_neg fun hne => hne htype.symm

/-- The loop over the settings succeeds if it can store each of them. -/
theorem storeSettings_spec {smap : SettingMap}
    (h : storeSettings kvmap validSettings = .ok smap) :
    (∀ key, (smap key).isSome = true ↔ ∃ s ∈ validSettings, s.key = key) ∧
      ∀ front s back, validSettings = front ++ s :: back → (∀ s' ∈ back, s'.key ≠ s.key) →
        ∃ v, smap s.key = some v ∧ chosen kvmap s = .ok v := by
  have hall := exists_ok_of_foldlM_update h
  choose! val hval using hall
  have hsmap : smap = after (fun (m : SettingMap) w => Function.update m w.1 (some w.2))
      (fun _ => none) (validSettings.map fun s => (s.key, val s)) :=
    Except.ok.inj (h.symm.trans (foldlM_update_ok hval _))
  have hlast (key : List Char) :
      smap key = lastWrite (· = key) (validSettings.map fun s => (s.key, val s)) := by
    rw [hsmap]
    exact after_update _ key
  constructor
  · intro key
    rw [hlast, isSome_lastWrite_iff]
    simp
  · rintro front s back rfl hback
    refine ⟨val s, ?_, hval s (by simp)⟩
    have hafter : ∀ w ∈ back.map fun s => (s.key, val s), ¬w.1 = s.key := by
      intro w hw
      obtain ⟨s', hs', rfl⟩ := List.mem_map.mp hw
      exact hback s' hs'
    rw [hlast, List.map_append, List.map_cons]
    exact lastWrite_of_last (P := (· = s.key)) rfl hafter

theorem exists_storeSettings_iff : (∃ smap, storeSettings kvmap validSettings = .ok smap) ↔
    ∀ s ∈ validSettings, ∃ v, chosen kvmap s = .ok v := by
  constructor
  · rintro ⟨smap, h⟩
    exact exists_ok_of_foldlM_update h
  · intro h
    choose! val hval using h
    exact ⟨_, foldlM_update_ok hval _⟩

/-- **Settings.** `parse_conf` ends. It returns what it is to return if and only if each value that
is accepted as a number and belongs to a declared key fits in an `int` when it is read as a decimal
number and, for a number, is the validated one then. -/
theorem parseConf_loads_iff (f : List Char) (hdef : ∀ s ∈ validSettings, s.def.index = s.type) :
    ∃ r, (∀ fuel > f.length, parseConf fuel f validSettings = some r) ∧
      ((∃ smap, r = .ok smap ∧ Loaded f validSettings smap) ↔
        ∀ front s back str, validSettings = front ++ s :: back → valueOf f s.key = some str →
          isInt str = true → FitsInt (strtol str 10).value ∧
            (s.type = .number → (∀ s' ∈ back, s'.key ≠ s.key) →
              .int (strtol str 10).value = validated str s.def)) := by
  refine ⟨_, parseConf_eq f validSettings, ?_, ?_⟩
  · rintro ⟨smap, hr, hloaded⟩ front s back str hs hstr hint
    have hmem : s ∈ validSettings := by rw [hs]; simp
    refine ⟨?_, fun htype hback => ?_⟩
    · exact exists_chosen_iff.mp (exists_storeSettings_iff.mp ⟨smap, hr⟩ s hmem) str hstr hint
    · obtain ⟨v, hv, hchosen⟩ := (storeSettings_spec hr).2 front s back hs hback
      obtain ⟨v', hv', -, hvalid⟩ := hloaded.values front s back hs hback
      obtain rfl : v = v' := Option.some.inj (hv.symm.trans hv')
      rw [← hvalid htype str hstr hint]
      exact (chosen_number hstr hint htype hchosen).symm
  · intro h
    have hall : ∀ s ∈ validSettings, ∃ v, chosen (valueOf f) s = .ok v := by
      intro s hs
      obtain ⟨front, back, hsplit, -⟩ := List.eq_append_cons_of_mem hs
      exact exists_chosen_iff.mpr fun str hstr hint => (h front s back str hsplit hstr hint).1
    obtain ⟨smap, hsmap⟩ := exists_storeSettings_iff.mpr hall
    obtain ⟨hkeys, hvalues⟩ := storeSettings_spec hsmap
    refine ⟨smap, hsmap, hkeys, fun front s back hs hback => ?_⟩
    obtain ⟨v, hv, hchosen⟩ := hvalues front s back hs hback
    have hmem : s ∈ validSettings := by rw [hs]; simp
    refine ⟨v, hv, chosen_index (hdef s hmem) hchosen, fun htype str hstr hint => ?_⟩
    rw [chosen_number hstr hint htype hchosen]
    exact (h front s back str hs hstr hint).2 htype hback

/-- `foo` of the documentation of `util/settings.hpp`. -/
def foo : ValidSetting := ⟨"foo".toList, .number, .int 0⟩

theorem parseConf_loads_decimal :
    (∀ s ∈ [foo], s.def.index = s.type) ∧
      ∃ r, parseConf 8 "foo=12\n".toList [foo] = some r ∧
        ∃ smap, r = .ok smap ∧ Loaded "foo=12\n".toList [foo] smap := by
  have hdef : ∀ s ∈ [foo], s.def.index = s.type := by decide
  have hvalue : valueOf "foo=12\n".toList foo.key = some "12".toList := by decide
  obtain ⟨r, hrun, hiff⟩ := parseConf_loads_iff "foo=12\n".toList hdef
  refine ⟨hdef, r, hrun 8 (by decide), hiff.mpr ?_⟩
  intro front s back str hs hstr hint
  obtain rfl : s = foo := by
    have hmem : s ∈ [foo] := by rw [hs]; simp
    exact List.mem_singleton.mp hmem
  obtain rfl : "12".toList = str := Option.some.inj (hvalue.symm.trans hstr)
  have hfits : FitsInt (strtol "12".toList 10).value := by decide
  exact ⟨hfits, fun _ _ => (validated_of_head (by decide) hfits _).symm⟩

/-- A hexadecimal number is stored as zero. -/
theorem not_parseConf_loads_hex :
    ∃ r, parseConf 10 "foo=0x10\n".toList [foo] = some r ∧
      ¬∃ smap, r = .ok smap ∧ Loaded "foo=0x10\n".toList [foo] smap := by
  refine ⟨_, rfl, ?_⟩
  rintro ⟨smap, hr, hloaded⟩
  have hvalue : valueOf "foo=0x10\n".toList foo.key = some "0x10".toList := by decide
  obtain ⟨v, hv, -, hvalid⟩ := hloaded.values [] foo [] rfl (by simp)
  have hzero : smap foo.key = some (.int 0) := by
    cases hr
    decide
  rw [hvalid rfl _ hvalue (by decide), hzero] at hv
  exact absurd hv (by decide)

end Table

end Yanesemu.Util
