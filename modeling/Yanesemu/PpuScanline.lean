import Yanesemu.PpuRegisters
import Yanesemu.ScrollPosition

/-!
# The fetch address along a line

What one dot does to the fetch address is a function of the line, the dot, the address and the
temporary address (`dotAddr`), and nothing at all happens to it while the background is off
(`run_moved`). `lineAddr` is that function along a line. Its two positions are computed dot by
dot: 31 tiles up to dot 256, the vertical increment there, the horizontal copy on dot 257 and two
more tiles at the end.

1. `scanlines`: any number of visible lines.
2. `scrollLoaded_iff`: the line before the first one.
-/

namespace Yanesemu.Ppu

open Interaction EventRun Util VramAddress

/-! ### Moving the fetch address -/

/-- `p'` has the scroll position of `p` with the address moved by `f`, if the background is
shown. -/
def Moved (f : VramAddress → VramAddress → VramAddress) (p p' : Ppu) : Prop :=
  p'.vram = { p.vram with
    addr := if p.io.bgShow then f p.vram.addr p.vram.tmp else p.vram.addr } ∧
  p'.io.bgShow = p.io.bgShow

/-- `m` moves the fetch address by `f`, whatever the environment answers. -/
def Moves (f : VramAddress → VramAddress → VramAddress) {α : Type} (m : PpuM α) : Prop :=
  Keeps (fun _ => True) (Moved f) m

/-- `m` leaves the scroll position alone. -/
abbrev Stays {α : Type} (m : PpuM α) : Prop := Moves (fun v _ => v) m

theorem moved_self (p : Ppu) : Moved (fun v _ => v) p p := ⟨by simp, rfl⟩

section Rules

variable {α β : Type} {f g : VramAddress → VramAddress → VramAddress}

theorem Stays.pure (a : α) : Stays (pure a : PpuM α) := moved_self

theorem Stays.get : Stays (get : PpuM Ppu) := moved_self

theorem Stays.ask (o : PpuOp) : Stays (ask (E := ppuSig) o) := Keeps.ask moved_self trivial

theorem Stays.modify {f : Ppu → Ppu} (hvram : ∀ p, (f p).vram = p.vram)
    (hio : ∀ p, (f p).io.bgShow = p.io.bgShow) : Stays (modify f : PpuM PUnit) :=
  Keeps.modify fun p => ⟨by rw [hvram]; simp, hio p⟩

theorem Moves.bind {m : PpuM α} {k : α → PpuM β} (hm : Moves f m) (hk : ∀ a, Moves g (k a)) :
    Moves (fun v tmp => g (f v tmp) tmp) (m >>= k) := by
  intro p
  rw [wp_bind]
  refine wp_mono (hm p) (fun _ ho => ho) ?_
  intro a q hq
  refine wp_mono (hk a q) (fun _ ho => ho) fun _ r hr => ⟨?_, hr.2.trans hq.2⟩
  rw [hr.1, hq.1, hq.2]
  cases p.io.bgShow <;> simp

theorem Moves.ite {c : Prop} [Decidable c] {m m' : PpuM α} (hm : Moves f m) (hm' : Moves g m') :
    Moves (fun v tmp => if c then f v tmp else g v tmp) (if c then m else m') := by
  split
  · exact hm
  · exact hm'

theorem Stays.ite {c : Prop} [Decidable c] {m m' : PpuM α} (hm : Stays m) (hm' : Stays m') :
    Stays (if c then m else m') := Keeps.ite hm hm'

theorem Stays.bind {m : PpuM α} {k : α → PpuM β} (hm : Stays m) (hk : ∀ a, Stays (k a)) :
    Stays (m >>= k) := Moves.bind hm hk

theorem Stays.of_keeps {P : PpuOp → Prop} {R : Ppu → Ppu → Prop} {m : PpuM α} (hm : Keeps P R m)
    (hR : ∀ p p', R p p' → p'.vram = p.vram ∧ p'.io.bgShow = p.io.bgShow) : Stays m := by
  refine hm.mono (fun _ _ => trivial) ?_
  intro p p' h
  obtain ⟨hvram, hshow⟩ := hR p p' h
  exact ⟨by rw [hvram]; simp, hshow⟩

theorem Moves.congr {m : PpuM α} (hm : Moves f m) (h : ∀ v tmp, f v tmp = g v tmp) :
    Moves g m := by
  rwa [show g = f from funext fun v => funext fun tmp => (h v tmp).symm]

theorem moves_of_shown {f : VramAddress → VramAddress → VramAddress} {g : Ppu → Ppu}
    (hg : ∀ p, g p = if !p.io.bgShow then p
      else { p with vram.addr := f p.vram.addr p.vram.tmp }) :
    Moves f (modify g : PpuM PUnit) := by
  apply Keeps.modify
  intro p
  rw [hg]
  cases hb : p.io.bgShow <;> simp [Moved, hb]

end Rules

/-! ### The routines of a dot -/

theorem moves_incVHorzpos : Moves (fun v _ => incHorz v) incVHorzpos := by
  apply moves_of_shown
  intro p
  unfold incHorz
  dsimp only
  split_ifs <;> rfl

theorem moves_incVVertpos : Moves (fun v _ => incVert v) incVVertpos := by
  apply moves_of_shown
  intro p
  unfold incVert
  dsimp only
  split_ifs <;> rfl

theorem moves_copyVHorzpos : Moves copyHorz copyVHorzpos := moves_of_shown fun _ => rfl

theorem moves_copyVVertpos : Moves copyVert copyVVertpos := moves_of_shown fun _ => rfl

theorem stays_backgroundCycle (k : ℕ) : Stays (backgroundCycle k) := by
  refine Stays.of_keeps (keeps_backgroundCycle k) ?_
  rintro p _ ⟨t, rfl⟩
  exact ⟨rfl, rfl⟩

theorem stays_of_onlyShift {P : PpuOp → Prop} {m : PpuM Unit} (hm : Keeps P OnlyShift m) :
    Stays m := by
  refine Stays.of_keeps hm ?_
  rintro p _ ⟨sh, rfl⟩
  exact ⟨rfl, rfl⟩

theorem stays_output : Stays output := by
  refine Stays.of_keeps keeps_output ?_
  rintro p _ rfl
  exact ⟨rfl, rfl⟩

theorem moves_fetchCycle (n : ℕ) :
    Moves (fun v _ => if n = 256 then incVert v else if n % 8 = 0 then incHorz v else v)
      (fetchCycle n) := by
  have hstay (b : Prop) [Decidable b] {m : PpuM Unit} (hm : Stays m) :
      Stays (if b then m else pure ()) := Stays.ite hm (Stays.pure ())
  have hmoves := Moves.bind (hstay (4 ≤ n ∧ n ≤ 256) stays_output) fun _ =>
    Moves.bind (stays_backgroundCycle (n % 8)) fun _ =>
    Moves.bind (hstay (n % 8 = 1 ∧ n ≠ 1) (stays_of_onlyShift keeps_shiftFill)) fun _ =>
    Moves.bind (hstay (n % 8 ≠ 1) (stays_of_onlyShift keeps_shiftRun)) fun _ =>
    Moves.bind (Moves.ite moves_incVHorzpos (Stays.pure ()) (c := n % 8 = 0 ∧ n ≠ 256)) fun _ =>
    Moves.ite moves_incVVertpos (Stays.pure ()) (c := n = 256)
  apply hmoves.congr
  intro v tmp
  by_cases h256 : n = 256
  · rw [if_pos h256, if_pos h256, if_neg (fun h => h.2 h256)]
  · rw [if_neg h256, if_neg h256]
    exact if_congr (and_iff_left h256) rfl rfl

/-- What the table of cycles does to the fetch address. -/
def cycleAddr (n : ℕ) (v tmp : VramAddress) : VramAddress :=
  if n = 256 then incVert v
  else if n = 257 then copyHorz v tmp
  else if n % 8 = 0 ∧ Fetching n then incHorz v
  else v

theorem moves_cycletab (n : ℕ) : Moves (cycleAddr n) (cycletab n) := by
  have hmoves := Moves.bind (Moves.ite (moves_fetchCycle n) (Stays.pure ()) (c := Fetching n))
    fun _ => Moves.ite moves_copyVHorzpos (Stays.pure ()) (c := n = 257)
  have hidle : Stays (pure () : PpuM Unit) := Stays.pure ()
  refine (Moves.ite hidle hmoves (c := n = 0 ∨ (258 ≤ n ∧ n ≤ 320))).congr ?_
  intro v tmp
  unfold cycleAddr
  by_cases hidle : n = 0 ∨ (258 ≤ n ∧ n ≤ 320)
  · have hnot : ¬Fetching n := by unfold Fetching; omega
    rw [if_pos hidle, if_neg (by omega), if_neg (by omega), if_neg fun h => hnot h.2]
  rw [if_neg hidle]
  by_cases h257 : n = 257
  · have hnot : ¬Fetching n := by unfold Fetching; omega
    rw [if_pos h257, if_neg hnot, if_neg (by omega), if_pos h257]
  rw [if_neg h257, if_neg h257]
  by_cases hf : Fetching n
  · rw [if_pos hf]
    exact if_congr Iff.rfl rfl (if_congr (and_iff_left hf).symm rfl rfl)
  · have hne : n ≠ 256 := fun h => hf (Or.inl (by omega))
    rw [if_neg hf, if_neg hne, if_neg fun h => hf h.2]

/-- What a dot does to the fetch address. -/
def dotAddr (line dot : ℕ) (v tmp : VramAddress) : VramAddress :=
  if line < 240 then cycleAddr dot v tmp
  else if line = 261 then
    if 280 ≤ dot ∧ dot ≤ 304 then copyVert v tmp else cycleAddr dot v tmp
  else v

theorem stays_beginFrame : Stays beginFrame := by
  refine Stays.bind Stays.get fun p => Stays.bind (Stays.ask _) fun _ => ?_
  refine Stays.bind ?_ fun _ => Stays.modify (fun _ => rfl) fun _ => rfl
  exact Stays.ite (Stays.modify (fun _ => rfl) fun _ => rfl) (Stays.pure ())

theorem moves_preRender (n : ℕ) :
    Moves (fun v tmp => if 280 ≤ n ∧ n ≤ 304 then copyVert v tmp else v) (preRender n) := by
  have hend : Stays vblankEnd := Stays.modify (fun _ => rfl) fun _ => rfl
  exact Moves.bind (Stays.ite hend (Stays.pure ())) fun _ =>
    Moves.bind (Moves.ite moves_copyVVertpos (Stays.pure ())) fun _ =>
    Stays.ite stays_beginFrame (Stays.pure ())

theorem cycleAddr_idle {n : ℕ} (hn : 258 ≤ n ∧ n ≤ 320) (v tmp : VramAddress) :
    cycleAddr n v tmp = v := by
  unfold cycleAddr Fetching
  rw [if_neg (by omega), if_neg (by omega), if_neg (by omega)]

theorem moves_lcycle (line n : ℕ) : Moves (dotAddr line n) (lcycle line n) := by
  have hbegin : Stays vblankBegin :=
    Stays.bind (Stays.modify (fun _ => rfl) fun _ => rfl) fun _ => Stays.ask _
  have hmoves := Moves.bind (Stays.ask (.assert (decide (n ≤ 340)))) fun _ =>
    Moves.ite (moves_cycletab n) (c := line < 240) <|
    Moves.ite (Stays.ite hbegin (Stays.pure ()) (c := n = 1)) (c := line = 241) <|
    Moves.ite (Moves.bind (moves_cycletab n) fun _ => moves_preRender n)
      (Stays.pure ()) (c := line = 261)
  apply hmoves.congr
  intro v tmp
  unfold dotAddr
  by_cases h240 : line < 240
  · rw [if_pos h240, if_pos h240]
  rw [if_neg h240, if_neg h240]
  by_cases h261 : line = 261
  · rw [if_neg (by omega), if_pos h261, if_pos h261]
    by_cases hcopy : 280 ≤ n ∧ n ≤ 304
    · rw [if_pos hcopy, if_pos hcopy, cycleAddr_idle (by omega)]
    · rw [if_neg hcopy, if_neg hcopy]
  · rw [if_neg h261, if_neg h261, ite_self]

/-- **The fetch address after a dot.** -/
theorem run_moved {σ : Type} (H : Handler ppuSig σ) (s : Sys Ppu σ) :
    Moved (dotAddr s.chip.line s.chip.dot) s.chip (post H run s).chip := by
  have hcount : Stays (do
      modify fun p => { p with cycles := p.cycles + 1 }
      modify fun p => { p with lines := p.lines + if p.cycles.toNat % 341 = 0 then 1 else 0 } :
        PpuM Unit) :=
    Stays.bind (Stays.modify (fun _ => rfl) fun _ => rfl) fun _ =>
      Stays.modify (fun _ => rfl) fun _ => rfl
  have hmoves := Moves.bind (moves_lcycle s.chip.line s.chip.dot) fun _ => hcount
  have hrun : post H run s = post H (do
      lcycle s.chip.line s.chip.dot
      modify fun p => { p with cycles := p.cycles + 1 }
      modify fun p => { p with lines := p.lines + if p.cycles.toNat % 341 = 0 then 1 else 0 })
      s := rfl
  rw [hrun]
  exact hmoves.post H s

/-! ### The counters of the address along a line -/

/-- The fetch address after the first `j` dots of a line that starts with `v`. -/
def lineAddr (line : ℕ) (tmp v : VramAddress) : ℕ → VramAddress
  | 0 => v
  | j + 1 => dotAddr line j (lineAddr line tmp v j) tmp

theorem lineAddr_succ (line j : ℕ) (tmp v : VramAddress) :
    lineAddr line tmp v (j + 1) = dotAddr line j (lineAddr line tmp v j) tmp := rfl

theorem horz_cycleAddr (n : ℕ) (v tmp : VramAddress) :
    horz (cycleAddr n v tmp) =
      if n = 257 then horz tmp
      else if n % 8 = 0 ∧ n ≠ 256 ∧ Fetching n then (horz v + 1) % 64 else horz v := by
  unfold cycleAddr
  by_cases h256 : n = 256
  · rw [if_pos h256, if_neg (by omega), if_neg fun h => h.2.1 h256, horz_incVert]
  rw [if_neg h256]
  by_cases h257 : n = 257
  · rw [if_pos h257, if_pos h257, horz_copyHorz]
  rw [if_neg h257, if_neg h257]
  by_cases hinc : n % 8 = 0 ∧ Fetching n
  · rw [if_pos hinc, if_pos ⟨hinc.1, h256, hinc.2⟩, horz_incHorz]
  · rw [if_neg hinc, if_neg fun h => hinc ⟨h.1, h.2.2⟩]

theorem vert_cycleAddr (n : ℕ) (v tmp : VramAddress) :
    vert (cycleAddr n v tmp) = if n = 256 then (vert v).next else vert v := by
  unfold cycleAddr
  by_cases h256 : n = 256
  · rw [if_pos h256, if_pos h256, vert_incVert]
  rw [if_neg h256, if_neg h256]
  split_ifs
  · exact vert_copyHorz v tmp
  · exact vert_incHorz v
  · rfl

theorem horz_dotAddr {line : ℕ} (hline : line < 240 ∨ line = 261) (n : ℕ) (v tmp : VramAddress) :
    horz (dotAddr line n v tmp) = horz (cycleAddr n v tmp) := by
  unfold dotAddr
  by_cases h240 : line < 240
  · rw [if_pos h240]
  rw [if_neg h240, if_pos (by omega)]
  by_cases hcopy : 280 ≤ n ∧ n ≤ 304
  · rw [if_pos hcopy, horz_copyVert, cycleAddr_idle (by omega)]
  · rw [if_neg hcopy]

/-- **Horizontal position.** Up to dot 257 the position counts the tiles, from there on it is that
of the temporary address and the last two tiles. -/
theorem horz_lineAddr {line : ℕ} (hline : line < 240 ∨ line = 261) (tmp v : VramAddress) {j : ℕ}
    (hj : j ≤ 341) :
    horz (lineAddr line tmp v j) =
      if j ≤ 257 then (horz v + min ((j - 1) / 8) 31) % 64
      else (horz tmp + (if 328 < j then 1 else 0) + if 336 < j then 1 else 0) % 64 := by
  induction j with
  | zero => exact (Nat.mod_eq_of_lt (horz_lt v)).symm
  | succ j ih =>
    have htmp := horz_lt tmp
    rw [lineAddr_succ, horz_dotAddr hline, horz_cycleAddr, ih (by omega)]
    unfold Fetching
    split_ifs <;> omega

/-- Either line ends two tiles beyond the temporary address. -/
theorem horz_lineAddr_end {line : ℕ} (hline : line < 240 ∨ line = 261) (tmp v : VramAddress) :
    horz (lineAddr line tmp v 341) = (horz tmp + 2) % 64 :=
  horz_lineAddr hline tmp v (le_refl 341)

/-- On a visible line the vertical position moves once. -/
theorem vert_lineAddr {line : ℕ} (hline : line < 240) (tmp v : VramAddress) (j : ℕ) :
    vert (lineAddr line tmp v j) = if j ≤ 256 then vert v else (vert v).next := by
  induction j with
  | zero => rfl
  | succ j ih =>
    rw [lineAddr_succ, dotAddr, if_pos hline, vert_cycleAddr, ih]
    by_cases h256 : j = 256
    · rw [if_pos h256, if_pos (by omega), if_neg (by omega)]
    · rw [if_neg h256]
      exact if_congr (by omega) rfl rfl

/-- On the line before the first one it is loaded on the dots 280 to 304. -/
theorem vert_lineAddr_preRender (tmp v : VramAddress) {j : ℕ} (hj : 281 ≤ j) :
    vert (lineAddr 261 tmp v j) =
      ⟨(nt tmp).toNat / 2, (coarseX tmp).toNat, (coarseX tmp).toNat % 8⟩ := by
  induction j, hj using Nat.le_induction with
  | base => exact vert_copyVert _ tmp
  | succ j hj ih =>
    rw [lineAddr_succ, dotAddr, if_neg (by decide), if_pos rfl]
    by_cases hcopy : 280 ≤ j ∧ j ≤ 304
    · rw [if_pos hcopy, vert_copyVert]
    · rw [if_neg hcopy, vert_cycleAddr, if_neg (by omega), ih]

/-! ### Running along a line -/

/-- The counters do not wrap within `k` dots. -/
def Room (k : ℕ) (p : Ppu) : Prop := p.cycles.toNat + k < 2 ^ 64 ∧ p.lines.toNat + k < 2 ^ 64

/-- After power or reset there is always room for two frames and much more. -/
theorem OnBeam.room {n : ℕ} {p : Ppu} (h : OnBeam n p) {k : ℕ} (hk : k ≤ 2 ^ 63) : Room k p := by
  have := beam_lt n
  unfold Room
  rw [h.cycles, h.lines]
  omega

theorem toNat_succ_of_room {x : Uint64} {k : ℕ} (h : x.toNat + (k + 1) < 2 ^ 64) :
    (x + 1).toNat = x.toNat + 1 := by
  rw [BitVec.toNat_add]
  show (x.toNat + 1) % 2 ^ 64 = x.toNat + 1
  omega

/-- A dot moves the counters by one dot, unless it ends an odd frame. -/
theorem run_counters {σ : Type} (H : Handler ppuSig σ) {s : Sys Ppu σ}
    (hskip : ¬(s.chip.AtFrameEnd ∧ s.chip.oddFrame = true)) {k : ℕ} (hroom : Room (k + 1) s.chip) :
    (post H run s).chip.cycles.toNat = s.chip.cycles.toNat + 1 ∧
    (post H run s).chip.lines.toNat = s.chip.lines.toNat + if s.chip.dot = 340 then 1 else 0 := by
  have hdrawn : Drawn s.chip.tick (post H run s).chip := (wp_post (wp_run s.chip) H).1
  have hcycles : s.chip.dotted.cycles = s.chip.cycles := if_neg hskip
  have hlines : s.chip.dotted.lines = s.chip.lines := if_neg hskip
  have hsucc := toNat_succ_of_room hroom.1
  rw [hdrawn]
  show (s.chip.dotted.cycles + 1).toNat = _ ∧ (s.chip.dotted.lines + _).toNat = _
  rw [hcycles, hlines, hsucc]
  refine ⟨rfl, ?_⟩
  unfold dot
  split_ifs
  · exact toNat_succ_of_room hroom.2
  · omega
  · omega
  · exact congrArg BitVec.toNat (BitVec.add_zero _)

/-- `q` is what the first `j` dots of a line that starts in `p` lead to. -/
structure OnLine (p : Ppu) (j : ℕ) (q : Ppu) : Prop where
  cycles : q.cycles.toNat = p.cycles.toNat + j
  lines : q.lines.toNat = p.lines.toNat + j / 341
  bgShow : q.io.bgShow = p.io.bgShow
  vram : q.vram = { p.vram with
    addr := if p.io.bgShow then lineAddr p.line p.vram.tmp p.vram.addr j else p.vram.addr }

theorem OnLine.position {p q : Ppu} {j : ℕ} (h : OnLine p j q) (hdot : p.dot = 0) (hj : j ≤ 340) :
    q.line = p.line ∧ q.dot = j := by
  unfold line dot at *
  rw [h.cycles, h.lines]
  omega

variable {σ : Type} (H : Handler ppuSig σ)

/-- A dot goes on along the line. -/
theorem OnLine.run {p : Ppu} {s : Sys Ppu σ} {j : ℕ} (h : OnLine p j s.chip) (hdot : p.dot = 0)
    (hroom : Room 341 p) (hj : j ≤ 340) (hend : j = 340 → p.line ≠ 261) :
    OnLine p (j + 1) (post H run s).chip := by
  obtain ⟨hline, hdot'⟩ := h.position hdot hj
  have hskip : ¬(s.chip.AtFrameEnd ∧ s.chip.oddFrame = true) := fun hskip =>
    hend (hdot'.symm.trans hskip.1.2) (hline.symm.trans hskip.1.1)
  have hroom' : Room (340 - j + 1) s.chip := by
    obtain ⟨hc, hl⟩ := hroom
    unfold Room
    rw [h.cycles, h.lines]
    omega
  obtain ⟨hcycles, hlines⟩ := run_counters H hskip hroom'
  obtain ⟨hvram, hshow⟩ := run_moved H s
  refine ⟨?_, ?_, hshow.trans h.bgShow, ?_⟩
  · rw [hcycles, h.cycles, Nat.add_assoc]
  · rw [hlines, h.lines, hdot']
    split_ifs <;> omega
  · rw [hvram, h.bgShow, h.vram, hline, hdot']
    cases p.io.bgShow <;> rfl

/-- The dots of a line, up to the one that ends a frame. -/
theorem onLine_iterate {s : Sys Ppu σ} (hdot : s.chip.dot = 0) (hroom : Room 341 s.chip) {j : ℕ}
    (hj : j ≤ 341) (hend : j = 341 → s.chip.line ≠ 261) :
    OnLine s.chip j ((post H Ppu.run)^[j] s).chip := by
  induction j with
  | zero => exact ⟨rfl, rfl, rfl, by simp [lineAddr]⟩
  | succ j ih =>
    rw [Function.iterate_succ_apply']
    refine (ih (by omega) (by omega)).run H hdot hroom (by omega) ?_
    intro h
    exact hend (congrArg Nat.succ h)

/-! ### Visible lines -/

/-- `q` is what `n` visible lines from the start `p` of one lead to. -/
structure OverLines (p : Ppu) (n : ℕ) (q : Ppu) : Prop where
  cycles : q.cycles.toNat = p.cycles.toNat + 341 * n
  lines : q.lines.toNat = p.lines.toNat + n
  bgShow : q.io.bgShow = p.io.bgShow
  tmp : q.vram.tmp = p.vram.tmp
  horz : p.io.bgShow = true → 1 ≤ n → horz q.vram.addr = (VramAddress.horz p.vram.tmp + 2) % 64
  vert : p.io.bgShow = true → vert q.vram.addr = Vert.next^[n] (VramAddress.vert p.vram.addr)
  addr : p.io.bgShow = false → q.vram.addr = p.vram.addr

/-- One more line. -/
theorem OverLines.line {p : Ppu} {s : Sys Ppu σ} {n : ℕ} (h : OverLines p n s.chip)
    (hdot : p.dot = 0) (hline : p.line + n < 240) (hroom : Room (341 * (n + 1)) p) :
    OverLines p (n + 1) ((post H run)^[341] s).chip := by
  have hdot' : s.chip.dot = 0 := by
    unfold dot at *
    rw [h.cycles]
    omega
  have hline' : s.chip.line < 240 := by
    unfold Ppu.line at *
    rw [h.lines]
    omega
  have hroom' : Room 341 s.chip := by
    obtain ⟨hc, hl⟩ := hroom
    unfold Room
    rw [h.cycles, h.lines]
    omega
  have hend := onLine_iterate H hdot' hroom' (le_refl 341) fun _ => by omega
  refine ⟨?_, ?_, hend.bgShow.trans h.bgShow, ?_, ?_, ?_, ?_⟩
  · rw [hend.cycles, h.cycles, Nat.mul_succ, Nat.add_assoc]
  · rw [hend.lines, h.lines, Nat.add_assoc]
  · rw [hend.vram, h.tmp]
  · intro hb _
    rw [hend.vram, h.bgShow, if_pos hb, horz_lineAddr_end (Or.inl hline'), h.tmp]
  · intro hb
    rw [hend.vram, h.bgShow, if_pos hb, vert_lineAddr hline', if_neg (by decide), h.vert hb,
      Function.iterate_succ_apply']
  · intro hb
    rw [hend.vram, h.bgShow, if_neg (by simp [hb]), h.addr hb]

theorem overLines_iterate {s : Sys Ppu σ} (hdot : s.chip.dot = 0) {n : ℕ}
    (hline : s.chip.line + n ≤ 240) (hroom : Room (341 * n) s.chip) :
    OverLines s.chip n ((post H run)^[341 * n] s).chip := by
  induction n with
  | zero => exact ⟨rfl, rfl, rfl, rfl, fun _ h => absurd h (by decide), fun _ => rfl, fun _ => rfl⟩
  | succ n ih =>
    have hroom' : Room (341 * n) s.chip := ⟨by have := hroom.1; omega, by have := hroom.2; omega⟩
    have hsum : 341 * (n + 1) = 341 + 341 * n := by omega
    rw [hsum, Function.iterate_add_apply]
    exact (ih (by omega) hroom').line H hdot (by omega) hroom

/-- **Scanlines.** After `n` visible lines without a register access the fetch address is at the
horizontal position of the temporary address and two tiles, `n` rows below where it was; while the
background is off it does not move. The counters have to have room for the dots, which they have
after power or reset whatever is called. -/
theorem scanlines :
    (∀ (b : Start) (s : Sys Ppu σ) (cs : List Call),
      Room (341 * 240) (after (step H) (post H (start b) s) cs).chip) ∧
    ∀ (L n : ℕ) (s : Sys Ppu σ), 1 ≤ n → L + n ≤ 240 → s.chip.line = L → s.chip.dot = 0 →
      Room (341 * n) s.chip →
      let q := ((post H run)^[341 * n] s).chip
      (s.chip.io.bgShow = true →
        horz q.vram.addr = (horz s.chip.vram.tmp + 2) % 64 ∧
        vert q.vram.addr = Vert.next^[n] (vert s.chip.vram.addr) ∧
        q.vram.tmp = s.chip.vram.tmp) ∧
      (s.chip.io.bgShow = false → q.vram.addr = s.chip.vram.addr) := by
  refine ⟨fun b s cs => (onBeam_after H b s cs).room (by decide), ?_⟩
  rintro L n s hn hL rfl hdot hroom q
  have hq : OverLines s.chip n q := overLines_iterate H hdot hL hroom
  exact ⟨fun hb => ⟨hq.horz hb hn, hq.vert hb, hq.tmp⟩, hq.addr⟩

/-- At the start of line 0, with the fetch address in the last row of a name table and the temporary
address in the last column of one. -/
def lastRow : Sys Ppu Unit := ⟨{ io.bgShow := true, vram := { addr := 0x73A0, tmp := 0x041F } }, ()⟩

/-- Both positions go on into another name table. -/
theorem scanlines_lastRow :
    let q := ((post zeroBus run)^[341 * 1] lastRow).chip
    horz q.vram.addr = 1 ∧ vert q.vram.addr = ⟨1, 0, 0⟩ ∧ q.vram.tmp = 0x041F := by
  have hroom : Room (341 * 1) lastRow.chip := ⟨by decide, by decide⟩
  obtain ⟨hhorz, hvert, htmp⟩ :=
    ((scanlines zeroBus).2 0 1 lastRow (le_refl 1) (by decide) rfl rfl hroom).1 rfl
  exact ⟨hhorz.trans (by decide), hvert.trans (by decide), htmp⟩

/-! ### The line before the first one -/

/-- The fetch address is where the temporary address says, two tiles on. -/
def ScrollLoaded (p : Ppu) : Prop :=
  vert p.vram.addr = vert p.vram.tmp ∧ horz p.vram.addr = (horz p.vram.tmp + 2) % 64

/-- The last dot does not move the address, whether or not it ends an odd frame. -/
theorem preRender_vram {s : Sys Ppu σ} (hline : s.chip.line = 261) (hdot : s.chip.dot = 0)
    (hroom : Room 341 s.chip) (hshow : s.chip.io.bgShow = true) :
    ((post H run)^[341] s).chip.vram =
      { s.chip.vram with addr := lineAddr 261 s.chip.vram.tmp s.chip.vram.addr 341 } := by
  have hlast : (post H run)^[341] s = post H run ((post H run)^[340] s) :=
    Function.iterate_succ_apply' _ 340 s
  have hj : OnLine s.chip 340 ((post H run)^[340] s).chip :=
    onLine_iterate H hdot hroom (by decide) fun h => absurd h (by decide)
  obtain ⟨hline', hdot'⟩ := hj.position hdot (le_refl 340)
  rw [hlast, (run_moved H _).1, hj.bgShow, hshow, hline', hdot', hj.vram, hshow, hline,
    lineAddr_succ 261 340]
  simp only [if_true]

theorem onBeam_iterate {n : ℕ} {s : Sys Ppu σ} (h : OnBeam n s.chip) (k : ℕ) :
    OnBeam (n + k) ((post H run)^[k] s).chip := by
  induction k with
  | zero => exact h
  | succ k ih =>
    rw [Function.iterate_succ_apply']
    exact ih.step H .run

/-- The line leads to the start of a frame, to its dot 1 if the dot 0 is skipped. -/
theorem OnBeam.frame_start {n : ℕ} {p q : Ppu} (h : OnBeam n p) (hq : OnBeam (n + 341) q)
    (hline : p.line = 261) (hdot : p.dot = 0) :
    q.line = 0 ∧ q.dot = if p.oddFrame then 1 else 0 := by
  have hpos := h.position
  have hpos' := hq.position
  have hlt := beam_lt n
  have hdot' := q.dot_le
  have hodd : p.oddFrame = true ↔ 262 * 341 ≤ beam n := by rw [h.oddFrame, decide_eq_true_eq]
  have hbeam : beam (n + 341) % 89342 = if 262 * 341 ≤ beam n then 1 else 0 := by
    unfold beam period at *
    split_ifs at * <;> omega
  rw [if_congr hodd rfl rfl, ← hbeam]
  split_ifs at hbeam <;> omega

theorem scrollLoaded_of_vram {q : Ppu} {r : Vram}
    (hq : q.vram = { r with addr := lineAddr 261 r.tmp r.addr 341 }) :
    ScrollLoaded q ↔ (coarseY r.tmp).toNat = (coarseX r.tmp).toNat ∧
      (fineY r.tmp).toNat = (coarseX r.tmp).toNat % 8 := by
  have hvert := vert_lineAddr_preRender r.tmp r.addr (by decide : 281 ≤ 341)
  unfold ScrollLoaded
  rw [hq, horz_lineAddr_end (Or.inr rfl), hvert, VramAddress.vert, Vert.mk.injEq]
  constructor
  · rintro ⟨⟨-, hy, hfine⟩, -⟩
    exact ⟨hy.symm, hfine.symm⟩
  · rintro ⟨hy, hfine⟩
    exact ⟨⟨rfl, hy.symm, hfine.symm⟩, rfl⟩

theorem OnBeam.preRender {n : ℕ} {t : Sys Ppu σ} (h : OnBeam n t.chip) (hline : t.chip.line = 261)
    (hdot : t.chip.dot = 0) (hshow : t.chip.io.bgShow = true) {q : Ppu}
    (hq : ((post H run)^[341] t).chip = q) :
    (q.line = 0 ∧ q.dot = if t.chip.oddFrame then 1 else 0) ∧
    q.vram = { t.chip.vram with
      addr := lineAddr 261 t.chip.vram.tmp t.chip.vram.addr 341 } := by
  have hbeam := onBeam_iterate H h 341
  have hvram := preRender_vram H hline hdot (h.room (by decide)) hshow
  rw [hq] at hbeam hvram
  exact ⟨h.frame_start hbeam hline hdot, hvram⟩

/-- **Loading the scroll position.** Along the line 261 the horizontal position is loaded from the
temporary address, but its vertical one gets the `coarse_x` of the temporary address for both
`coarse_y` and `fine_y`. So the scroll position that was written is the one rendered only where
these three agree. -/
theorem scrollLoaded_iff (b : Start) (s : Sys Ppu σ) (cs : List Call) :
    let t := after (step H) (post H (start b) s) cs
    let q := ((post H run)^[341] t).chip
    t.chip.line = 261 → t.chip.dot = 0 → t.chip.io.bgShow = true →
    (q.line = 0 ∧ q.dot = if t.chip.oddFrame then 1 else 0) ∧
    q.vram.tmp = t.chip.vram.tmp ∧
    (ScrollLoaded q ↔
      (coarseY t.chip.vram.tmp).toNat = (coarseX t.chip.vram.tmp).toNat ∧
      (fineY t.chip.vram.tmp).toNat = (coarseX t.chip.vram.tmp).toNat % 8) := by
  intro t q hline hdot hshow
  obtain ⟨hstart, hvram⟩ := (onBeam_after H b s cs).preRender H hline hdot hshow (q := q) rfl
  exact ⟨hstart, by rw [hvram], scrollLoaded_of_vram hvram⟩

theorem dots_keep (s : Sys Ppu σ) (n : ℕ) :
    (after (step H) s (List.replicate n .run)).chip.io.bgShow = s.chip.io.bgShow ∧
    (after (step H) s (List.replicate n .run)).chip.vram.tmp = s.chip.vram.tmp := by
  induction n generalizing s with
  | zero => exact ⟨rfl, rfl⟩
  | succ n ih =>
    obtain ⟨hvram, hshow⟩ := run_moved H s
    obtain ⟨hshow', htmp⟩ := ih (post H run s)
    rw [List.replicate_succ, after_cons, step_run]
    exact ⟨hshow'.trans hshow, by rw [htmp, hvram]⟩

/-- The first frame gets to its last line in the state the registers were left in. -/
theorem first_preRender {b : Start} {s : Sys Ppu σ} (cs : List Call) (hcs : dots cs = 0)
    (hshow : (after (step H) (post H (start b) s) cs).chip.io.bgShow = true) {n : ℕ}
    (hn : n = 89001) :
    let t := after (step H) (post H (start b) s) (cs ++ List.replicate n .run)
    t.chip.line = 261 ∧ t.chip.dot = 0 ∧ t.chip.io.bgShow = true ∧
      t.chip.vram.tmp = (after (step H) (post H (start b) s) cs).chip.vram.tmp := by
  intro t
  have hdots : dots (cs ++ List.replicate n .run) = 89001 := by
    unfold dots at *
    rw [List.count_append, hcs, List.count_replicate_self, hn]
  have hpos := (onBeam_after H b s (cs ++ List.replicate n .run)).position
  have hdot := t.chip.dot_le
  rw [hdots] at hpos
  have hpos' : t.chip.line * 341 + t.chip.dot = 89001 := hpos
  have ht : t = after (step H) (after (step H) (post H (start b) s) cs) (List.replicate n .run) :=
    after_append _ _ _
  obtain ⟨hshow', htmp⟩ := dots_keep H (after (step H) (post H (start b) s) cs) n
  rw [← ht] at hshow' htmp
  exact ⟨by omega, by omega, hshow'.trans hshow, htmp⟩

/-- A program that shows the background and leaves the scroll position at the origin. -/
def showOrigin : List Call := [.writereg 0x2001 8]

/-- The origin is loaded. -/
theorem scrollLoaded_origin :
    ScrollLoaded ((post zeroBus run)^[341] (after (step zeroBus)
      (post zeroBus (start .power) ⟨{}, ()⟩) (showOrigin ++ List.replicate 89001 .run))).chip := by
  obtain ⟨hline, hdot, hshow, htmp⟩ :=
    first_preRender zeroBus (b := .power) (s := ⟨{}, ()⟩) showOrigin rfl rfl (n := 89001) rfl
  refine (scrollLoaded_iff zeroBus .power _ _ hline hdot hshow).2.2.mpr ?_
  rw [htmp]
  decide

/-- A program that shows the background and scrolls down by one tile. -/
def showSecondRow : List Call := [.writereg 0x2001 8, .writereg 0x2005 0, .writereg 0x2005 8]

/-- The second row is not loaded. -/
theorem not_scrollLoaded_secondRow :
    let t := after (step zeroBus) (post zeroBus (start .power) ⟨{}, ()⟩)
      (showSecondRow ++ List.replicate 89001 .run)
    t.chip.line = 261 ∧ t.chip.dot = 0 ∧ t.chip.io.bgShow = true ∧
      ¬ScrollLoaded ((post zeroBus run)^[341] t).chip := by
  obtain ⟨hline, hdot, hshow, htmp⟩ :=
    first_preRender zeroBus (b := .power) (s := ⟨{}, ()⟩) showSecondRow rfl rfl (n := 89001) rfl
  have hbeam := onBeam_after zeroBus .power ⟨{}, ()⟩ (showSecondRow ++ List.replicate 89001 .run)
  have hvram := (hbeam.preRender zeroBus hline hdot hshow rfl).2
  refine ⟨hline, hdot, hshow, ?_⟩
  intro h
  have hrows := ((scrollLoaded_of_vram hvram).mp h).1
  rw [htmp] at hrows
  exact absurd hrows (by decide)

end Yanesemu.Ppu
