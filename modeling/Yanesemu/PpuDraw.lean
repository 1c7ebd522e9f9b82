import Yanesemu.Canvas
import Yanesemu.PpuRegisters

/-!
# Which pixels are drawn

A dot draws at most one pixel, and which one is a function of the beam (`pixels_run`): the dots 4
to 255 of the visible lines draw at their own coordinates, no other dot draws at all. So a frame
draws each of these pixels once (`frame_pixels`), the columns 0 to 3 are never drawn, and no pixel
violates an assertion of the canvas (`drawing_safe`).
-/

namespace Yanesemu.Ppu

open Interaction EventRun

variable {σ : Type} (H : Handler ppuSig σ)

/-! ### The pixels of a dot -/

/-- The coordinates of the `drawpixel` calls among the operations. -/
def pixels (ops : List PpuOp) : List (ℕ × ℕ) :=
  ops.filterMap fun
    | .drawpixel x y _ => some (x, y)
    | _ => none

theorem pixels_append (ops ops' : List PpuOp) :
    pixels (ops ++ ops') = pixels ops ++ pixels ops' := List.filterMap_append

theorem mem_pixels {ops : List PpuOp} {x y : ℕ} :
    (x, y) ∈ pixels ops ↔ ∃ color, .drawpixel x y color ∈ ops := by
  unfold pixels
  rw [List.mem_filterMap]
  constructor
  · rintro ⟨o, ho, h⟩
    cases o <;> cases h
    exact ⟨_, ho⟩
  · rintro ⟨color, ho⟩
    exact ⟨_, ho, rfl⟩

/-- Not a pixel. -/
def NoPixel : PpuOp → Prop
  | .drawpixel .. => False
  | _ => True

/-- `m` draws no pixel. -/
def Quiet {α : Type} (m : PpuM α) : Prop := Keeps NoPixel (fun _ _ => True) m

theorem Quiet.pixels_eq {α : Type} {m : PpuM α} (h : Quiet m) (s : Sys Ppu σ) :
    pixels (asked H m s) = [] := by
  refine List.eq_nil_iff_forall_not_mem.mpr ?_
  rintro ⟨x, y⟩ hxy
  obtain ⟨color, ho⟩ := mem_pixels.mp hxy
  exact h.of_asked H s _ ho

section Quiet

variable {α β : Type}

theorem Quiet.pure (a : α) : Quiet (pure a : PpuM α) := Keeps.pure (fun _ => trivial) a

theorem Quiet.modify (f : Ppu → Ppu) : Quiet (modify f : PpuM PUnit) :=
  Keeps.modify fun _ => trivial

theorem Quiet.bind {m : PpuM α} {f : α → PpuM β} (hm : Quiet m) (hf : ∀ a, Quiet (f a)) :
    Quiet (m >>= f) := Keeps.bind (fun _ _ _ _ _ => trivial) hm hf

end Quiet

theorem quiet_backgroundCycle (k : ℕ) : Quiet (backgroundCycle k) :=
  (keeps_backgroundCycle k).mono (fun _ ⟨_, _, ho⟩ => ho ▸ trivial) fun _ _ _ => trivial

theorem quiet_shiftFill : Quiet shiftFill :=
  keeps_shiftFill.mono (fun _ ⟨_, ho⟩ => ho ▸ trivial) fun _ _ _ => trivial

theorem quiet_preRender (n : ℕ) : Quiet (preRender n) :=
  (keeps_preRender n).mono (fun _ ⟨_, ho⟩ => ho ▸ trivial) fun _ _ _ => trivial

/-- `output` draws at the beam. -/
theorem pixels_output (s : Sys Ppu σ) :
    pixels (asked H output s) =
      if s.chip.screen ∧ s.chip.dot ≠ 256 ∧ s.chip.line ≠ 261 then [(s.chip.dot, s.chip.line)]
      else [] := by
  have hquiet : Quiet bgOutput :=
    keeps_bgOutput.mono (fun _ ⟨_, _, ho⟩ => ho ▸ trivial) fun _ _ _ => trivial
  unfold output
  rw [asked_bind, asked_get, List.nil_append, val_get, post_get, asked_ite]
  cases hs : s.chip.screen with
  | false => simp [pixels]
  | true =>
    rw [if_neg (by simp), asked_bind, pixels_append, hquiet.pixels_eq, List.nil_append, asked_bind,
      pixels_append, asked_ite]
    by_cases hedge : s.chip.dot = 256 ∨ s.chip.line = 261
    · rw [if_pos hedge, if_neg (by tauto)]
      rfl
    · have hinside : true = true ∧ s.chip.dot ≠ 256 ∧ s.chip.line ≠ 261 :=
        ⟨rfl, not_or.mp hedge⟩
      rw [if_neg hedge, if_pos hinside]
      rfl

theorem pixels_fetchCycle (s : Sys Ppu σ) (n : ℕ) :
    pixels (asked H (fetchCycle n) s) =
      if 4 ≤ n ∧ n ≤ 256 then pixels (asked H output s) else [] := by
  have hrest : Quiet (do
      backgroundCycle (n % 8)
      (if n % 8 = 1 ∧ n ≠ 1 then shiftFill else pure ())
      (if n % 8 ≠ 1 then shiftRun else pure ())
      (if n % 8 = 0 ∧ n ≠ 256 then incVHorzpos else pure ())
      (if n = 256 then incVVertpos else pure ())) := by
    refine Quiet.bind (quiet_backgroundCycle _) fun _ => ?_
    refine Quiet.bind (Keeps.ite quiet_shiftFill (Quiet.pure ())) fun _ => ?_
    refine Quiet.bind (Keeps.ite (Quiet.modify _) (Quiet.pure ())) fun _ => ?_
    refine Quiet.bind (Keeps.ite (Quiet.modify _) (Quiet.pure ())) fun _ => ?_
    exact Keeps.ite (Quiet.modify _) (Quiet.pure ())
  unfold fetchCycle
  rw [asked_bind, pixels_append, hrest.pixels_eq, List.append_nil, asked_ite]
  split <;> rfl

/-- The dots that draw, of the lines that fetch tiles. -/
theorem pixels_cycletab (s : Sys Ppu σ) :
    pixels (asked H (cycletab s.chip.dot) s) =
      if s.chip.screen ∧ s.chip.line ≠ 261 ∧ 4 ≤ s.chip.dot ∧ s.chip.dot < 256 then
        [(s.chip.dot, s.chip.line)]
      else [] := by
  have hcopy : Quiet (if s.chip.dot = 257 then copyVHorzpos else pure ()) :=
    Keeps.ite (Quiet.modify _) (Quiet.pure ())
  have hout : pixels (asked H (cycletab s.chip.dot) s) =
      if 4 ≤ s.chip.dot ∧ s.chip.dot ≤ 256 then pixels (asked H output s) else [] := by
    unfold cycletab ccycle
    rw [asked_ite, asked_bind, asked_ite]
    split
    · rw [if_neg (by omega)]
      rfl
    · rw [pixels_append, hcopy.pixels_eq, List.append_nil]
      by_cases hf : Fetching s.chip.dot
      · rw [if_pos hf, pixels_fetchCycle]
      · have hn : ¬(4 ≤ s.chip.dot ∧ s.chip.dot ≤ 256) := fun h => hf (Or.inl (by omega))
        rw [if_neg hf, if_neg hn]
        rfl
  rw [hout, pixels_output, ← ite_and]
  refine if_congr ?_ rfl rfl
  constructor
  · rintro ⟨hd, hs, hne, hl⟩
    exact ⟨hs, hl, by omega, by omega⟩
  · rintro ⟨hs, hl, hlo, hhi⟩
    exact ⟨by omega, hs, by omega, hl⟩

/-- The pixel at the position `q` of a frame, if it is one that is drawn. -/
def pixelAt (q : ℕ) : List (ℕ × ℕ) :=
  if q / 341 < 240 ∧ 4 ≤ q % 341 ∧ q % 341 < 256 then [(q % 341, q / 341)] else []

theorem pixelAt_add {line dot : ℕ} (hdot : dot < 341) :
    pixelAt (line * 341 + dot) =
      if line < 240 ∧ 4 ≤ dot ∧ dot < 256 then [(dot, line)] else [] := by
  have hdiv : (line * 341 + dot) / 341 = line := by omega
  have hmod : (line * 341 + dot) % 341 = dot := by omega
  unfold pixelAt
  rw [hdiv, hmod]

/-- **Pixels of a dot.** -/
theorem pixels_run (s : Sys Ppu σ) :
    pixels (asked H run s) =
      if s.chip.screen then pixelAt (s.chip.line * 341 + s.chip.dot) else [] := by
  have hdot := s.chip.dot_le
  have hrun : asked H run s = asked H (lcycle s.chip.line s.chip.dot) s := by
    simp [run]
  rw [hrun, pixelAt_add (by omega)]
  unfold lcycle
  rw [asked_bind, pixels_append, asked_assert]
  generalize ht : post H (assert (decide (s.chip.dot ≤ 340))) s = t
  have hchip : t.chip = s.chip := by rw [← ht]; rfl
  have htab := pixels_cycletab H t
  rw [hchip] at htab
  show pixels (asked H _ t) = _
  by_cases h240 : s.chip.line < 240
  · rw [if_pos h240, htab, ← ite_and]
    refine if_congr ?_ rfl rfl
    constructor
    · rintro ⟨hs, -, hd⟩
      exact ⟨hs, h240, hd⟩
    · rintro ⟨hs, -, hd⟩
      exact ⟨hs, by omega, hd⟩
  · have hoff : ¬(s.chip.line < 240 ∧ 4 ≤ s.chip.dot ∧ s.chip.dot < 256) := fun h => h240 h.1
    rw [if_neg h240, if_neg hoff, ite_self]
    split
    · split <;> rfl
    · split
      · rename_i h261
        rw [asked_bind, pixels_append, (quiet_preRender _).pixels_eq, htab, List.append_nil,
          if_neg fun h => h.2.1 h261]
      · rfl

/-! ### The pixels of a frame -/

/-- The pixels drawn by the calls. -/
def drawn : Sys Ppu σ → List Call → List (ℕ × ℕ)
  | _, [] => []
  | s, c :: cs => pixels (asked H (call c) s) ++ drawn (step H s c) cs

theorem screen_step (s : Sys Ppu σ) (c : Call) : (step H s c).chip.screen = s.chip.screen := by
  cases c with
  | run =>
    have hdrawn : Drawn s.chip.tick (post H run s).chip := (wp_post (wp_run s.chip) H).1
    rw [step_run, hdrawn]
    rfl
  | readreg w =>
    rw [step_readreg, (wp_post (wp_readreg w s.chip) H).1.accessed]
  | writereg w d => rw [step_writereg, (wp_post (wp_writereg w d s.chip) H).1.accessed]
  | readregNoSideeff w =>
    rw [step_readregNoSideeff, (wp_post (wp_readregNoSideeff w s.chip) H).1]

/-- A register access draws nothing. -/
theorem pixels_access (s : Sys Ppu σ) {c : Call} (hc : c ≠ .run) :
    pixels (asked H (call c) s) = [] := by
  refine List.eq_nil_iff_forall_not_mem.mpr ?_
  rintro ⟨x, y⟩ hxy
  obtain ⟨color, ho⟩ := mem_pixels.mp hxy
  obtain ⟨which, -, h | ⟨d, h⟩⟩ := regOp_of_asked H hc ho
  · cases h
  · cases h

/-- Within one frame the pixels are those of the positions the beam passes, in order. -/
theorem drawn_eq {s : Sys Ppu σ} (hs : s.chip.screen = true) {n : ℕ} (h : OnBeam n s.chip)
    (cs : List Call) (hcs : beam n % 89342 + dots cs ≤ 89342) :
    drawn H s cs = (List.range' (beam n % 89342) (dots cs)).flatMap pixelAt := by
  induction cs generalizing s n with
  | nil => rfl
  | cons c cs ih =>
    have hlt := beam_lt n
    have hs' := (screen_step H s c).trans hs
    unfold drawn
    by_cases hc : c = .run
    · subst hc
      have hdots : dots (.run :: cs) = dots cs + 1 := List.count_cons_self
      have hnext : beam (n + 1) % 89342 = beam n % 89342 + 1 ∨ dots cs = 0 := by
        rw [beam_succ]
        unfold period
        split <;> omega
      rw [hdots, List.range'_succ, List.flatMap_cons]
      show pixels (asked H run s) ++ _ = _
      rw [pixels_run, if_pos hs, h.position]
      congr 1
      have hstep := h.step H .run
      rw [if_pos rfl] at hstep
      rw [ih hs' hstep (by omega)]
      rcases hnext with hnext | hzero
      · rw [hnext]
      · rw [hzero]
        rfl
    · have hdots : dots (c :: cs) = dots cs := List.count_cons_of_ne hc
      have hstep := h.step H c
      rw [if_neg hc] at hstep
      rw [pixels_access H s hc, List.nil_append, hdots]
      exact ih hs' hstep (by omega)

/-- The pixels the dots draw: the columns 4 to 255 of the visible lines. -/
def Drawable (x y : ℕ) : Prop := 4 ≤ x ∧ x < 256 ∧ y < 240

instance : DecidableRel Drawable := fun _ _ => inferInstanceAs (Decidable (_ ∧ _))

theorem count_pixelAt (x y q : ℕ) :
    (pixelAt q).count (x, y) = if q = y * 341 + x ∧ Drawable x y then 1 else 0 := by
  unfold pixelAt Drawable
  by_cases hq : q / 341 < 240 ∧ 4 ≤ q % 341 ∧ q % 341 < 256
  · rw [if_pos hq, List.count_singleton]
    refine if_congr ?_ rfl rfl
    rw [beq_iff_eq, Prod.mk.injEq]
    omega
  · rw [if_neg hq, if_neg (by omega)]
    rfl

/-- Among consecutive positions each pixel is drawn once, if its own is one of them. -/
theorem count_flatMap_pixelAt (x y a m : ℕ) :
    ((List.range' a m).flatMap pixelAt).count (x, y) =
      if (a ≤ y * 341 + x ∧ y * 341 + x < a + m) ∧ Drawable x y then 1 else 0 := by
  induction m with
  | zero => rw [if_neg (by omega)]; rfl
  | succ m ih =>
    rw [List.range'_1_concat, List.flatMap_append, List.count_append, ih, List.flatMap_singleton,
      count_pixelAt]
    by_cases hd : Drawable x y
    · simp only [hd, and_true]
      split_ifs <;> omega
    · simp only [hd, and_false, if_false]

/-- The state at the start of a frame: the dot 0 of line 0, or the dot 1 if the dot 0 was
skipped. -/
def FrameStart (p : Ppu) : Prop := p.line = 0 ∧ p.dot ≤ 1

/-- The calls contain the dots of the frame. -/
def WholeFrame (p : Ppu) (cs : List Call) : Prop := dots cs = 89342 - p.dot

/-- Every pixel of the screen is drawn once and nothing else is drawn. -/
def FillsScreen (pixels : List (ℕ × ℕ)) : Prop :=
  ∀ x y, pixels.count (x, y) = if x < 256 ∧ y < 240 then 1 else 0

/-- The pixels of a frame, whatever registers are accessed in it. -/
theorem count_drawn {b : Start} {s : Sys Ppu σ} (pre : List Call) {cs : List Call}
    (hscreen : (after (step H) (post H (start b) s) pre).chip.screen = true)
    (hstart : FrameStart (after (step H) (post H (start b) s) pre).chip)
    (hframe : WholeFrame (after (step H) (post H (start b) s) pre).chip cs) (x y : ℕ) :
    (drawn H (after (step H) (post H (start b) s) pre) cs).count (x, y) =
      if Drawable x y then 1 else 0 := by
  have hbeam := onBeam_after H b s pre
  have hpos := hbeam.position
  obtain ⟨hline, hdot⟩ := hstart
  unfold WholeFrame at hframe
  rw [drawn_eq H hscreen hbeam cs (by omega), count_flatMap_pixelAt]
  refine if_congr ?_ rfl rfl
  apply and_iff_right_of_imp
  intro hd
  unfold Drawable at hd
  omega

/-- **Pixels of a frame.** A frame draws every pixel of the columns 4 to 255 once and nothing
else, so it never fills the screen. -/
theorem frame_pixels (b : Start) (s : Sys Ppu σ) (pre cs : List Call)
    (hscreen : (after (step H) (post H (start b) s) pre).chip.screen = true)
    (hstart : FrameStart (after (step H) (post H (start b) s) pre).chip)
    (hframe : WholeFrame (after (step H) (post H (start b) s) pre).chip cs) :
    (∀ x y, (drawn H (after (step H) (post H (start b) s) pre) cs).count (x, y) =
      if 4 ≤ x ∧ x < 256 ∧ y < 240 then 1 else 0) ∧
    ¬FillsScreen (drawn H (after (step H) (post H (start b) s) pre) cs) := by
  have hcount := count_drawn H pre hscreen hstart hframe
  refine ⟨hcount, ?_⟩
  intro hfills
  have hzero := (hcount 0 0).symm.trans (hfills 0 0)
  exact absurd hzero (by decide)

/-- A PPU that is powered up with a screen attached. -/
def lit : Sys Ppu Unit := ⟨{ screen := true }, ()⟩

theorem wholeFrame_replicate {n : ℕ} (hn : n = 89342) :
    WholeFrame (post zeroBus (start .power) lit).chip (List.replicate n .run) := by
  show dots (List.replicate n .run) = 89342 - 0
  rw [dots, List.count_replicate_self, hn]

/-- The first frame after power draws the pixel (4, 0) and not the one left of it. -/
theorem frame_pixels_first :
    let pixels := drawn zeroBus (post zeroBus (start .power) lit) (List.replicate 89342 .run)
    pixels.count (4, 0) = 1 ∧ pixels.count (3, 0) = 0 := by
  have hcount := (frame_pixels zeroBus .power lit [] _ rfl ⟨rfl, Nat.zero_le 1⟩
    (wholeFrame_replicate rfl)).1
  exact ⟨(hcount 4 0).trans (by decide), (hcount 3 0).trans (by decide)⟩

/-- It does not draw the pixel (0, 0). -/
theorem not_fillsScreen_first :
    ¬FillsScreen (drawn zeroBus (post zeroBus (start .power) lit) (List.replicate 89342 .run)) := by
  intro h
  have hframe := wholeFrame_replicate (n := 89342) rfl
  have hcount := count_drawn zeroBus (b := .power) (s := lit) [] rfl
    ⟨rfl, Nat.zero_le 1⟩ hframe 0 0
  exact absurd (hcount.symm.trans (h 0 0)) (by decide)

/-! ### Assertions on the way to the canvas -/

theorem drawable_of_mem {s : Sys Ppu σ} {c : Call} {x y : ℕ}
    (h : (x, y) ∈ pixels (asked H (call c) s)) : Drawable x y := by
  by_cases hc : c = .run
  · subst hc
    have hrun : pixels (asked H (call .run) s) = pixels (asked H run s) := rfl
    rw [hrun, pixels_run] at h
    split at h
    · rw [← List.count_pos_iff, count_pixelAt] at h
      split at h
      · rename_i hd
        exact hd.2
      · exact absurd h (Nat.lt_irrefl 0)
    · cases h
  · rw [pixels_access H s hc] at h
    cases h

/-- What the canvas asks of an operation: assertions hold, and pixels are accepted. -/
def SafeOp (canvas : Canvas) : PpuOp → Prop
  | .assert holds => holds = true
  | .drawpixel x y _ => canvas.Accepts (BitVec.ofNat 64 x) (BitVec.ofNat 64 y)
  | _ => True

/-- **Drawing is safe.** In every run from power or reset, whatever registers are accessed, every
assertion of the PPU holds, and on a canvas of 256 by 240 pixels every `drawpixel` call meets its
own assertion and stays in the frame buffer. -/
theorem drawing_safe (b : Start) (s : Sys Ppu σ) (cs : List Call) (mem : ℕ → Uint8) :
    ∀ m ∈ moments (step H) (post H (start b) s) cs, ∀ o ∈ asked H (call m.2) m.1,
      SafeOp (Canvas.new 256 240 mem) o := by
  intro m hm o ho
  cases o with
  | assert holds => exact assert_holds H m.1 m.2 ho
  | drawpixel x y color =>
    obtain ⟨hlo, hx, hy⟩ := drawable_of_mem H (mem_pixels.mpr ⟨color, ho⟩)
    have htx : (BitVec.ofNat 64 x).toNat = x := by
      rw [BitVec.toNat_ofNat, Nat.mod_eq_of_lt (by omega)]
    have hty : (BitVec.ofNat 64 y).toNat = y := by
      rw [BitVec.toNat_ofNat, Nat.mod_eq_of_lt (by omega)]
    refine Canvas.accepts_of_lt (w := 256) (h := 240) mem (by decide) ?_ ?_ ?_
    · rwa [htx]
    · rwa [hty]
    · rw [htx]
      omega
  | _ => trivial

/-- The first pixel of the first frame. -/
theorem drawing_safe_first : SafeOp (Canvas.new 256 240 fun _ => 0) (.drawpixel 4 0 0) := by
  have hm : (after (step zeroBus) (post zeroBus (start .power) lit) (List.replicate 4 .run), .run) ∈
      moments (step zeroBus) (post zeroBus (start .power) lit) (List.replicate 5 .run) :=
    mem_moments_iff.mpr ⟨List.replicate 4 .run, [], rfl, rfl⟩
  exact drawing_safe zeroBus .power lit (List.replicate 5 .run) _ _ hm _ (by decide)

end Yanesemu.Ppu
