import Yanesemu.Lib.Run
import Yanesemu.PpuSpec

/-!
# Where the beam is

The two counters of the PPU follow one number, the count `n` of dots since power or reset:
`beam n` is the value of `cycles`, and the other counter and the frame flag are functions of it
(`OnBeam`). Every dot moves `n` by one (`OnBeam.tick`), no register access moves it, so the
whole timing of the PPU, vertical blanks included, is arithmetic on `n`.
-/

namespace Yanesemu.Ppu

open Interaction EventRun

/-! ### Calls -/

/-- The calls the rest of the emulator makes. -/
inductive Call
  | run
  | readreg (which : Uint16)
  | writereg (which : Uint16) (data : Uint8)
  | readregNoSideeff (which : Uint16)
  deriving DecidableEq, Repr

def call : Call → PpuM Unit
  | .run => run
  | .readreg which => do let _ ← readreg which
  | .writereg which data => writereg which data
  | .readregNoSideeff which => do let _ ← readregNoSideeff which

/-- `PPU::power()` or `PPU::reset()`. -/
inductive Start
  | power
  | reset

def start : Start → PpuM Unit
  | .power => power
  | .reset => reset

/-- One call. -/
def step {σ : Type} (H : Handler ppuSig σ) (s : Sys Ppu σ) (c : Call) : Sys Ppu σ :=
  post H (call c) s

section Call

variable {σ : Type} (H : Handler ppuSig σ) (s : Sys Ppu σ) (which : Uint16)

@[simp] theorem step_run : step H s .run = post H run s := rfl

@[simp] theorem step_writereg (data : Uint8) :
    step H s (.writereg which data) = post H (writereg which data) s := rfl

@[simp] theorem step_readreg : step H s (.readreg which) = post H (readreg which) s :=
  post_bind H s (readreg which) fun _ => pure ()

@[simp] theorem step_readregNoSideeff :
    step H s (.readregNoSideeff which) = post H (readregNoSideeff which) s :=
  post_bind H s (readregNoSideeff which) fun _ => pure ()

@[simp] theorem asked_readreg :
    asked H (call (.readreg which)) s = asked H (readreg which) s := by
  unfold call; rw [asked_bind, asked_pure, List.append_nil]

@[simp] theorem asked_readregNoSideeff :
    asked H (call (.readregNoSideeff which)) s = asked H (readregNoSideeff which) s := by
  unfold call; rw [asked_bind, asked_pure, List.append_nil]

end Call

/-- The number of dots among the calls. -/
def dots (cs : List Call) : ℕ := cs.count .run

@[simp] theorem dots_nil : dots [] = 0 := rfl

theorem dots_concat (cs : List Call) (c : Call) :
    dots (cs ++ [c]) = dots cs + if c = .run then 1 else 0 := by
  unfold dots
  rw [List.count_append, List.count_singleton]
  simp

/-! ### The beam -/

/-- The dots of two frames, an even and a shortened odd one. -/
def period : ℕ := 178683

/-- The value of `cycles` after `n` dots. Zero is passed only once: the counters restart in the
middle of a dot, before they are incremented. -/
def beam (n : ℕ) : ℕ := if n = 0 then 0 else (n - 1) % period + 1

theorem beam_lt (n : ℕ) : beam n < 2 * 262 * 341 := by
  unfold beam period; split <;> omega

theorem beam_succ (n : ℕ) : beam (n + 1) = if beam n = period then 1 else beam n + 1 := by
  unfold beam period
  split_ifs <;> omega

/-- The counters are those of a beam after `n` dots. -/
structure OnBeam (n : ℕ) (p : Ppu) : Prop where
  cycles : p.cycles.toNat = beam n
  lines : p.lines.toNat = beam n / 341
  oddFrame : p.oddFrame = decide (262 * 341 ≤ beam n)

theorem OnBeam.position {n : ℕ} {p : Ppu} (h : OnBeam n p) :
    p.line * 341 + p.dot = beam n % 89342 := by
  have := beam_lt n
  unfold line dot
  rw [h.cycles, h.lines]
  omega

theorem OnBeam.atFrameEnd_iff {n : ℕ} {p : Ppu} (h : OnBeam n p) :
    p.AtFrameEnd ↔ beam n = 89341 ∨ beam n = period := by
  have := beam_lt n
  unfold AtFrameEnd line dot period
  rw [h.cycles, h.lines]
  omega

theorem OnBeam.atVblankBegin_iff {n : ℕ} {p : Ppu} (h : OnBeam n p) :
    p.AtVblankBegin ↔ beam n = 82182 ∨ beam n = 171524 := by
  have := beam_lt n
  unfold AtVblankBegin line dot
  rw [h.cycles, h.lines]
  omega

/-- The counters restart exactly at the end of the second frame. -/
theorem OnBeam.skip_iff {n : ℕ} {p : Ppu} (h : OnBeam n p) :
    (p.AtFrameEnd ∧ p.oddFrame = true) ↔ beam n = period := by
  rw [h.atFrameEnd_iff, h.oddFrame, decide_eq_true_eq]
  unfold period
  omega

theorem toNat_succ_of_lt {x : Uint64} (h : x.toNat < 2 * 262 * 341) :
    (x + 1).toNat = x.toNat + 1 := by
  rw [BitVec.toNat_add]
  show (x.toNat + 1) % 2 ^ 64 = x.toNat + 1
  omega

/-- **A dot moves the beam by one.** -/
theorem OnBeam.tick {n : ℕ} {p : Ppu} (h : OnBeam n p) : OnBeam (n + 1) p.tick := by
  have hlt := beam_lt n
  have hcyc := h.cycles
  have hlin := h.lines
  by_cases hskip : beam n = period
  · have hs : p.AtFrameEnd ∧ p.oddFrame = true := h.skip_iff.mpr hskip
    have hb : beam (n + 1) = 1 := by rw [beam_succ, if_pos hskip]
    have hd : p.dotted.cycles = 0 ∧ p.dotted.lines = 0 ∧ p.dotted.oddFrame = false := by
      unfold dotted
      rw [if_pos hs, if_pos hs, if_pos hs.1, hs.2]
      exact ⟨rfl, rfl, rfl⟩
    unfold Ppu.tick
    rw [hd.1, hd.2.1]
    exact ⟨by rw [hb]; rfl, by rw [hb]; rfl, by rw [hb]; exact hd.2.2⟩
  · have hs : ¬(p.AtFrameEnd ∧ p.oddFrame = true) := fun hs => hskip (h.skip_iff.mp hs)
    have hb : beam (n + 1) = beam n + 1 := by rw [beam_succ, if_neg hskip]
    have hd : p.dotted.cycles = p.cycles ∧ p.dotted.lines = p.lines := by
      unfold dotted
      rw [if_neg hs, if_neg hs]
      exact ⟨rfl, rfl⟩
    have hc : (p.cycles + 1).toNat = beam n + 1 := by
      rw [toNat_succ_of_lt (by omega), hcyc]
    unfold Ppu.tick
    rw [hd.1, hd.2]
    refine ⟨by rw [hb]; exact hc, ?_, ?_⟩
    · show (p.lines + if (p.cycles + 1).toNat % 341 = 0 then 1 else 0).toNat = _
      rw [hb, hc]
      split
      · rw [toNat_succ_of_lt (by omega), hlin]; omega
      · show (p.lines + 0#64).toNat = _
        rw [BitVec.add_zero, hlin]; omega
    · show (if p.AtFrameEnd then !p.oddFrame else p.oddFrame) = _
      have hodd := h.oddFrame
      rw [hb]
      by_cases hf : p.AtFrameEnd
      · have hne : ¬p.oddFrame = true := fun ho => hs ⟨hf, ho⟩
        have hpos := h.atFrameEnd_iff.mp hf
        rw [if_pos hf, Bool.eq_false_of_not_eq_true hne, eq_comm, Bool.not_false,
          decide_eq_true_eq]
        omega
      · have hpos : ¬(beam n = 89341 ∨ beam n = period) := fun h' => hf (h.atFrameEnd_iff.mpr h')
        rw [if_neg hf, hodd, decide_eq_decide]
        omega

theorem OnBeam.of_drawn {n : ℕ} {p p' : Ppu} (h : OnBeam n p) (hd : Drawn p p') :
    OnBeam n p' := by
  obtain ⟨a, t, sh, rfl⟩ := hd.exists
  exact ⟨h.cycles, h.lines, h.oddFrame⟩

theorem OnBeam.of_accessed {n : ℕ} {p p' : Ppu} (h : OnBeam n p) (ha : Accessed p p') :
    OnBeam n p' := by
  rw [ha]
  exact ⟨h.cycles, h.lines, h.oddFrame⟩

variable {σ : Type} (H : Handler ppuSig σ)

theorem onBeam_start (b : Start) (s : Sys Ppu σ) : OnBeam 0 (post H (start b) s).chip := by
  cases b <;> exact ⟨rfl, rfl, rfl⟩

/-- A call moves the beam by one if it is a dot, and not at all otherwise. -/
theorem OnBeam.step {n : ℕ} {s : Sys Ppu σ} (h : OnBeam n s.chip) (c : Call) :
    OnBeam (n + if c = .run then 1 else 0) (step H s c).chip := by
  cases c with
  | run => exact h.tick.of_drawn (wp_post (wp_run s.chip) H).1
  | readreg w =>
    rw [step_readreg]
    exact h.of_accessed (wp_post (wp_readreg w s.chip) H).1.accessed
  | writereg w d => exact h.of_accessed (wp_post (wp_writereg w d s.chip) H).1.accessed
  | readregNoSideeff w =>
    rw [step_readregNoSideeff, (wp_post (wp_readregNoSideeff w s.chip) H).1]
    exact h

/-- After any calls the beam has moved by the dots among them. -/
theorem onBeam_after (b : Start) (s : Sys Ppu σ) (cs : List Call) :
    OnBeam (dots cs) (after (step H) (post H (start b) s) cs).chip := by
  induction cs using List.reverseRecOn with
  | nil => exact onBeam_start H b s
  | append_singleton cs c ih =>
    rw [after_concat, dots_concat]
    exact ih.step H c

/-! ### Vertical blanks -/

/-- `vblank_begin` is executed once on its dot and never elsewhere. It is what calls the NMI
callback. -/
theorem count_nmiCallback_run (s : Sys Ppu σ) :
    (asked H run s).count .nmiCallback = if s.chip.AtVblankBegin then 1 else 0 := by
  split
  · rename_i h
    have hasked : asked H run s = [.assert true, .nmiCallback] := by
      simp [run, lcycle, h.1, h.2]
    rw [hasked]
    rfl
  · rename_i h
    apply List.count_eq_zero.mpr
    intro hmem
    rcases (wp_post (wp_run s.chip) H).2 _ hmem with hd | ⟨hv, -⟩
    · exact hd
    · exact h hv

/-- A call other than `run` asks for what a register access does. -/
theorem regOp_of_asked {s : Sys Ppu σ} {c : Call} (hc : c ≠ .run) {o : PpuOp}
    (ho : o ∈ asked H (call c) s) : ∃ which, RegOp which s.chip o := by
  cases c with
  | run => exact absurd rfl hc
  | readreg w =>
    rw [asked_readreg] at ho
    exact ⟨w, (wp_post (wp_readreg w s.chip) H).2 o ho⟩
  | writereg w d => exact ⟨w, (wp_post (wp_writereg w d s.chip) H).2 o ho⟩
  | readregNoSideeff w =>
    rw [asked_readregNoSideeff] at ho
    exact ⟨w, (wp_post (wp_readregNoSideeff w s.chip) H).2 o ho⟩

theorem count_nmiCallback (s : Sys Ppu σ) (c : Call) :
    (asked H (call c) s).count .nmiCallback =
      if c = .run ∧ s.chip.AtVblankBegin then 1 else 0 := by
  by_cases hc : c = .run
  · subst hc
    rw [show asked H (call .run) s = asked H run s from rfl, count_nmiCallback_run]
    simp
  · rw [if_neg fun h => hc h.1]
    apply List.count_eq_zero.mpr
    intro hmem
    obtain ⟨which, -, h | ⟨d, h⟩⟩ := regOp_of_asked H hc hmem
    · cases h
    · cases h

theorem nmiCallback_mem_iff {s : Sys Ppu σ} {c : Call} :
    .nmiCallback ∈ asked H (call c) s ↔ c = .run ∧ s.chip.AtVblankBegin := by
  rw [← List.count_pos_iff, count_nmiCallback]
  split
  · rename_i h
    exact ⟨fun _ => h, fun _ => Nat.one_pos⟩
  · rename_i h
    exact ⟨fun h0 => absurd h0 (Nat.lt_irrefl 0), fun h' => absurd h' h⟩

/-- For each execution of `vblank_begin`, the number of dots before it, counted from `n`. -/
def vblankDots : Sys Ppu σ → ℕ → List Call → List ℕ
  | _, _, [] => []
  | s, n, c :: cs =>
    List.replicate ((asked H (call c) s).count .nmiCallback) n ++
      vblankDots (step H s c) (n + if c = .run then 1 else 0) cs

/-- The beam is where the vertical blank begins. -/
def BeamVblank (n : ℕ) : Prop := beam n = 82182 ∨ beam n = 171524

instance : DecidablePred BeamVblank := fun _ => inferInstanceAs (Decidable (_ ∨ _))

theorem vblankDots_eq_filter {s : Sys Ppu σ} {n : ℕ} (h : OnBeam n s.chip) (cs : List Call) :
    vblankDots H s n cs = (List.range' n (dots cs)).filter (decide <| BeamVblank ·) := by
  induction cs generalizing s n with
  | nil => rfl
  | cons c cs ih =>
    have hv : s.chip.AtVblankBegin ↔ BeamVblank n := h.atVblankBegin_iff
    unfold vblankDots
    rw [ih (h.step H c), count_nmiCallback]
    by_cases hc : c = .run
    · have hdots : dots (c :: cs) = dots cs + 1 := by
        rw [hc]; exact List.count_cons_self
      rw [hdots, List.range'_succ, List.filter_cons, if_pos hc]
      by_cases hb : BeamVblank n
      · rw [if_pos ⟨hc, hv.mpr hb⟩, if_pos (decide_eq_true hb)]
        rfl
      · rw [if_neg (fun h => hb (hv.mp h.2)), if_neg (by simpa using hb)]
        rfl
    · have hdots : dots (c :: cs) = dots cs := List.count_cons_of_ne hc
      rw [hdots, if_neg hc, if_neg (fun h => hc h.1)]
      rfl

/-- The number of dots before the vertical blank number `k`. -/
def vblankDot (k : ℕ) : ℕ := 82182 + k / 2 * period + k % 2 * 89342

/-- The vertical blanks among the first `n` dots. -/
def vblankCount (n : ℕ) : ℕ :=
  2 * (n / period) + (if 82182 < n % period then 1 else 0) + if 171524 < n % period then 1 else 0

theorem beamVblank_iff (n : ℕ) :
    BeamVblank n ↔ n % period = 82182 ∨ n % period = 171524 := by
  unfold BeamVblank beam period
  split <;> omega

theorem vblankCount_succ_of_beam {n : ℕ} (h : BeamVblank n) :
    vblankCount (n + 1) = vblankCount n + 1 ∧ vblankDot (vblankCount n) = n := by
  rw [beamVblank_iff] at h
  unfold vblankDot vblankCount period at *
  split_ifs <;> omega

theorem vblankCount_succ_of_not_beam {n : ℕ} (h : ¬BeamVblank n) :
    vblankCount (n + 1) = vblankCount n := by
  rw [beamVblank_iff] at h
  unfold vblankCount period at *
  split_ifs <;> omega

theorem filter_beamVblank (n : ℕ) :
    (List.range' 0 n).filter (decide <| BeamVblank ·) =
      (List.range (vblankCount n)).map vblankDot := by
  induction n with
  | zero => rfl
  | succ n ih =>
    rw [List.range'_1_concat, List.filter_append, ih, Nat.zero_add]
    by_cases h : BeamVblank n
    · obtain ⟨hc, hd⟩ := vblankCount_succ_of_beam h
      rw [hc, List.range_succ, List.map_append]
      simp [h, hd]
    · rw [vblankCount_succ_of_not_beam h]
      simp [h]

/-- From power or reset the vertical blanks come on the dots `vblankDot 0`, `vblankDot 1`, … -/
theorem vblankDots_eq (b : Start) (s : Sys Ppu σ) (cs : List Call) :
    vblankDots H (post H (start b) s) 0 cs =
      (List.range (vblankCount (dots cs))).map vblankDot := by
  rw [vblankDots_eq_filter H (onBeam_start H b s) cs, filter_beamVblank]

/-- The differences of consecutive elements. -/
def gaps (l : List ℕ) : List ℕ := List.zipWith (fun a b => b - a) l l.tail

theorem gaps_map_vblankDot (n : ℕ) :
    gaps ((List.range n).map vblankDot) =
      (List.range (n - 1)).map fun k => if k % 2 = 0 then 89342 else 89341 := by
  apply List.ext_getElem
  · simp [gaps]
  · intro k h1 h2
    simp only [gaps, List.getElem_zipWith, List.getElem_map, List.getElem_tail,
      List.getElem_range, vblankDot, period]
    split <;> omega

/-! ### Assertions -/

/-- Every assertion a call reaches holds. -/
theorem assert_holds (s : Sys Ppu σ) (c : Call) {holds : Bool}
    (h : .assert holds ∈ asked H (call c) s) : holds = true := by
  by_cases hc : c = .run
  · subst hc
    rcases (wp_post (wp_run s.chip) H).2 _ h with hd | ⟨-, he⟩
    · exact hd
    · cases he
  · obtain ⟨which, -, he | ⟨d, he⟩⟩ := regOp_of_asked H hc h
    · cases he
    · cases he

/-- **Timing.** From power or reset, whatever is called: the line is that of the cycle, neither
counter wraps, the frame flag tells the second frame, every assertion reached holds, and the
vertical blanks are alternately 89342 and 89341 dots apart. -/
theorem timing (b : Start) (s : Sys Ppu σ) (cs : List Call) :
    let p := (after (step H) (post H (start b) s) cs).chip
    p.lines.toNat = p.cycles.toNat / 341 ∧
    p.cycles.toNat < 2 * 262 * 341 ∧
    (p.oddFrame = true ↔ 262 * 341 ≤ p.cycles.toNat) ∧
    (∀ m ∈ moments (step H) (post H (start b) s) cs,
      ∀ holds, .assert holds ∈ asked H (call m.2) m.1 → holds = true) ∧
    gaps (vblankDots H (post H (start b) s) 0 cs) =
      (List.range (vblankCount (dots cs) - 1)).map fun k =>
        if k % 2 = 0 then 89342 else 89341 := by
  intro p
  have h : OnBeam (dots cs) p := onBeam_after H b s cs
  refine ⟨?_, ?_, ?_, fun m _ holds => assert_holds H m.1 m.2, ?_⟩
  · rw [h.lines, h.cycles]
  · rw [h.cycles]; exact beam_lt _
  · rw [h.oddFrame, h.cycles, decide_eq_true_eq]
  · rw [vblankDots_eq, gaps_map_vblankDot]

end Yanesemu.Ppu
