import Yanesemu.PpuRegisters

/-!
# The vertical blank window

`io.vblank` is set by one dot of a frame, cleared by another and cleared by every read of
PPUSTATUS. Since power or reset has passed the end of a vertical blank, the flag tells exactly
whether a vertical blank has begun in the current frame and nothing has closed it (`vblank_iff`).

The one thing that does not follow call by call is that the flag is clear when a frame ends: a
vertical blank that is open has the beam between its two dots (`since_window`).
-/

namespace Yanesemu.Ppu

open Interaction EventRun

variable {σ : Type} (H : Handler ppuSig σ)

/-! ### The window -/

/-- The call is the dot (241, 1). -/
def VblankOpens (s : Sys Ppu σ) (c : Call) : Prop := c = .run ∧ s.chip.AtVblankBegin

/-- The call is not a read of PPUSTATUS, nor the dot (261, 1), nor the last dot of the frame. -/
def VblankStays (s : Sys Ppu σ) (c : Call) : Prop :=
  c ≠ .readreg 0x2002 ∧ (c = .run → ¬s.chip.AtVblankEnd ∧ ¬s.chip.AtFrameEnd)

theorem OnBeam.atVblankEnd_iff {n : ℕ} {p : Ppu} (h : OnBeam n p) :
    p.AtVblankEnd ↔ beam n % 89342 = 89002 := by
  have := beam_lt n
  unfold AtVblankEnd line dot
  rw [h.cycles, h.lines]
  omega

/-- While a vertical blank is open the beam is after its first and not after its last dot. -/
theorem since_window (b : Start) (s : Sys Ppu σ) (cs : List Call)
    (h : Since (step H) VblankOpens VblankStays (post H (start b) s) cs) :
    82182 < beam (dots cs) % 89342 ∧ beam (dots cs) % 89342 ≤ 89002 := by
  induction cs using List.reverseRecOn with
  | nil => exact absurd h not_since_nil
  | append_singleton cs c ih =>
    have hbeam := onBeam_after H b s cs
    have hlt := beam_lt (dots cs)
    rw [dots_concat]
    rcases since_concat.mp h with ⟨rfl, hbegin⟩ | ⟨hopen, -, hstays⟩
    · have hpos := hbeam.atVblankBegin_iff.mp hbegin
      rw [if_pos rfl, beam_succ]
      unfold period
      split <;> omega
    · have hwin := ih hopen
      by_cases hc : c = .run
      · have hpos := mt hbeam.atVblankEnd_iff.mpr (hstays hc).1
        rw [if_pos hc, beam_succ]
        unfold period
        split <;> omega
      · rwa [if_neg hc]

/-! ### The flag -/

/-- The run has passed the end of a vertical blank. -/
def VblankEnded (s : Sys Ppu σ) (cs : List Call) : Prop :=
  ∃ m ∈ moments (step H) s cs, m.2 = .run ∧ m.1.chip.AtVblankEnd

/-- **Vertical blank window.** From the first end of a vertical blank since power or reset on, the
flag is set exactly if the dot (241, 1) of the current frame has been executed, the dot (261, 1)
of that frame has not, and PPUSTATUS has not been read since. -/
theorem vblank_iff (b : Start) (s : Sys Ppu σ) (cs : List Call)
    (hend : VblankEnded H (post H (start b) s) cs) :
    (after (step H) (post H (start b) s) cs).chip.io.vblank = true ↔
      Since (step H) VblankOpens VblankStays (post H (start b) s) cs := by
  induction cs using List.reverseRecOn with
  | nil =>
    obtain ⟨m, hm, -⟩ := hend
    cases hm
  | append_singleton cs c ih =>
    have hwindow := since_window H b s cs
    have hbeam := onBeam_after H b s cs
    -- the end that was passed is an earlier one, or it is the call itself
    have hend' : VblankEnded H (post H (start b) s) cs ∨
        (c = .run ∧ (after (step H) (post H (start b) s) cs).chip.AtVblankEnd) := by
      obtain ⟨m, hm, hrun, hm'⟩ := hend
      rw [moments_concat] at hm
      rcases List.mem_append.mp hm with hm | hm
      · exact Or.inl ⟨m, hm, hrun, hm'⟩
      · obtain rfl := List.mem_singleton.mp hm
        exact Or.inr ⟨hrun, hm'⟩
    rw [after_concat, vblank_step_eq, since_concat]
    generalize after (step H) (post H (start b) s) cs = t at *
    by_cases hopens : c = .run ∧ t.chip.AtVblankBegin
    · rw [if_pos hopens]
      exact iff_of_true rfl (Or.inl hopens)
    rw [if_neg hopens]
    by_cases hcloses : c = .run ∧ t.chip.AtVblankEnd ∨ c = .readreg 0x2002
    · rw [if_pos hcloses]
      refine iff_of_false Bool.false_ne_true ?_
      rintro (h | ⟨-, hread, hrun⟩)
      · exact hopens h
      · rcases hcloses with ⟨rfl, he⟩ | rfl
        · exact (hrun rfl).1 he
        · exact hread rfl
    rw [if_neg hcloses, ih (hend'.resolve_right fun h => hcloses (Or.inl h))]
    constructor
    · intro hopen
      refine Or.inr ⟨hopen, fun h => hcloses (Or.inr h), fun hc => ⟨?_, ?_⟩⟩
      · exact fun he => hcloses (Or.inl ⟨hc, he⟩)
      · intro hf
        have hwin := hwindow hopen
        have hpos := hbeam.atFrameEnd_iff.mp hf
        unfold period at hpos
        omega
    · rintro (h | ⟨hopen, -⟩)
      · exact absurd h hopens
      · exact hopen

/-- A run of dots that reaches the dot (261, 1) passes the end of a vertical blank. -/
theorem vblankEnded_replicate (b : Start) (s : Sys Ppu σ) {n : ℕ}
    (hn : beam n % 89342 = 89002) :
    VblankEnded H (post H (start b) s) (List.replicate (n + 1) .run) := by
  have hbeam := onBeam_after H b s (List.replicate n .run)
  rw [dots, List.count_replicate_self] at hbeam
  refine ⟨(_, .run), mem_moments_iff.mpr ⟨List.replicate n .run, [], ?_, rfl⟩, rfl, ?_⟩
  · exact List.replicate_succ'
  · exact hbeam.atVblankEnd_iff.mpr hn

/-- The first vertical blank ends 89003 dots after power. -/
theorem vblank_iff_first_end :
    ∃ cs, dots cs = 89003 ∧ VblankEnded zeroBus (post zeroBus (start .power) ⟨{}, ()⟩) cs ∧
      ((after (step zeroBus) (post zeroBus (start .power) ⟨{}, ()⟩) cs).chip.io.vblank = true ↔
        Since (step zeroBus) VblankOpens VblankStays
          (post zeroBus (start .power) ⟨{}, ()⟩) cs) := by
  have hend := vblankEnded_replicate zeroBus .power ⟨{}, ()⟩ (n := 89002)
    (by norm_num [beam, period])
  exact ⟨_, List.count_replicate_self, hend, vblank_iff zeroBus .power ⟨{}, ()⟩ _ hend⟩

end Yanesemu.Ppu
