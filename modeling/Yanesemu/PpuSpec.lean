import Yanesemu.PpuMain
import Yanesemu.VramAddress

/-!
# What one dot does

Each routine of a dot asks for one kind of operation and touches one part of the PPU (the `keeps_`
lemmas). So a dot of a rendered line touches only the fetch address, the tile latches and the shift
registers (`Drawn`), and asks only for bus reads below the end of the VRAM bus, pixels and
assertions that hold (`DrawOp`). Everything else a dot can do is in the few special dots of the
lines 241 and 261; `wp_run` collects it all, and every result about whole runs of the PPU starts
from that theorem.
-/

namespace Yanesemu

open Interaction

/-! ### Sizes of addresses -/

theorem toNat_or_lt {w k : ℕ} {a b : BitVec w} (ha : a.toNat < 2 ^ k) (hb : b.toNat < 2 ^ k) :
    (a ||| b).toNat < 2 ^ k := by
  rw [BitVec.toNat_or]
  exact Nat.or_lt_two_pow ha hb

theorem toNat_shiftLeft_lt {w k n : ℕ} {a : BitVec w} (ha : a.toNat * 2 ^ n < 2 ^ k) :
    (a <<< n).toNat < 2 ^ k := by
  rw [BitVec.toNat_shiftLeft, Nat.shiftLeft_eq]
  exact (Nat.mod_le _ _).trans_lt ha

theorem toNat_ofBool_lt (w : ℕ) (b : Bool) : (ofBool w b).toNat < 2 := by
  cases b
  · simp
  · exact (Nat.mod_le 1 _).trans_lt (by decide)

namespace Ppu

open VramAddress

theorem nametableAddr_lt (v : VramAddress) : (0x2000 ||| (v &&& 0x0FFF)).toNat < 0x4000 := by
  refine toNat_or_lt (k := 14) (by decide) ?_
  rw [BitVec.toNat_and]
  exact Nat.and_le_right.trans_lt (by decide)

theorem attrAddr_lt (v : VramAddress) : (attrAddr v).toNat < 0x4000 := by
  have hnt := toNat_nt_lt v
  have hmask (x : Uint16) : (x &&& 0x1C).toNat ≤ 0x1C := by
    rw [BitVec.toNat_and]; exact Nat.and_le_right
  unfold attrAddr
  refine toNat_or_lt (k := 14) (toNat_or_lt (toNat_or_lt (by decide) ?_) ?_) ?_
  · refine toNat_shiftLeft_lt ?_
    rw [BitVec.toNat_setWidth, Nat.mod_eq_of_lt (by omega)]
    omega
  · refine toNat_shiftLeft_lt ?_
    have := hmask ((coarseY v).setWidth 16)
    omega
  · rw [BitVec.toNat_ushiftRight, Nat.shiftRight_eq_div_pow]
    have := hmask ((coarseX v).setWidth 16)
    omega

theorem patternAddr_lt (p : Ppu) {plane : Uint16} (hplane : plane.toNat < 2) :
    (patternAddr p plane).toNat < 0x4000 := by
  have hfine := toNat_fineY_lt p.vram.addr
  have htab := toNat_ofBool_lt 16 p.io.bgPtAddr
  have htile := p.tile.nt.isLt
  unfold patternAddr
  refine toNat_or_lt (k := 14) (toNat_or_lt (toNat_or_lt ?_ ?_) ?_) ?_
  · exact toNat_shiftLeft_lt (by omega)
  · refine toNat_shiftLeft_lt ?_
    rw [BitVec.toNat_setWidth, Nat.mod_eq_of_lt (by omega)]
    omega
  · exact toNat_shiftLeft_lt (by omega)
  · rw [BitVec.toNat_setWidth, Nat.mod_eq_of_lt (by omega)]
    omega

theorem colorAddr_lt (n : Uint8) : (0x3F00 + n.setWidth 16 : Uint16).toNat < 0x4000 := by
  have := n.isLt
  rw [BitVec.toNat_add, BitVec.toNat_setWidth]
  show (0x3F00 + n.toNat % 2 ^ 16) % 2 ^ 16 < 0x4000
  omega

/-! ### Operations -/

section Operations

variable {σ : Type} (H : Handler ppuSig σ) (s : Sys Ppu σ)

@[simp] theorem asked_assert (b : Bool) : asked H (assert b) s = [.assert b] := rfl

@[simp] theorem asked_busRead (a : Uint16) : asked H (busRead a) s = [.read a] := rfl

@[simp] theorem asked_vblankBegin : asked H vblankBegin s = [.nmiCallback] := rfl

end Operations

/-! ### What the routines of a dot touch -/

/-- A read on the VRAM bus. -/
def BusRead (o : PpuOp) : Prop := ∃ a : Uint16, a.toNat < 0x4000 ∧ o = .read a

/-- A shift by an amount without a defined result. -/
def BadShift (o : PpuOp) : Prop := ∃ n, o = .undefinedShift n

def Asserts (o : PpuOp) : Prop := ∃ b, o = .assert b

/-- Equal but for the tile latches. -/
def OnlyTile (p p' : Ppu) : Prop := ∃ t, p' = { p with tile := t }

/-- Equal but for the shift registers. -/
def OnlyShift (p p' : Ppu) : Prop := ∃ sh, p' = { p with shift := sh }

/-- Equal but for the fetch address. -/
def OnlyAddr (p p' : Ppu) : Prop := ∃ a, p' = { p with vram.addr := a }

def SameTile (p p' : Ppu) : Prop := p'.tile = p.tile

theorem OnlyShift.trans (p q r : Ppu) : OnlyShift p q → OnlyShift q r → OnlyShift p r := by
  rintro ⟨_, rfl⟩ ⟨sh, rfl⟩
  exact ⟨sh, rfl⟩

theorem SameTile.trans (p q r : Ppu) (h : SameTile p q) (h' : SameTile q r) : SameTile p r :=
  Eq.trans h' h

theorem sameTile_self (p : Ppu) : SameTile p p := rfl

theorem keeps_fetch {dofetch : Bool} {addr : Ppu → Uint16} {f : Uint8 → Ppu → Ppu}
    (haddr : ∀ p, (addr p).toNat < 0x4000) (hf : ∀ v p, OnlyTile p (f v p)) :
    Keeps BusRead OnlyTile (if !dofetch then pure () else do
      let v ← busRead (addr (← get))
      modify (f v)) := by
  intro p
  cases dofetch with
  | false => exact ⟨p.tile, rfl⟩
  | true => exact ⟨⟨_, haddr p, rfl⟩, fun v => hf v p⟩

theorem keeps_backgroundCycle (k : ℕ) : Keeps BusRead OnlyTile (backgroundCycle k) := by
  have hnt (b : Bool) : Keeps BusRead OnlyTile (fetchNt b) :=
    keeps_fetch (fun p => nametableAddr_lt p.vram.addr) fun _ _ => ⟨_, rfl⟩
  have hattr (b : Bool) : Keeps BusRead OnlyTile (fetchAttr b) :=
    keeps_fetch (fun p => attrAddr_lt p.vram.addr) fun _ _ => ⟨_, rfl⟩
  have hlow (b : Bool) : Keeps BusRead OnlyTile (fetchLowbg b) :=
    keeps_fetch (fun p => patternAddr_lt p (by decide)) fun _ _ => ⟨_, rfl⟩
  have hhigh (b : Bool) : Keeps BusRead OnlyTile (fetchHighbg b) :=
    keeps_fetch (fun p => patternAddr_lt p (by decide)) fun _ _ => ⟨_, rfl⟩
  unfold backgroundCycle
  split
  · exact hnt false
  · exact hnt true
  · exact hattr false
  · exact hattr true
  · exact hlow false
  · exact hlow true
  · exact hhigh false
  · exact hhigh true
  · exact Keeps.pure (fun p => ⟨p.tile, rfl⟩) ()

theorem keeps_shiftRun : Keeps (fun _ => False) OnlyShift shiftRun :=
  Keeps.modify fun _ => ⟨_, rfl⟩

theorem keeps_shiftFill : Keeps BadShift OnlyShift shiftFill := by
  have hrefl (p : Ppu) : OnlyShift p p := ⟨p.shift, rfl⟩
  refine Keeps.bind OnlyShift.trans (Keeps.modify fun _ => ⟨_, rfl⟩) fun _ => ?_
  refine Keeps.bind OnlyShift.trans (Keeps.get hrefl) ?_
  intro p
  refine Keeps.bind OnlyShift.trans ?_ fun mask => Keeps.modify fun _ => ⟨_, rfl⟩
  exact Keeps.ite (Keeps.pure hrefl _) (Keeps.ask hrefl ⟨_, rfl⟩)

theorem keeps_incVHorzpos : Keeps (fun _ => False) OnlyAddr incVHorzpos := by
  apply Keeps.modify
  intro p
  dsimp only
  split_ifs <;> exact ⟨_, rfl⟩

theorem keeps_incVVertpos : Keeps (fun _ => False) OnlyAddr incVVertpos := by
  apply Keeps.modify
  intro p
  dsimp only
  split_ifs <;> exact ⟨_, rfl⟩

theorem keeps_copyVHorzpos : Keeps (fun _ => False) OnlyAddr copyVHorzpos := by
  apply Keeps.modify
  intro p
  dsimp only
  split_ifs <;> exact ⟨_, rfl⟩

theorem keeps_copyVVertpos : Keeps (fun _ => False) OnlyAddr copyVVertpos := by
  apply Keeps.modify
  intro p
  dsimp only
  split_ifs <;> exact ⟨_, rfl⟩

theorem keeps_bgOutput : Keeps BusRead Eq bgOutput :=
  fun _ => ⟨⟨_, colorAddr_lt _, rfl⟩, fun _ => rfl⟩

/-- An operation that only looks at the environment, if it is one like the emulator. -/
def Looks : PpuOp → Prop
  | .write .. | .clearMem | .nmiCallback => False
  | _ => True

theorem looks_of_busRead (o : PpuOp) : BusRead o → Looks o := by
  rintro ⟨a, -, rfl⟩
  trivial

/-- `output` does not change the PPU at all. -/
theorem keeps_output : Keeps Looks Eq output := by
  have htrans (p q r : Ppu) : p = q → q = r → p = r := Eq.trans
  have hpure : Keeps Looks Eq (pure () : PpuM Unit) := Keeps.pure (fun _ => rfl) ()
  have hask (o : PpuOp) (ho : Looks o) : Keeps Looks Eq (ask (E := ppuSig) o : PpuM _) :=
    Keeps.ask (fun _ => rfl) ho
  refine Keeps.bind htrans (Keeps.get fun _ => rfl) fun p => Keeps.ite hpure ?_
  refine Keeps.bind htrans (keeps_bgOutput.mono looks_of_busRead fun _ _ h => h) fun _ => ?_
  exact Keeps.bind htrans (hask _ trivial) fun _ => Keeps.ite hpure (hask _ trivial)

theorem keeps_preRender (n : ℕ) : Keeps Asserts SameTile (preRender n) := by
  have hpure : Keeps Asserts SameTile (pure () : PpuM Unit) :=
    Keeps.pure sameTile_self ()
  have hcopy : Keeps Asserts SameTile copyVVertpos :=
    keeps_copyVVertpos.mono (fun _ => False.elim) fun p p' ⟨a, h⟩ => by rw [h]; rfl
  refine Keeps.bind SameTile.trans (Keeps.ite (Keeps.modify fun _ => rfl) hpure) fun _ => ?_
  refine Keeps.bind SameTile.trans (Keeps.ite hcopy hpure) fun _ => Keeps.ite ?_ hpure
  refine Keeps.bind SameTile.trans (Keeps.get sameTile_self) ?_
  intro p
  refine Keeps.bind SameTile.trans (Keeps.ask sameTile_self ⟨_, rfl⟩) fun _ => ?_
  exact Keeps.bind SameTile.trans (Keeps.ite (Keeps.modify fun _ => rfl) hpure) fun _ =>
    Keeps.modify fun _ => rfl

/-! ### Drawing -/

/-- What a drawing dot may ask for. -/
def DrawOp : PpuOp → Prop
  | .read a => a.toNat < 0x4000
  | .drawpixel .. => True
  | .undefinedShift _ => True
  | .assert holds => holds = true
  | _ => False

/-- Equal but for the fetch address, the tile latches and the shift registers. -/
def Drawn (p p' : Ppu) : Prop :=
  p' = { p with vram.addr := p'.vram.addr, tile := p'.tile, shift := p'.shift }

theorem Drawn.refl (p : Ppu) : Drawn p p := rfl

theorem Drawn.trans {p q r : Ppu} (h : Drawn p q) (h' : Drawn q r) : Drawn p r := by
  unfold Drawn at *
  rw [h'] at *
  rw [h]

section Fields

variable {p p' : Ppu}

theorem Drawn.exists (h : Drawn p p') :
    ∃ a t sh, p' = { p with vram.addr := a, tile := t, shift := sh } := ⟨_, _, _, h⟩

theorem Drawn.io (h : Drawn p p') : p'.io = p.io := by rw [h]
theorem Drawn.line (h : Drawn p p') : p'.line = p.line := by rw [h]; rfl
theorem Drawn.dot (h : Drawn p p') : p'.dot = p.dot := by rw [h]; rfl

end Fields

/-- The lines on which tiles are fetched. -/
def Rendered (p : Ppu) : Prop := p.line ≤ 239 ∨ p.line = 261

/-- At the dot `n` of a rendered line, `m` only draws. -/
def Draws (n : ℕ) {α : Type} (m : PpuM α) : Prop :=
  ∀ p : Ppu, p.Rendered → p.dot = n → wp DrawOp m (fun _ p' => Drawn p p') p

section Draws

variable {n : ℕ} {α β : Type}

theorem Draws.pure (a : α) : Draws n (pure a : PpuM α) := fun p _ _ => Drawn.refl p

theorem Draws.bind {m : PpuM α} {f : α → PpuM β} (hm : Draws n m) (hf : ∀ a, Draws n (f a)) :
    Draws n (m >>= f) := by
  intro p hr hd
  rw [wp_bind]
  refine wp_mono (hm p hr hd) (fun _ ho => ho) ?_
  intro a q hq
  have hr' : q.Rendered := by unfold Rendered; rw [hq.line]; exact hr
  exact wp_mono (hf a q hr' (hq.dot.trans hd)) (fun _ ho => ho) fun _ _ h => hq.trans h

theorem Draws.ite {c : Prop} [Decidable c] {m m' : PpuM α} (hm : c → Draws n m)
    (hm' : ¬c → Draws n m') : Draws n (if c then m else m') := by
  split
  · exact hm ‹_›
  · exact hm' ‹_›

theorem Draws.of_keeps {P : PpuOp → Prop} {R : Ppu → Ppu → Prop} {m : PpuM α} (hm : Keeps P R m)
    (hP : ∀ o, P o → DrawOp o) (hR : ∀ p p', R p p' → Drawn p p') : Draws n m :=
  fun p _ _ => hm.mono hP hR p

end Draws

theorem draws_backgroundCycle (n k : ℕ) : Draws n (backgroundCycle k) := by
  refine Draws.of_keeps (keeps_backgroundCycle k) ?_ ?_
  · rintro _ ⟨a, ha, rfl⟩
    exact ha
  · rintro p _ ⟨t, rfl⟩
    rfl

theorem draws_shiftRun (n : ℕ) : Draws n shiftRun := by
  refine Draws.of_keeps keeps_shiftRun (fun _ => False.elim) ?_
  rintro p _ ⟨sh, rfl⟩
  rfl

theorem draws_shiftFill (n : ℕ) : Draws n shiftFill := by
  refine Draws.of_keeps keeps_shiftFill ?_ ?_
  · rintro _ ⟨n, rfl⟩
    trivial
  · rintro p _ ⟨sh, rfl⟩
    rfl

theorem draws_of_onlyAddr {n : ℕ} {m : PpuM Unit} (hm : Keeps (fun _ => False) OnlyAddr m) :
    Draws n m := by
  refine Draws.of_keeps hm (fun _ => False.elim) ?_
  rintro p _ ⟨a, rfl⟩
  rfl

/-- The assertion of `output` holds on the dots up to 256. -/
theorem draws_output {n : ℕ} (hn : n ≤ 256) : Draws n output := by
  intro p hr hd
  have hassert : ((decide (p.line ≤ 239) || p.line == 261) && decide (p.dot ≤ 256)) = true := by
    unfold Rendered at hr
    simp [hr, hd, hn]
  unfold output
  rw [wp_bind, wp_get, wp_ite]
  split
  · exact Drawn.refl p
  · rw [wp_bind]
    refine wp_mono (keeps_bgOutput p) ?_ fun pixel q hq => ?_
    · rintro _ ⟨a, ha, rfl⟩
      exact ha
    subst hq
    unfold assert
    rw [wp_bind, wp_ask]
    refine ⟨hassert, fun _ => ?_⟩
    rw [wp_ite]
    split
    · exact Drawn.refl p
    · exact ⟨trivial, fun _ => Drawn.refl p⟩

theorem draws_fetchCycle (n : ℕ) : Draws n (fetchCycle n) := by
  unfold fetchCycle
  refine Draws.bind (Draws.ite (fun h => draws_output h.2) fun _ => Draws.pure ()) fun _ => ?_
  refine Draws.bind (draws_backgroundCycle n _) fun _ => ?_
  refine Draws.bind (Draws.ite (fun _ => draws_shiftFill n) fun _ => Draws.pure ()) fun _ => ?_
  refine Draws.bind (Draws.ite (fun _ => draws_shiftRun n) fun _ => Draws.pure ()) fun _ => ?_
  refine Draws.bind (Draws.ite (fun _ => draws_of_onlyAddr keeps_incVHorzpos) fun _ =>
    Draws.pure ()) fun _ => ?_
  exact Draws.ite (fun _ => draws_of_onlyAddr keeps_incVVertpos) fun _ => Draws.pure ()

theorem draws_cycletab (n : ℕ) : Draws n (cycletab n) := by
  refine Draws.ite (fun _ => Draws.pure ()) fun _ => ?_
  refine Draws.bind (Draws.ite (fun _ => draws_fetchCycle n) fun _ => Draws.pure ()) fun _ => ?_
  exact Draws.ite (fun _ => draws_of_onlyAddr keeps_copyVHorzpos) fun _ => Draws.pure ()

/-! ### One dot -/

/-- The dot on which the vertical blank begins. -/
def AtVblankBegin (p : Ppu) : Prop := p.line = 241 ∧ p.dot = 1

/-- The dot on which it ends. -/
def AtVblankEnd (p : Ppu) : Prop := p.line = 261 ∧ p.dot = 1

/-- The last dot of a frame. -/
def AtFrameEnd (p : Ppu) : Prop := p.line = 261 ∧ p.dot = 340

instance : DecidablePred AtVblankBegin := fun _ => inferInstanceAs (Decidable (_ ∧ _))
instance : DecidablePred AtVblankEnd := fun _ => inferInstanceAs (Decidable (_ ∧ _))
instance : DecidablePred AtFrameEnd := fun _ => inferInstanceAs (Decidable (_ ∧ _))

/-- The registers after a dot. -/
def dotIo (p : Ppu) : Io :=
  if p.AtVblankBegin then { p.io with vblank := true }
  else if p.AtVblankEnd then
    { p.io with vblank := false, spZeroHit := false, spOverflow := false }
  else p.io

/-- The state `lcycle` leaves, up to drawing: at the end of an odd frame the counters restart. -/
def dotted (p : Ppu) : Ppu :=
  { p with
    io := p.dotIo
    oddFrame := if p.AtFrameEnd then !p.oddFrame else p.oddFrame
    cycles := if p.AtFrameEnd ∧ p.oddFrame then 0 else p.cycles
    lines := if p.AtFrameEnd ∧ p.oddFrame then 0 else p.lines }

/-- The state `run` leaves, up to drawing. -/
def tick (p : Ppu) : Ppu :=
  { p.dotted with
    cycles := p.dotted.cycles + 1
    lines := p.dotted.lines + if (p.dotted.cycles + 1).toNat % 341 = 0 then 1 else 0 }

/-- What a dot may ask for: the NMI callback only where the vertical blank begins. -/
def RunOp (p : Ppu) (o : PpuOp) : Prop := DrawOp o ∨ (p.AtVblankBegin ∧ o = .nmiCallback)

/-- Away from the special dots nothing but the counters moves. -/
theorem dotted_eq_self {p : Ppu} (hb : ¬p.AtVblankBegin) (he : ¬p.AtVblankEnd)
    (hf : ¬p.AtFrameEnd) : p.dotted = p := by
  have hskip : ¬(p.AtFrameEnd ∧ p.oddFrame) := fun h => hf h.1
  unfold dotted dotIo
  rw [if_neg hb, if_neg he, if_neg hf, if_neg hskip, if_neg hskip]

theorem dot_le (p : Ppu) : p.dot ≤ 340 := by
  unfold dot; omega

theorem wp_vblankBegin {p : Ppu} (h : p.AtVblankBegin) :
    wp (RunOp p) vblankBegin (fun _ p' => Drawn p.dotted p') p := by
  have he : ¬p.AtFrameEnd := by
    rintro ⟨h1, -⟩; obtain ⟨h2, -⟩ := h; omega
  have hskip : ¬(p.AtFrameEnd ∧ p.oddFrame) := fun h => he h.1
  refine ⟨Or.inr ⟨h, rfl⟩, fun _ => ?_⟩
  unfold dotted dotIo
  rw [if_pos h, if_neg he, if_neg hskip, if_neg hskip]
  rfl

/-- `preRender` after the fetches of its dot, which have led from `p` to `q`. -/
theorem wp_preRender {p q : Ppu} (hl : p.line = 261) (hq : Drawn p q) :
    wp (RunOp p) (preRender p.dot) (fun _ p' => Drawn p.dotted p') q := by
  have hb : ¬p.AtVblankBegin := by
    rintro ⟨h, -⟩; omega
  have hr : q.Rendered := Or.inr (hq.line.trans hl)
  unfold preRender
  by_cases h1 : p.dot = 1
  · have hf : ¬p.AtFrameEnd := by
      rintro ⟨-, h⟩; omega
    have hskip : ¬(p.AtFrameEnd ∧ p.oddFrame) := fun h => hf h.1
    have he : p.AtVblankEnd := ⟨hl, h1⟩
    obtain ⟨a, t, sh, rfl⟩ := hq.exists
    unfold dotted dotIo
    rw [h1, if_neg hb, if_pos he, if_neg hf, if_neg hskip, if_neg hskip]
    rfl
  by_cases h340 : p.dot = 340
  · have he : ¬p.AtVblankEnd := fun h => h1 h.2
    have hassert : (q.line == 261 && q.dot == 340) = true := by
      rw [hq.line, hq.dot, hl, h340]; rfl
    have hfe : p.AtFrameEnd := ⟨hl, h340⟩
    rw [h340]
    show wp (RunOp p) beginFrame _ q
    unfold beginFrame assert
    rw [wp_bind, wp_get, wp_bind, wp_ask]
    refine ⟨Or.inl hassert, fun _ => ?_⟩
    obtain ⟨a, t, sh, rfl⟩ := hq.exists
    unfold dotted dotIo
    rw [wp_bind, if_neg hb, if_neg he, if_pos hfe]
    by_cases ho : p.oddFrame = true
    · have hskip : p.AtFrameEnd ∧ p.oddFrame = true := ⟨hfe, ho⟩
      rw [if_pos ho, if_pos hskip, if_pos hskip]
      rfl
    · have hskip : ¬(p.AtFrameEnd ∧ p.oddFrame = true) := fun h => ho h.2
      rw [if_neg ho, if_neg hskip, if_neg hskip]
      rfl
  · have he : ¬p.AtVblankEnd := fun h => h1 h.2
    have hf : ¬p.AtFrameEnd := fun h => h340 h.2
    rw [dotted_eq_self hb he hf, if_neg h1, if_neg h340, wp_bind, wp_pure, wp_bind]
    have hcopy : Draws p.dot (if 280 ≤ p.dot ∧ p.dot ≤ 304 then copyVVertpos else pure ()) :=
      Draws.ite (fun _ => draws_of_onlyAddr keeps_copyVVertpos) fun _ => Draws.pure ()
    exact wp_mono (hcopy q hr hq.dot) (fun _ ho => Or.inl ho) fun _ _ h => hq.trans h

/-- What `lcycle` does at the dot the PPU is at. -/
theorem wp_lcycle (p : Ppu) :
    wp (RunOp p) (lcycle p.line p.dot) (fun _ p' => Drawn p.dotted p') p := by
  unfold lcycle assert
  rw [wp_bind, wp_ask]
  refine ⟨Or.inl (decide_eq_true p.dot_le), fun _ => ?_⟩
  by_cases h240 : p.line < 240
  · rw [if_pos h240, dotted_eq_self (fun h => by have := h.1; omega)
      (fun h => by have := h.1; omega) (fun h => by have := h.1; omega)]
    exact wp_mono (draws_cycletab p.dot p (Or.inl (by omega)) rfl) (fun _ ho => Or.inl ho)
      fun _ _ h => h
  rw [if_neg h240]
  by_cases h241 : p.line = 241
  · rw [if_pos h241]
    by_cases h1 : p.dot = 1
    · rw [if_pos h1]
      exact wp_vblankBegin ⟨h241, h1⟩
    · rw [if_neg h1, dotted_eq_self (fun h => h1 h.2) (fun h => by have := h.1; omega)
        (fun h => by have := h.1; omega)]
      exact Drawn.refl p
  rw [if_neg h241]
  by_cases h261 : p.line = 261
  · rw [if_pos h261, wp_bind]
    refine wp_mono (draws_cycletab p.dot p (Or.inr h261) rfl) (fun _ ho => Or.inl ho)
      fun _ q hq => wp_preRender h261 hq
  · rw [if_neg h261, dotted_eq_self (fun h => h241 h.1) (fun h => h261 h.1)
      (fun h => h261 h.1)]
    exact Drawn.refl p

/-- **One dot.** What `run` asks for and the state it leaves. -/
theorem wp_run (p : Ppu) : wp (RunOp p) run (fun _ p' => Drawn p.tick p') p := by
  unfold run
  rw [wp_bind, wp_get, wp_bind]
  refine wp_mono (wp_lcycle p) (fun _ ho => ho) ?_
  intro _ q hq
  obtain ⟨a, t, sh, rfl⟩ := hq.exists
  rfl

/-! ### Register accesses -/

/-- Equal but for the registers and the scroll position. -/
def Accessed (p p' : Ppu) : Prop := p' = { p with io := p'.io, vram := p'.vram }

/-- What an access may ask for: PPUDATA reaches the bus at the current address. -/
def RegOp (which : Uint16) (p : Ppu) (o : PpuOp) : Prop :=
  which.toNat = 0x2007 ∧ (o = .read p.vram.addr ∨ ∃ d, o = .write p.vram.addr d)

/-- A read changes registers and scroll position only; reading PPUSTATUS ends the vertical
blank as far as that register tells, and no read touches another flag. -/
structure ReadFrom (which : Uint16) (p p' : Ppu) : Prop where
  accessed : Accessed p p'
  vblank : p'.io.vblank = if which.toNat = 0x2002 then false else p.io.vblank
  nmiEnabled : p'.io.nmiEnabled = p.io.nmiEnabled

/-- A write leaves the status flags alone, and only PPUCTRL sets the NMI enable bit. -/
structure WrittenTo (which : Uint16) (data : Uint8) (p p' : Ppu) : Prop where
  accessed : Accessed p p'
  vblank : p'.io.vblank = p.io.vblank
  nmiEnabled : p'.io.nmiEnabled =
    if which.toNat = 0x2000 then truthy (data &&& 0x80) else p.io.nmiEnabled

theorem wp_readreg (which : Uint16) (p : Ppu) :
    wp (RegOp which p) (readreg which) (fun _ p' => ReadFrom which p p') p := by
  unfold readreg
  rw [wp_bind]
  split
  · rename_i h
    exact ⟨rfl, (if_pos h).symm, rfl⟩
  · rename_i h
    exact ⟨rfl, (if_neg (by omega)).symm, rfl⟩
  · rename_i h
    have hne : ¬which.toNat = 0x2002 := by omega
    unfold readData
    rw [wp_bind, wp_get, wp_bind]
    split
    · exact ⟨⟨h, Or.inl rfl⟩, fun _ => ⟨rfl, (if_neg hne).symm, rfl⟩⟩
    · exact ⟨⟨h, Or.inl rfl⟩, fun _ => ⟨rfl, (if_neg hne).symm, rfl⟩⟩
  · rename_i h _ _
    exact ⟨rfl, (if_neg h).symm, rfl⟩

theorem wp_writereg (which : Uint16) (data : Uint8) (p : Ppu) :
    wp (RegOp which p) (writereg which data) (fun _ p' => WrittenTo which data p p') p := by
  unfold writereg
  rw [wp_bind, wp_modify]
  split
  · rename_i h
    exact ⟨rfl, rfl, (if_pos h).symm⟩
  · rename_i h
    exact ⟨rfl, rfl, (if_neg (by omega)).symm⟩
  · rename_i h
    exact ⟨rfl, rfl, (if_neg (by omega)).symm⟩
  · rename_i h
    exact ⟨rfl, rfl, (if_neg (by omega)).symm⟩
  · rename_i h
    have hne : ¬which.toNat = 0x2000 := by omega
    unfold writeScroll
    rw [wp_modify]
    split <;> exact ⟨rfl, rfl, (if_neg hne).symm⟩
  · rename_i h
    have hne : ¬which.toNat = 0x2000 := by omega
    unfold writeAddr
    rw [wp_modify]
    split <;> exact ⟨rfl, rfl, (if_neg hne).symm⟩
  · rename_i h
    have hne : ¬which.toNat = 0x2000 := by omega
    exact ⟨⟨h, Or.inr ⟨data, rfl⟩⟩, fun _ => ⟨rfl, rfl, (if_neg hne).symm⟩⟩
  · rename_i h _ _ _ _ _ _
    exact ⟨rfl, rfl, (if_neg h).symm⟩

/-- The debugger's reads leave the PPU as it is. -/
theorem wp_readregNoSideeff (which : Uint16) (p : Ppu) :
    wp (RegOp which p) (readregNoSideeff which) (fun _ p' => p' = p) p := by
  unfold readregNoSideeff
  rw [wp_bind, wp_get]
  split
  any_goals rfl
  rw [wp_ite]
  split
  · rfl
  · exact ⟨⟨‹_›, Or.inl rfl⟩, fun _ => rfl⟩

end Ppu

end Yanesemu
