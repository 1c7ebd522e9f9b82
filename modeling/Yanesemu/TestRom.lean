import Yanesemu.IsaCode

/-!
# Routines of the test ROM

The loops of `testrom/test.asm` that fill RAM, its subroutine `clear_spbuf` and its interrupt
handler, wherever in the PRG ROM they have been placed. What is proved is what the machine does
when it comes to them: the state they leave, the number of steps they take, and that the steps are
private.

`fill_loop` is both loops at once: `resetram` fills eight rows of RAM, `clear_spbuf` one.
-/

namespace Yanesemu.Isa

open Cpu MachineCode
open Emulator (Private Readable Writable)

/-! ## Filling rows -/

variable {rom : Mem}

section Fill

/-- `sta t, x`. -/
def rowStore (t : Uint16) : Line :=
  if t.toNat < 0x100 then ⟨.store .acc, .zerox, t⟩ else ⟨.store .acc, .absx, t⟩

/-- The loop: the stores, `inx`, and `bne` back to the first store. -/
def fillLoop (ts : List Uint16) (back : Uint8) : List Line :=
  ts.map rowStore ++
    [⟨.impld .inx, .impld, 0⟩, ⟨.branch .zero false, .branch, zp back⟩]

/-- The cells `lo ≤ i < hi` of the rows. -/
def InRows (ts : List Uint16) (lo hi : ℕ) (a : Uint16) : Prop :=
  ∃ t ∈ ts, lo ≤ (a - t).toNat ∧ (a - t).toNat < hi

instance (ts : List Uint16) (lo hi : ℕ) (a : Uint16) : Decidable (InRows ts lo hi a) :=
  List.decidableBEx _ ts

/-- The memory with these cells filled. -/
def filled (ts : List Uint16) (v : Uint8) (lo hi : ℕ) (m : Mem) : Mem := fun a =>
  if InRows ts lo hi a then v else m a

/-- What the stores of one round write. -/
def rowStores (ts : List Uint16) (x v : Uint8) : List Store := ts.map fun t => (t + zp x, v)

theorem toNat_zp (x : Uint8) : (zp x).toNat = x.toNat := by
  have hx := x.isLt
  rw [zp, BitVec.toNat_setWidth]
  omega

/-- The stores of a round fill one cell of each row. -/
theorem stored_rowStores (ts : List Uint16) (x v : Uint8) (m : Mem) :
    stored m (rowStores ts x v) = filled ts v x.toNat (x.toNat + 1) m := by
  induction ts generalizing m with
  | nil => rfl
  | cons t ts ih =>
    have hcons : stored m (rowStores (t :: ts) x v) =
        stored (Function.update m (t + zp x) v) (rowStores ts x v) := rfl
    rw [hcons, ih]
    funext a
    have hcell : a = t + zp x ↔ x.toNat ≤ (a - t).toNat ∧ (a - t).toNat < x.toNat + 1 := by
      have heq : a = t + zp x ↔ (a - t).toNat = (zp x).toNat := by
        rw [BitVec.toNat_inj]
        constructor
        · rintro rfl; rw [BitVec.add_comm, BitVec.add_sub_cancel]
        · rintro h; rw [← h, BitVec.add_comm, BitVec.sub_add_cancel]
      rw [heq, toNat_zp]
      omega
    have hrows : InRows (t :: ts) x.toNat (x.toNat + 1) a ↔
        a = t + zp x ∨ InRows ts x.toNat (x.toNat + 1) a := by
      rw [hcell]; exact List.exists_mem_cons_iff ..
    simp only [filled, hrows, Function.update_apply]
    split_ifs <;> first | rfl | tauto

/-- One round after the other. -/
theorem filled_filled (ts : List Uint16) (v : Uint8) {lo mid hi : ℕ} (hlo : lo ≤ mid)
    (hhi : mid ≤ hi) (m : Mem) :
    filled ts v mid hi (filled ts v lo mid m) = filled ts v lo hi m := by
  funext a
  have hrows : InRows ts lo hi a ↔ InRows ts lo mid a ∨ InRows ts mid hi a := by
    constructor
    · rintro ⟨t, ht, h⟩
      rcases Nat.lt_or_ge (a - t).toNat mid with hlt | hge
      · exact .inl ⟨t, ht, h.1, hlt⟩
      · exact .inr ⟨t, ht, hge, h.2⟩
    · rintro (⟨t, ht, h⟩ | ⟨t, ht, h⟩)
      · exact ⟨t, ht, h.1, by omega⟩
      · exact ⟨t, ht, by omega, h.2⟩
  simp only [filled, hrows]
  split_ifs <;> first | rfl | tauto

/-! ### The loop -/

/-- The mode of `sta t, x`. -/
def rowMode (t : Uint16) : AddrMode := if t.toNat < 0x100 then .zerox else .absx

theorem rowStore_eq (t : Uint16) : rowStore t = ⟨.store .acc, rowMode t, t⟩ := by
  unfold rowStore rowMode
  split_ifs <;> rfl

theorem direct_rowMode (t : Uint16) : State.Direct (rowMode t) := by
  unfold rowMode
  split_ifs <;> trivial

theorem target_rowMode (s : State) (t : Uint16) : s.target t (rowMode t) = t + zp s.x := by
  unfold rowMode
  split_ifs with h
  · have hlow : zp (Reg16.low t) = t := by
      apply BitVec.eq_of_toNat_eq
      rw [toNat_zp, Reg16.toNat_low]
      omega
    exact congrArg (· + zp s.x) hlow
  · rfl

theorem run_rowStore (t : Uint16) (s : State) :
    (rowStore t).run s = { s with
      mem := Function.update s.mem (t + zp s.x) s.acc
      pc := s.pc + BitVec.ofNat 16 (rowStore t).size } := by
  rw [rowStore_eq, Line.run, target_rowMode]
  rfl

theorem fits_rowStore {t : Uint16} (ht : t.toNat + 0xFF < 0x800) (s : State) :
    (rowStore t).Fits s := by
  have hx := s.x.isLt
  have hw : Writable (s.target t (rowMode t)) := by
    rw [target_rowMode]
    refine .inl ?_
    rw [BitVec.toNat_add, toNat_zp]
    omega
  rw [rowStore_eq]
  exact ⟨direct_rowMode t, hw⟩

theorem fits_rowStores {ts : List Uint16} (ht : ∀ t ∈ ts, t.toNat + 0xFF < 0x800) (s : State) :
    FitsAll (ts.map rowStore) s := by
  induction ts generalizing s with
  | nil => trivial
  | cons t ts ih =>
    obtain ⟨hhead, htail⟩ := List.forall_mem_cons.mp ht
    exact ⟨fits_rowStore hhead s, ih htail _⟩

/-- The stores. -/
theorem runLines_rowStores (ts : List Uint16) (s : State) :
    runLines (ts.map rowStore) s = { s with
      mem := stored s.mem (rowStores ts s.x s.acc)
      pc := s.pc + BitVec.ofNat 16 ((ts.map rowStore).map Line.size).sum } := by
  induction ts generalizing s with
  | nil => exact State.ext (BitVec.add_zero s.pc).symm rfl rfl rfl rfl rfl rfl rfl
  | cons t ts ih =>
    rw [List.map_cons, runLines, run_rowStore, ih, List.map_cons, List.sum_cons, BitVec.ofNat_add,
      ← BitVec.add_assoc]
    rfl

theorem code_rowStores {ts : List Uint16} (ht : ∀ t ∈ ts, t.toNat + 0xFF < 0x800) {s : State}
    (hs : Runs rom s) (hp : Placed rom s.pc (ts.map rowStore)) :
    Code ts.length s { s with
      mem := stored s.mem (rowStores ts s.x s.acc)
      pc := s.pc + BitVec.ofNat 16 ((ts.map rowStore).map Line.size).sum } := by
  have h := code_lines hs hp (fits_rowStores ht s)
  rw [List.length_map, runLines_rowStores] at h
  exact h

/-- The length of the loop. -/
def fillSize (ts : List Uint16) : ℕ := ((ts.map rowStore).map Line.size).sum + 3

/-- What the loop leaves. -/
def fillEnd (ts : List Uint16) (s : State) : State :=
  { s with
    x := 0
    flags.zero := true
    flags.neg := false
    mem := filled ts s.acc s.x.toNat 0x100 s.mem
    pc := s.pc + BitVec.ofNat 16 (fillSize ts) }

/-- The state at the end of a round. -/
def roundEnd (ts : List Uint16) (pc : Uint16) (s : State) : State :=
  { s.showing (s.x + 1) with
    x := s.x + 1
    mem := stored s.mem (rowStores ts s.x s.acc)
    pc := pc }

/-- One round of the loop. -/
theorem code_fillRound {ts : List Uint16} {back : Uint8}
    (ht : ∀ t ∈ ts, t.toNat + 0xFF < 0x800)
    (hback : back.signExtend 16 = -BitVec.ofNat 16 (fillSize ts)) {s : State} (hs : Runs rom s)
    (hp : Placed rom s.pc (fillLoop ts back)) :
    Code (ts.length + 2) s
      (roundEnd ts (if s.x + 1 = 0 then s.pc + BitVec.ofNat 16 (fillSize ts) else s.pc) s) := by
  obtain ⟨hstores, hinx, hbne, -⟩ := placed_append.mp hp
  have hfill := code_rowStores ht hs hstores
  have hs₁ := hs.code hfill
  have hx := line_run hs₁ hinx trivial
  have hs₂ := hs₁.next hx
  have hb := line_branch hs₂ hbne
  have hnext : s.pc + BitVec.ofNat 16 ((ts.map rowStore).map Line.size).sum + 1 + 2 =
      s.pc + BitVec.ofNat 16 (fillSize ts) := by
    rw [fillSize, BitVec.ofNat_add, BitVec.add_assoc, BitVec.add_assoc]
    rfl
  have hlow : (Reg16.low (zp back)).signExtend 16 = -BitVec.ofNat 16 (fillSize ts) := by
    rw [← hback]
    exact congrArg (BitVec.signExtend 16) (BitVec.eq_of_toNat_eq (by
      rw [Reg16.toNat_low, toNat_zp]; exact Nat.mod_eq_of_lt back.isLt))
  have hpc : (if decide (s.x + 1 = 0) = false then
      s.pc + BitVec.ofNat 16 ((ts.map rowStore).map Line.size).sum + 1 + 2 +
        (Reg16.low (zp back)).signExtend 16
      else s.pc + BitVec.ofNat 16 ((ts.map rowStore).map Line.size).sum + 1 + 2) =
      if s.x + 1 = 0 then s.pc + BitVec.ofNat 16 (fillSize ts) else s.pc := by
    rw [hnext, hlow, ← BitVec.sub_eq_add_neg, BitVec.add_sub_cancel]
    by_cases h0 : s.x + 1 = 0
    · rw [if_pos h0, if_neg fun h => of_decide_eq_false h h0]
    · rw [if_neg h0, if_pos (decide_eq_false h0)]
  rw [← hpc]
  exact hfill.trans (Goes.head hx (Goes.one hb))

theorem roundEnd_last {ts : List Uint16} {s : State} (h0 : s.x + 1 = 0) :
    roundEnd ts (s.pc + BitVec.ofNat 16 (fillSize ts)) s = fillEnd ts s := by
  have hx : s.x.toNat + 1 = 0x100 := by
    have hlt := s.x.isLt
    have hsum : (s.x + 1).toNat = (s.x.toNat + 1) % 256 := BitVec.toNat_add ..
    rw [h0] at hsum
    have hzero : 0 = (s.x.toNat + 1) % 256 := hsum
    omega
  unfold roundEnd fillEnd State.showing
  rw [h0, stored_rowStores, hx]
  rfl

theorem fillEnd_roundEnd {ts : List Uint16} {s : State} (hx : (s.x + 1).toNat = s.x.toNat + 1) :
    fillEnd ts (roundEnd ts s.pc s) = fillEnd ts s := by
  have hlt := (s.x + 1).isLt
  have hmem : filled ts s.acc (s.x + 1).toNat 0x100 (stored s.mem (rowStores ts s.x s.acc)) =
      filled ts s.acc s.x.toNat 0x100 s.mem := by
    rw [stored_rowStores, hx, filled_filled _ _ (by omega) (by omega)]
  exact congrArg (fun m => { fillEnd ts s with mem := m }) hmem

/-- **The loop.** It fills the rows from the index on and ends with the index zero. -/
theorem fill_loop {ts : List Uint16} {back : Uint8} (ht : ∀ t ∈ ts, t.toNat + 0xFF < 0x800)
    (hback : back.signExtend 16 = -BitVec.ofNat 16 (fillSize ts)) {s : State} (hs : Runs rom s)
    (hp : Placed rom s.pc (fillLoop ts back)) :
    Code ((ts.length + 2) * (0x100 - s.x.toNat)) s (fillEnd ts s) := by
  -- the rounds left are what the index is short of 256
  induction hn : 0x100 - s.x.toNat generalizing s with
  | zero => have hx := s.x.isLt; omega
  | succ n ih =>
    have hround := code_fillRound ht hback hs hp
    have hlt := s.x.isLt
    have hx : (s.x + 1).toNat = (s.x.toNat + 1) % 256 := BitVec.toNat_add ..
    rw [Nat.mul_succ, Nat.add_comm]
    by_cases h0 : s.x + 1 = 0
    · have hzero : n = 0 := by
        have hsum : 0 = (s.x.toNat + 1) % 256 := by rw [← hx, h0]; rfl
        omega
      rw [if_pos h0] at hround
      rw [hzero, ← roundEnd_last h0]
      exact hround
    · have hsucc : (s.x + 1).toNat = s.x.toNat + 1 := by
        have hne : (s.x + 1).toNat ≠ 0 := fun h => h0 (BitVec.eq_of_toNat_eq h)
        omega
      rw [if_neg h0] at hround
      have hs' := hs.code hround
      have hrest := ih hs' hp (show 0x100 - (s.x + 1).toNat = n by omega)
      rw [← fillEnd_roundEnd hsucc]
      exact hround.trans hrest

end Fill

/-! ## `resetram` -/

section Resetram

/-- The rows of RAM. -/
def ramRows : List Uint16 := [0, 0x100, 0x200, 0x300, 0x400, 0x500, 0x600, 0x700]

def resetram : List Line := fillLoop ramRows 0xE6

theorem ramRows_fit : ∀ t ∈ ramRows, t.toNat + 0xFF < 0x800 := by simp [ramRows]

theorem inRows_ramRows {a : Uint16} : InRows ramRows 0 0x100 a ↔ a.toNat < 0x800 := by
  have ha := a.isLt
  constructor
  · rintro ⟨t, ht, -, hlt⟩
    have htop := ramRows_fit t ht
    rw [BitVec.toNat_sub] at hlt
    omega
  · intro hlow
    have hrow : BitVec.ofNat 16 (a.toNat / 0x100 * 0x100) ∈ ramRows := by
      have hk : a.toNat / 0x100 < 8 := by omega
      exact (by decide : ∀ k < 8, BitVec.ofNat 16 (k * 0x100) ∈ ramRows) _ hk
    refine ⟨_, hrow, Nat.zero_le _, ?_⟩
    rw [BitVec.toNat_sub, BitVec.toNat_ofNat]
    omega

/-- **`resetram`** fills RAM with the accumulator and nothing else. -/
theorem resetram_fills {s : State} (hs : Runs rom s) (hp : Placed rom s.pc resetram)
    (hx : s.x = 0) :
    Code 2560 s { s with
      flags.zero := true
      flags.neg := false
      mem := fun a => if a.toNat < 0x800 then s.acc else s.mem a
      pc := s.pc + 26 } := by
  have hrun := fill_loop ramRows_fit (by decide) hs hp
  have hmem : filled ramRows s.acc s.x.toNat 0x100 s.mem =
      fun a => if a.toNat < 0x800 then s.acc else s.mem a := by
    funext a
    have hrows : InRows ramRows s.x.toNat 0x100 a ↔ a.toNat < 0x800 := by
      rw [hx]; exact inRows_ramRows
    simp only [filled, hrows]
  have hend : fillEnd ramRows s = { s with
      flags.zero := true
      flags.neg := false
      mem := fun a => if a.toNat < 0x800 then s.acc else s.mem a
      pc := s.pc + 26 } := by
    unfold fillEnd
    rw [hmem, ← hx]
    rfl
  rw [hx, hend] at hrun
  exact hrun

end Resetram

/-! ## Subroutines -/

section Calls

/-- The state a JSR leaves. -/
def called (p : Uint16) (s : State) : State :=
  { (s.push (Reg16.high (s.pc + 2))).push (Reg16.low (s.pc + 2)) with pc := p }

/-- **Calls.** A subroutine that leaves the return address alone is come back from. -/
theorem code_call {n : ℕ} {p : Uint16} {s t : State} (hs : Runs rom s)
    (hjsr : Line.In ⟨.impld .jsr, .abs, p⟩ rom s.pc) (hbody : Code n (called p s) t)
    (hrts : Line.In ⟨.impld .rts, .impld, 0⟩ rom t.pc) (hsp : t.sp = s.sp - 1 - 1)
    (hkept : ∀ b ∈ [s.sp, s.sp - 1], t.mem (stackAddr b) = (called p s).mem (stackAddr b)) :
    Code (n + 2) s { t with pc := s.pc + 3, sp := s.sp } := by
  have hcall := line_jsr hs hjsr
  have hs₁ : Runs rom (called p s) := hs.next hcall
  have hs₂ := hs₁.code hbody
  have hret := line_rts hs₂ hrts
  have hlow : t.stack 1 = Reg16.low (s.pc + 2) := by
    have hcell : s.sp - 1 - 1 + 1 = s.sp - 1 := BitVec.sub_add_cancel _ _
    rw [State.stack, hsp, hcell, hkept _ (by simp)]
    exact Function.update_self ..
  have hhigh : t.stack 2 = Reg16.high (s.pc + 2) := by
    have hcell : s.sp - 1 - 1 + 2 = s.sp := by
      rw [show (2 : Uint8) = 1 + 1 from rfl, ← BitVec.add_assoc, BitVec.sub_add_cancel,
        BitVec.sub_add_cancel]
    rw [State.stack, hsp, hcell, hkept _ (by simp)]
    have hne : stackAddr s.sp ≠ stackAddr (s.sp - 1) := fun h => by
      have hsp := stackAddr_injective h
      rw [BitVec.sub_eq_add_neg] at hsp
      exact absurd (BitVec.self_eq_add_right.mp hsp) (by decide)
    show Function.update (Function.update s.mem (stackAddr s.sp) _) (stackAddr (s.sp - 1)) _ _ = _
    rw [Function.update_of_ne hne, Function.update_self]
  have hstep : t.step = { t with pc := s.pc + 3, sp := s.sp } := by
    have hpc : Reg16.ofBytes (t.stack 1) (t.stack 2) + 1 = s.pc + 3 := by
      rw [hlow, hhigh, Reg16.ofBytes_low_high, BitVec.add_assoc]; rfl
    have hpull : t.sp + 2 = s.sp := by
      rw [hsp, show (2 : Uint8) = 1 + 1 from rfl, ← BitVec.add_assoc, BitVec.sub_add_cancel,
        BitVec.sub_add_cancel]
    rw [hret.2, hpc, hpull]
  have hreturn : Code 1 t { t with pc := s.pc + 3, sp := s.sp } := Goes.one ⟨hret.1, hstep⟩
  exact Goes.head hcall (hbody.trans hreturn)

end Calls

/-! ## `clear_spbuf` -/

section ClearSpbuf

def spritebuf : Uint16 := 0x200

/-- `ldx #$00`, `lda #$ff`. -/
def spbufStart : List Line := [⟨.read .ldx, .imm, 0⟩, ⟨.read .lda, .imm, 0xFF⟩]

def clearSpbuf : List Line :=
  spbufStart ++ fillLoop [spritebuf] 0xFA ++ [⟨.impld .rts, .impld, 0⟩]

/-- What `clear_spbuf` leaves, called from `s`. -/
def spbufCleared (p : Uint16) (s : State) : State :=
  { s with
    acc := 0xFF
    x := 0
    flags.zero := true
    flags.neg := false
    mem := filled [spritebuf] 0xFF 0 0x100 (called p s).mem
    pc := s.pc + 3 }

/-- The sprite buffer is behind the stack. -/
theorem not_inRows_spritebuf (b : Uint8) : ¬InRows [spritebuf] 0 0x100 (stackAddr b) := by
  rintro ⟨t, ht, -, hlt⟩
  have hb := b.isLt
  rw [List.mem_singleton.mp ht, BitVec.toNat_sub, stackAddr_toNat] at hlt
  have hbase : spritebuf.toNat = 0x200 := rfl
  omega

/-- **`clear_spbuf`** fills the sprite buffer and comes back. -/
theorem clearSpbuf_clears {p : Uint16} {s : State} (hs : Runs rom s)
    (hjsr : Line.In ⟨.impld .jsr, .abs, p⟩ rom s.pc) (hp : Placed rom p clearSpbuf) :
    Code 772 s (spbufCleared p s) := by
  obtain ⟨hbody, hrts, -⟩ := placed_append.mp hp
  obtain ⟨hload, hloop⟩ := placed_append.mp hbody
  have hs₁ : Runs rom (called p s) := hs.next (line_jsr hs hjsr)
  have hfits : FitsAll spbufStart (called p s) := ⟨.inl rfl, .inl rfl, trivial⟩
  have hcode := code_lines hs₁ hload hfits
  have hs₂ := hs₁.code hcode
  have hpc := runLines_pc hfits
  have hfill := fill_loop (by simp [spritebuf]) (by decide) hs₂ (hpc ▸ hloop)
  have hrts' : Line.In ⟨.impld .rts, .impld, 0⟩ rom
      (fillEnd [spritebuf] (runLines spbufStart (called p s))).pc := by
    rw [fillEnd, hpc, BitVec.add_assoc]
    exact hrts
  exact code_call hs hjsr (hcode.trans hfill) hrts' rfl fun b _ =>
    if_neg (not_inRows_spritebuf b)

end ClearSpbuf

end Yanesemu.Isa
