import Yanesemu.Stack

/-!
# Calls, interrupts and their returns

JSR saves an address on the stack and RTS goes back to it; an interrupt saves an address and the
flags and RTI takes both back. What happens in between does not matter as long as it leaves the
stack pointer and the saved bytes as they were: the lemmas here say what each of the four leaves
or takes, on any environment whose stack page is memory.
-/

namespace Yanesemu

open Interaction RingStack

namespace Cpu

/-! ### Two and three bytes -/

section Bytes

variable {st st' : Stack 8 Uint8} {a b c : Uint8}

/-- Bytes that were left alone are pulled in the reverse order. -/
theorem pull_two (hsp : st'.sp = ((st.push a).push b).sp)
    (hmem : ∀ i ∈ [st.sp, st.sp - 1], st'.mem i = ((st.push a).push b).mem i) :
    st'.pull.1 = b ∧ st'.pull.2.pull.1 = a ∧ st'.pull.2.pull.2.sp = st.sp := by
  have hnil : Holds st.mem st.sp ([] : List Uint8) := trivial
  have hholds : Holds ((st.push a).push b).mem ((st.push a).push b).sp [b, a] :=
    (hnil.push (by simp) a).push (by simp) b
  obtain ⟨hb, ha, -⟩ := hholds
  rw [← hsp] at ha hb
  have h1 : st'.sp + 1 = st.sp - 1 := by
    rw [hsp]
    show st.sp - 1 - 1 + 1 = _
    bv_omega
  have h2 : st'.sp + 1 + 1 = st.sp := by
    rw [h1]
    exact BitVec.sub_add_cancel st.sp 1
  rw [h1, ← hmem _ (by simp), ← h1] at hb
  rw [h2, ← hmem _ (by simp), ← h2] at ha
  exact ⟨hb, ha, h2⟩

theorem pull_three (hsp : st'.sp = (((st.push a).push b).push c).sp)
    (hmem : ∀ i ∈ [st.sp, st.sp - 1, st.sp - 2],
      st'.mem i = (((st.push a).push b).push c).mem i) :
    st'.pull.1 = c ∧ st'.pull.2.pull.1 = b ∧ st'.pull.2.pull.2.pull.1 = a ∧
      st'.pull.2.pull.2.pull.2.sp = st.sp := by
  have hnil : Holds st.mem st.sp ([] : List Uint8) := trivial
  have hholds : Holds (((st.push a).push b).push c).mem (((st.push a).push b).push c).sp
      [c, b, a] := ((hnil.push (by simp) a).push (by simp) b).push (by simp) c
  obtain ⟨hc, hb, ha, -⟩ := hholds
  rw [← hsp] at ha hb hc
  have h1 : st'.sp + 1 = st.sp - 2 := by
    rw [hsp]
    show st.sp - 1 - 1 - 1 + 1 = _
    bv_omega
  have h2 : st'.sp + 1 + 1 = st.sp - 1 := by
    rw [h1]
    bv_omega
  have h3 : st'.sp + 1 + 1 + 1 = st.sp := by
    rw [h2]
    exact BitVec.sub_add_cancel st.sp 1
  rw [h1, ← hmem _ (by simp), ← h1] at hc
  rw [h2, ← hmem _ (by simp), ← h2] at hb
  rw [h3, ← hmem _ (by simp), ← h3] at ha
  exact ⟨hc, hb, ha, h3⟩

end Bytes

/-! ### What is saved and taken back -/

variable {σ : Type} {H : Handler cpuSig σ} {s : Sys Cpu σ}

/-- `run` executes the instruction with this opcode. -/
structure Executes (H : Handler cpuSig σ) (op : Uint8) (s : Sys Cpu σ) : Prop where
  nmi : s.chip.sig.execnmi = false
  irq : s.chip.sig.execirq = false
  opcode : opcode H s = op

theorem Executes.post_run {op : Uint8} (h : Executes H op s) :
    post H run s = post H (executeTab op).exec (fetched H s) := by
  rw [post_run_instr H s h.nmi h.irq, h.opcode]

/-- Some execution has led from `s` to `t`: the stack pointer is where it was, and these cells of
the stack hold what they held. -/
structure Intact (page : σ → Uint8 → Uint8) (cells : List Uint8) (s t : Sys Cpu σ) : Prop where
  sp : t.chip.r.sp = s.chip.r.sp
  cells : ∀ i ∈ cells, page t.env i = page s.env i

variable {I : σ → Prop} {page : σ → Uint8 → Uint8} (hS : StackPage H I page) (hI : I s.env)
include hS hI

/-- A program that writes nothing leaves the stack page alone. -/
theorem StackPage.env_of_reads {α : Type} {m : CpuM α}
    (hm : ∀ o ∈ asked H m s, ∀ a d, o ≠ .write a d) :
    I (post H m s).env ∧ page (post H m s).env = page s.env := by
  have hop (o : CpuOp) (e : σ) (ho : ∀ a d, o ≠ .write a d) (he : I e) :
      I (H o e).2 ∧ page (H o e).2 = page e := by
    cases o with
    | read a => exact ⟨hS.inv_readEnv a e he, hS.page_readEnv a e he⟩
    | write a d => exact absurd rfl (ho a d)
    | fetchCallback c a mode => exact ⟨hS.inv_called c a mode e he, hS.page_called c a mode e he⟩
  refine post_env_along (R := fun a b => I a → I b ∧ page b = page a) (fun a ha => ⟨ha, rfl⟩)
    ?_ hop hm hI
  intro a b c hab hbc ha
  obtain ⟨hb, hpage⟩ := hab ha
  obtain ⟨hc, hpage'⟩ := hbc hb
  exact ⟨hc, hpage'.trans hpage⟩

/-- The opcode fetch leaves the stack alone. -/
theorem StackPage.fetched : I (fetched H s).env ∧ ring page (fetched H s) = ring page s := by
  obtain ⟨hinv, hpage⟩ := hS.env_of_reads hI (m := fetch) (by simp)
  exact ⟨hinv, congrArg (Stack.mk · s.chip.r.sp) hpage⟩

/-- The operand fetches of JSR. -/
def jsrOperand : CpuM Unit := do
  fetchLow
  fetchHigh
  modify fun c => { c with r.pc := c.r.pc - 1 }
  cycle

/-- JSR saves the address of its last byte. -/
theorem ring_jsr :
    ring page (post H instrJsr s) =
      ((ring page s).push (Reg16.high (s.chip.r.pc + 1))).push (Reg16.low (s.chip.r.pc + 1)) := by
  obtain ⟨hinv, hpage⟩ := hS.env_of_reads hI (m := jsrOperand) (by simp [jsrOperand])
  have hring : ring page (post H jsrOperand s) = ring page s :=
    congrArg (Stack.mk · s.chip.r.sp) hpage
  have hpc : (post H jsrOperand s).chip.r.pc = s.chip.r.pc + 1 := BitVec.add_sub_cancel _ _
  have hpost : ring page (post H instrJsr s) =
      ring page (post H (push (Reg16.low (post H jsrOperand s).chip.r.pc))
        (post H (push (Reg16.high (post H jsrOperand s).chip.r.pc)) (post H jsrOperand s))) := rfl
  rw [hpost, hpc, hS.ring_push (hS.inv_push hinv _), hS.ring_push hinv, hring]

/-- What `pullPc` takes from the stack. -/
theorem pullPc_spec :
    let r := (ring page s).pull
    I (post H pullPc s).env ∧ ring page (post H pullPc s) = r.2.pull.2 ∧
      (post H pullPc s).chip.r.pc = Reg16.ofBytes r.1 r.2.pull.1 ∧
      (post H pullPc s).chip.r.flags = s.chip.r.flags := by
  intro r
  set t : Sys Cpu σ := post H (do
    let lo ← pull
    modify fun c => { c with r.pc := c.r.pc.setLow lo }) s with ht
  have hIt : I t.env := hS.inv_pull hI
  have hring : ring page t = r.2 := hS.ring_pull hI
  have hpost : post H pullPc s =
      ⟨{ (post H pull t).chip with
        r.pc := (post H pull t).chip.r.pc.setHigh (val H pull t) }, (post H pull t).env⟩ := rfl
  rw [hpost]
  refine ⟨hS.inv_pull hIt, ?_, ?_, rfl⟩
  · rw [← hring, ← hS.ring_pull hIt]
    unfold ring
    rfl
  · have hhigh : val H pull t = r.2.pull.1 := by
      rw [hS.val_pull hIt, hring]
    show Reg16.setHigh (Reg16.setLow s.chip.r.pc (val H pull s)) (val H pull t) = _
    rw [Reg16.setHigh_setLow, hhigh, hS.val_pull hI]

theorem ring_rts :
    let r := (ring page s).pull
    (post H instrRts s).chip.r.sp = r.2.pull.2.sp ∧
      (post H instrRts s).chip.r.pc = Reg16.ofBytes r.1 r.2.pull.1 + 1 := by
  intro r
  set t : Sys Cpu σ := post H (do
    cycle
    cycle) s
  obtain ⟨-, hring, hpc, -⟩ := pullPc_spec hS (s := t) hI
  have hsp : (post H instrRts s).chip.r.sp = (ring page (post H pullPc t)).sp := rfl
  have hpost : (post H instrRts s).chip.r.pc = (post H pullPc t).chip.r.pc + 1 := rfl
  rw [hsp, hpost, hring, hpc]
  exact ⟨rfl, rfl⟩

theorem ring_saveState :
    I (post H saveState s).env ∧ ring page (post H saveState s) =
      (((ring page s).push (Reg16.high s.chip.r.pc)).push (Reg16.low s.chip.r.pc)).push
        s.chip.r.flags.toByte := by
  have hpost : post H saveState s =
      post H (push s.chip.r.flags.toByte) (post H (push (Reg16.low s.chip.r.pc))
        (post H (push (Reg16.high s.chip.r.pc)) (post H cycle s))) := rfl
  have h0 : I (post H cycle s).env := hI
  have h1 := hS.inv_push h0 (Reg16.high s.chip.r.pc)
  have h2 := hS.inv_push h1 (Reg16.low s.chip.r.pc)
  rw [hpost, hS.ring_push h2, hS.ring_push h1, hS.ring_push h0]
  exact ⟨hS.inv_push h2 _, rfl⟩

/-- The interrupt sequence saves the program counter and the flags. -/
theorem ring_interrupt :
    ring page (post H interrupt s) =
      (((ring page s).push (Reg16.high s.chip.r.pc)).push (Reg16.low s.chip.r.pc)).push
        s.chip.r.flags.toByte := by
  obtain ⟨hsave, hring⟩ := ring_saveState hS hI
  obtain ⟨-, hpage⟩ := hS.env_of_reads hsave (m := do loadPc (← chooseVector))
    (by simp [chooseVector, loadPc])
  rw [interrupt_eq, post_bind, ← hring]
  exact congrArg (Stack.mk · (post H saveState s).chip.r.sp) hpage

theorem ring_rti :
    let f := (ring page s).pull
    let r := f.2.pull
    (post H instrRti s).chip.r.sp = r.2.pull.2.sp ∧
      (post H instrRti s).chip.r.pc = Reg16.ofBytes r.1 r.2.pull.1 ∧
      (post H instrRti s).chip.r.flags = { ProcStatus.ofByte f.1 with breakf := false } := by
  intro f r
  set t : Sys Cpu σ := post H (do
    cycle
    cycle) s
  set u : Sys Cpu σ := post H (do
    let v ← pull
    modify fun c => { c with r.flags := { ProcStatus.ofByte v with breakf := false } }) t
  have hIu : I u.env := hS.inv_pull (s := t) hI
  have hringu : ring page u = f.2 := hS.ring_pull (s := t) hI
  obtain ⟨-, hring, hpc, hflags⟩ := pullPc_spec hS (s := u) hIu
  have hval : val H pull t = f.1 := hS.val_pull (s := t) hI
  have hsp : (post H instrRti s).chip.r.sp = (ring page (post H pullPc u)).sp := rfl
  have hpost : (post H instrRti s).chip.r.pc = (post H pullPc u).chip.r.pc := rfl
  have hpostf : (post H instrRti s).chip.r.flags = (post H pullPc u).chip.r.flags := rfl
  rw [hringu] at hring hpc
  rw [hsp, hpost, hpostf, hring, hpc, hflags, ← hval]
  exact ⟨rfl, rfl, rfl⟩

theorem ring_jsr_run (h : Executes H 0x20 s) :
    ring page (post H run s) = ((ring page s).push (Reg16.high (s.chip.r.pc + 2))).push
      (Reg16.low (s.chip.r.pc + 2)) := by
  obtain ⟨hinv, hring⟩ := hS.fetched hI
  have hjsr := ring_jsr hS hinv
  have hpc : (fetched H s).chip.r.pc + 1 = s.chip.r.pc + 2 := by
    show s.chip.r.pc + 1 + 1 = _
    rw [BitVec.add_assoc]
    rfl
  rw [hring, hpc] at hjsr
  rw [h.post_run]
  exact hjsr

theorem ring_interrupt_run (h : s.chip.sig.execnmi = true ∨ s.chip.sig.execirq = true) :
    ring page (post H run s) = (((ring page s).push (Reg16.high s.chip.r.pc)).push
      (Reg16.low s.chip.r.pc)).push s.chip.r.flags.toByte := by
  have hint := ring_interrupt hS (s := ticked s) hI
  cases hn : s.chip.sig.execnmi with
  | true =>
    rw [post_run_nmi _ _ hn]
    exact hint
  | false =>
    rw [post_run_irq _ _ hn (h.resolve_left (by simp [hn]))]
    exact hint

theorem ring_rts_run (h : Executes H 0x60 s) :
    (post H run s).chip.r.sp = (ring page s).pull.2.pull.2.sp ∧
      (post H run s).chip.r.pc =
        Reg16.ofBytes (ring page s).pull.1 (ring page s).pull.2.pull.1 + 1 := by
  obtain ⟨hinv, hring⟩ := hS.fetched hI
  have hrts := ring_rts hS hinv
  rw [hring] at hrts
  rw [h.post_run]
  exact hrts

theorem ring_rti_run (h : Executes H 0x40 s) :
    (post H run s).chip.r.sp = (ring page s).pull.2.pull.2.pull.2.sp ∧
      (post H run s).chip.r.pc =
        Reg16.ofBytes (ring page s).pull.2.pull.1 (ring page s).pull.2.pull.2.pull.1 ∧
      (post H run s).chip.r.flags =
        { ProcStatus.ofByte (ring page s).pull.1 with breakf := false } := by
  obtain ⟨hinv, hring⟩ := hS.fetched hI
  have hrti := ring_rti hS hinv
  rw [hring] at hrti
  rw [h.post_run]
  exact hrti

omit hI in
/-- RTS goes back behind a JSR. -/
theorem rts_returns {t : Sys Cpu σ} (hI : I s.env) (hI' : I t.env) (hjsr : Executes H 0x20 s)
    (hint : Intact page [s.chip.r.sp, s.chip.r.sp - 1] (post H run s) t)
    (hrts : Executes H 0x60 t) :
    (post H run t).chip.r.pc = s.chip.r.pc + 3 ∧ (post H run t).chip.r.sp = s.chip.r.sp := by
  have hsp : (ring page t).sp = (ring page (post H run s)).sp := hint.sp
  have hmem : ∀ i ∈ [(ring page s).sp, (ring page s).sp - 1],
      (ring page t).mem i = (ring page (post H run s)).mem i := hint.cells
  rw [ring_jsr_run hS hI hjsr] at hsp hmem
  obtain ⟨hlow, hhigh, hback⟩ := pull_two hsp hmem
  obtain ⟨hsp', hpc⟩ := ring_rts_run hS hI' hrts
  refine ⟨?_, hsp'.trans hback⟩
  rw [hpc, hlow, hhigh, Reg16.ofBytes_low_high, BitVec.add_assoc]
  rfl

omit hI in
/-- RTI goes back to the address and the flags that a run has saved. -/
theorem rti_returns {t : Sys Cpu σ} {p : Uint16} {v : Uint8} (hI' : I t.env)
    (hsaved : ring page (post H run s) =
      (((ring page s).push (Reg16.high p)).push (Reg16.low p)).push v)
    (hint : Intact page [s.chip.r.sp, s.chip.r.sp - 1, s.chip.r.sp - 2] (post H run s) t)
    (hrti : Executes H 0x40 t) :
    (post H run t).chip.r.pc = p ∧ (post H run t).chip.r.sp = s.chip.r.sp ∧
      (post H run t).chip.r.flags = { ProcStatus.ofByte v with breakf := false } := by
  have hsp : (ring page t).sp = (ring page (post H run s)).sp := hint.sp
  have hmem : ∀ i ∈ [(ring page s).sp, (ring page s).sp - 1, (ring page s).sp - 2],
      (ring page t).mem i = (ring page (post H run s)).mem i := hint.cells
  rw [hsaved] at hsp hmem
  obtain ⟨hstatus, hlow, hhigh, hback⟩ := pull_three hsp hmem
  obtain ⟨hsp', hpc, hflags⟩ := ring_rti_run hS hI' hrti
  refine ⟨?_, hsp'.trans hback, ?_⟩
  · rw [hpc, hlow, hhigh, Reg16.ofBytes_low_high]
  · rw [hflags, hstatus]

end Cpu

namespace Emulator

open Cpu (ring)

/-- The CPU's part of a round. -/
def cpuRun (e : Emulator) : Emulator := (e.onCpu Cpu.run).2

/-- `run` executes the instruction with this opcode. -/
structure Executes (op : Uint8) (e : Emulator) : Prop where
  nmi : e.cpu.sig.execnmi = false
  irq : e.cpu.sig.execirq = false
  opcode : Cpu.opcode cpuEnv ⟨e.cpu, e⟩ = op

/-- Some execution has led from `e` to `e'`: the stack pointer is where it was, and these cells of
the stack hold what they held. -/
structure Intact (cells : List Uint8) (e e' : Emulator) : Prop where
  ram : RamServed e'.rambus
  sp : e'.cpu.r.sp = e.cpu.r.sp
  cells : ∀ i ∈ cells, e'.stackPage i = e.stackPage i

/-- The stack of the machine. -/
def stack (e : Emulator) : Stack 8 Uint8 := ring stackPage ⟨e.cpu, e⟩

theorem Executes.cpu {e : Emulator} {op : Uint8} (h : e.Executes op) :
    Cpu.Executes cpuEnv op ⟨e.cpu, e⟩ := ⟨h.nmi, h.irq, h.opcode⟩

theorem Intact.cpu {cells : List Uint8} {e e' : Emulator} (h : Intact cells e.cpuRun e') :
    Cpu.Intact stackPage cells (post cpuEnv Cpu.run ⟨e.cpu, e⟩) ⟨e'.cpu, e'⟩ := ⟨h.sp, h.cells⟩

theorem stack_interrupt {e : Emulator} (hb : RamServed e.rambus)
    (h : e.cpu.sig.execnmi = true ∨ e.cpu.sig.execirq = true) :
    e.cpuRun.stack = ((e.stack.push (Reg16.high e.cpu.r.pc)).push (Reg16.low e.cpu.r.pc)).push
      e.cpu.r.flags.toByte :=
  Cpu.ring_interrupt_run stackPage_ram (s := ⟨e.cpu, e⟩) hb h

/-- **Returns.** RTS goes back behind its JSR, and RTI restores what an NMI or IRQ has
interrupted, whatever has been executed in between, if the stack pointer and the saved bytes are
as the JSR or the entry left them. -/
theorem returns_match {e : Emulator} (hb : RamServed e.rambus) :
    (∀ e' : Emulator, e.Executes 0x20 →
      Intact [e.cpu.r.sp, e.cpu.r.sp - 1] e.cpuRun e' → e'.Executes 0x60 →
      e'.cpuRun.cpu.r.pc = e.cpu.r.pc + 3 ∧ e'.cpuRun.cpu.r.sp = e.cpu.r.sp) ∧
    (∀ e' : Emulator, e.cpu.r.flags.breakf = false →
      (e.cpu.sig.execnmi = true ∨ e.cpu.sig.execirq = true) →
      Intact [e.cpu.r.sp, e.cpu.r.sp - 1, e.cpu.r.sp - 2] e.cpuRun e' → e'.Executes 0x40 →
      e'.cpuRun.cpu.r.pc = e.cpu.r.pc ∧ e'.cpuRun.cpu.r.sp = e.cpu.r.sp ∧
        e'.cpuRun.cpu.r.flags = e.cpu.r.flags) := by
  constructor
  · intro e' hjsr hint hrts
    exact Cpu.rts_returns stackPage_ram hb hint.ram hjsr.cpu hint.cpu hrts.cpu
  · intro e' hbreak hexec hint hrti
    obtain ⟨hpc, hsp, hflags⟩ := Cpu.rti_returns stackPage_ram (s := ⟨e.cpu, e⟩) hint.ram
      (stack_interrupt hb hexec) hint.cpu hrti.cpu
    refine ⟨hpc, hsp, hflags.trans ?_⟩
    rw [ProcStatus.ofByte_toByte, ← hbreak]

/-- A JSR to `0x0300`, where the NMI vector points too, and the instruction there. -/
def returnRam (op : Uint8) : ℕ → Uint8 := fun i =>
  if i = 0 then 0x20 else if i = 2 ∨ i = 0x7FB then 0x03 else if i = 0x300 then op else 0

def callState : Emulator := { construct zeroed with rammem := returnRam 0x60 }

def nmiState : Emulator :=
  { construct zeroed with
    rammem := returnRam 0x40, cpu.sig.nmipending := true, cpu.sig.execnmi := true }

/-- A call and an NMI with the stack pointer at zero, so that the second byte goes to the top of
the page. -/
theorem returns_match_wraps :
    (callState.cpuRun.cpu.r.pc = 0x0300 ∧ callState.cpuRun.cpuRun.cpu.r.pc = 3 ∧
      callState.cpuRun.cpuRun.cpu.r.sp = 0) ∧
    nmiState.cpuRun.cpu.r.pc = 0x0300 ∧ nmiState.cpuRun.cpuRun.cpu.r.pc = 0 ∧
      nmiState.cpuRun.cpuRun.cpu.r.sp = 0 ∧
      nmiState.cpuRun.cpuRun.cpu.r.flags = nmiState.cpu.r.flags := by
  have hcall : RamServed callState.rambus := ramServed_construct zeroed
  have hnmi : RamServed nmiState.rambus := ramServed_construct zeroed
  have hcall' := (returns_match hcall).1 callState.cpuRun ⟨rfl, rfl, rfl⟩
    ⟨hcall, rfl, fun _ _ => rfl⟩ ⟨rfl, rfl, rfl⟩
  have hnmi' := (returns_match hnmi).2 nmiState.cpuRun rfl (Or.inl rfl)
    ⟨hnmi, rfl, fun _ _ => rfl⟩ ⟨rfl, rfl, rfl⟩
  exact ⟨⟨rfl, hcall'⟩, rfl, hnmi'⟩

end Emulator

end Yanesemu
