import Yanesemu.Lib.RingStack
import Yanesemu.BusMap

/-!
# The stack

The stack is a page of RAM with an 8-bit pointer, so it is a ring of 256 cells. `StackPage` says
what the CPU needs of its environment for that: the page behaves as memory, and no other access
the CPU makes by itself changes it. The emulator's RAM does (`stackPage_ram`), whatever the rest
of its bus is.

The CPU's `push` and `pull` are then those of the ring (`stackOps_run`). JSR with RTS, and the
entry of an interrupt with RTI, save two and three bytes on it and take them back.
-/

namespace Yanesemu

open Interaction EventRun RingStack

namespace Cpu

variable {σ : Type}

/-- The stack page behaves as memory, in environments that satisfy `I`. -/
structure StackPage (H : Handler cpuSig σ) (I : σ → Prop) (page : σ → Uint8 → Uint8) : Prop where
  readVal : ∀ i e, I e → readVal H (stackAddr i) e = page e i
  inv_readEnv : ∀ a e, I e → I (readEnv H a e)
  page_readEnv : ∀ a e, I e → page (readEnv H a e) = page e
  inv_writeEnv : ∀ i d e, I e → I (writeEnv H (stackAddr i) d e)
  page_writeEnv : ∀ i d e, I e →
    page (writeEnv H (stackAddr i) d e) = Function.update (page e) i d
  inv_called : ∀ c a m e, I e → I (called H c a m e)
  page_called : ∀ c a m e, I e → page (called H c a m e) = page e

/-- A sequence of `push` and `pull`, with the bytes pulled. -/
def stackOps : List (Op Uint8) → CpuM (List Uint8)
  | [] => pure []
  | .push v :: ops => do
    push v
    stackOps ops
  | .pull :: ops => do
    let v ← pull
    let vs ← stackOps ops
    return v :: vs

section StackPage

variable {H : Handler cpuSig σ} {I : σ → Prop} {page : σ → Uint8 → Uint8}

/-- The stack of a CPU in its environment. -/
def ring (page : σ → Uint8 → Uint8) (s : Sys Cpu σ) : Stack 8 Uint8 := ⟨page s.env, s.chip.r.sp⟩

variable (hS : StackPage H I page) {s : Sys Cpu σ} (hI : I s.env)
include hS hI

theorem StackPage.inv_push (v : Uint8) : I (post H (push v) s).env := by
  rw [post_push]
  exact hS.inv_writeEnv _ _ _ (hS.inv_called _ _ _ _ hI)

theorem StackPage.ring_push (v : Uint8) : ring page (post H (push v) s) = (ring page s).push v := by
  unfold ring
  rw [post_push, hS.page_writeEnv _ _ _ (hS.inv_called _ _ _ _ hI), hS.page_called _ _ _ _ hI]
  rfl

theorem StackPage.inv_pull : I (post H pull s).env := by
  rw [post_pull]
  exact hS.inv_readEnv _ _ (hS.inv_called _ _ _ _ hI)

theorem StackPage.val_pull : val H pull s = (ring page s).pull.1 := by
  rw [Cpu.val_pull, hS.readVal _ _ (hS.inv_called _ _ _ _ hI), hS.page_called _ _ _ _ hI]
  rfl

theorem StackPage.ring_pull : ring page (post H pull s) = (ring page s).pull.2 := by
  unfold ring
  rw [post_pull, hS.page_readEnv _ _ (hS.inv_called _ _ _ _ hI), hS.page_called _ _ _ _ hI]
  rfl

/-- **Simulation.** The CPU's stack operations are those of the ring. -/
theorem stackOps_run (ops : List (Op Uint8)) :
    val H (stackOps ops) s = ((ring page s).run ops).1 ∧
      ring page (post H (stackOps ops) s) = ((ring page s).run ops).2 := by
  induction ops generalizing s with
  | nil => exact ⟨rfl, rfl⟩
  | cons op ops ih =>
    cases op with
    | push v =>
      obtain ⟨hval, hring⟩ := ih (hS.inv_push hI v)
      rw [hS.ring_push hI] at hval hring
      rw [stackOps, val_bind, post_bind]
      exact ⟨hval, hring⟩
    | pull =>
      obtain ⟨hval, hring⟩ := ih (hS.inv_pull hI)
      rw [hS.ring_pull hI] at hval hring
      rw [stackOps, val_bind, post_bind, val_bind, post_bind, val_pure, post_pure, hval, hring,
        hS.val_pull hI]
      exact ⟨rfl, rfl⟩

end StackPage

end Cpu

/-! ### The page of RAM -/

/-- RAM is on the CPU's bus, as `CPU::attach_bus` puts it there. -/
def RamServed (b : RamBus) : Prop :=
  ∀ a : Uint16, a.toNat < 0x2000 → b.reader a = .ram ∧ b.writer a = .ram

theorem toNat_stackAddr (sp : Uint8) : (Cpu.stackAddr sp).toNat = 0x100 + sp.toNat := by
  have := sp.isLt
  unfold Cpu.stackAddr stackBase
  rw [BitVec.toNat_add, BitVec.toNat_setWidth]
  show (sp.toNat % 65536 + 0x100) % 65536 = _
  omega

theorem Cpu.stackAddr_injective : Function.Injective Cpu.stackAddr := by
  intro i j h
  apply BitVec.eq_of_toNat_eq
  have hnat := congrArg BitVec.toNat h
  rw [toNat_stackAddr, toNat_stackAddr] at hnat
  omega

/-- A flat memory has a stack page. -/
theorem Cpu.stackPage_flatMem :
    Cpu.StackPage flatMem (fun _ => True) fun m i => m (Cpu.stackAddr i) where
  readVal _ _ _ := rfl
  inv_readEnv _ _ _ := trivial
  page_readEnv _ _ _ := rfl
  inv_writeEnv _ _ _ _ := trivial
  page_writeEnv i d m _ :=
    Function.update_comp_eq_of_injective m stackAddr_injective i d
  inv_called _ _ _ _ _ := trivial
  page_called _ _ _ _ _ := rfl

namespace Emulator

/-- The stack page. -/
def stackPage (e : Emulator) (i : Uint8) : Uint8 := e.rammem (0x100 + i.toNat)

theorem stackCell (sp : Uint8) : (Cpu.stackAddr sp &&& 0x7FF).toNat = 0x100 + sp.toNat := by
  have := sp.isLt
  rw [toNat_and_7FF, toNat_stackAddr]
  omega

theorem readVal_stack {e : Emulator} (hb : RamServed e.rambus) (i : Uint8) :
    Cpu.readVal cpuEnv (Cpu.stackAddr i) e = e.stackPage i := by
  have := i.isLt
  have harea := (hb (Cpu.stackAddr i) (by rw [toNat_stackAddr]; omega)).1
  show (e.readRam _ (e.rambus.reader _)).1 = _
  rw [harea, readRam, stackCell]
  rfl

theorem writeEnv_stack {e : Emulator} (hb : RamServed e.rambus) (i d : Uint8) :
    Cpu.writeEnv cpuEnv (Cpu.stackAddr i) d e =
      { e with rammem := Function.update e.rammem (0x100 + i.toNat) d } := by
  have := i.isLt
  have harea := (hb (Cpu.stackAddr i) (by rw [toNat_stackAddr]; omega)).2
  show e.writeRam _ d (e.rambus.writer _) = _
  rw [harea, writeRam, stackCell]

/-- The stack page of RAM is memory for the CPU. -/
theorem stackPage_ram :
    Cpu.StackPage cpuEnv (fun e : Emulator => RamServed e.rambus) stackPage where
  readVal i e hb := readVal_stack hb i
  inv_readEnv a e hb := by
    obtain ⟨p, v, pal, he⟩ := onlyPpu_readRam e a (e.rambus.reader a)
    show RamServed (e.readRam a _).2.rambus
    rw [he]
    exact hb
  page_readEnv a e hb := by
    obtain ⟨p, v, pal, he⟩ := onlyPpu_readRam e a (e.rambus.reader a)
    show (e.readRam a _).2.stackPage = _
    rw [he]
    rfl
  inv_writeEnv i d e hb := by
    rw [writeEnv_stack hb]
    exact hb
  page_writeEnv i d e hb := by
    rw [writeEnv_stack hb]
    funext j
    unfold stackPage
    by_cases hij : j = i
    · subst hij
      rw [Function.update_self]
      exact Function.update_self ..
    · have hne : 0x100 + j.toNat ≠ 0x100 + i.toNat := fun h =>
        hij (BitVec.eq_of_toNat_eq (by omega))
      rw [Function.update_of_ne hij]
      exact Function.update_of_ne hne ..
  inv_called c a m e hb := hb
  page_called c a m e hb := rfl

/-! ### Last in, first out -/

/-- What stack operations ask for. -/
def StackOp : CpuOp → Prop
  | .read a => ∃ i, a = Cpu.stackAddr i
  | .write a _ => ∃ i, a = Cpu.stackAddr i
  | .fetchCallback _ _ _ => True

theorem keeps_stackOps (ops : List (Op Uint8)) :
    Keeps StackOp (fun _ _ => True) (Cpu.stackOps ops) := by
  induction ops with
  | nil => exact Keeps.pure (fun _ => trivial) _
  | cons op ops ih =>
    cases op with
    | push v =>
      refine Keeps.bind (fun _ _ _ _ _ => trivial) ?_ fun _ => ih
      intro c
      exact ⟨trivial, fun _ => ⟨⟨_, rfl⟩, fun _ => trivial⟩⟩
    | pull =>
      refine Keeps.bind (fun _ _ _ _ _ => trivial) ?_ ?_
      · intro c
        exact ⟨trivial, fun _ => ⟨⟨_, rfl⟩, fun _ => trivial⟩⟩
      · intro v
        exact Keeps.bind (fun _ _ _ _ _ => trivial) ih fun _ => Keeps.pure (fun _ => trivial) _

/-- Equal but for cells of the stack page. -/
def OnlyStack (e e' : Emulator) : Prop :=
  ∃ mem, e' = { e with rammem := mem } ∧ ∀ k, ¬(0x100 ≤ k ∧ k ≤ 0x1FF) → mem k = e.rammem k

theorem OnlyStack.refl (e : Emulator) : OnlyStack e e := ⟨e.rammem, rfl, fun _ _ => rfl⟩

/-- The bus is not changed on the way. -/
theorem OnlyStack.trans_of_served {a b c : Emulator} (h : RamServed a.rambus → OnlyStack a b)
    (h' : RamServed b.rambus → OnlyStack b c) (ha : RamServed a.rambus) : OnlyStack a c := by
  obtain ⟨mem, rfl, hmem⟩ := h ha
  obtain ⟨mem', rfl, hmem'⟩ := h' ha
  exact ⟨mem', rfl, fun k hk => (hmem' k hk).trans (hmem k hk)⟩

theorem onlyStack_cpuEnv {e : Emulator} (hb : RamServed e.rambus) {o : CpuOp} (ho : StackOp o) :
    OnlyStack e (cpuEnv o e).2 := by
  cases o with
  | read a =>
    obtain ⟨i, rfl⟩ := ho
    have := i.isLt
    have harea := (hb (Cpu.stackAddr i) (by rw [toNat_stackAddr]; omega)).1
    show OnlyStack e (e.readRam _ (e.rambus.reader _)).2
    rw [harea]
    exact OnlyStack.refl e
  | write a d =>
    obtain ⟨i, rfl⟩ := ho
    have := i.isLt
    show OnlyStack e (Cpu.writeEnv cpuEnv (Cpu.stackAddr i) d e)
    rw [writeEnv_stack hb]
    refine ⟨_, rfl, fun k hk => Function.update_of_ne ?_ ..⟩
    omega
  | fetchCallback c a mode => exact OnlyStack.refl e

/-- **The stack.** For every content of RAM and every stack pointer, a well-nested sequence of
pushes and pulls that is at most 256 deep pulls what was pushed, brings the pointer back, and
writes the stack page only. -/
theorem stack_lifo {e : Emulator} (hb : RamServed e.rambus) {ops : List (Op Uint8)}
    {vs : List Uint8} (h : matched 256 [] ops = some vs) :
    (e.onCpu (Cpu.stackOps ops)).1 = vs ∧
    (e.onCpu (Cpu.stackOps ops)).2.cpu.r.sp = e.cpu.r.sp ∧
    (∀ a d, .write a d ∈ asked cpuEnv (Cpu.stackOps ops) ⟨e.cpu, e⟩ →
      0x0100 ≤ a.toNat ∧ a.toNat ≤ 0x01FF) ∧
    ∃ cpu mem, (e.onCpu (Cpu.stackOps ops)).2 = { e with cpu := cpu, rammem := mem } ∧
      ∀ k, ¬(0x0100 ≤ k ∧ k ≤ 0x01FF) → mem k = e.rammem k := by
  obtain ⟨hval, hring⟩ := Cpu.stackOps_run stackPage_ram (s := ⟨e.cpu, e⟩) hb ops
  have hempty : Holds (Cpu.ring stackPage ⟨e.cpu, e⟩).mem (Cpu.ring stackPage ⟨e.cpu, e⟩).sp [] :=
    trivial
  obtain ⟨hvs, hsp⟩ := run_of_matched hempty h
  have hops := (keeps_stackOps ops).of_asked cpuEnv ⟨e.cpu, e⟩
  have henv : OnlyStack e (post cpuEnv (Cpu.stackOps ops) ⟨e.cpu, e⟩).env :=
    post_env_along (R := fun a b : Emulator => RamServed a.rambus → OnlyStack a b)
      (fun a _ => OnlyStack.refl a) (fun _ _ _ => OnlyStack.trans_of_served)
      (fun _ _ ho ha => onlyStack_cpuEnv ha ho) hops hb
  refine ⟨hval.trans hvs, ?_, ?_, ?_⟩
  · exact (congrArg Stack.sp hring).trans (hsp.trans (BitVec.add_zero _))
  · intro a d ha
    obtain ⟨i, rfl⟩ := hops _ ha
    have := i.isLt
    rw [toNat_stackAddr]
    omega
  · obtain ⟨mem, hmem, hcells⟩ := henv
    refine ⟨(post cpuEnv (Cpu.stackOps ops) ⟨e.cpu, e⟩).chip, mem, ?_, hcells⟩
    unfold onCpu
    rw [hmem]

theorem ramServed_construct (fresh : Fresh) : RamServed (construct fresh).rambus := by
  intro a ha
  have hs : Bus.Serves ((fresh.rambus.reset 0x10000 fresh.ramLookup).mapAll
      ([] ++ ⟨0x0000, 0x2000, .ram, .ram⟩ ::
        [⟨0x4000, 0x4020, .apu, .apu⟩, ⟨0x2000, 0x4000, .ppuReg, .ppuReg⟩])) a.toNat
      (0 + 0) .ram .ram := by
    refine (Bus.taken_reset _ _ _).serves_mapAll (by decide) ⟨Nat.zero_le _, ha⟩ ?_
    simp [Bus.Area.Has]
    omega
  exact ⟨hs.reader_eq, hs.writer_eq⟩

/-- Nested pushes and pulls on a new emulator, whose stack pointer is zero: the second push goes
to the top of the page. -/
theorem stack_lifo_wraps :
    ((construct zeroed).onCpu (Cpu.stackOps [.push 1, .push 2, .pull, .push 3, .pull, .pull])).1 =
      [2, 3, 1] :=
  (stack_lifo (ramServed_construct zeroed) rfl).1

end Emulator

end Yanesemu
