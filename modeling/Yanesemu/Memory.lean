import Yanesemu.CpuSpec

/-!
# Memories to run the CPU on

A flat memory is 64 KiB of cells with no other effect. More generally a bus may do anything on a
write as long as its reads have no side effect; `PureReads` is that property of a handler, with
no fetch callback installed.
-/

namespace Yanesemu

open Interaction

/-- A flat memory. -/
abbrev Mem := Uint16 → Uint8

/-- The CPU on a flat memory, no fetch callback installed. -/
def flatMem : Handler cpuSig Mem
  | .read a, m => (m a, m)
  | .write a d, m => ((), Function.update m a d)
  | .fetchCallback _ _ _, m => ((), m)

namespace Cpu

@[simp] theorem readVal_flatMem (a : Uint16) (m : Mem) : readVal flatMem a m = m a := rfl

@[simp] theorem readEnv_flatMem (a : Uint16) (m : Mem) : readEnv flatMem a m = m := rfl

@[simp] theorem writeEnv_flatMem (a : Uint16) (d : Uint8) (m : Mem) :
    writeEnv flatMem a d m = Function.update m a d := rfl

@[simp] theorem called_flatMem (c : Cpu) (a : Uint16) (mode : AccessMode) (m : Mem) :
    called flatMem c a mode m = m := rfl

end Cpu

/-- Reads, and the absent fetch callback, leave the environment as it is. -/
structure PureReads {σ : Type} (H : Handler cpuSig σ) : Prop where
  read : ∀ a e, (H (.read a) e).2 = e
  callback : ∀ c a m e, (H (.fetchCallback c a m) e).2 = e

section PureReads

variable {σ : Type} {H : Handler cpuSig σ} (hp : PureReads H)
include hp

theorem PureReads.readEnv_eq (a : Uint16) (e : σ) : Cpu.readEnv H a e = e := hp.read a e

theorem PureReads.called_eq (c : Cpu) (a : Uint16) (m : AccessMode) (e : σ) :
    Cpu.called H c a m e = e := hp.callback c a m e

end PureReads

theorem pureReads_flatMem : PureReads flatMem := ⟨fun _ _ => rfl, fun _ _ _ _ => rfl⟩

end Yanesemu
