import Flinstone.Vm.Memory

/-!
# The virtual CPU

`vm_cpu.c` and the register accessors of `vm.c`.
-/

namespace Flinstone.Vm

abbrev Reg := Fin 8

structure VmCpu where
  regs : Reg → Word
  eip : Word
  cs : Word
  ds : Word
  es : Word
  ss : Word
  fs : Word
  gs : Word
  eflags : Word
  cr0 : Word
  cr3 : Word
  halted : Bool

def vmCpuInit : VmCpu where
  regs := fun _ => 0
  eip := 0
  cs := 0x07c0
  ds := 0
  es := 0
  ss := 0
  fs := 0
  gs := 0
  eflags := 0
  cr0 := 0
  cr3 := 0
  halted := false

def eax : Reg := 0
def edx : Reg := 2
def esp : Reg := 4
def edi : Reg := 7

-- the register number `-1` is `none`
def getReg32 (cpu : VmCpu) (r : Option Reg) : Word := r.elim 0 cpu.regs

def setReg32 (cpu : VmCpu) (r : Option Reg) (v : Word) : VmCpu :=
  match r with
  | none => cpu
  | some r => { cpu with regs := Function.update cpu.regs r v }

def getReg8Lo (cpu : VmCpu) (r : Option Reg) : Byte := (getReg32 cpu r).setWidth 8

def setReg8Lo (cpu : VmCpu) (r : Option Reg) (v : Byte) : VmCpu :=
  setReg32 cpu r ((getReg32 cpu r &&& 0xFFFFFF00) ||| v.setWidth 32)

def vmCpuLinearAddr (seg offset : Word) : Word := (seg <<< 4) + offset

def pdeAddr (cr3 linear : Word) : Word := (cr3 &&& 0xFFFFF000) + ((linear >>> 22) &&& 0x3FF) * 4

def pteAddr (pde linear : Word) : Word := (pde &&& 0xFFFFF000) + ((linear >>> 12) &&& 0x3FF) * 4

variable {n : Nat}

-- a directory or table entry, if it lies in RAM and is present; the sum is 32 bits wide
def pageEntry (ram : Ram n) (addr : Word) : Except Stop (Option Word) :=
  if (addr + 4).toNat > n then .ok none
  else
    (copyOut ram addr.toNat 4).map fun bytes =>
      if wordOf bytes &&& 1 = 0 then none else some (wordOf bytes)

def vmCpuTranslate (ram : Ram n) (cr0 cr3 linear : Word) : Except Stop Word :=
  if cr0 &&& 0x80000000 = 0 then .ok linear
  else if n < 4096 then .ok linear
  else do
    match ← pageEntry ram (pdeAddr cr3 linear) with
    | none => return linear
    | some pde =>
      match ← pageEntry ram (pteAddr pde linear) with
      | none => return linear
      | some pte => return (pte &&& 0xFFFFF000) + (linear &&& 0xFFF)

def guestEipLinear (cpu : VmCpu) : Word := vmCpuLinearAddr cpu.cs cpu.eip

def translateAddr (cpu : VmCpu) (mem : VmMem n) (linear : Word) : Except Stop Word :=
  vmCpuTranslate mem.ram cpu.cr0 cpu.cr3 linear

end Flinstone.Vm
