import Flinstone.Lib.Loop
import Flinstone.Vm.Decode
import Flinstone.Vm.Io

/-!
# Executing instructions

`execute` and `vm_run_step` of `vm.c`.
-/

namespace Flinstone.Vm
open Flinstone.Lib Flinstone.Sys

variable {n : Nat} {W : Type}

namespace VmState

def cpu (vm : VmState n W) : VmCpu := vm.host.cpu

def mem (vm : VmState n W) : VmMem n := vm.host.mem

def setCpu (vm : VmState n W) (cpu : VmCpu) : VmState n W := { vm with host := { vm.host with cpu } }

def setMem (vm : VmState n W) (mem : VmMem n) : VmState n W := { vm with host := { vm.host with mem } }

def reg (vm : VmState n W) (r : Reg) : Word := vm.cpu.regs r

def setReg (vm : VmState n W) (r : Reg) (v : Word) : VmState n W := vm.setCpu (setReg32 vm.cpu (some r) v)

end VmState

def stackLinear (cpu : VmCpu) : Word := vmCpuLinearAddr cpu.ss (cpu.regs esp)

-- `esp -= count`, then a write at the new top whose failure is ignored
def pushStack (count : Nat) (value : VmCpu → Word) (vm : VmState n W) : Except Stop (VmState n W) := do
  let vm := vm.setReg esp (vm.reg esp - BitVec.ofNat 32 count)
  let phys ← translateAddr vm.cpu vm.mem (stackLinear vm.cpu)
  let written ← vmMemWrite vm.mem phys (bytesOf (value vm.cpu) count)
  return vm.setMem (written.getD vm.mem)

-- a read at the top into an uninitialised local, then `esp += count`
def popStack (count : Nat) (vm : VmState n W) : Except Stop (Word × VmState n W) := do
  let phys ← translateAddr vm.cpu vm.mem (stackLinear vm.cpu)
  match ← vmMemRead vm.mem phys count with
  | some bytes =>
    return (wordOf bytes, vm.setReg esp (vm.reg esp + BitVec.ofNat 32 count))
  | none =>
    let garbage := wordOf (bytesOf (vm.stack 0) count)
    let vm := { vm with stack := fun i => vm.stack (i + 1) }
    return (garbage, vm.setReg esp (vm.reg esp + BitVec.ofNat 32 count))

def zeroFlag : Word := 0x40

def setZeroFlag (cpu : VmCpu) (zero : Bool) : VmCpu :=
  { cpu with eflags := if zero then cpu.eflags ||| zeroFlag else cpu.eflags &&& ~~~zeroFlag }

def branchOffset (instr : VmInstr) : Word := (instr.imm.setWidth 8).signExtend 32 + BitVec.ofNat 32 instr.size

def jumpIf (taken : Bool) (instr : VmInstr) (cpu : VmCpu) : VmCpu :=
  if taken then { cpu with eip := cpu.eip + branchOffset instr } else cpu

def aluOperand (instr : VmInstr) (cpu : VmCpu) : Word :=
  match instr.srcReg with
  | some r => cpu.regs r
  | none => (instr.imm.setWidth 8).signExtend 32

def alu (f : Word → Word → Word) (instr : VmInstr) (cpu : VmCpu) : VmCpu :=
  match instr.dstReg with
  | none => cpu
  | some r =>
    let result := f (cpu.regs r) (aluOperand instr cpu)
    setZeroFlag (setReg32 cpu (some r) result) (result == 0)

def movCr (instr : VmInstr) (cpu : VmCpu) : VmCpu :=
  if instr.imm = 0 then
    let crval := if instr.dstReg = some 0 then cpu.cr0 else if instr.dstReg = some 3 then cpu.cr3 else 0
    setReg32 cpu instr.srcReg crval
  else
    let val := getReg32 cpu instr.srcReg
    if instr.dstReg = some 0 then { cpu with cr0 := val }
    else if instr.dstReg = some 3 then { cpu with cr3 := val }
    else cpu

def executeCpu (instr : VmInstr) (cpu : VmCpu) : Option VmCpu :=
  match instr.op with
  | .nop => some cpu
  | .hlt => some { cpu with halted := true }
  | .mov =>
    if instr.dstReg.isSome ∧ instr.srcReg.isNone then some (setReg32 cpu instr.dstReg instr.imm)
    else some cpu
  | .jmp => some (jumpIf true instr cpu)
  | .jz => some (jumpIf (cpu.eflags &&& zeroFlag != 0) instr cpu)
  | .jnz => some (jumpIf (cpu.eflags &&& zeroFlag == 0) instr cpu)
  | .inc => some (setReg32 cpu instr.dstReg (getReg32 cpu instr.dstReg + 1))
  | .dec => some (setReg32 cpu instr.dstReg (getReg32 cpu instr.dstReg - 1))
  | .cmp => some (setZeroFlag cpu (getReg8Lo cpu (some eax) == instr.imm.setWidth 8))
  | .test => some (setZeroFlag cpu (getReg8Lo cpu (some eax) &&& instr.imm.setWidth 8 == 0))
  | .add => some (alu (· + ·) instr cpu)
  | .sub => some (alu (· - ·) instr cpu)
  | .movCr => some (movCr instr cpu)
  | _ => none

def executeInt (instr : VmInstr) (vm : VmState n W) : Except Stop (VmState n W) := do
  let ip := vm.cpu.eip &&& 0xFFFF
  let cs := vm.cpu.cs &&& 0xFFFF
  let vm ← pushStack 2 (fun cpu => cpu.eflags) vm
  let vm ← pushStack 2 (fun _ => cs) vm
  let vm ← pushStack 2 (fun _ => ip) vm
  let ivtPhys ← translateAddr vm.cpu vm.mem ((instr.imm &&& 0xFF) * 4)
  -- both locals were set above, so a failed read leaves the old value
  if (ivtPhys + 4).toNat ≤ n then
    let newIp ← vmMemRead vm.mem ivtPhys 2
    let newCs ← vmMemRead vm.mem (ivtPhys + 2) 2
    return vm.setCpu { vm.cpu with
      eip := (newIp.map wordOf).getD ip
      cs := (newCs.map wordOf).getD cs }
  else return vm

def executeIret (vm : VmState n W) : Except Stop (VmState n W) := do
  let (ip, vm) ← popStack 2 vm
  let (cs, vm) ← popStack 2 vm
  let (flags, vm) ← popStack 2 vm
  return vm.setCpu { vm.cpu with
    eip := ip, cs := cs, eflags := (vm.cpu.eflags &&& 0xFFFF0000) ||| flags }

def executeStosb (vm : VmState n W) : Except Stop (VmState n W) := do
  let di := vm.reg edi
  let phys ← translateAddr vm.cpu vm.mem (vmCpuLinearAddr vm.cpu.es (di &&& 0xFFFF))
  let mem ← vmMemWrite8 vm.mem phys (getReg8Lo vm.cpu (some eax))
  return (vm.setMem mem).setReg edi ((di &&& 0xFFFF0000) ||| ((di + 1) &&& 0xFFFF))

def execute (env : Env W) (instr : VmInstr) (vm : VmState n W) : Except Stop (Option (VmState n W)) :=
  match instr.op with
  | .inn =>
    let (v, vm) := vmIoIn env instr.imm 1 vm
    .ok (some (vm.setCpu (setReg8Lo vm.cpu (some eax) (v.setWidth 8))))
  | .out => (vmIoOut env instr.imm ((getReg8Lo vm.cpu (some eax)).setWidth 32) 1 vm).map some
  | .inDx =>
    let (v, vm) := vmIoIn env (vm.reg edx &&& 0xFFFF) 4 vm
    .ok (some (vm.setReg eax v))
  | .outDx => (vmIoOut env (vm.reg edx &&& 0xFFFF) (vm.reg eax) 4 vm).map some
  | .push => (pushStack 4 (fun cpu => getReg32 cpu instr.dstReg) vm).map some
  | .pop =>
    (popStack 4 vm).map fun (v, vm) => some (vm.setCpu (setReg32 vm.cpu instr.dstReg v))
  | .ret => (popStack 2 vm).map fun (ip, vm) => some (vm.setCpu { vm.cpu with eip := ip })
  | .int => (executeInt instr vm).map some
  | .iret => (executeIret vm).map some
  | .stosb => (executeStosb vm).map some
  | _ => .ok ((executeCpu instr vm.cpu).map vm.setCpu)

def advanceEip (instr : VmInstr) (vm : VmState n W) : VmState n W :=
  if instr.op = .jmp then vm
  else vm.setCpu { vm.cpu with eip := vm.cpu.eip + BitVec.ofNat 32 instr.size }

-- the instruction at CS:EIP; `none` where the loop breaks. The sum in the check is 32 bits wide.
def fetch (vm : VmState n W) : Except Stop (Option VmInstr) := do
  let phys ← translateAddr vm.cpu vm.mem (guestEipLinear vm.cpu)
  if (phys + 16).toNat > n then return none
  else vmDecode vm.mem.ram phys

def vmRunPass (env : Env W) (vm : VmState n W) : Except Stop (Option (VmState n W)) :=
  if vm.cpu.halted then .ok none
  else do
    match ← fetch vm with
    | none => return none
    | some instr =>
      let next ← execute env instr vm
      return next.map (advanceEip instr)

variable (env : Env W)

theorem vmRunPass_halted (vm : VmState n W) (halted : vm.cpu.halted = true) :
    vmRunPass env vm = .ok none :=
  if_pos halted

theorem vmRunPass_error (vm : VmState n W) {stop : Stop}
    (running : vm.cpu.halted = false) (fetched : fetch vm = .error stop) :
    vmRunPass env vm = .error stop := by
  unfold vmRunPass
  rw [if_neg (by simp [running]), fetched]
  rfl

theorem vmRunPass_none (vm : VmState n W) (running : vm.cpu.halted = false)
    (fetched : fetch vm = .ok none) : vmRunPass env vm = .ok none := by
  unfold vmRunPass
  rw [if_neg (by simp [running]), fetched]
  rfl

theorem vmRunPass_execute (vm : VmState n W) {instr : VmInstr}
    (running : vm.cpu.halted = false) (fetched : fetch vm = .ok (some instr)) :
    vmRunPass env vm = (execute env instr vm).map (Option.map (advanceEip instr)) := by
  unfold vmRunPass
  rw [if_neg (by simp [running]), fetched]
  simp only [bind, Except.bind]
  cases execute env instr vm <;> rfl

def vmRunStep (env : Env W) (maxInstructions : Nat) (vm : VmState n W) : Except Stop (Nat × VmState n W) :=
  loop (vmRunPass env) maxInstructions vm

end Flinstone.Vm
