import Flinstone.Vm.Cpu
import Flinstone.Vm.Disk
import Flinstone.Sys.Syscall

/-!
# The host's view of a guest

`vm_host.c` and the loader.
-/

namespace Flinstone.Vm
open Flinstone.Sys

structure VmHost (n : Nat) where
  mem : VmMem n
  cpu : VmCpu
  kbdQueue : Fin 32 → Byte
  kbdHead : Fin 32
  kbdTail : Fin 32
  vmTicks : Size
  running : Bool
  paused : Bool

variable {n : Nat}

def guestLoadAddr : Word := 0x7c00

-- writes "Flinstone VM" and a newline to the serial port, then halts
def minimalGuest : List Byte :=
  (([0x46, 0x6c, 0x69, 0x6e, 0x73, 0x74, 0x6f, 0x6e, 0x65, 0x20, 0x56, 0x4d, 0x0a].map
    fun c => [0xB0#8, c, 0xE6, 0xF8]).flatten) ++ [0xF4]

def vgaMsg : List Byte :=
  ([0x46, 0x6c, 0x69, 0x6e, 0x73, 0x74, 0x6f, 0x6e, 0x65, 0x20, 0x56, 0x4d].map
    fun c => [c, 0x07#8]).flatten

def vmLoadBinary (mem : VmMem n) (addr : Word) (data : List Byte) : Except Stop (Option (VmMem n)) :=
  if addr.toNat + data.length > n then .ok none
  else (copyIn mem.ram addr.toNat data).map fun ram => some { mem with ram }

def drawVgaMsg (mem : VmMem n) : Except Stop (VmMem n) :=
  if guestVgaBase + vgaMsg.length ≤ n then
    (copyIn mem.ram guestVgaBase vgaMsg).map fun ram => { mem with ram }
  else .ok mem

def bootCpu (cpu : VmCpu) : VmCpu := { cpu with eip := 0, cs := 0x07c0 }

-- `mem` is what `vm_mem_init` allocated and zeroed; `none` is the return value `-1`
def vmHostCreate (mem : VmMem n) : Except Stop (Option (VmHost n)) := do
  match ← vmLoadBinary (vmMemZero mem) guestLoadAddr minimalGuest with
  | none => return none
  | some loaded =>
    let drawn ← drawVgaMsg loaded
    return some {
      mem := drawn
      cpu := bootCpu vmCpuInit
      kbdQueue := fun _ => 0
      kbdHead := 0
      kbdTail := 0
      vmTicks := 0
      running := true
      paused := false }

def vmHostReset (host : VmHost n) : Except Stop (VmHost n) := do
  let zeroed := vmMemZero host.mem
  let loaded ← vmLoadBinary zeroed guestLoadAddr minimalGuest
  let drawn ← drawVgaMsg (loaded.getD zeroed)
  return { host with
    mem := drawn
    cpu := { bootCpu vmCpuInit with halted := false }
    paused := false }

def vmHostTickAdvance (host : VmHost n) (step : Size) : VmHost n := { host with vmTicks := host.vmTicks + step }

def vmHostKbdPush (host : VmHost n) (scancode : Byte) : Bool × VmHost n :=
  let next := host.kbdTail + 1
  if next = host.kbdHead then (false, host)
  else
    (true, { host with
      kbdQueue := Function.update host.kbdQueue host.kbdTail scancode
      kbdTail := next })

def vmHostKbdPop (host : VmHost n) : Option Byte × VmHost n :=
  if host.kbdHead = host.kbdTail then (none, host)
  else (some (host.kbdQueue host.kbdHead), { host with kbdHead := host.kbdHead + 1 })

end Flinstone.Vm
