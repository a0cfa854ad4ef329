import Flinstone.Vm.Frame
import Flinstone.Vm.Rounds

/-! # The disk image along a run -/

namespace Flinstone.Vm
open Flinstone.Lib Flinstone.Sys

variable {n : Nat} {W : Type}

section
variable (env : Env W) (vm : VmState n W)

theorem ideFill_disk : (ideFill env vm).disk = vm.disk := by
  unfold ideFill
  split
  · rfl
  · split <;> rfl

theorem vmIoInIde_disk (port : Nat) : (vmIoInIde env port vm).2.disk = vm.disk := by
  unfold vmIoInIde
  split
  · split
    · exact ideFill_disk env vm
    · rfl
  all_goals rfl

theorem vmIoInKeyboard_disk (port : Nat) : (vmIoInKeyboard env port vm).2.disk = vm.disk := by
  unfold vmIoInKeyboard
  split
  · split <;> rfl
  · rfl

theorem vmIoInPit_disk (port : Nat) : (vmIoInPit env port vm).2.disk = vm.disk := by
  unfold vmIoInPit
  simp only [apply_ite Prod.snd, apply_ite VmState.disk, ite_self]

theorem vmIoIn_disk (port : Word) (size : Nat) : (vmIoIn env port size vm).2.disk = vm.disk := by
  unfold vmIoIn
  simp only [apply_ite Prod.snd, apply_ite VmState.disk, vmIoInIde_disk, vmIoInKeyboard_disk, vmIoInPit_disk, ite_self]

end

theorem vmBoot_intact {env : Env W} {mem : VmMem n} {io : VmIo} {sys : Vrt} {disk : VmDisk}
    {existing : Option HostFile} {refused : Bool} {stack : Nat → Word} {w : W} {vm : VmState n W}
    (booted : vmBoot env mem io sys disk existing refused stack w = .ok (some vm)) :
    DiskIntact vm.disk := by
  obtain ⟨created, -, rest⟩ := bind_eq_ok.mp booted
  cases created with
  | none => cases rest
  | some guest =>
    dsimp only at rest
    split at rest
    · cases rest
    · next opened =>
        cases rest
        exact vmDiskInit_intact opened

end Flinstone.Vm
