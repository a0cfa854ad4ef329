import Flinstone.Sys.Stops
import Flinstone.Vm.Io

/-! # The system call bridge -/

namespace Flinstone.Vm
open Flinstone.Lib Flinstone.Sys

variable {n : Nat} {W : Type}

def GuestBuffer (n : Nat) (offset len : Size) : Prop := len ≠ 0 ∧ offset.toNat + len.toNat ≤ n

variable {offset len : Size} {port : Word}

variable (mem : VmMem n)

theorem vmSysArgToHostPtr_of_buffer (inside : GuestBuffer n offset len) :
    vmSysArgToHostPtr mem offset len = mem.base + offset ∧
      (vmSysArgToHostPtr mem offset len).toNat = mem.base.toNat + offset.toNat := by
  have nonempty : 0 < len.toNat := BitVec.toNat_pos_of_ne_zero inside.1
  have bound := inside.2
  have fits := mem.fits
  have result : vmSysArgToHostPtr mem offset len = mem.base + offset := by
    unfold vmSysArgToHostPtr
    rw [if_neg inside.1, if_neg (by omega), if_neg (by omega)]
  refine ⟨result, ?_⟩
  rw [result, BitVec.toNat_add]
  exact Nat.mod_eq_of_lt (by omega)

theorem vmSysArgToHostPtr_of_not_buffer
    (outside : ¬ GuestBuffer n offset len) : vmSysArgToHostPtr mem offset len = 0 := by
  unfold vmSysArgToHostPtr
  split
  · rfl
  split
  · rfl
  split
  · rfl
  · next nonempty below short => exact absurd ⟨nonempty, by omega⟩ outside

theorem vmSysArgToHostPtr_valid (offset len : Size) :
    ValidBuffer mem (vmSysArgToHostPtr mem offset len) len.toNat := by
  by_cases inside : GuestBuffer n offset len
  · have address := (vmSysArgToHostPtr_of_buffer mem inside).2
    have bound := inside.2
    exact .inr ⟨by omega, by omega⟩
  · exact .inl (vmSysArgToHostPtr_of_not_buffer mem inside)

theorem vmTranslateSysArgs_valid (mem : VmMem n) (sysNo : Size) (args : Fin 4 → Size) :
    let host := vmTranslateSysArgs mem sysNo args
    ValidArgs mem (low32 sysNo) (host 0) (host 1) (host 2) := by
  simp only [ValidArgs, vmTranslateSysArgs]
  generalize flSyscallNo (low32 sysNo) = number
  have valid := vmSysArgToHostPtr_valid mem
  cases number with
  | none => trivial
  | some call => cases call <;> simp [valid]

def hostArgs (vm : VmState n W) : Fin 4 → Size := vmTranslateSysArgs vm.host.mem vm.io.sysNo vm.io.sysArgs

def BridgeStops (vm : VmState n W) : Prop :=
  CallStops (low32 vm.io.sysNo) (hostArgs vm 0) (hostArgs vm 1) (hostArgs vm 2) vm.sys

variable (env : Env W)

theorem vmSysCall_decided (vm : VmState n W) : StopsIff (BridgeStops vm) (vmSysCall env vm) := by
  have decided := flSyscallDispatch_decided env (low32 vm.io.sysNo) (hostArgs vm 0) (hostArgs vm 1)
    (hostArgs vm 2) (hostArgs vm 3) ⟨vm.host.mem, vm.sys, vm.world⟩
    (vmTranslateSysArgs_valid vm.host.mem vm.io.sysNo vm.io.sysArgs)
  rcases decided with ⟨returns, ⟨ret, c⟩, result⟩ | ⟨stops, stop, result, kernel⟩
  · simp only [hostArgs] at result returns
    refine .inl ⟨returns, ?_⟩
    simp only [vmSysCall, result]
    exact succeeds_ok _
  · refine .inr ⟨stops, stop, ?_, kernel⟩
    simp only [hostArgs] at result
    simp only [vmSysCall, result]

theorem vmIoOut_call (call : port.toNat = 0xE5) (value : Word)
    (size : Nat) (vm : VmState n W) : vmIoOut env port value size vm = vmSysCall env vm := by
  unfold vmIoOut
  rw [if_neg (by omega), if_neg (by omega), if_neg (by omega), if_neg (by omega), if_pos call]

theorem vmIoOut_succeeds (quiet : port.toNat ≠ 0xE5) (value : Word)
    (size : Nat) (vm : VmState n W) : Succeeds (vmIoOut env port value size vm) := by
  unfold vmIoOut
  dsimp only
  rw [if_neg quiet]
  repeat' apply Succeeds.ite
  all_goals exact succeeds_ok _

theorem vmIoOut_decided (port value : Word) (size : Nat) (vm : VmState n W) :
    StopsIff (port.toNat = 0xE5 ∧ BridgeStops vm) (vmIoOut env port value size vm) := by
  by_cases call : port.toNat = 0xE5
  · rw [vmIoOut_call env call]
    exact (vmSysCall_decided env vm).congr (and_iff_right call).symm
  · exact .of_succeeds (fun stops => call stops.1) (vmIoOut_succeeds env call value size vm)

def bufferArg (sysNo : Size) (args : Fin 4 → Size) : Option (Size × Size) :=
  match flSyscallNo (low32 sysNo) with
  | some .write | some .read => some (args 0, args 1)
  | some .pipeRead | some .pipeWrite | some .msgqSend | some .msgqRecv => some (args 1, args 2)
  | _ => none

theorem bufferArg_valid (sysNo : Size) (args : Fin 4 → Size) {ptr : Size}
    (buffer : bufferArg sysNo (vmTranslateSysArgs mem sysNo args) = some (ptr, len)) :
    ValidBuffer mem ptr len.toNat := by
  have valid := vmTranslateSysArgs_valid mem sysNo args
  simp only [ValidArgs] at valid
  unfold bufferArg at buffer
  generalize flSyscallNo (low32 sysNo) = number at valid buffer
  cases number with
  | none => cases buffer
  | some call => cases call <;> cases buffer <;> exact valid

theorem vmSysCall_of_not_buffer (vm : VmState n W)
    (pair : bufferArg vm.io.sysNo vm.io.sysArgs = some (offset, len))
    (outside : ¬ GuestBuffer n offset len) :
    vmSysCall env vm = .ok { vm with io := { vm.io with sysRet := -1 } } := by
  have null := vmSysArgToHostPtr_of_not_buffer vm.host.mem outside
  unfold bufferArg at pair
  unfold vmSysCall vmTranslateSysArgs flSyscallDispatch
  generalize flSyscallNo (low32 vm.io.sysNo) = number at pair ⊢
  cases number with
  | none => cases pair
  | some call =>
    cases call <;> cases pair
    all_goals simp only [Function.update_self, null, sysWrite_null, sysRead_null, sysPipeRead_null,
        sysPipeWrite_null, sysMsgqSend_null, sysMsgqRecv_null]

/-- The buffer is `NULL` or lies in guest RAM, and a pair that is no buffer in RAM makes the call fail. -/
theorem bridge_confined (vm : VmState n W) (value : Word) (size : Nat) :
    (∀ ptr len, bufferArg vm.io.sysNo (hostArgs vm) = some (ptr, len) → ptr = 0 ∨ Confined vm.host.mem ptr len.toNat) ∧
    (∀ address length, vmIoOut env 0xE5 value size vm ≠ .error (.pointer address length)) ∧
    ∀ offset len, bufferArg vm.io.sysNo vm.io.sysArgs = some (offset, len) → ¬ GuestBuffer n offset len →
      vmIoOut env 0xE5 value size vm = .ok { vm with io := { vm.io with sysRet := -1 } } := by
  have call : vmIoOut env 0xE5 value size vm = vmSysCall env vm := rfl
  rw [call]
  refine ⟨fun ptr len buffer => bufferArg_valid _ _ _ buffer, fun address length stopped => ?_,
    fun offset len pair outside => vmSysCall_of_not_buffer env vm pair outside⟩
  rcases (vmSysCall_decided env vm).isKind stopped with ⟨_, _, other⟩ | ⟨_, other⟩ | other <;>
    cases other

end Flinstone.Vm
