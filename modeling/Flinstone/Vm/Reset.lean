import Flinstone.Vm.Machine

/-! # A reset against a fresh boot -/

namespace Flinstone.Vm
open Flinstone.Lib Flinstone.Sys

variable {n : Nat} {W : Type}

def pendingKeys (host : VmHost n) : List Byte :=
  (List.range (host.kbdTail - host.kbdHead).val).map fun i =>
    host.kbdQueue (host.kbdHead + Fin.ofNat 32 i)

-- what a handle stands for; the number of the object is the host's own affair
def openHandles (sys : Vrt) : Fin 256 → Option (VrtType × Option Object) := fun h =>
  (sys.table h).resource.map fun id => ((sys.table h).type, sys.objects id)

@[ext]
structure GuestView (n : Nat) where
  ram : Ram n
  cpu : VmCpu
  keys : List Byte
  ticks : Size
  sectorBuf : Sector
  ideLba : Word
  ideByteIdx : Fin 513
  pciAddr : Word
  pciCfg : Option PciCfg
  pitMode : Byte
  sysNo : Size
  sysArgs : Fin 4 → Size
  sysRet : Size
  vrtReady : Bool
  handles : Fin 256 → Option (VrtType × Option Object)

def guestView (vm : VmState n W) : GuestView n where
  ram := vm.mem.ram
  cpu := vm.cpu
  keys := pendingKeys vm.host
  ticks := vm.host.vmTicks
  sectorBuf := vm.io.sectorBuf
  ideLba := vm.io.ideLba
  ideByteIdx := vm.io.ideByteIdx
  pciAddr := vm.io.pciAddr
  pciCfg := vm.io.pciCfg
  pitMode := vm.io.pitMode
  sysNo := vm.io.sysNo
  sysArgs := vm.io.sysArgs
  sysRet := vm.io.sysRet
  vrtReady := vm.sys.inited
  handles := openHandles vm.sys

def resetGuest (vm : VmState n W) : Except Stop (VmState n W) :=
  (vmHostReset vm.host).map fun host => { vm with host, io := vmIoClearReset vm.io }

def bootRam : Ram guestRamSize :=
  overwrite (overwrite (fun _ => 0) guestLoadAddr.toNat minimalGuest) guestVgaBase vgaMsg

variable (mem : VmMem guestRamSize)

theorem vmLoadBinary_minimal : vmLoadBinary (vmMemZero mem) guestLoadAddr minimalGuest =
      .ok (some { mem with ram := overwrite (fun _ => 0) guestLoadAddr.toNat minimalGuest }) := by
  have fits : guestLoadAddr.toNat + minimalGuest.length ≤ guestRamSize := by decide
  unfold vmLoadBinary copyIn
  rw [if_neg (Nat.not_lt.mpr fits), if_pos fits]
  rfl

theorem drawVgaMsg_eq :
    drawVgaMsg mem = .ok { mem with ram := overwrite mem.ram guestVgaBase vgaMsg } := by
  have fits : guestVgaBase + vgaMsg.length ≤ guestRamSize := by decide
  unfold drawVgaMsg copyIn
  rw [if_pos fits, if_pos fits]
  rfl

theorem vmHostCreate_eq :
    vmHostCreate mem = .ok (some {
      mem := { mem with ram := bootRam }
      cpu := bootCpu vmCpuInit
      kbdQueue := fun _ => 0
      kbdHead := 0
      kbdTail := 0
      vmTicks := 0
      running := true
      paused := false }) := by
  unfold vmHostCreate
  rw [vmLoadBinary_minimal]
  simp only [bind, Except.bind, drawVgaMsg_eq]
  rfl

theorem vmHostReset_eq (host : VmHost guestRamSize) : vmHostReset host = .ok { host with
      mem := { host.mem with ram := bootRam }
      cpu := bootCpu vmCpuInit
      paused := false } := by
  unfold vmHostReset
  simp only [vmLoadBinary_minimal, bind, Except.bind, Option.getD_some, drawVgaMsg_eq]
  rfl

theorem bootGuest_eq (env : Env W) (mem : VmMem guestRamSize) (disk : VmDisk) (stack : Nat → Word) (w : W) :
    ∃ boot : VmState guestRamSize W, bootGuest env mem ioStatics vrtStatics disk stack w = .ok (some boot) ∧
      guestView boot = {
        ram := bootRam
        cpu := bootCpu vmCpuInit
        keys := []
        ticks := 0
        sectorBuf := fun _ => 0
        ideLba := 0
        ideByteIdx := 512
        pciAddr := 0
        pciCfg := (vmPciInitCfg env w).1
        pitMode := 0
        sysNo := 0
        sysArgs := fun _ => 0
        sysRet := 0
        vrtReady := true
        handles := fun _ => none } := by
  unfold bootGuest
  simp only [vmHostCreate_eq, bind, Except.bind, pure, Except.pure]
  exact ⟨_, rfl, rfl⟩

structure Pristine (env : Env W) (w : W) (vm : VmState n W) : Prop where
  keys : vm.host.kbdHead = vm.host.kbdTail
  ticks : vm.host.vmTicks = 0
  sectorBuf : vm.io.sectorBuf = fun _ => 0
  ideLba : vm.io.ideLba = 0
  ideByteIdx : vm.io.ideByteIdx = 512
  pciAddr : vm.io.pciAddr = 0
  pciCfg : vm.io.pciCfg = (vmPciInitCfg env w).1
  pitMode : vm.io.pitMode = 0
  sysNo : vm.io.sysNo = 0
  sysArgs : vm.io.sysArgs = fun _ => 0
  sysRet : vm.io.sysRet = 0
  vrtReady : vm.sys.inited = true
  handles : ∀ h, (vm.sys.table h).resource = none

theorem pendingKeys_eq_nil {host : VmHost n} : pendingKeys host = [] ↔ host.kbdHead = host.kbdTail := by
  rw [pendingKeys, List.map_eq_nil_iff, List.range_eq_nil]
  constructor
  · intro none
    exact (sub_eq_zero.mp (Fin.ext none)).symm
  · intro same
    rw [same, sub_self]
    rfl

theorem openHandles_eq_none {sys : Vrt} : (openHandles sys = fun _ => none) ↔ ∀ h, (sys.table h).resource = none := by
  simp [openHandles, funext_iff]

theorem reset_eq_boot_iff (env : Env W) (mem : VmMem guestRamSize) (disk : VmDisk)
    (stack : Nat → Word) (w : W) (vm : VmState guestRamSize W) :
    ∃ boot reset, bootGuest env mem ioStatics vrtStatics disk stack w = .ok (some boot) ∧ resetGuest vm = .ok reset ∧
      (guestView reset = guestView boot ↔ Pristine env w vm) := by
  obtain ⟨boot, booted, view⟩ := bootGuest_eq env mem disk stack w
  refine ⟨boot, _, booted, by rw [resetGuest, vmHostReset_eq]; rfl, ?_⟩
  rw [view, GuestView.ext_iff]
  constructor
  · rintro ⟨-, -, keys, ticks, sectorBuf, ideLba, ideByteIdx, pciAddr, pciCfg, pitMode, sysNo,
      sysArgs, sysRet, vrtReady, handles⟩
    exact ⟨pendingKeys_eq_nil.mp keys, ticks, sectorBuf, ideLba, ideByteIdx, pciAddr, pciCfg, pitMode,
      sysNo, sysArgs, sysRet, vrtReady, openHandles_eq_none.mp handles⟩
  · intro same
    exact ⟨rfl, rfl, pendingKeys_eq_nil.mpr same.keys, same.ticks, same.sectorBuf, same.ideLba,
      same.ideByteIdx, same.pciAddr, same.pciCfg, same.pitMode, same.sysNo, same.sysArgs,
      same.sysRet, same.vrtReady, openHandles_eq_none.mpr same.handles⟩

def setPitMode : List Byte := [0xB0, 0x01, 0xE6, 0x43]

theorem setPitMode_survives : (bootWith setPitMode).map (fun vm => (vmRunStep idleHost 2 vm).bind fun r =>
      (resetGuest r.2).map fun reset => reset.io.pitMode) = some (.ok 1) := by
  decide +kernel

theorem reset_differs_from_boot :
    ∃ vm run reset boot, bootWith setPitMode = some vm ∧ vmRunStep idleHost 2 vm = .ok run ∧
      resetGuest run.2 = .ok reset ∧
      bootGuest idleHost guestMem ioStatics vrtStatics noDisk (fun _ => 0) () = .ok (some boot) ∧
      guestView reset ≠ guestView boot := by
  obtain ⟨boot, booted, view⟩ := bootGuest_eq idleHost guestMem noDisk (fun _ => 0) ()
  obtain ⟨vm, started, outcome⟩ := Option.map_eq_some_iff.mp setPitMode_survives
  obtain ⟨run, ran, outcome⟩ := bind_eq_ok.mp outcome
  cases result : resetGuest run.2 with
  | error stop =>
    rw [result] at outcome
    cases outcome
  | ok reset =>
    refine ⟨vm, run, reset, boot, started, ran, result, booted, fun same => ?_⟩
    have mode : reset.io.pitMode = 0 := congrArg GuestView.pitMode (same.trans view)
    rw [result] at outcome
    have kept : reset.io.pitMode = 1 := Except.ok.inj outcome
    rw [mode] at kept
    revert kept
    decide

end Flinstone.Vm
