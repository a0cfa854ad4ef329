import Flinstone.Sched.PriorityQueue
import Flinstone.Vm.Execute

/-!
# The run loop

`vm.c` above the interpreter, with `vm_display.c` and `vm_snapshot.c`.
-/

namespace Flinstone.Vm
open Flinstone.Lib Flinstone.Sched Flinstone.Sys

inductive VmTask where
  | cpu
  | display
  | timer
  | checkpoint
  deriving DecidableEq

-- `ramCopy` is `s_ram_copy`; it is allocated once, for RAM of the one size the machine has
structure VmSnapshot (n : Nat) where
  ramCopy : Option (Ram n)
  cpuCopy : VmCpu
  kbdCopy : Fin 32 → Byte
  kbdHead : Fin 32
  kbdTail : Fin 32
  ticksCopy : Size
  hasCheckpoint : Bool

structure Machine (n : Nat) (W : Type) where
  vm : VmState n W
  pq : PriorityQueue VmTask Unit
  runCycles : Word
  snapshot : VmSnapshot n

variable {n : Nat} {W : Type}

def snapshotStatics : VmSnapshot n where
  ramCopy := none
  cpuCopy := { vmCpuInit with cs := 0 }
  kbdCopy := fun _ => 0
  kbdHead := 0
  kbdTail := 0
  ticksCopy := 0
  hasCheckpoint := false

-- `vm_io_init` and `vm_host_create`; `io` and `sys` are what an earlier run left
def bootGuest (env : Env W) (mem : VmMem n) (io : VmIo) (sys : Vrt) (disk : VmDisk)
    (stack : Nat → Word) (w : W) : Except Stop (Option (VmState n W)) := do
  let (io, sys, world) := vmIoInit env io sys w
  match ← vmHostCreate mem with
  | none => return none
  | some host => return some { host, io, sys, disk, stack, world }

def vmDiskDefaultSizeMb : Word := 2

-- `existing` is the file at the path of the image, `refused` the verdict of `fs_jail_check_path`
def vmBoot (env : Env W) (mem : VmMem n) (io : VmIo) (sys : Vrt) (disk : VmDisk)
    (existing : Option HostFile) (refused : Bool) (stack : Nat → Word) (w : W) :
    Except Stop (Option (VmState n W)) := do
  match ← bootGuest env mem io sys disk stack w with
  | none => return none
  | some vm =>
    match vmDiskInit env existing refused vmDiskDefaultSizeMb vm.disk vm.world with
    | (false, _, _) => return none
    | (true, disk, world) => return some { vm with disk, world }

def guestMem : VmMem guestRamSize := ⟨fun _ => 0, 0x10000, by decide, by decide⟩

def noDisk : VmDisk := ⟨false, 0, .empty, none⟩

-- a guest of one's own: `program` loaded over the minimal guest right after the first `vm_boot`
-- of a process, with a new disk image
def bootWith (program : List Byte) : Option (VmState guestRamSize Unit) :=
  match vmBoot idleHost guestMem ioStatics vrtStatics noDisk none false (fun _ => 0) () with
  | .ok (some vm) =>
    match vmLoadBinary vm.mem guestLoadAddr program with
    | .ok (some mem) => some (vm.setMem mem)
    | _ => none
  | _ => none

def guestAfterInit : VmState guestRamSize Unit where
  host := ⟨guestMem, bootCpu vmCpuInit, fun _ => 0, 0, 0, 0, true, false⟩
  io := (vmIoInit idleHost ioStatics vrtStatics ()).1
  sys := flSysBootstrap vrtStatics
  disk := noDisk
  stack := fun _ => 0
  world := ()

def Machine.ofGuest (vm : VmState n W) : Machine n W := ⟨vm, default, 0, snapshotStatics⟩

def snapshotAlloc (env : Env W) (snapshot : VmSnapshot n) (w : W) : Bool × W :=
  if snapshot.ramCopy.isSome then (true, w)
  else
    match env.malloc n w with
    | (none, w) => (false, w)
    | (some _, w) => (true, w)

def snapshotDiskOn (files : ImageFiles) (env : Env W) (disk : VmDisk) (w : W) : VmDisk × W :=
  if vmDiskIsActive disk then (vmDiskSnapshotSaveOn files env disk w).2 else (disk, w)

def snapshotDisk (env : Env W) : VmDisk → W → VmDisk × W := snapshotDiskOn .plain env

def snapshotOf (host : VmHost n) : VmSnapshot n where
  ramCopy := some host.mem.ram
  cpuCopy := host.cpu
  kbdCopy := host.kbdQueue
  kbdHead := host.kbdHead
  kbdTail := host.kbdTail
  ticksCopy := host.vmTicks
  hasCheckpoint := true

def vmSnapshotSaveOn (files : ImageFiles) (env : Env W) (m : Machine n W) : Bool × Machine n W :=
  if n = 0 then (false, m)
  else
    let (granted, world) := snapshotAlloc env m.snapshot m.vm.world
    if !granted then (false, { m with vm := { m.vm with world } })
    else
      let (disk, world) := snapshotDiskOn files env m.vm.disk world
      (true, { m with
        vm := { m.vm with disk, world }
        snapshot := snapshotOf m.vm.host })

def vmSnapshotSave (env : Env W) (m : Machine n W) : Bool × Machine n W := vmSnapshotSaveOn .plain env m

def restoreDiskOn (files : ImageFiles) (env : Env W) (disk : VmDisk) (w : W) : VmDisk × W :=
  if vmDiskIsActive disk then (vmDiskSnapshotRestoreOn files env disk w).2 else (disk, w)

def restoreDisk (env : Env W) : VmDisk → W → VmDisk × W := restoreDiskOn .plain env

def restoreHost (snapshot : VmSnapshot n) (ram : Ram n) (host : VmHost n) : VmHost n :=
  { host with
    mem := { host.mem with ram }
    cpu := snapshot.cpuCopy
    kbdQueue := snapshot.kbdCopy
    kbdHead := snapshot.kbdHead
    kbdTail := snapshot.kbdTail
    vmTicks := snapshot.ticksCopy }

def vmSnapshotRestoreOn (files : ImageFiles) (env : Env W) (m : Machine n W) : Bool × Machine n W :=
  match m.snapshot.hasCheckpoint, m.snapshot.ramCopy with
  | true, some ram =>
    let host := restoreHost m.snapshot ram m.vm.host
    let (disk, world) := restoreDiskOn files env m.vm.disk m.vm.world
    (true, { m with vm := { m.vm with host, disk, world } })
  | _, _ => (false, m)

def vmSnapshotRestore (env : Env W) (m : Machine n W) : Bool × Machine n W := vmSnapshotRestoreOn .plain env m

def vmDisplayRefresh (env : Env W) (vm : VmState n W) : Except Stop (VmState n W) :=
  if guestVgaBase + guestVgaSize > n then .ok vm
  else
    match env.refreshVga with
    | none => .ok vm
    | some refresh =>
      match env.malloc guestVgaSize vm.world with
      | (none, world) => .ok { vm with world }
      | (some _, world) =>
        (copyOut vm.mem.ram guestVgaBase guestVgaSize).map fun cells =>
          { vm with world := refresh cells world }

def vmQuantum : Nat := 64
def vmTickStep : Size := 1
def vmCheckpointInterval : Nat := 500

def runTask (env : Env W) (task : VmTask) (m : Machine n W) : Except Stop (Machine n W) :=
  match task with
  | .cpu => (vmRunStep env vmQuantum m.vm).map fun (_, vm) => { m with vm }
  | .display => (vmDisplayRefresh env m.vm).map fun vm => { m with vm }
  | .timer => .ok { m with vm := { m.vm with host := vmHostTickAdvance m.vm.host vmTickStep } }
  | .checkpoint => .ok (vmSnapshotSave env m).2

def pqPrio : VmTask → Int
  | .cpu => 0
  | .display => 1
  | .timer => 2
  | .checkpoint => 3

def queueTask (task : VmTask) (m : Machine n W) : Machine n W :=
  { m with pq := (pqPush m.pq (pqPrio task) (some task) none).2 }

def reschedule (m : Machine n W) : Machine n W :=
  let m := { m with runCycles := m.runCycles + 1 }
  let m := queueTask .timer (queueTask .cpu (queueTask .display m))
  if m.runCycles.toNat % vmCheckpointInterval = 0 then queueTask .checkpoint m else m

def runLayer (env : Env W) (layer : Int) (m : Machine n W) : Except Stop (Machine n W) :=
  match pqPopFromLayer m.pq layer true with
  | (none, _) => .ok m
  | (some task, pq) =>
    match task.fn with
    | none => .ok { m with pq }
    | some fn => do
        let m ← runTask env fn { m with pq }
        return if fn = .cpu ∧ m.vm.cpu.halted = false then reschedule m else m

def runLayers (env : Env W) (m : Machine n W) : Except Stop (Machine n W) := do
  let m ← runLayer env 0 m
  let m ← runLayer env 1 m
  let m ← runLayer env 2 m
  runLayer env 3 m

def restartQueue (m : Machine n W) : Machine n W := queueTask .cpu { m with pq := pqInit m.pq }

def runReset (m : Machine n W) : Except Stop (Machine n W) :=
  (vmHostReset m.vm.host).map fun host =>
    restartQueue { m with vm := { m.vm with host, io := vmIoClearReset m.vm.io } }

def runRound (env : Env W) (maxCycles : Word) (m : Machine n W) : Except Stop (Option (Machine n W)) :=
  if m.vm.cpu.halted || maxCycles ≤ m.runCycles then .ok none
  else if m.vm.io.resetRequested then (runReset m).map some
  else if pqIsEmpty m.pq then .ok none
  else (runLayers env m).map some

def vmRunRound (env : Env W) (m : Machine n W) : Except Stop (Option (Machine n W)) :=
  if m.vm.cpu.halted then .ok none
  else if m.vm.io.resetRequested then (runReset m).map some
  else if pqIsEmpty m.pq then .ok none
  else (runLayers env m).map some

def setHost (bound : Bool) (m : Machine n W) : Machine n W :=
  { m with vm := { m.vm with io := vmIoSetHost m.vm.io bound } }

def runStart (m : Machine n W) : Machine n W := restartQueue { setHost true m with runCycles := 0 }

-- `none` when the loop is still running after `fuel` rounds
def vmRunCycles (env : Env W) (fuel : Nat) (maxCycles : Word) (m : Machine n W) : Except Stop (Option (Machine n W)) :=
  (loop (runRound env maxCycles) fuel (runStart m)).map fun (rounds, m) =>
    if rounds < fuel then some (setHost false m) else none

def vmRun (env : Env W) (fuel : Nat) (m : Machine n W) : Except Stop (Option (Machine n W)) :=
  (loop (vmRunRound env) fuel (runStart m)).map fun (rounds, m) =>
    if rounds < fuel then some (setHost false m) else none

end Flinstone.Vm
