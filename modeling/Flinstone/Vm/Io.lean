import Flinstone.Vm.Host

/-!
# Port I/O

`vm_io.c`.
-/

namespace Flinstone.Vm
open Flinstone.Sys Function

abbrev PciCfg := Fin 1024 → Byte

structure VmIo where
  sectorBuf : Sector
  ideLba : Word
  ideByteIdx : Fin 513
  pitMode : Byte
  hostBound : Bool
  pciAddr : Word
  resetRequested : Bool
  pciCfg : Option PciCfg
  sysNo : Size
  sysArgs : Fin 4 → Size
  sysRet : Size
  serialOut : Bool

-- `stack` supplies the values of locals that are read before they are written
structure VmState (n : Nat) (W : Type) where
  host : VmHost n
  io : VmIo
  sys : Vrt
  disk : VmDisk
  stack : Nat → Word
  world : W

variable {n : Nat} {W : Type}

-- vendor, device and class of the host bridge, the IDE controller, the display and the keyboard
def pciPowerOn : PciCfg := fun i =>
  match i.val % 256 with
  | 0 => 0x34
  | 1 => 0x12
  | 2 => [0x01, 0x11, 0x22, 0x33].getD (i.val / 256) 0
  | 3 => [0x00, 0x11, 0x22, 0x33].getD (i.val / 256) 0
  | 9 => [0x00, 0x01, 0x00, 0x03].getD (i.val / 256) 0
  | 10 => [0x06, 0x01, 0x03, 0x0C].getD (i.val / 256) 0
  | _ => 0

def vmPciInitCfg (env : Env W) (w : W) : Option PciCfg × W :=
  match env.malloc 1024 w with
  | (none, w) => (none, w)
  | (some _, w) => (some pciPowerOn, w)

-- `s_pit_mode` keeps its value
def vmIoInit (env : Env W) (io : VmIo) (sys : Vrt) (w : W) : VmIo × Vrt × W :=
  let (pciCfg, w) := vmPciInitCfg env w
  ({ io with
      hostBound := false
      resetRequested := false
      pciAddr := 0
      sectorBuf := fun _ => 0
      pciCfg
      ideLba := 0
      ideByteIdx := 512
      serialOut := true
      sysNo := 0
      sysArgs := fun _ => 0
      sysRet := 0 },
    flSysBootstrap sys, w)

def ioStatics : VmIo where
  sectorBuf := fun _ => 0
  ideLba := 0
  ideByteIdx := 0
  pitMode := 0
  hostBound := false
  pciAddr := 0
  resetRequested := false
  pciCfg := none
  sysNo := 0
  sysArgs := fun _ => 0
  sysRet := 0
  serialOut := false

def vmIoClearReset (io : VmIo) : VmIo := { io with resetRequested := false }

def vmIoSetHost (io : VmIo) (bound : Bool) : VmIo := { io with hostBound := bound }

def low32 (value : Size) : Word := value.setWidth 32

def high32 (value : Size) : Word := (value >>> 32).setWidth 32

def portMask (size : Nat) : Word := if size = 1 then 0xFF else if size = 2 then 0xFFFF else 0xFFFFFFFF

def readPortWidth (value : Word) (size : Nat) : Word := value &&& portMask size

def mergePortWidth (oldValue value : Word) (size : Nat) : Word :=
  (oldValue &&& ~~~(portMask size)) ||| (value &&& portMask size)

def join64 (high low : Word) : Size := (high.setWidth 64 <<< 32) ||| low.setWidth 64

def writePortWidth (slot : Size) (value : Word) (size : Nat) : Size :=
  join64 (high32 slot) (mergePortWidth (low32 slot) value size)

def writePortHighWidth (slot : Size) (value : Word) (size : Nat) : Size :=
  join64 (mergePortWidth (high32 slot) value size) (low32 slot)

def vmSysArgToHostPtr (mem : VmMem n) (arg : Size) (len : Size) : Size :=
  if len = 0 then 0
  else if arg.toNat ≥ n then 0
  else if len.toNat > n - arg.toNat then 0
  else mem.base + arg

def vmTranslateSysArgs (mem : VmMem n) (sysNo : Size) (args : Fin 4 → Size) : Fin 4 → Size :=
  match flSyscallNo (low32 sysNo) with
  | some .write | some .read =>
    update args 0 (vmSysArgToHostPtr mem (args 0) (args 1))
  | some .pipeRead | some .pipeWrite | some .msgqSend | some .msgqRecv =>
    update args 1 (vmSysArgToHostPtr mem (args 1) (args 2))
  | _ => args

def vmSysCall (env : Env W) (vm : VmState n W) : Except Stop (VmState n W) :=
  let args := vmTranslateSysArgs vm.host.mem vm.io.sysNo vm.io.sysArgs
  match flSyscallDispatch env (low32 vm.io.sysNo) (args 0) (args 1) (args 2) (args 3)
      ⟨vm.host.mem, vm.sys, vm.world⟩ with
  | .error stop => .error stop
  | .ok (ret, c) =>
    .ok { vm with
      host := { vm.host with mem := c.mem }
      io := { vm.io with sysRet := ret }
      sys := c.sys
      world := c.world }

def ideFill (env : Env W) (vm : VmState n W) : VmState n W :=
  if vmDiskIsActive vm.disk then
    let (data, world) := vmDiskReadSector env vm.disk vm.io.ideLba vm.world
    { vm with
      io := { vm.io with sectorBuf := data.getD fun _ => 0, ideByteIdx := 0 }
      world }
  else
    match env.readSector vm.io.ideLba vm.world with
    | (.noDriver, world) => { vm with io := { vm.io with ideByteIdx := 0 }, world }
    | (.failed, world) =>
      { vm with io := { vm.io with sectorBuf := fun _ => 0, ideByteIdx := 0 }, world }
    | (.sector data, world) =>
      { vm with io := { vm.io with sectorBuf := data, ideByteIdx := 0 }, world }

def ideNext (io : VmIo) : Byte × VmIo :=
  if inside : io.ideByteIdx.val < 512 then
    (io.sectorBuf ⟨io.ideByteIdx.val, inside⟩,
      { io with ideByteIdx := ⟨io.ideByteIdx.val + 1, Nat.succ_lt_succ inside⟩ })
  else (0, io)

def vmIoInIde (env : Env W) (port : Nat) (vm : VmState n W) : Byte × VmState n W :=
  match port with
  | 0x1f0 =>
    let vm := if 512 ≤ vm.io.ideByteIdx.val then ideFill env vm else vm
    let (v, io) := ideNext vm.io
    (v, { vm with io })
  | 0x1f1 => (0, vm)
  | 0x1f2 => (1, vm)
  | 0x1f3 => (vm.io.ideLba.setWidth 8, vm)
  | 0x1f4 => ((vm.io.ideLba >>> 8).setWidth 8, vm)
  | 0x1f5 => ((vm.io.ideLba >>> 16).setWidth 8, vm)
  | 0x1f7 => (0x40, vm)
  | _ => (0xFF, vm)

def vmIoInKeyboard (env : Env W) (port : Nat) (vm : VmState n W) : Byte × VmState n W :=
  if port = 0x60 then
    match if vm.io.hostBound then vmHostKbdPop vm.host else (none, vm.host) with
    | (some sc, host) => (sc, { vm with host })
    | (none, _) =>
      let (sc, world) := env.pollScancode vm.world
      (sc.getD 0, { vm with world })
  else (0, vm)

def vmIoInPit (env : Env W) (port : Nat) (vm : VmState n W) : Byte × VmState n W :=
  if port = 0x40 then
    if vm.io.hostBound then (vm.host.vmTicks.setWidth 8, vm)
    else
      let (ticks, world) := env.tickCount vm.world
      ((ticks.getD 0).setWidth 8, { vm with world })
  else if port = 0x43 then (vm.io.pitMode, vm)
  else (0, vm)

def vmIoInPic (port : Nat) : Byte := if port = 0x20 ∨ port = 0xA0 then 0 else 0xFF

def pciBus (addr : Word) : Nat := (addr.toNat >>> 16) % 256

def pciDev (addr : Word) : Nat := (addr.toNat >>> 11) % 32

def pciReg (addr : Word) : Nat := (addr.toNat >>> 2) % 64

def pciSelected (addr : Word) : Option (Fin 1021) :=
  if selected : addr.msb = true ∧ pciBus addr = 0 ∧ pciDev addr < 4 then
    some ⟨pciDev addr * 256 + pciReg addr * 4, by unfold pciReg; omega⟩
  else none

def pciByte (cfg : PciCfg) (place : Fin 1021) (k : Fin 4) : Byte := cfg ⟨place + k, by omega⟩

def vmIoInPci (io : VmIo) : Word :=
  match pciSelected io.pciAddr, io.pciCfg with
  | some place, some cfg =>
    wordOf [pciByte cfg place 0, pciByte cfg place 1, pciByte cfg place 2, pciByte cfg place 3]
  | _, _ => 0xFFFFFFFF

def vmIoIn (env : Env W) (port : Word) (size : Nat) (vm : VmState n W) : Word × VmState n W :=
  let p := port.toNat
  if 0x1f0 ≤ p ∧ p ≤ 0x1f7 then
    let (v, vm) := vmIoInIde env p vm
    (readPortWidth (v.setWidth 32) size, vm)
  else if p = 0x60 ∨ p = 0x64 then
    let (v, vm) := vmIoInKeyboard env p vm
    (readPortWidth (v.setWidth 32) size, vm)
  else if 0x40 ≤ p ∧ p ≤ 0x43 then
    let (v, vm) := vmIoInPit env p vm
    (readPortWidth (v.setWidth 32) size, vm)
  else if p = 0x20 ∨ p = 0x21 ∨ p = 0xA0 ∨ p = 0xA1 then
    (readPortWidth ((vmIoInPic p).setWidth 32) size, vm)
  else if p = 0xCFC ∧ size = 4 then (vmIoInPci vm.io, vm)
  else if p = 0xE6 then (readPortWidth (low32 vm.io.sysRet) size, vm)
  else if p = 0xEB then (readPortWidth (high32 vm.io.sysRet) size, vm)
  else (readPortWidth 0xFF size, vm)

def pciWrite (io : VmIo) (value : Word) : VmIo :=
  match pciSelected io.pciAddr, io.pciCfg with
  | some place, some cfg =>
    { io with
      pciCfg := some fun i =>
        if place.val ≤ i.val ∧ i.val < place.val + 4 then
          (value >>> (8 * (i.val - place.val))).setWidth 8
        else cfg i }
  | _, _ => io

def ideWriteData (env : Env W) (value : Word) (vm : VmState n W) : VmState n W :=
  let idx := if vm.io.ideByteIdx.val < 512 then vm.io.ideByteIdx.val else 0
  let buf := update vm.io.sectorBuf (Fin.ofNat 512 idx) (value.setWidth 8)
  if idx + 1 < 512 then
    { vm with io := { vm.io with sectorBuf := buf, ideByteIdx := Fin.ofNat 513 (idx + 1) } }
  else
    -- a full sector is written out and the buffer cleared
    let io := { vm.io with sectorBuf := fun _ => 0, ideByteIdx := 512 }
    if vmDiskIsActive vm.disk then
      let (disk, world) := vmDiskWriteSector env vm.disk vm.io.ideLba buf vm.world
      { vm with io, disk, world }
    else { vm with io, world := env.writeSector vm.io.ideLba buf vm.world }

def vmIoOutIde (env : Env W) (port : Nat) (value : Word) (vm : VmState n W) : VmState n W :=
  let lba := vm.io.ideLba
  match port with
  | 0x1f3 => { vm with io := { vm.io with ideLba := (lba &&& 0xFFFFFF00) ||| (value &&& 0xFF) } }
  | 0x1f4 =>
    { vm with io := { vm.io with ideLba := (lba &&& 0xFFFF00FF) ||| ((value &&& 0xFF) <<< 8) } }
  | 0x1f5 =>
    { vm with io := { vm.io with ideLba := (lba &&& 0xFF00FFFF) ||| ((value &&& 0xFF) <<< 16) } }
  | 0x1f0 => ideWriteData env value vm
  | _ => vm

def setSysArg (io : VmIo) (i : Nat) (value : Size) : VmIo :=
  { io with sysArgs := update io.sysArgs (Fin.ofNat 4 i) value }

def vmIoOut (env : Env W) (port value : Word) (size : Nat) (vm : VmState n W) : Except Stop (VmState n W) :=
  let p := port.toNat
  let io := vm.io
  if p = 0xCF8 then .ok { vm with io := { io with pciAddr := value } }
  else if p = 0xE0 then .ok { vm with io := { io with sysNo := writePortWidth io.sysNo value size } }
  else if 0xE1 ≤ p ∧ p ≤ 0xE4 then
    let slot := io.sysArgs (Fin.ofNat 4 (p - 0xE1))
    .ok { vm with io := setSysArg io (p - 0xE1) (writePortWidth slot value size) }
  else if 0xE7 ≤ p ∧ p ≤ 0xEA then
    let slot := io.sysArgs (Fin.ofNat 4 (p - 0xE7))
    .ok { vm with io := setSysArg io (p - 0xE7) (writePortHighWidth slot value size) }
  else if p = 0xE5 then vmSysCall env vm
  else if p = 0xCFC ∧ io.pciAddr.msb then .ok { vm with io := pciWrite io value }
  else if p = 0xCF9 then
    if value &&& 0x0E = 0x06 ∨ value &&& 0x0E = 0x0E then
      .ok { vm with io := { io with resetRequested := true } }
    else .ok vm
  else if 0x1f0 ≤ p ∧ p ≤ 0x1f7 then .ok (vmIoOutIde env p value vm)
  else if p = 0x3f8 ∨ p = 0xf8 then
    if io.serialOut then .ok { vm with world := env.fputc (value.setWidth 8) vm.world }
    else .ok vm
  else if p = 0x43 then .ok { vm with io := { io with pitMode := value.setWidth 8 } }
  else if p = 0x20 ∨ p = 0xA0 then
    .ok { vm with world := env.eoi (if p = 0xA0 then 8 else 0) vm.world }
  else .ok vm

end Flinstone.Vm
