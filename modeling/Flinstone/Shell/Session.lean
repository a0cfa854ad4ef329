import Flinstone.Disk.Format
import Flinstone.Fs.HostCalls
import Flinstone.Shell.Words

/-! # The state of a shell -/

namespace Flinstone.Shell
open Flinstone.Lib Flinstone.Fs

inductive Event
  /-- `fs_jail_check_path` accepted the path. -/
  | passed (path : Text)
  | acted (call : HostCall)
deriving DecidableEq

structure Session where
  /-- The globals of the jail, `g_cwd` among them. -/
  jail : Jail
  /-- `g_fm_service`, with the world of the host. -/
  service : Service
  /-- Whether `g_fm_service` is not `NULL`. -/
  ready : Bool
  currentDiskFile : Text
  clusterSize : Nat
  totalClusters : Nat
  running : Bool
  log : List Event

def defaultDiskFile : Text := "drive.txt".toList
def historyFile : Text := "shell_history.txt".toList

namespace Session

abbrev world (s : Session) : World := s.service.world

def setWorld (s : Session) (w : World) : Session := { s with service := { s.service with world := w } }

def pass (s : Session) (path : Text) : Session := { s with log := .passed path :: s.log }

def resolve (s : Session) (path : Text) : Text := resolvePath s.jail.cwd path cwdMax

def jailBlockedPath (s : Session) (resolved : Text) : Bool × Session :=
  if !s.jail.isActive then (false, s)
  else if s.jail.checkPath s.world resolved = 0 then (false, s.pass resolved)
  else (true, s)

def guarded (s : Session) (resolved : Text) (next : Session → Int × Session) : Int × Session :=
  let check := s.jailBlockedPath resolved
  if check.1 then (1, check.2) else next check.2

def act (s : Session) (call : HostCall) : Bool × Session :=
  let s := { s with log := .acted call :: s.log }
  match call.run s.world with
  | none => (false, s)
  | some w => (true, s.setWorld w)

def manage (s : Session) (op : Op) : Int × Session :=
  let done := op.run s.jail s.service
  (done.1, { s with service := done.2, log := ((op.calls s.jail s.service).map .acted).reverse ++ s.log })

def removeTree (host : Host) (s : Session) (path : Text) : Session :=
  let done := removeDirectoryRecursive host s.world path
  { s.setWorld done.2 with
    running := s.running && done.1.isSome
    log := ((removalCalls host s.world path).map .acted).reverse ++ s.log }

def enter (s : Session) (w : World) (cwd : Text) : Session := { s.setWorld w with jail := { s.jail with cwd } }

def stop (s : Session) : Session := { s with running := false }

def disk (s : Session) : Disk.TextDisk where
  file := s.world.readFile s.currentDiskFile
  clusterSize := s.clusterSize
  totalClusters := s.totalClusters

def setGeometry (s : Session) (totalClusters clusterSize : Nat) : Session := { s with totalClusters, clusterSize }

def setDiskFile (s : Session) (path : Text) : Session := { s with currentDiskFile := path.take (cwdMax - 1) }

def readDiskHeader (s : Session) : Session :=
  let d := Disk.readDiskHeader s.disk
  s.setGeometry d.totalClusters d.clusterSize

def tmpPath (s : Session) : Text := (s.currentDiskFile ++ ".tmp".toList).take (cwdMax + 4 - 1)

/-- The file is printed beside the disk and renamed onto it. -/
def replaceDisk (s : Session) (d : Disk.TextDisk) : Bool × Session :=
  let written := s.act (.write s.tmpPath (d.file.getD []))
  if !written.1 then written
  else
    let renamed := written.2.act (.rename s.tmpPath s.currentDiskFile)
    if !renamed.1 then (false, (renamed.2.act (.remove s.tmpPath)).2) else renamed

def updateClusterLine (s : Session) (clu : Int) (hexData : Text) : Session :=
  if clu < 0 ∨ clu ≥ s.totalClusters then s
  else
    let newLine := (Disk.clusterLine clu.toNat hexData).take 255
    let replaced := s.replaceDisk (Disk.reprint s.disk ((Disk.oldClusters s.disk).set clu.toNat newLine))
    if replaced.1 then replaced.2.readDiskHeader else replaced.2

theorem disk_readDiskHeader (s : Session) : s.readDiskHeader.disk = Disk.readDiskHeader s.disk := by
  show Disk.TextDisk.mk s.disk.file (Disk.readDiskHeader s.disk).clusterSize _ = _
  rw [← Disk.readDiskHeader_file s.disk]
  rfl

theorem disk_updateClusterLine {s : Session}
    (replaces : ∀ clusters, (s.replaceDisk (Disk.reprint s.disk clusters)).1 ∧
      (s.replaceDisk (Disk.reprint s.disk clusters)).2.disk = Disk.reprint s.disk clusters)
    (clu : Int) (hexData : Text) :
    (s.updateClusterLine clu hexData).disk = Disk.updateClusterLine s.disk clu hexData := by
  have total : s.disk.totalClusters = s.totalClusters := rfl
  unfold updateClusterLine Disk.updateClusterLine
  rw [total]
  by_cases outside : clu < 0 ∨ clu ≥ s.totalClusters
  · rw [if_pos outside, if_pos outside]
  · obtain ⟨done, holds⟩ := replaces
      ((Disk.oldClusters s.disk).set clu.toNat ((Disk.clusterLine clu.toNat hexData).take 255))
    rw [if_neg outside, if_neg outside]
    exact (congrArg disk (if_pos done)).trans ((disk_readDiskHeader _).trans (congrArg Disk.readDiskHeader holds))

def processWriteCluster (s : Session) (clu : Int) (data : Text) (inputIsText : Bool) : Session :=
  s.updateClusterLine clu (Disk.convertDataToHex data inputIsText s.clusterSize)

def deleteCluster (s : Session) (clu : Int) : Session :=
  if clu < 0 ∨ clu ≥ s.totalClusters then s
  else s.updateClusterLine clu (hexBytes (List.replicate s.clusterSize 0))

/-- Writes what was formatted and makes `current` the current disk. The shell ends when the file cannot be opened. -/
def formatDisk (s : Session) (formatted : Option (Text × Disk.TextDisk)) (current : Text) : Int × Session :=
  match formatted with
  | none => (1, s.stop)
  | some (diskFileName, d) =>
    let written := s.act (.write diskFileName (d.file.getD []))
    if !written.1 then (1, written.2.stop)
    else (0, (written.2.setDiskFile current).setGeometry d.totalClusters d.clusterSize)

def newClusterData (s : Session) : Option (Text × Bool) → Text
  | none => List.replicate (s.clusterSize * 2) '0'
  | some (data, inputIsText) => Disk.convertDataToHex data inputIsText s.clusterSize

def addCluster (s : Session) (data : Option (Text × Bool)) : Int × Session :=
  let line := Disk.clusterLine s.totalClusters (s.newClusterData data) ++ ['\n']
  let added := s.act (.append s.currentDiskFile line)
  if !added.1 then (1, added.2) else (0, added.2.setGeometry (s.totalClusters + 1) s.clusterSize)

def appendHistory (s : Session) (cmd : Text) : Session := (s.act (.append historyFile (cmd ++ ['\n']))).2

/-- `index` counts from 1. -/
def readHistoryLine (s : Session) (index : Nat) : Option Text :=
  match s.world.readFile historyFile with
  | none => none
  | some text => (Disk.scanLines 512 text)[index - 1]?.map Disk.cutNewline

end Session

end Flinstone.Shell
