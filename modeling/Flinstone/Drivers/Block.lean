import Flinstone.Disk.RoundTrip
import Flinstone.Drivers.Devfs
import Flinstone.Lib.Buffer

/-!
# The block driver over the text disk

`block_driver.c`, its host transport and `disk_asm.c`.
-/

namespace Flinstone.Drivers
open Flinstone.Lib Flinstone.Disk List

def sectorSize : Nat := 512

/-- `host_blk_ctx_t`, whose `cluster_size` is never read, and the disk of the globals. -/
structure HostBlk where
  sectorCount : BitVec 32
  disk : TextDisk

structure BlockTransport (σ : Type) where
  read : σ → BitVec 32 → List Octet → Option (Int × List Octet)
  write : σ → BitVec 32 → List Octet → Option (Int × σ)
  getSectorCount : σ → Int

def hostBlockRead (blk : HostBlk) (lba : BitVec 32) (buf : List Octet) : Option (Int × List Octet) :=
  match diskAsmReadCluster blk.disk lba.toInt with
  | none => some (-1, buf)
  | some bytes => (storeAt buf 0 bytes).map fun buf => (0, buf)

def hostBlockWrite (blk : HostBlk) (lba : BitVec 32) (buf : List Octet) : Option (Int × HostBlk) :=
  if lba.toInt < 0 ∨ lba.toInt ≥ blk.disk.totalClusters then some (-1, blk)
  else if buf.length < blk.disk.clusterSize then none
  else
    let written := diskAsmWriteCluster blk.disk lba.toInt buf
    some (if written.1 = 0 then 0 else -1, { blk with disk := written.2 })

def hostBlockGetSectorCount (blk : HostBlk) : Int := blk.sectorCount.toInt

def hostTransport : BlockTransport HostBlk := ⟨hostBlockRead, hostBlockWrite, hostBlockGetSectorCount⟩

section
variable {σ : Type} (transport : BlockTransport σ)

def blockReadSector (s : σ) (lba : BitVec 32) (buf : List Octet) : Option (Int × List Octet) := transport.read s lba buf

def blockWriteSector (s : σ) (lba : BitVec 32) (buf : List Octet) : Option (Int × σ) := transport.write s lba buf

structure BlockCaps where
  maxSector : Nat
  sectorSize : Nat
  maxTransfer : Nat
  flags : BitVec 32
  deriving DecidableEq

def blockGetCaps (s : σ) : BlockCaps where
  maxSector := (transport.getSectorCount s - 1).toNat
  sectorSize := sectorSize
  maxTransfer := 1
  flags := 1 ||| 2 ||| 0x80

def sectorReply (out : Bool) (rc : Int) : Reply :=
  if rc = 0 then ⟨0, if out then BitVec.ofNat 64 sectorSize else 0⟩ else ⟨-1, 0⟩

def blockDevfsRead (driver : Option (BlockTransport σ)) (s : σ) (unit : BitVec 32) (buf : Option (List Octet))
    (len : Nat) (readOut : Bool) : Option (Reply × Option (List Octet)) :=
  match driver, buf with
  | some transport, some bytes =>
    if len < sectorSize then some (⟨-1, 0⟩, buf)
    else (blockReadSector transport s unit bytes).map fun result => (sectorReply readOut result.1, some result.2)
  | _, _ => some (⟨-1, 0⟩, buf)

def blockDevfsWrite (driver : Option (BlockTransport σ)) (s : σ) (unit : BitVec 32) (buf : Option (List Octet))
    (len : Nat) (writtenOut : Bool) : Option (Reply × σ) :=
  match driver, buf with
  | some transport, some bytes =>
    if len < sectorSize then some (⟨-1, 0⟩, s)
    else (blockWriteSector transport s unit bytes).map fun result => (sectorReply writtenOut result.1, result.2)
  | _, _ => some (⟨-1, 0⟩, s)

end

abbrev Sector := { bytes : List Octet // bytes.length = sectorSize }

inductive Route where
  | driver
  | devfs

section
variable {σ : Type} (transport : BlockTransport σ) (s : σ) (lba : BitVec 32) (buf : Sector)

def Route.write : Route → Option (Int × σ)
  | driver => blockWriteSector transport s lba buf.1
  | devfs => (blockDevfsWrite (some transport) s lba (some buf.1) sectorSize true).map fun (reply, s) => (reply.rc, s)

def Route.read : Route → Option (Int × Nat × List Octet)
  | driver => (blockReadSector transport s lba buf.1).map fun (rc, buf) =>
    (rc, (blockGetCaps transport s).sectorSize, buf)
  | devfs => (blockDevfsRead (some transport) s lba (some buf.1) sectorSize true).map fun (reply, buf) =>
    (reply.rc, reply.moved.toNat, buf.getD [])

variable {transport s lba buf}

theorem Route.write_zero {s' : σ} (written : transport.write s lba buf.1 = some (0, s')) (route : Route) :
    route.write transport s lba buf = some (0, s') := by
  cases route with
  | driver => exact written
  | devfs =>
    rw [write, blockDevfsWrite, if_neg (lt_irrefl _), blockWriteSector, written]
    rfl

theorem Route.read_zero {bytes : List Octet} (got : transport.read s lba buf.1 = some (0, bytes)) (route : Route) :
    route.read transport s lba buf = some (0, sectorSize, bytes) := by
  cases route with
  | driver =>
    rw [read, blockReadSector, got]
    rfl
  | devfs =>
    rw [read, blockDevfsRead, if_neg (lt_irrefl _), blockReadSector, got]
    rfl

end

theorem clusterSize_lt {d : TextDisk} (wellFormed : WellFormed d) (some : 0 < d.totalClusters) :
    d.clusterSize < sectorSize := by
  obtain ⟨ruler, cells, layout⟩ := wellFormed
  have first : 0 < cells.length := by rw [layout.count]; exact some
  have short := layout.short (clusterLine 0 cells[0]) (mem_mapIdx.mpr ⟨0, first, rfl⟩)
  rw [length_clusterLine, (layout.cell _ (getElem_mem first)).1] at short
  show d.clusterSize < 512
  omega

theorem host_write_read {blk : HostBlk} (wellFormed : WellFormed blk.disk) (int : blk.disk.totalClusters < 2 ^ 31)
    {lba : BitVec 32} (inside : lba.toNat < blk.disk.totalClusters) (buf old : Sector) :
    ∃ blk', hostTransport.write blk lba buf.1 = some (0, blk') ∧ hostTransport.read blk' lba old.1 =
        some (0, buf.1.take blk.disk.clusterSize ++ old.1.drop blk.disk.clusterSize) := by
  have small := (clusterSize_lt wellFormed (by omega)).le
  have enough : blk.disk.clusterSize ≤ buf.1.length := small.trans_eq buf.2.symm
  have signed : lba.toInt = lba.toNat := BitVec.toInt_eq_toNat_of_lt (by omega)
  have len : (buf.1.take blk.disk.clusterSize).length = blk.disk.clusterSize := length_take_of_le enough
  obtain ⟨ruler, cells, layout⟩ := wellFormed
  obtain ⟨d', written, -, -, -, read, -⟩ := layout.writeCluster inside buf.1 enough
  refine ⟨{ blk with disk := d' }, ?_, ?_⟩
  · show hostBlockWrite blk lba buf.1 = _
    rw [hostBlockWrite, if_neg (by omega), if_neg (not_lt.mpr enough), signed, written]
    rfl
  · have stored := storeAt_behind length_nil old.1 (buf.1.take blk.disk.clusterSize) (by rw [len, old.2]; exact small)
    rw [nil_append, nil_append, len] at stored
    show hostBlockRead _ lba old.1 = _
    rw [hostBlockRead, signed, read]
    dsimp only
    rw [stored]
    rfl

/-- What is read back is the sector that was written exactly when the buffer held the rest of it before. -/
theorem sector_round_trip_iff (blk : HostBlk) (wellFormed : WellFormed blk.disk)
    (int : blk.disk.totalClusters < 2 ^ 31) (route : Route) (lba : BitVec 32)
    (inside : lba.toNat < blk.disk.totalClusters) (buf old : Sector) :
    ∃ blk' got, route.write hostTransport blk lba buf = some (0, blk') ∧
      route.read hostTransport blk' lba old = some (0, sectorSize, got) ∧ got.length = sectorSize ∧
      (got = buf.1 ↔ old.1.drop blk.disk.clusterSize = buf.1.drop blk.disk.clusterSize) := by
  obtain ⟨blk', written, read⟩ := host_write_read wellFormed int inside buf old
  refine ⟨blk', _, route.write_zero written, route.read_zero read, ?_, ?_⟩
  · rw [length_append, length_take, length_drop, buf.2, old.2]
    omega
  · constructor
    · intro same
      exact append_cancel_left (same.trans (take_append_drop blk.disk.clusterSize buf.1).symm)
    · intro rest
      rw [rest, take_append_drop]

def sectorOf (byte : Octet) : Sector := ⟨List.replicate sectorSize byte, length_replicate⟩

def smallBlk : HostBlk := ⟨2, smallDisk⟩

theorem sector_round_trip_same : ∃ blk got, Route.devfs.write hostTransport smallBlk 1 (sectorOf 0x5e) = some (0, blk) ∧
    Route.devfs.read hostTransport blk 1 (sectorOf 0x5e) = some (0, sectorSize, got) ∧ got = (sectorOf 0x5e).1 := by
  obtain ⟨blk, got, written, read, -, same⟩ := sector_round_trip_iff smallBlk smallDisk_wellFormed (by decide) .devfs 1
    (by decide) (sectorOf 0x5e) (sectorOf 0x5e)
  exact ⟨blk, got, written, read, same.mpr rfl⟩

theorem sector_read_short : 1 :: replicate 511 0 ≠ (sectorOf 1).1 ∧
    (∃ blk, Route.driver.write hostTransport smallBlk 1 (sectorOf 1) = some (0, blk) ∧
      Route.driver.read hostTransport blk 1 (sectorOf 0) = some (0, sectorSize, 1 :: replicate 511 0)) ∧
    ∃ blk, Route.devfs.write hostTransport smallBlk 1 (sectorOf 1) = some (0, blk) ∧
      Route.devfs.read hostTransport blk 1 (sectorOf 0) = some (0, sectorSize, 1 :: replicate 511 0) := by
  have inside : (1 : BitVec 32).toNat < smallBlk.disk.totalClusters := by decide
  obtain ⟨blk, written, read⟩ := host_write_read smallDisk_wellFormed (by decide) inside (sectorOf 1) (sectorOf 0)
  refine ⟨by decide +kernel, ⟨blk, ?_, ?_⟩, blk, ?_, ?_⟩
  · exact Route.driver.write_zero written
  · exact Route.driver.read_zero read
  · exact Route.devfs.write_zero written
  · exact Route.devfs.read_zero read

end Flinstone.Drivers
