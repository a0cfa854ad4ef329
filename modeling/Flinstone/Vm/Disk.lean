import Flinstone.Sys.Env

/-!
# The virtual disk

`vm_disk.c`.
-/

namespace Flinstone.Vm
open Flinstone.Sys

structure HostFile where
  length : Nat
  byte : Nat → Byte

-- `s_vm_disk_fp` (whether it is open), `s_vm_disk_sectors`, the image and `vm_checkpoint_disk.img`
structure VmDisk where
  isOpen : Bool
  sectors : Word
  image : HostFile
  checkpoint : Option HostFile

variable {W : Type}

def vmDiskIsActive (disk : VmDisk) : Bool := disk.isOpen

def HostFile.sector (file : HostFile) (lba : Nat) : Sector := fun i => file.byte (lba * 512 + i)

def HostFile.put (file : HostFile) (lba : Nat) (data : Sector) : HostFile where
  length := max file.length (lba * 512 + 512)
  byte := fun i =>
    if i / 512 = lba then data ⟨i % 512, Nat.mod_lt _ (by decide)⟩ else file.byte i

def vmDiskReadSector (env : Env W) (disk : VmDisk) (lba : Word) (w : W) : Option Sector × W :=
  if !disk.isOpen || disk.sectors.toNat ≤ lba.toNat then (none, w)
  else
    match env.succeeds w with
    | (false, w) => (none, w)
    | (true, w) =>
      match env.succeeds w with
      | (false, w) => (none, w)
      | (true, w) =>
        if disk.image.length < lba.toNat * 512 + 512 then (none, w)
        else (some (disk.image.sector lba.toNat), w)

-- the return value is not used by any caller
def vmDiskWriteSector (env : Env W) (disk : VmDisk) (lba : Word) (data : Sector) (w : W) : VmDisk × W :=
  if !disk.isOpen || disk.sectors.toNat ≤ lba.toNat then (disk, w)
  else
    match env.succeeds w with
    | (false, w) => (disk, w)
    | (true, w) =>
      match env.succeeds w with
      | (false, w) => (disk, w)
      | (true, w) => ({ disk with image := disk.image.put lba.toNat data }, w)

/-! ## Copying the image -/

def HostFile.empty : HostFile := ⟨0, fun _ => 0⟩

def HostFile.copyChunk (src dst : HostFile) (start count : Nat) : HostFile where
  length := max dst.length (start + count)
  byte := fun i => if start ≤ i ∧ i < start + count then src.byte i else dst.byte i

-- the copy loop, `passes` times at most; the flag says that no `fread` or `fwrite` fell short
def copyChunks (env : Env W) (src : HostFile) (size : Nat) : Nat → Nat → HostFile → W → Bool × HostFile × W
  | 0, _, dst, w => (true, dst, w)
  | passes + 1, start, dst, w =>
    if start < size then
      let count := min (size - start) 65536
      match env.succeeds w with
      | (false, w) => (false, dst, w)
      | (true, w) =>
        if src.length < start + count then (false, dst, w)
        else
          match env.succeeds w with
          | (false, w) => (false, dst, w)
          | (true, w) =>
            copyChunks env src size passes (start + 65536) (src.copyChunk dst start count) w
    else (true, dst, w)

def copyImage (env : Env W) (src : HostFile) (sectors : Word) (w : W) : Bool × HostFile × W :=
  let size := sectors.toNat * 512
  copyChunks env src size (size / 65536 + 1) 0 .empty w

/-! ## Opening the image -/

-- `fopen` with mode `r+b`, and with `w+b` if that fails; `existing` is the file at the path
def openImage (env : Env W) (existing : Option HostFile) (w : W) : Option HostFile × W :=
  match existing, env.succeeds w with
  | some file, (true, w) => (some file, w)
  | _, (_, w) =>
    let (created, w) := env.succeeds w
    (if created then some .empty else none, w)

def fillZeros (env : Env W) (target : Nat) : Nat → Nat → HostFile → W → Bool × HostFile × W
  | 0, _, file, w => (true, file, w)
  | passes + 1, start, file, w =>
    if start < target then
      match env.succeeds w with
      | (false, w) => (false, file, w)
      | (true, w) =>
        let longer := HostFile.empty.copyChunk file start (min (target - start) 65536)
        fillZeros env target passes (start + 65536) longer w
    else (true, file, w)

def growImage (env : Env W) (target : Nat) (image : HostFile) (w : W) : Bool × HostFile × W :=
  if image.length < target then
    match env.malloc 65536 w with
    | (none, w) => (false, image, w)
    | (some _, w) =>
      fillZeros env target ((target - image.length) / 65536 + 1) image.length image w
  else (true, image, w)

-- `refused` when `fs_jail_check_path` keeps the path out
def vmDiskInit (env : Env W) (existing : Option HostFile) (refused : Bool) (sizeMb : Word)
    (disk : VmDisk) (w : W) : Bool × VmDisk × W :=
  if sizeMb = 0 ∨ refused then (false, disk, w)
  else
    let closed := { disk with isOpen := false, sectors := 0 }
    match openImage env existing w with
    | (none, w) => (false, closed, w)
    | (some image, w) =>
      match env.succeeds w with
      | (false, w) => (false, closed, w)
      | (true, w) =>
        match env.succeeds w with
        | (false, w) => (false, closed, w)
        | (true, w) =>
          let target := sizeMb.toNat * 1024 * 1024
          match growImage env target image w with
          | (false, _, w) => (false, closed, w)
          | (true, image, w) =>
            (true, ⟨true, BitVec.ofNat 32 (target / 512), image, disk.checkpoint⟩, w)

/-! ## Saving and restoring -/

-- the files of a checkpoint: what is in a written file once it is closed (nobody looks at the result of `fclose`), and
-- for a path that `s_vm_disk_path` does not hold whole, what stands at its first 255 characters
structure ImageFiles where
  kept : Nat → Nat
  kept_le : ∀ size, kept size ≤ size
  aside : Option (Option HostFile)

def ImageFiles.plain : ImageFiles := ⟨id, fun _ => le_rfl, none⟩

def ImageFiles.closed (files : ImageFiles) (file : HostFile) : HostFile :=
  { file with length := files.kept file.length }

def ImageFiles.named (files : ImageFiles) (disk : VmDisk) : Option HostFile := files.aside.getD (some disk.image)

def vmDiskSnapshotSaveOn (files : ImageFiles) (env : Env W) (disk : VmDisk) (w : W) : Bool × VmDisk × W :=
  if !disk.isOpen then (false, disk, w)
  else
    match files.named disk, env.succeeds w with
    | none, (_, w) => (false, disk, w)
    | some _, (false, w) => (false, disk, w)
    | some src, (true, w) =>
      match env.succeeds w with
      | (false, w) => (false, disk, w)
      | (true, w) =>
        -- opened for writing, the checkpoint file is empty
        match env.malloc 65536 w with
        | (none, w) => (false, { disk with checkpoint := some (files.closed .empty) }, w)
        | (some _, w) =>
          let (done, copy, w) := copyImage env src disk.sectors w
          (done, { disk with checkpoint := some (files.closed copy) }, w)

-- the image file is closed first, and stays closed on every early return; behind the copy it is the file at
-- `s_vm_disk_path` that is opened
def vmDiskSnapshotRestoreOn (files : ImageFiles) (env : Env W) (disk : VmDisk) (w : W) : Bool × VmDisk × W :=
  if !disk.isOpen then (false, disk, w)
  else
    let shut := { disk with isOpen := false }
    match disk.checkpoint, env.succeeds w with
    | none, (_, w) => (false, shut, w)
    | some _, (false, w) => (false, shut, w)
    | some src, (true, w) =>
      match env.succeeds w with
      | (false, w) => (false, shut, w)
      | (true, w) =>
        match env.malloc 65536 w with
        | (none, w) => (false, { shut with image := files.closed .empty }, w)
        | (some _, w) =>
          let (done, copy, w) := copyImage env src disk.sectors w
          let (reopened, w) := env.succeeds w
          (reopened && done, { shut with image := files.closed copy, isOpen := reopened }, w)

def vmDiskSnapshotSave (env : Env W) : VmDisk → W → Bool × VmDisk × W := vmDiskSnapshotSaveOn .plain env

def vmDiskSnapshotRestore (env : Env W) : VmDisk → W → Bool × VmDisk × W := vmDiskSnapshotRestoreOn .plain env

/-! ## Checkpoints of an intact image -/

def DiskIntact (disk : VmDisk) : Prop := disk.isOpen = true → disk.sectors.toNat * 512 ≤ disk.image.length

instance (disk : VmDisk) : Decidable (DiskIntact disk) := by
  unfold DiskIntact
  infer_instance

variable {env : Env W} {target : Nat} {image src : HostFile} {w w' : W} {existing : Option HostFile} {refused : Bool}
  {sizeMb sectors : Word} {disk opened : VmDisk}

theorem fillZeros_length {passes start : Nat} (enough : target ≤ start + passes * 65536) {file : HostFile}
    (filled : min start target ≤ file.length) (w : W)
    (done : (fillZeros env target passes start file w).1 = true) :
    target ≤ (fillZeros env target passes start file w).2.1.length := by
  induction passes generalizing start file w with
  | zero =>
    simp only [fillZeros]
    omega
  | succ passes ih =>
    unfold fillZeros at done ⊢
    by_cases below : start < target
    · rw [if_pos below] at done ⊢
      cases written : env.succeeds w with
      | mk ok w₁ =>
        cases ok with
        | false => simp [written] at done
        | true =>
          simp only [written] at done ⊢
          refine ih (by omega) ?_ w₁ done
          simp only [HostFile.copyChunk]
          omega
    · rw [if_neg below]
      show target ≤ file.length
      omega

theorem growImage_length (done : (growImage env target image w).1 = true) :
    target ≤ (growImage env target image w).2.1.length := by
  unfold growImage at done ⊢
  by_cases short : image.length < target
  · rw [if_pos short] at done ⊢
    cases allocated : env.malloc 65536 w with
    | mk buffer w₁ =>
      cases buffer with
      | none => simp [allocated] at done
      | some size =>
        simp only [allocated] at done ⊢
        exact fillZeros_length (by omega) (min_le_left _ _) w₁ done
  · rw [if_neg short]
    exact not_lt.mp short

-- `s_vm_disk_sectors` has 32 bits
theorem sectors_le (target : Nat) : (BitVec.ofNat 32 (target / 512)).toNat * 512 ≤ target := by
  exact (Nat.mul_le_mul_right 512 (Nat.mod_le _ _)).trans (Nat.div_mul_le_self target 512)

theorem vmDiskInit_intact (done : vmDiskInit env existing refused sizeMb disk w = (true, opened, w')) :
    DiskIntact opened := by
  unfold vmDiskInit at done
  split at done
  · cases done
  dsimp only at done
  split at done
  · cases done
  split at done
  · cases done
  split at done
  · cases done
  split at done
  · cases done
  · next image' w' grown =>
      cases done
      intro _
      have long := growImage_length (congrArg Prod.fst grown)
      rw [grown] at long
      exact (sectors_le _).trans long

theorem vmDiskInit_opens (done : vmDiskInit env existing refused sizeMb disk w = (true, opened, w')) :
    opened.isOpen = true := by
  unfold vmDiskInit at done
  grind

theorem vmDiskWriteSector_intact (env : Env W) (intact : DiskIntact disk) (lba : Word) (data : Sector) (w : W) :
    DiskIntact (vmDiskWriteSector env disk lba data w).1 := by
  unfold vmDiskWriteSector
  split
  · exact intact
  split
  · exact intact
  split
  · exact intact
  · exact fun opened => (intact opened).trans (le_max_left _ _)

theorem vmDiskSnapshotSaveOn_keeps (files : ImageFiles) (env : Env W) (disk : VmDisk) (w : W) :
    ∃ checkpoint, (vmDiskSnapshotSaveOn files env disk w).2.1 = { disk with checkpoint } := by
  unfold vmDiskSnapshotSaveOn
  split
  · exact ⟨disk.checkpoint, rfl⟩
  split
  · exact ⟨disk.checkpoint, rfl⟩
  · exact ⟨disk.checkpoint, rfl⟩
  split
  · exact ⟨disk.checkpoint, rfl⟩
  split <;> exact ⟨_, rfl⟩

structure HostFile.Copies (src dst : HostFile) (size : Nat) : Prop where
  length : size ≤ dst.length
  byte : ∀ i < size, dst.byte i = src.byte i

section
variable {env : Env W} {src dst : HostFile} {size passes start : Nat}

theorem copyChunks_whole (enough : size ≤ start + passes * 65536) (copied : src.Copies dst (min start size)) (w : W)
    (done : (copyChunks env src size passes start dst w).1 = true) :
    src.Copies (copyChunks env src size passes start dst w).2.1 size := by
  induction passes generalizing start dst w with
  | zero =>
    have all : min start size = size := by omega
    exact all ▸ copied
  | succ passes ih =>
    by_cases more : start < size
    · have next : src.Copies (src.copyChunk dst start (min (size - start) 65536)) (min (start + 65536) size) := by
        constructor
        · simp only [HostFile.copyChunk]
          omega
        · intro i below
          simp only [HostFile.copyChunk]
          split
          · rfl
          · exact copied.byte i (by omega)
      have reach : size ≤ start + 65536 + passes * 65536 := by omega
      simp only [copyChunks, more, if_true] at done ⊢
      split at done
      · cases done
      split at done
      · cases done
      split at done
      · cases done
      · next whole _ _ _ =>
          simp only [whole, if_false]
          exact ih reach next _ done
    · have all : min start size = size := by omega
      simp only [copyChunks, more, if_false]
      exact all ▸ copied

theorem copyChunks_short (short : dst.length ≤ start) (w : W)
    (failed : (copyChunks env src size passes start dst w).1 = false) :
    (copyChunks env src size passes start dst w).2.1.length < size := by
  induction passes generalizing start dst w with
  | zero => cases failed
  | succ passes ih =>
    by_cases more : start < size
    · have next : (src.copyChunk dst start (min (size - start) 65536)).length ≤ start + 65536 := by
        simp only [HostFile.copyChunk]
        omega
      have left : dst.length < size := by omega
      simp only [copyChunks, more, if_true] at failed ⊢
      split at failed
      · exact left
      split at failed
      · next short => simpa only [short, if_true] using left
      split at failed
      · next whole _ _ _ => simpa only [whole, if_false] using left
      · next whole _ _ _ =>
          simp only [whole, if_false]
          exact ih next _ failed
    · simp only [copyChunks, more, if_false] at failed
      cases failed

theorem copyChunks_calm (calm : CalmHost env) (long : size ≤ src.length) (w : W) :
    (copyChunks env src size passes start dst w).1 = true := by
  induction passes generalizing start dst w with
  | zero => rfl
  | succ passes ih =>
    by_cases more : start < size
    · obtain ⟨w₁, read⟩ := calm.succeeds_eq w
      obtain ⟨w₂, written⟩ := calm.succeeds_eq w₁
      have whole : ¬ src.length < start + min (size - start) 65536 := by omega
      simp only [copyChunks, more, if_true, read, whole, if_false, written]
      exact ih w₂
    · simp only [copyChunks, more, if_false]

end

theorem copyImage_whole (done : (copyImage env src sectors w).1 = true) :
    src.Copies (copyImage env src sectors w).2.1 (sectors.toNat * 512) :=
  copyChunks_whole (by omega) ⟨by simp, fun i below => by simp at below⟩ w done

theorem copyImage_short (failed : (copyImage env src sectors w).1 = false) :
    (copyImage env src sectors w).2.1.length < sectors.toNat * 512 :=
  copyChunks_short (le_refl 0) w failed

theorem copyImage_copies (calm : CalmHost env) (long : sectors.toNat * 512 ≤ src.length) (w : W) :
    ∃ dst w', copyImage env src sectors w = (true, dst, w') ∧ src.Copies dst (sectors.toNat * 512) := by
  have done : (copyImage env src sectors w).1 = true := copyChunks_calm calm long w
  exact ⟨_, _, Prod.ext done rfl, copyImage_whole done⟩

def diskContent (disk : VmDisk) (lba : Nat) : Option Sector :=
  if disk.isOpen = true ∧ lba < disk.sectors.toNat ∧ lba * 512 + 512 ≤ disk.image.length then
    some (disk.image.sector lba)
  else none

theorem diskContent_eq_some (active : disk.isOpen = true) (intact : DiskIntact disk) {lba : Nat}
    (below : lba < disk.sectors.toNat) : diskContent disk lba = some (disk.image.sector lba) := by
  have last : lba * 512 + 512 ≤ disk.sectors.toNat * 512 := by omega
  rw [diskContent, if_pos ⟨active, below, last.trans (intact active)⟩]

theorem diskContent_isSome_iff (active : disk.isOpen = true) (intact : DiskIntact disk) (lba : Nat) :
    (diskContent disk lba).isSome ↔ lba < disk.sectors.toNat := by
  constructor
  · intro some
    by_contra outside
    rw [diskContent, if_neg fun h => outside h.2.1] at some
    cases some
  · intro below
    rw [diskContent_eq_some active intact below]
    rfl

theorem HostFile.sector_put (file : HostFile) (lba : Nat) (data : Sector) (other : Nat) :
    (file.put lba data).sector other = if other = lba then data else file.sector other := by
  funext i
  have quotient : (other * 512 + i.val) / 512 = other := by omega
  have remainder : (other * 512 + i.val) % 512 = i.val := by omega
  simp only [sector, put, quotient, remainder]
  split <;> rfl

theorem diskContent_put {disk : VmDisk} (active : disk.isOpen = true) (intact : DiskIntact disk) {lba : Nat}
    (below : lba < disk.sectors.toNat) (data : Sector) (other : Nat) :
    diskContent { disk with image := disk.image.put lba data } other =
      if other = lba then some data else diskContent disk other := by
  let written := { disk with image := disk.image.put lba data }
  have kept : DiskIntact written := fun opened => (intact opened).trans (le_max_left _ _)
  by_cases inside : other < disk.sectors.toNat
  · have read : diskContent written other = some (written.image.sector other) :=
      @diskContent_eq_some written active kept other inside
    rw [read, diskContent_eq_some active intact inside]
    rw [HostFile.sector_put]
    split <;> rfl
  · have none {image : HostFile} : diskContent { disk with image } other = none := if_neg fun h => inside h.2.1
    have different : other ≠ lba := by omega
    rw [none, if_neg different]
    exact none.symm

theorem diskContent_copies (intact : DiskIntact disk) (copies : disk.image.Copies image (disk.sectors.toNat * 512)) :
    diskContent { disk with image } = diskContent disk := by
  funext lba
  simp only [diskContent]
  by_cases readable : disk.isOpen = true ∧ lba < disk.sectors.toNat
  · have last : lba * 512 + 512 ≤ disk.sectors.toNat * 512 := by omega
    have old := last.trans (intact readable.1)
    have new := last.trans copies.length
    rw [if_pos ⟨readable.1, readable.2, new⟩, if_pos ⟨readable.1, readable.2, old⟩]
    congr 1
    funext i
    have inside : lba * 512 + i.val < disk.sectors.toNat * 512 := by omega
    exact copies.byte _ inside
  · rw [if_neg (fun h => readable ⟨h.1, h.2.1⟩), if_neg (fun h => readable ⟨h.1, h.2.1⟩)]

theorem vmDiskSnapshotSave_calm (calm : CalmHost env) (active : disk.isOpen = true) (intact : DiskIntact disk) (w : W) :
    ∃ copy w', vmDiskSnapshotSave env disk w = (true, { disk with checkpoint := some copy }, w') ∧
      disk.image.Copies copy (disk.sectors.toNat * 512) := by
  obtain ⟨w₁, opened⟩ := calm.succeeds_eq w
  obtain ⟨w₂, created⟩ := calm.succeeds_eq w₁
  obtain ⟨granted, w₃, buffer⟩ := calm.malloc_eq 65536 w₂
  obtain ⟨copy, w', copied, copies⟩ := copyImage_copies calm (intact active) w₃
  refine ⟨copy, w', ?_, copies⟩
  simp only [vmDiskSnapshotSave, vmDiskSnapshotSaveOn, active, Bool.not_true, Bool.false_eq_true, if_false,
    ImageFiles.named, ImageFiles.plain, Option.getD_none, opened, created, buffer, copied]
  rfl

theorem vmDiskSnapshotRestore_calm (calm : CalmHost env)
    (active : disk.isOpen = true) (saved : disk.checkpoint = some src)
    (long : disk.sectors.toNat * 512 ≤ src.length) (w : W) :
    ∃ image w', vmDiskSnapshotRestore env disk w = (true, { disk with image }, w') ∧
      src.Copies image (disk.sectors.toNat * 512) := by
  obtain ⟨w₁, opened⟩ := calm.succeeds_eq w
  obtain ⟨w₂, created⟩ := calm.succeeds_eq w₁
  obtain ⟨granted, w₃, buffer⟩ := calm.malloc_eq 65536 w₂
  obtain ⟨image, w₄, copied, copies⟩ := copyImage_copies calm long w₃
  obtain ⟨w', reopened⟩ := calm.succeeds_eq w₄
  refine ⟨image, w', ?_, copies⟩
  simp only [vmDiskSnapshotRestore, vmDiskSnapshotRestoreOn, active, Bool.not_true, Bool.false_eq_true, if_false, saved,
    opened, created, buffer, copied, reopened, Bool.and_self]
  rfl

end Flinstone.Vm
