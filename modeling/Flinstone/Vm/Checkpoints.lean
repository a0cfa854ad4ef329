import Flinstone.Vm.Image

/-! # Checkpoints under failure -/

namespace Flinstone.Vm
open Flinstone.Lib Flinstone.Sys Option

variable {n : Nat} {W : Type}

/-! ## What the host grants -/

/-- The next so many file operations all succeed. -/
def Grants (env : Env W) : Nat → W → Prop
  | 0, _ => True
  | count + 1, w => (env.succeeds w).1 = true ∧ Grants env count (env.succeeds w).2

def asked (env : Env W) : Nat → W → W
  | 0, w => w
  | count + 1, w => asked env count (env.succeeds w).2

def chunks (size : Nat) : Nat := (size + 65535) / 65536

def buffered (env : Env W) (w : W) : W := (env.malloc 65536 (asked env 2 w)).2

/-- There is a buffer, and every chunk is read and written. -/
def MovesAll (env : Env W) (size : Nat) (w : W) : Prop :=
  (env.malloc 65536 (asked env 2 w)).1.isSome = true ∧ Grants env (2 * chunks size) (buffered env w)

/-- Two files are opened, all is copied, and the image is opened again. -/
def RestoreGranted (env : Env W) (size : Nat) (w : W) : Prop :=
  Grants env 2 w ∧ MovesAll env size w ∧ Grants env 1 (asked env (2 * chunks size) (buffered env w))

section
variable {env : Env W}

theorem grants_calm (files : ∀ w, (env.succeeds w).1 = true) (count : Nat) (w : W) : Grants env count w := by
  induction count generalizing w with
  | zero => trivial
  | succ count ih => exact ⟨files w, ih _⟩

theorem copyChunks_granted {src dst : HostFile} {size passes start : Nat} (enough : size ≤ start + passes * 65536)
    (w : W) : ((copyChunks env src size passes start dst w).1 = true ↔
        Grants env (2 * chunks (size - start)) w ∧ (start < size → size ≤ src.length)) ∧
      ((copyChunks env src size passes start dst w).1 = true →
        (copyChunks env src size passes start dst w).2.2 = asked env (2 * chunks (size - start)) w) := by
  induction passes generalizing start dst w with
  | zero =>
    have none : chunks (size - start) = 0 := by
      unfold chunks
      omega
    rw [none]
    exact ⟨iff_of_true rfl ⟨trivial, by omega⟩, fun _ => rfl⟩
  | succ passes ih =>
    by_cases more : start < size
    · obtain ⟨rounds, one, later⟩ : ∃ rounds, 2 * chunks (size - start) = rounds + 1 + 1 ∧
          2 * chunks (size - (start + 65536)) = rounds :=
        ⟨_, by unfold chunks; omega, rfl⟩
      rw [one]
      simp only [copyChunks, more, if_true, Grants, asked]
      rcases env.succeeds w with ⟨read, w₁⟩
      cases read with
      | false => simp
      | true =>
        by_cases short : src.length < start + min (size - start) 65536
        · simp only [short, if_true]
          exact ⟨iff_of_false (by simp) fun both => by have := both.2 trivial; omega, by simp⟩
        · simp only [short, if_false]
          rcases env.succeeds w₁ with ⟨written, w₂⟩
          cases written with
          | false => simp
          | true =>
            have next := @ih (src.copyChunk dst start (min (size - start) 65536)) (start + 65536) (by omega) w₂
            rw [later] at next
            refine ⟨next.1.trans ?_, next.2⟩
            simp only [true_and, forall_const]
            refine and_congr_right fun _ => ⟨fun long => ?_, fun long _ => long⟩
            by_cases beyond : start + 65536 < size
            · exact long beyond
            · omega
    · have none : chunks (size - start) = 0 := by
        unfold chunks
        omega
      rw [none]
      simp only [copyChunks, more, if_false]
      exact ⟨iff_of_true trivial ⟨trivial, fun never => absurd never not_false⟩, fun _ => rfl⟩

theorem copyImage_granted (env : Env W) (src : HostFile) (sectors : Word) (w : W) :
    ((copyImage env src sectors w).1 = true ↔
        Grants env (2 * chunks (sectors.toNat * 512)) w ∧ sectors.toNat * 512 ≤ src.length) ∧
      ((copyImage env src sectors w).1 = true →
        (copyImage env src sectors w).2.2 = asked env (2 * chunks (sectors.toNat * 512)) w) := by
  obtain ⟨done, after⟩ := @copyChunks_granted W env src .empty (sectors.toNat * 512)
    (sectors.toNat * 512 / 65536 + 1) 0 (by omega) w
  refine ⟨done.trans (and_congr_right fun _ => ⟨fun long => ?_, fun long _ => long⟩), after⟩
  by_cases some : 0 < sectors.toNat * 512
  · exact long some
  · omega

end

/-! ## What the two copies leave -/

theorem copyChunks_length_le {env : Env W} {src : HostFile} {size : Nat} (passes start : Nat) (dst : HostFile) (w : W) :
    (copyChunks env src size passes start dst w).2.1.length ≤ max dst.length size := by
  have stays : dst.length ≤ max dst.length size := le_max_left ..
  induction passes generalizing start dst w with
  | zero => exact stays
  | succ passes ih =>
    unfold copyChunks
    split_ifs with more
    · rcases env.succeeds w with ⟨read, w₁⟩
      cases read with
      | false => exact stays
      | true =>
        dsimp only
        split_ifs
        · exact stays
        rcases env.succeeds w₁ with ⟨written, w₂⟩
        cases written with
        | false => exact stays
        | true =>
          refine (ih _ _ _ (le_max_left ..)).trans ?_
          simp only [HostFile.copyChunk]
          omega
    · exact stays

section
variable {env : Env W} {files : ImageFiles} {disk : VmDisk} {w : W} {src : HostFile}

theorem copyImage_length {sectors : Word} (done : (copyImage env src sectors w).1 = true) :
    (copyImage env src sectors w).2.1.length = sectors.toNat * 512 :=
  le_antisymm ((copyChunks_length_le _ 0 .empty w).trans (by simp [HostFile.empty])) (copyImage_whole done).length

theorem saveOn_unopened (active : disk.isOpen = true) (refused : files.named disk = none ∨ ¬ Grants env 2 w) :
    (vmDiskSnapshotSaveOn files env disk w).2.1 = disk := by
  unfold vmDiskSnapshotSaveOn
  rw [if_neg (by simp [active])]
  rcases first : env.succeeds w with ⟨opened, w₁⟩
  cases named : files.named disk with
  | none => rfl
  | some src =>
    have other := refused.resolve_left (by simp [named])
    cases opened with
    | false => rfl
    | true =>
      dsimp only
      rcases second : env.succeeds w₁ with ⟨created, w₂⟩
      cases created with
      | false => rfl
      | true => exact absurd (by simp [Grants, first, second]) other

theorem saveOn_opened (active : disk.isOpen = true) (named : files.named disk = some src) (opened : Grants env 2 w) :
    (vmDiskSnapshotSaveOn files env disk w).2.1 = { disk with
      checkpoint := some (files.closed (if (env.malloc 65536 (asked env 2 w)).1.isSome = true
        then (copyImage env src disk.sectors (buffered env w)).2.1 else .empty)) } := by
  unfold vmDiskSnapshotSaveOn
  rcases first : env.succeeds w with ⟨read, w₁⟩
  rcases second : env.succeeds w₁ with ⟨written, w₂⟩
  rcases third : env.malloc 65536 w₂ with ⟨buffer, w₃⟩
  simp only [Grants, first, second, and_true] at opened
  rw [if_neg (by simp [active]), named, opened.1]
  simp only [asked, buffered, first, second, third, opened.2]
  cases buffer <;> rfl

/-- The new checkpoint file holds the sectors of the image. -/
theorem closed_copies_iff : disk.image.Copies (files.closed (if (env.malloc 65536 (asked env 2 w)).1.isSome = true
      then (copyImage env src disk.sectors (buffered env w)).2.1 else .empty)) (disk.sectors.toNat * 512) ↔
    disk.sectors.toNat = 0 ∨ MovesAll env (disk.sectors.toNat * 512) w ∧
      disk.image.Copies src (disk.sectors.toNat * 512) ∧
      files.kept (disk.sectors.toNat * 512) = disk.sectors.toNat * 512 := by
  by_cases none : disk.sectors.toNat = 0
  · rw [none]
    exact iff_of_true ⟨by simp, fun i below => by simp at below⟩ (.inl rfl)
  rw [or_iff_right none, MovesAll]
  split_ifs with buffer
  · rw [and_iff_right buffer]
    obtain ⟨done, _⟩ := copyImage_granted env src disk.sectors (buffered env w)
    cases copied : (copyImage env src disk.sectors (buffered env w)).1 with
    | false =>
      refine iff_of_false (fun copies => ?_) fun all => ?_
      · have short := copyImage_short copied
        have long := copies.length.trans (files.kept_le _)
        omega
      · cases copied.symm.trans (done.mpr ⟨all.1, all.2.1.length⟩)
    | true =>
      have length := copyImage_length copied
      have whole := copyImage_whole copied
      obtain ⟨granted, long⟩ := done.mp copied
      rw [and_iff_right granted]
      constructor
      · intro copies
        have kept := copies.length
        rw [ImageFiles.closed, length] at kept
        exact ⟨⟨long, fun i below => (whole.byte i below).symm.trans (copies.byte i below)⟩,
          le_antisymm (files.kept_le _) kept⟩
      · rintro ⟨same, kept⟩
        refine ⟨?_, fun i below => (whole.byte i below).trans (same.byte i below)⟩
        rw [ImageFiles.closed, length, kept]
  · refine iff_of_false (fun copies => ?_) fun all => buffer all.1.1
    have long := copies.length.trans (files.kept_le _)
    rw [HostFile.empty] at long
    dsimp only at long
    omega

theorem restoreOn_done_iff (active : disk.isOpen = true) :
    (vmDiskSnapshotRestoreOn files env disk w).1 = true ↔ ∃ src, disk.checkpoint = some src ∧
      disk.sectors.toNat * 512 ≤ src.length ∧ RestoreGranted env (disk.sectors.toNat * 512) w := by
  unfold vmDiskSnapshotRestoreOn
  rw [if_neg (by simp [active])]
  rcases first : env.succeeds w with ⟨read, w₁⟩
  rcases second : env.succeeds w₁ with ⟨written, w₂⟩
  rcases third : env.malloc 65536 w₂ with ⟨buffer, w₃⟩
  simp only [RestoreGranted, MovesAll, buffered, Grants, asked, first, second, third, and_true]
  cases disk.checkpoint with
  | none => simp
  | some src =>
    cases read with
    | false => simp
    | true =>
      cases written with
      | false => simp [second]
      | true =>
        cases buffer with
        | none => simp [second, third]
        | some size =>
          obtain ⟨done, after⟩ := copyImage_granted env src disk.sectors w₃
          simp only [second, third, Bool.and_eq_true, done, some.injEq, exists_eq_left', true_and, isSome_some]
          constructor
          · rintro ⟨reopened, granted, long⟩
            rw [after (done.mpr ⟨granted, long⟩)] at reopened
            exact ⟨long, granted, reopened⟩
          · rintro ⟨long, granted, reopened⟩
            rw [after (done.mpr ⟨granted, long⟩)]
            exact ⟨reopened, granted, long⟩

theorem restoreOn_done (active : disk.isOpen = true) (done : (vmDiskSnapshotRestoreOn files env disk w).1 = true) :
    ∃ src copy, disk.checkpoint = some src ∧
      (vmDiskSnapshotRestoreOn files env disk w).2.1 = { disk with image := files.closed copy } ∧
      src.Copies copy (disk.sectors.toNat * 512) ∧ copy.length = disk.sectors.toNat * 512 := by
  unfold vmDiskSnapshotRestoreOn at done ⊢
  rw [if_neg (by simp [active])] at done ⊢
  split at done
  · cases done
  · cases done
  split at done
  · cases done
  split at done
  · cases done
  · obtain ⟨reopened, copied⟩ := Bool.and_eq_true_iff.mp done
    simp only [reopened]
    exact ⟨_, _, ‹disk.checkpoint = some _›, by rw [active], copyImage_whole copied, copyImage_length copied⟩

theorem restoreOn_lost (active : disk.isOpen = true) (failed : (vmDiskSnapshotRestoreOn files env disk w).1 = false) :
    (vmDiskSnapshotRestoreOn files env disk w).2.1.isOpen = false ∨
      (vmDiskSnapshotRestoreOn files env disk w).2.1.image.length < disk.sectors.toNat * 512 := by
  unfold vmDiskSnapshotRestoreOn at failed ⊢
  rw [if_neg (by simp [active])] at failed ⊢
  split at failed
  · exact .inl rfl
  · exact .inl rfl
  split at failed
  · exact .inl rfl
  split at failed
  · exact .inl rfl
  · rcases Bool.and_eq_false_iff.mp failed with closed | short
    · exact .inl closed
    · exact .inr ((files.kept_le _).trans_lt (copyImage_short short))

end

/-! ## What belongs together -/

structure CheckpointOf (moment m : Machine n W) : Prop where
  ram : m.snapshot.ramCopy = some moment.vm.mem.ram
  cpu : m.snapshot.cpuCopy = moment.vm.cpu
  disk : m.vm.disk.isOpen = true → moment.vm.disk.isOpen = true ∧ m.vm.disk.sectors = moment.vm.disk.sectors ∧
    ∃ file, m.vm.disk.checkpoint = some file ∧ moment.vm.disk.image.Copies file (moment.vm.disk.sectors.toNat * 512)

structure BackAt (moment : Machine n W) (active : Prop) (m : Machine n W) : Prop where
  ram : m.vm.mem.ram = moment.vm.mem.ram
  cpu : m.vm.cpu = moment.vm.cpu
  disk : active → m.vm.disk.isOpen = true ∧ diskContent m.vm.disk = diskContent moment.vm.disk

section
variable (files : ImageFiles) (env : Env W)

def SaveSound (m : Machine n W) : Prop :=
  (vmSnapshotSaveOn files env m).1 = false ∨ CheckpointOf m (vmSnapshotSaveOn files env m).2

def RestoreSound (moment m : Machine n W) : Prop :=
  (vmSnapshotRestoreOn files env m).1 = false ∨
    BackAt moment (m.vm.disk.isOpen = true) (vmSnapshotRestoreOn files env m).2

/-- A restore that fails, or whose disk part fails, leaves the disk as it was. -/
def DiskKept (m : Machine n W) : Prop :=
  m.vm.disk.isOpen = true → ((vmSnapshotRestoreOn files env m).1 = false ∨
      (vmDiskSnapshotRestoreOn files env m.vm.disk m.vm.world).1 = false) →
    (vmSnapshotRestoreOn files env m).2.vm.disk.isOpen = true ∧
      diskContent (vmSnapshotRestoreOn files env m).2.vm.disk = diskContent m.vm.disk

/-- The host after the memory for the copy of RAM, which a second checkpoint has already. -/
def afterRam (m : Machine n W) : W := if m.snapshot.ramCopy.isSome then m.vm.world else (env.malloc n m.vm.world).2

/-- When both files open, all is copied from a file that holds the sectors, and closing loses nothing; when they do not,
the file of the last checkpoint holds the sectors as they are now. -/
def SavesDisk (disk : VmDisk) (w : W) : Prop :=
  (∀ src, files.named disk = some src → Grants env 2 w → disk.sectors.toNat = 0 ∨
      MovesAll env (disk.sectors.toNat * 512) w ∧ disk.image.Copies src (disk.sectors.toNat * 512) ∧
        files.kept (disk.sectors.toNat * 512) = disk.sectors.toNat * 512) ∧
    (files.named disk = none ∨ ¬ Grants env 2 w →
      ∃ file, disk.checkpoint = some file ∧ disk.image.Copies file (disk.sectors.toNat * 512))

end

section
variable {files : ImageFiles} {env : Env W} {moment m : Machine n W} {disk disk' : VmDisk} {w : W}

theorem diskContent_ne_of_short (active : disk.isOpen = true) (intact : DiskIntact disk)
    (short : disk'.image.length < disk.sectors.toNat * 512) : diskContent disk' ≠ diskContent disk := by
  intro same
  have last : disk.sectors.toNat - 1 < disk.sectors.toNat := by omega
  have here := diskContent_eq_some active intact last
  rw [← same, diskContent, if_neg (by omega)] at here
  cases here

theorem saveOn_checkpoint_iff (active : disk.isOpen = true) :
    (∃ file, (vmDiskSnapshotSaveOn files env disk w).2.1.checkpoint = some file ∧
      disk.image.Copies file (disk.sectors.toNat * 512)) ↔ SavesDisk files env disk w := by
  by_cases opened : files.named disk = none ∨ ¬ Grants env 2 w
  · rw [saveOn_unopened active opened, SavesDisk, forall_prop_of_true opened, and_iff_right]
    intro src named granted
    rcases opened with none | refused
    · cases none.symm.trans named
    · exact absurd granted refused
  · obtain ⟨there, granted⟩ := not_or.mp opened
    obtain ⟨src, named⟩ := Option.ne_none_iff_exists'.mp there
    rw [saveOn_opened active named (not_not.mp granted), SavesDisk, and_iff_left fun refused => absurd refused opened]
    simp only [some.injEq, exists_eq_left', closed_copies_iff, named]
    exact ⟨fun saved src' same _ => same ▸ saved, fun saved => saved src rfl (not_not.mp granted)⟩

theorem saveSound_iff : SaveSound files env m ↔
    (n ≠ 0 → m.snapshot.ramCopy.isSome = true ∨ (env.malloc n m.vm.world).1.isSome = true →
      m.vm.disk.isOpen = true → SavesDisk files env m.vm.disk (afterRam env m)) := by
  have granted : snapshotAlloc env m.snapshot m.vm.world =
      (m.snapshot.ramCopy.isSome || (env.malloc n m.vm.world).1.isSome, afterRam env m) := by
    unfold snapshotAlloc afterRam
    cases m.snapshot.ramCopy.isSome with
    | true => rfl
    | false =>
      rcases env.malloc n m.vm.world with ⟨_ | _, w⟩ <;> rfl
  unfold SaveSound vmSnapshotSaveOn
  rw [granted]
  by_cases none : n = 0
  · rw [if_pos none]
    exact iff_of_true (.inl rfl) fun some => absurd none some
  rw [if_neg none, forall_prop_of_true none, ← Bool.or_eq_true]
  dsimp only
  cases m.snapshot.ramCopy.isSome || (env.malloc n m.vm.world).1.isSome with
  | false => exact iff_of_true (.inl rfl) fun never => by cases never
  | true =>
    rw [forall_prop_of_true rfl, if_neg (by decide)]
    dsimp only
    rw [or_iff_right (by decide)]
    cases active : m.vm.disk.isOpen with
    | false =>
      refine iff_of_true ⟨rfl, rfl, fun opened => ?_⟩ fun never => by cases never
      rw [snapshotDiskOn, if_neg (by simp [vmDiskIsActive, active]), active] at opened
      cases opened
    | true =>
      rw [forall_prop_of_true rfl, ← saveOn_checkpoint_iff active, snapshotDiskOn,
        if_pos (show vmDiskIsActive m.vm.disk = true from active)]
      obtain ⟨checkpoint, keeps⟩ := vmDiskSnapshotSaveOn_keeps files env m.vm.disk (afterRam env m)
      rw [keeps]
      exact ⟨fun whole => (whole.disk active).2.2, fun saved => ⟨rfl, rfl, fun _ => ⟨active, rfl, saved⟩⟩⟩

theorem restoreOn_eq (files : ImageFiles) (env : Env W) (m : Machine n W) :
    vmSnapshotRestoreOn files env m = (false, m) ∧
        ¬ (m.snapshot.hasCheckpoint = true ∧ m.snapshot.ramCopy.isSome = true) ∨
      ∃ ram, m.snapshot.hasCheckpoint = true ∧ m.snapshot.ramCopy = some ram ∧
        (vmSnapshotRestoreOn files env m).1 = true ∧
        (vmSnapshotRestoreOn files env m).2.vm.host = restoreHost m.snapshot ram m.vm.host ∧
        (vmSnapshotRestoreOn files env m).2.vm.disk =
          if m.vm.disk.isOpen then (vmDiskSnapshotRestoreOn files env m.vm.disk m.vm.world).2.1 else m.vm.disk := by
  unfold vmSnapshotRestoreOn
  split
  · next ram has copy => exact .inr ⟨ram, has, copy, rfl, rfl, apply_ite Prod.fst ..⟩
  · next none =>
      refine .inl ⟨rfl, fun both => ?_⟩
      obtain ⟨ram, copy⟩ := isSome_iff_exists.mp both.2
      exact none ram both.1 copy

theorem restoreSound_iff (taken : CheckpointOf moment m) (intact : DiskIntact moment.vm.disk) :
    RestoreSound files env moment m ↔ (m.snapshot.hasCheckpoint = true → m.vm.disk.isOpen = true →
      RestoreGranted env (m.vm.disk.sectors.toNat * 512) m.vm.world ∧
        files.kept (m.vm.disk.sectors.toNat * 512) = m.vm.disk.sectors.toNat * 512) := by
  rcases restoreOn_eq files env m with ⟨refused, none⟩ | ⟨ram, has, copy, done, host, disk⟩
  · exact iff_of_true (.inl (congrArg Prod.fst refused)) fun has => absurd ⟨has, by rw [taken.ram]; rfl⟩ none
  rw [RestoreSound, done, or_iff_right (by decide), forall_prop_of_true has]
  have sameRam : ram = moment.vm.mem.ram := some.inj (copy.symm.trans taken.ram)
  constructor
  · intro back active
    obtain ⟨opened, content⟩ := back.disk active
    obtain ⟨had, sectors, file, held, copied⟩ := taken.disk active
    rw [disk, if_pos active] at opened content
    cases moved : (vmDiskSnapshotRestoreOn files env m.vm.disk m.vm.world).1 with
    | false =>
      rcases restoreOn_lost active moved with closed | short
      · cases closed.symm.trans opened
      · rw [sectors] at short
        exact absurd content (diskContent_ne_of_short had intact short)
    | true =>
      obtain ⟨src, _, _, granted⟩ := (restoreOn_done_iff active).mp moved
      obtain ⟨_, image, _, restored, _, length⟩ := restoreOn_done active moved
      refine ⟨granted, ?_⟩
      by_contra lost
      have short : (files.closed image).length < moment.vm.disk.sectors.toNat * 512 := by
        rw [ImageFiles.closed, length, ← sectors]
        exact lt_of_le_of_ne (files.kept_le _) lost
      rw [restored] at content
      exact diskContent_ne_of_short had intact short content
  · intro granted
    refine ⟨(congrArg (fun host => host.mem.ram) host).trans sameRam, (congrArg VmHost.cpu host).trans taken.cpu,
      fun active => ?_⟩
    obtain ⟨all, kept⟩ := granted active
    obtain ⟨had, sectors, file, held, copied⟩ := taken.disk active
    have long : m.vm.disk.sectors.toNat * 512 ≤ file.length := by
      rw [sectors]
      exact copied.length
    have moved : (vmDiskSnapshotRestoreOn files env m.vm.disk m.vm.world).1 = true :=
      (restoreOn_done_iff active).mpr ⟨file, held, long, all⟩
    obtain ⟨src, image, saved, restored, copies, length⟩ := restoreOn_done active moved
    obtain rfl : src = file := some.inj (saved.symm.trans held)
    rw [disk, if_pos active, restored]
    have through : moment.vm.disk.image.Copies (files.closed image) (moment.vm.disk.sectors.toNat * 512) := by
      rw [sectors] at copies length kept
      exact ⟨by rw [ImageFiles.closed, length, kept], fun i below => (copies.byte i below).trans (copied.byte i below)⟩
    refine ⟨active, .trans ?_ (diskContent_copies intact through)⟩
    funext lba
    simp only [diskContent, active, had, sectors]

theorem diskKept_iff (intact : DiskIntact m.vm.disk) : DiskKept files env m ↔
    (m.snapshot.hasCheckpoint = true → m.snapshot.ramCopy.isSome = true → m.vm.disk.isOpen = true →
      ∃ src, m.vm.disk.checkpoint = some src ∧ m.vm.disk.sectors.toNat * 512 ≤ src.length ∧
        RestoreGranted env (m.vm.disk.sectors.toNat * 512) m.vm.world) := by
  rcases restoreOn_eq files env m with ⟨refused, none⟩ | ⟨ram, has, copy, done, host, disk⟩
  · have kept : DiskKept files env m := by
      intro active _
      rw [refused]
      exact ⟨active, rfl⟩
    exact iff_of_true kept fun has copied => absurd ⟨has, copied⟩ none
  rw [forall_prop_of_true has, forall_prop_of_true (by rw [copy]; rfl), DiskKept, done]
  refine forall_congr' fun active => ?_
  rw [← @restoreOn_done_iff W env files _ _ active, disk, if_pos active]
  constructor
  · intro kept
    by_contra failed
    obtain ⟨opened, content⟩ := kept (.inr (Bool.eq_false_iff.mpr failed))
    rcases restoreOn_lost active (Bool.eq_false_iff.mpr failed) with closed | short
    · cases closed.symm.trans opened
    · exact diskContent_ne_of_short active intact short content
  · rintro moved (failed | failed)
    · cases failed
    · cases moved.symm.trans failed

theorem checkpoint_failures (files : ImageFiles) (env : Env W) (moment m : Machine n W)
    (intact : DiskIntact m.vm.disk) (taken : DiskIntact moment.vm.disk) :
    (SaveSound files env m ↔
      (n ≠ 0 → m.snapshot.ramCopy.isSome = true ∨ (env.malloc n m.vm.world).1.isSome = true →
        m.vm.disk.isOpen = true → SavesDisk files env m.vm.disk (afterRam env m))) ∧
    (CheckpointOf moment m → (RestoreSound files env moment m ↔
      (m.snapshot.hasCheckpoint = true → m.vm.disk.isOpen = true →
        RestoreGranted env (m.vm.disk.sectors.toNat * 512) m.vm.world ∧
          files.kept (m.vm.disk.sectors.toNat * 512) = m.vm.disk.sectors.toNat * 512))) ∧
    (DiskKept files env m ↔
      (m.snapshot.hasCheckpoint = true → m.snapshot.ramCopy.isSome = true → m.vm.disk.isOpen = true →
        ∃ src, m.vm.disk.checkpoint = some src ∧ m.vm.disk.sectors.toNat * 512 ≤ src.length ∧
          RestoreGranted env (m.vm.disk.sectors.toNat * 512) m.vm.world)) :=
  ⟨saveSound_iff, fun whole => restoreSound_iff whole taken, diskKept_iff intact⟩

end

def brokenFiles : Env Unit := { idleHost with succeeds := fun _ => (false, ()) }

def firstCheckpoint (start : VmState guestRamSize Unit) : Machine guestRamSize Unit :=
  (vmSnapshotSaveOn .plain idleHost (Machine.ofGuest start)).2

theorem exists_freshDisk :
    ∃ start, vmBoot idleHost guestMem ioStatics vrtStatics noDisk none false (fun _ => 0) () = .ok (some start) ∧
      start.disk.isOpen = true ∧ start.disk.checkpoint = none := by
  have boots : (vmBoot idleHost guestMem ioStatics vrtStatics noDisk none false (fun _ => 0) ()).map
      (Option.map fun start => start.disk.isOpen && start.disk.checkpoint.isNone) = .ok (some true) := by
    decide +kernel
  obtain ⟨made, booted, flags⟩ := map_eq_ok.mp boots
  obtain ⟨start, rfl, raised⟩ := map_eq_some_iff.mp flags
  obtain ⟨active, fresh⟩ := Bool.and_eq_true_iff.mp raised
  exact ⟨start, booted, active, isNone_iff_eq_none.mp fresh⟩

theorem savesDisk_calm {env : Env W} (calm : CalmHost env) {disk : VmDisk} (active : disk.isOpen = true)
    (intact : DiskIntact disk) (w : W) : SavesDisk .plain env disk w := by
  refine ⟨fun src named _ => .inr ⟨⟨calm.memory _ _, grants_calm calm.files _ _⟩, ?_, rfl⟩, ?_⟩
  · obtain rfl : disk.image = src := some.inj named
    exact ⟨intact active, fun _ _ => rfl⟩
  · rintro (none | refused)
    · cases none
    · exact absurd (grants_calm calm.files 2 w) refused

theorem firstCheckpoint_eq (start : VmState guestRamSize Unit) :
    (vmSnapshotSaveOn .plain idleHost (Machine.ofGuest start)).1 = true ∧
      (firstCheckpoint start).snapshot = snapshotOf start.host ∧
      ∃ checkpoint, (firstCheckpoint start).vm.disk = { start.disk with checkpoint } := by
  refine ⟨rfl, rfl, ?_⟩
  show ∃ checkpoint, (snapshotDiskOn .plain idleHost start.disk ()).1 = _
  unfold snapshotDiskOn
  split
  · exact vmDiskSnapshotSaveOn_keeps .plain idleHost start.disk ()
  · exact ⟨start.disk.checkpoint, rfl⟩

theorem first_checkpoint_whole :
    ∃ start, vmBoot idleHost guestMem ioStatics vrtStatics noDisk none false (fun _ => 0) () = .ok (some start) ∧
      CheckpointOf (Machine.ofGuest start) (firstCheckpoint start) := by
  obtain ⟨start, booted, active, -⟩ := exists_freshDisk
  have sound := (checkpoint_failures .plain idleHost (Machine.ofGuest start) (Machine.ofGuest start)
    (vmBoot_intact booted) (vmBoot_intact booted)).1.mpr fun _ _ _ =>
      savesDisk_calm idleHost_calm active (vmBoot_intact booted) _
  exact ⟨start, booted, sound.resolve_left (by rw [(firstCheckpoint_eq start).1]; decide)⟩

theorem broken_files_lose_disk :
    ∃ start, vmBoot idleHost guestMem ioStatics vrtStatics noDisk none false (fun _ => 0) () = .ok (some start) ∧
      ¬ SaveSound .plain brokenFiles (Machine.ofGuest start) ∧
      CheckpointOf (Machine.ofGuest start) (firstCheckpoint start) ∧
      ¬ RestoreSound .plain brokenFiles (Machine.ofGuest start) (firstCheckpoint start) ∧
      ¬ DiskKept .plain brokenFiles (firstCheckpoint start) := by
  obtain ⟨start, booted, active, fresh⟩ := exists_freshDisk
  have intact := vmBoot_intact booted
  obtain ⟨saved, snapshot, checkpoint, disk⟩ := firstCheckpoint_eq start
  have opened : (firstCheckpoint start).vm.disk.isOpen = true := by rw [disk]; exact active
  have has : (firstCheckpoint start).snapshot.hasCheckpoint = true := by rw [snapshot]; rfl
  have copied : (firstCheckpoint start).snapshot.ramCopy.isSome = true := by rw [snapshot]; rfl
  have refused : ∀ w, ¬ Grants brokenFiles 2 w := fun w granted => by cases granted.1
  have whole : CheckpointOf (Machine.ofGuest start) (firstCheckpoint start) :=
    (saveSound_iff.mpr fun _ _ _ => savesDisk_calm idleHost_calm active intact _).resolve_left (by rw [saved]; decide)
  refine ⟨start, booted, fun sound => ?_, whole, fun sound => ?_, fun kept => ?_⟩
  · obtain ⟨file, held, -⟩ := (saveSound_iff.mp sound (by decide) (.inr rfl) active).2 (.inr (refused _))
    cases fresh.symm.trans held
  · exact refused _ ((restoreSound_iff whole intact).mp sound has opened).1.1
  · have still : DiskIntact (firstCheckpoint start).vm.disk := by rw [disk]; exact intact
    obtain ⟨src, -, -, granted⟩ := (diskKept_iff still).mp kept has copied opened
    exact refused _ granted.1

end Flinstone.Vm
