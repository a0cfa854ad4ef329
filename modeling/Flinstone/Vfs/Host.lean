import Flinstone.Fs.Provider
import Flinstone.Vfs.Memory
import Mathlib.Algebra.Ring.Nat
import Mathlib.Data.List.TakeWhile

/-!
# The host backend

`vfs.c` over the local provider of `fs_provider.c`.
-/

namespace Flinstone.Vfs
open List Function BitVec

structure HostFs (σ : Type) where
  fopenRead : σ → Path → Option (List Byte)
  fopenWrite : σ → Path → Option σ
  fwrite : σ → Path → List Byte → Nat × σ

structure HostFs.Stores {σ : Type} (fs : HostFs σ) (paths : Finset Path) : Prop where
  creates : ∀ s, ∀ path ∈ paths, ∃ s', fs.fopenWrite s path = some s' ∧
    ∀ other ∈ paths, fs.fopenRead s' other = update (fs.fopenRead s) path (some []) other
  appends : ∀ s, ∀ path ∈ paths, ∀ old bytes, fs.fopenRead s path = some old →
    ∃ s', fs.fwrite s path bytes = (bytes.length, s') ∧
      ∀ other ∈ paths, fs.fopenRead s' other = update (fs.fopenRead s) path (some (old ++ bytes)) other

section
variable {σ : Type}

-- `none`: no jail is active
def localPathOk (jail : Option (Path → Bool)) (path : Path) : Bool :=
  match jail with
  | none => true
  | some allows => allows path

-- the conversion of a `size_t` to `int`
def toInt (n : Nat) : Int := (BitVec.ofNat 32 n).toInt

/-- `fread` and the terminator: the result and what is stored in the buffer; `none` when that is outside of it. -/
def readText (contents : List Byte) (bufsiz : BitVec 64) : Option (Int × List Byte) :=
  terminated (contents.take (bufsiz - 1).toNat)
where
  terminated (read : List Byte) : Option (Int × List Byte) :=
    if read.length < bufsiz.toNat then some (toInt read.length, read ++ [0]) else none

def localReadText (jail : Option (Path → Bool)) (fs : HostFs σ) (path : Path) (bufsiz : BitVec 64) (s : σ) :
    Option (Int × List Byte) :=
  if localPathOk jail path then
    match fs.fopenRead s path with
    | none => some (-1, [])
    | some contents => readText contents bufsiz
  else some (-1, [])

def localWriteText (jail : Option (Path → Bool)) (fs : HostFs σ) (path : Path) (content : List Byte) (s : σ) :
    Int × σ :=
  if localPathOk jail path then
    match fs.fopenWrite s path with
    | none => (-1, s)
    | some s' =>
      let wrote := fs.fwrite s' path (cString content)
      (if wrote.1 = (cString content).length then 0 else -1, wrote.2)
  else (-1, s)

def hostOpen (path : Option Path) (handleOut : Bool) : Option Path := if handleOut then path else none

def received (text : Int × List Byte) : Option (List Byte) :=
  if text.1 < 0 then none else some (text.2.take text.1.toNat)

def hostRead (jail : Option (Path → Bool)) (fs : HostFs σ) (path : Path) (size : BitVec 64) (s : σ) :
    Option (Option (List Byte)) :=
  (localReadText jail fs path size s).map received

def hostWrite (jail : Option (Path → Bool)) (fs : HostFs σ) (allocated : Bool) (path : Path) (bytes : List Byte)
    (s : σ) : Option Nat × σ :=
  if allocated then
    let wrote := localWriteText jail fs path (bytes ++ [0]) s
    (if wrote.1 = 0 then some bytes.length else none, wrote.2)
  else (none, s)

/-- What the caller gets, `none` for a failure; the count of a read is the number of its bytes. -/
inductive Reply where
  | opened (handle : Option Path)
  | wrote (count : Option Nat)
  | read (bytes : Option (List Byte))
  deriving DecidableEq

def VfsCall.memReply : VfsCall → MemVfs → Reply
  | opens path, _ => .opened (memOpen (some path) true)
  | write path bytes, ctx => .wrote (memWrite true path bytes ctx).1
  | read path size, ctx => .read (memRead path size ctx)

def VfsCall.hostReply (fs : HostFs σ) : VfsCall → σ → Option Reply
  | opens path, _ => some (.opened (hostOpen (some path) true))
  | write path bytes, s => some (.wrote (hostWrite none fs true path bytes s).1)
  | read path size, s => (hostRead none fs path size s).map .read

def VfsCall.onHost (fs : HostFs σ) : VfsCall → σ → σ
  | write path bytes, s => (hostWrite none fs true path bytes s).2
  | _, s => s

def memReplies : List VfsCall → MemVfs → List Reply
  | [], _ => []
  | call :: rest, ctx => call.memReply ctx :: memReplies rest (call.onMemory ctx)

def hostReplies (fs : HostFs σ) : List VfsCall → σ → List (Option Reply)
  | [], _ => []
  | call :: rest, s => call.hostReply fs s :: hostReplies fs rest (call.onHost fs s)

structure Whole (bytes : List Byte) (size : BitVec 64) : Prop where
  clean : 0 ∉ bytes
  fits : bytes.length < size.toNat
  counted : bytes.length < 2 ^ 31

def VfsCall.ReadsWhole (contents : Contents) : VfsCall → Prop
  | read path size => ∀ bytes, contents path = some bytes → Whole bytes size
  | _ => True

def ReadsWhole : Contents → List VfsCall → Prop
  | _, [] => True
  | contents, call :: rest => call.ReadsWhole contents ∧ ReadsWhole (call.onContents contents) rest

variable {n : Nat} {bytes : List Byte} {size : BitVec 64} {fs : HostFs σ} {path : Path} {s : σ} {paths : Finset Path}

theorem toInt_of_lt (small : n < 2 ^ 31) : toInt n = n := by
  rw [toInt, toInt_eq_toNat_cond, toNat_ofNat, Nat.mod_eq_of_lt (by omega), if_pos (by omega)]

theorem toInt_bound (positive : ¬ toInt n < 0) : (toInt n).toNat ≤ n ∧ (toInt n).toNat < 2 ^ 31 := by
  rw [toInt, toInt_eq_toNat_cond, toNat_ofNat] at positive ⊢
  split at positive
  · next half =>
      omega
  · omega

theorem cString_append_zero (bytes : List Byte) : cString (bytes ++ [0]) = cString bytes := by
  rw [cString, Lib.terminated, takeWhile_append]
  split
  · next whole =>
      rw [takeWhile_cons_of_neg (by simp), append_nil, cString, Lib.terminated,
        (List.takeWhile_prefix _).eq_of_length whole]
  · rfl

theorem clean_of_length (whole : bytes.length ≤ (cString bytes).length) : 0 ∉ bytes := by
  have same : cString bytes = bytes := (List.takeWhile_prefix _).eq_of_length_le whole
  intro member
  rw [← same] at member
  simpa using mem_takeWhile_imp member

theorem received_readText {stored : List Byte} (read : (readText stored size).map received = some (some bytes)) :
    bytes.length < size.toNat ∧ bytes.length < 2 ^ 31 ∧ bytes.length ≤ stored.length := by
  obtain ⟨⟨n, buf⟩, text, got⟩ := Option.map_eq_some_iff.mp read
  unfold readText readText.terminated at text
  split at text
  · next inside =>
      cases text
      unfold received at got
      split at got
      · cases got
      · next positive =>
          cases got
          obtain ⟨le, small⟩ := toInt_bound positive
          have shorter := length_take_le' (size - 1).toNat stored
          rw [length_take]
          omega
  · cases text

theorem readText_whole (whole : Whole bytes size) : (readText bytes size).map received = some (some bytes) := by
  have before : (size - 1).toNat = size.toNat - 1 := by
    have fits := whole.fits
    bv_omega
  have all : bytes.take (size - 1).toNat = bytes := by
    have fits := whole.fits
    exact take_of_length_le (by omega)
  rw [readText, all, readText.terminated, if_pos whole.fits]
  simp [received, toInt_of_lt whole.counted]

theorem hostRead_stored (stored : fs.fopenRead s path = some (cString bytes)) (size : BitVec 64) :
    hostRead none fs path size s = some (some (bytes.take size.toNat)) ↔ Whole bytes size := by
  have text : localReadText none fs path size s = readText (cString bytes) size := by
    simp [localReadText, localPathOk, stored]
  rw [hostRead, text]
  constructor
  · intro read
    obtain ⟨fits, counted, whole⟩ := received_readText read
    rw [length_take] at fits counted whole
    exact ⟨clean_of_length (by omega), by omega, by omega⟩
  · intro whole
    rw [cString, Lib.terminated_eq_self whole.clean, readText_whole whole, take_of_length_le whole.fits.le]

structure Holds (fs : HostFs σ) (paths : Finset Path) (contents : Contents) (s : σ) (ctx : MemVfs) : Prop where
  files : ∀ path ∈ paths, fs.fopenRead s path = (contents path).map cString
  keyed : ctx.Keyed paths
  table : ctx.contents = contents

theorem hostWrite_stores (stores : fs.Stores paths) (member : path ∈ paths) (bytes : List Byte) (s : σ) :
    ∃ s', hostWrite none fs true path bytes s = (some bytes.length, s') ∧
      ∀ other ∈ paths, fs.fopenRead s' other = update (fs.fopenRead s) path (some (cString bytes)) other := by
  obtain ⟨emptied, opened, empty⟩ := stores.creates s path member
  have nothing : fs.fopenRead emptied path = some [] := by rw [empty path member, update_self]
  obtain ⟨s', wrote, files⟩ := stores.appends emptied path member [] (cString (bytes ++ [0])) nothing
  have text : localWriteText none fs path (bytes ++ [0]) s = (0, s') := by
    simp only [localWriteText, localPathOk, opened, wrote, if_true]
  refine ⟨s', by simp only [hostWrite, text, if_true], fun other among => ?_⟩
  rw [files other among, cString_append_zero, nil_append]
  by_cases here : other = path
  · subst here
    rw [update_self, update_self]
  · rw [update_of_ne here, update_of_ne here, empty other among, update_of_ne here]

section
variable {fs : HostFs σ} {paths : Finset Path} {contents : Contents} {s : σ} {ctx : MemVfs} {request : VfsCall}

theorem Holds.call (holds : Holds fs paths contents s ctx) (stores : fs.Stores paths) (few : paths.card ≤ maxEntries)
    (short : ∀ path ∈ paths, path.bytes.length < 128) (among : request.path ∈ paths) :
    Holds fs paths (request.onContents contents) (request.onHost fs s) (request.onMemory ctx) := by
  cases request with
  | opens | read => exact holds
  | write path bytes =>
    change path ∈ paths at among
    obtain ⟨s', wrote, files⟩ := hostWrite_stores stores among bytes s
    obtain ⟨ctx', stored, keyed, table⟩ := holds.keyed.write few among (short path among) bytes
    refine ⟨fun other member => ?_, ?_, ?_⟩
    · rw [VfsCall.onHost, wrote, files other member, VfsCall.onContents]
      by_cases here : other = path
      · subst here
        rw [update_self, update_self]
        rfl
      · rw [update_of_ne here, update_of_ne here]
        exact holds.files other member
    · rw [VfsCall.onMemory, stored]
      exact keyed
    · rw [VfsCall.onMemory, stored, VfsCall.onContents, ← holds.table]
      exact table

theorem Holds.reply_iff (holds : Holds fs paths contents s ctx) (stores : fs.Stores paths)
    (few : paths.card ≤ maxEntries) (short : ∀ path ∈ paths, path.bytes.length < 128) (among : request.path ∈ paths) :
    request.hostReply fs s = some (request.memReply ctx) ↔ request.ReadsWhole contents := by
  cases request with
  | opens path => exact iff_of_true rfl trivial
  | write path bytes =>
    change path ∈ paths at among
    obtain ⟨s', wrote, _⟩ := hostWrite_stores stores among bytes s
    obtain ⟨ctx', stored, _⟩ := holds.keyed.write few among (short path among) bytes
    refine iff_of_true ?_ trivial
    rw [VfsCall.hostReply, VfsCall.memReply, wrote, stored]
  | read path size =>
    rw [VfsCall.hostReply, VfsCall.memReply, memRead_eq, holds.table]
    have file := holds.files path among
    cases last : contents path with
    | none =>
      rw [last] at file
      have failed : hostRead none fs path size s = some none := by
        simp [hostRead, localReadText, localPathOk, file, received]
      rw [failed]
      exact iff_of_true rfl fun bytes written => nomatch last.symm.trans written
    | some bytes =>
      rw [last] at file
      have same := hostRead_stored file size
      constructor
      · intro agrees written found
        obtain rfl : bytes = written := Option.some.inj (last.symm.trans found)
        exact same.mp (by simpa using agrees)
      · intro whole
        rw [same.mpr (whole bytes last)]
        rfl

end

theorem replies_iff (stores : fs.Stores paths) (few : paths.card ≤ maxEntries)
    (short : ∀ path ∈ paths, path.bytes.length < 128) {calls : List VfsCall} (among : ∀ call ∈ calls, call.path ∈ paths)
    {contents : Contents} {ctx : MemVfs} (holds : Holds fs paths contents s ctx) :
    hostReplies fs calls s = (memReplies calls ctx).map some ↔ ReadsWhole contents calls := by
  induction calls generalizing contents s ctx with
  | nil => exact iff_of_true rfl trivial
  | cons call rest ih =>
    obtain ⟨here, later⟩ := forall_mem_cons.mp among
    rw [hostReplies, memReplies, map_cons, cons.injEq, ReadsWhole,
      holds.reply_iff stores few short here, ih later (holds.call stores few short here)]

end

/-- Exactly in the runs that read files with long enough buffers, and C strings of less than 2 GiB. -/
theorem vfs_backends_agree {σ : Type} {fs : HostFs σ} {paths : Finset Path} (stores : fs.Stores paths)
    (few : paths.card < 64) (short : ∀ path ∈ paths, path.bytes.length < 128) {first : σ}
    (absent : ∀ path ∈ paths, fs.fopenRead first path = none) (calls : List VfsCall)
    (among : ∀ call ∈ calls, call.path ∈ paths) :
    hostReplies fs calls first = (memReplies calls []).map some ↔ ReadsWhole (fun _ => none) calls :=
  replies_iff stores few.le short among ⟨absent, ⟨nodup_nil, nofun⟩, rfl⟩

/-! ## The provider over the file tree -/

section
open Lib (World Text)

def textOf (bytes : List Byte) : Text := bytes.map fun byte => Char.ofNat byte.toNat

def bytesOf (text : Text) : List Byte := text.map fun c => BitVec.ofNat 8 c.toNat

def worldFs : HostFs World where
  fopenRead w path := (w.readFile (textOf path.bytes)).map bytesOf
  fopenWrite w path := w.writeFile (textOf path.bytes) []
  fwrite w path bytes :=
    match w.appendFile (textOf path.bytes) (textOf bytes) with
    | some w' => (bytes.length, w')
    | none => (0, w)

variable {j : Fs.Jail} {w : World} {path : Path}

def jailIn (j : Fs.Jail) (w : World) : Option (Path → Bool) :=
  if j.isActive then some fun path => j.checkPath w (textOf path.bytes) = 0 else none

theorem localPathOk_jailIn : localPathOk (jailIn j w) path = true ↔ Fs.localPathOk j w (textOf path.bytes) = 0 := by
  unfold localPathOk jailIn Fs.localPathOk
  by_cases active : j.isActive <;> simp [active]

theorem localReadText_worldFs {size : BitVec 64} (positive : 0 < size.toNat) (small : size.toNat ≤ 2 ^ 31) :
    (localReadText (jailIn j w) worldFs path size w).map received =
      some ((Fs.localReadText j w (textOf path.bytes) size.toNat).map bytesOf) := by
  have before : (size - 1).toNat = size.toNat - 1 := by bv_omega
  unfold localReadText Fs.localReadText
  by_cases ok : Fs.localPathOk j w (textOf path.bytes) = 0
  · rw [if_pos (localPathOk_jailIn.mpr ok), if_neg (not_not.mpr ok)]
    cases read : w.readFile (textOf path.bytes) with
    | none => simp [worldFs, read, received]
    | some text =>
      have short : ((bytesOf text).take (size - 1).toNat).length < size.toNat := by
        rw [length_take]
        omega
      simp only [worldFs, read, Option.map_some, readText, readText.terminated, if_pos short]
      rw [toInt_of_lt (by omega), received, if_neg (by omega), Int.toNat_natCast, take_left' rfl, before]
      simp [bytesOf, map_take]
  · rw [if_neg (localPathOk_jailIn.not.mpr ok), if_pos ok]
    rfl

theorem localWriteText_worldFs (content : List Byte) :
    (localWriteText (jailIn j w) worldFs path content w).1 =
        (Fs.localWriteText j w (textOf path.bytes) (textOf (cString content))).1 ∧
      (localWriteText (jailIn j w) worldFs path content w).2.tree =
        (Fs.localWriteText j w (textOf path.bytes) (textOf (cString content))).2.tree := by
  unfold localWriteText Fs.localWriteText
  by_cases ok : Fs.localPathOk j w (textOf path.bytes) = 0
  · rw [if_pos (localPathOk_jailIn.mpr ok), if_neg (not_not.mpr ok)]
    cases opened : w.writeFile (textOf path.bytes) [] with
    | none => simp [worldFs, opened, World.writeFile_eq_none opened, Fs.result]
    | some emptied =>
      obtain ⟨w₁, w₂, direct, filled, same⟩ := World.writeFile_writeFile opened (textOf (cString content))
      simp [worldFs, opened, World.appendFile, World.readFile_writeFile opened, filled, direct, Fs.result, same]
  · rw [if_neg (localPathOk_jailIn.not.mpr ok), if_pos ok]
    exact ⟨rfl, rfl⟩

end

def mapFs : HostFs Contents where
  fopenRead files := files
  fopenWrite files path := some (update files path (some []))
  fwrite files path bytes := (bytes.length, update files path (some ((files path).getD [] ++ bytes)))

theorem mapFs_stores (paths : Finset Path) : mapFs.Stores paths where
  creates _ _ _ := ⟨_, rfl, fun _ _ => rfl⟩
  appends files path _ old bytes present := by
    refine ⟨_, rfl, fun other _ => ?_⟩
    change files path = some old at present
    rw [present]
    rfl

def writtenThenRead (size : BitVec 64) : List VfsCall :=
  [.opens (pathOf 1), .read (pathOf 1) size, .write (pathOf 1) [1, 2, 3], .read (pathOf 1) size]

theorem vfs_backends_agree_longer_buffer :
    hostReplies mapFs (writtenThenRead 4) (fun _ => none) = (memReplies (writtenThenRead 4) []).map some := by
  refine (vfs_backends_agree (mapFs_stores {pathOf 1}) (by decide) (by decide) (fun _ _ => rfl) _ (by decide)).mpr ?_
  refine ⟨trivial, nofun, trivial, fun bytes written => ?_, trivial⟩
  obtain rfl : [1, 2, 3] = bytes := Option.some.inj written
  exact ⟨by decide, by decide, by decide⟩

theorem vfs_backends_differ :
    mapFs.Stores {pathOf 1} ∧ (∀ call ∈ writtenThenRead 3, call.path ∈ ({pathOf 1} : Finset Path)) ∧
      hostReplies mapFs (writtenThenRead 3) (fun _ => none) ≠ (memReplies (writtenThenRead 3) []).map some :=
  ⟨mapFs_stores _, by decide, by decide⟩

end Flinstone.Vfs
