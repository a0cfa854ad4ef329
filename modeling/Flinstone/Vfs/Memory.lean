import Flinstone.Lib.Text
import Mathlib.Data.Finset.Card
import Mathlib.Data.Finset.Image
import Mathlib.Logic.Function.Basic

/-!
# The memory backend

The table of `vfs.c` with its keys of 128 bytes.
-/

namespace Flinstone.Vfs
open List

abbrev Byte := BitVec 8

abbrev cString (buf : List Byte) : List Byte := Lib.terminated 0 buf

def strncpy (dst src : List Byte) (n : Nat) : List Byte := src.take n ++ List.replicate (n - src.length) 0 ++ dst.drop n

structure Path where
  bytes : List Byte
  clean : 0 ∉ bytes
  deriving DecidableEq

@[ext]
theorem Path.ext {path other : Path} (same : path.bytes = other.bytes) : path = other := by
  cases path
  cases other
  cases same
  rfl

structure MemEntry where
  key : List Byte
  val : Option (List Byte)

abbrev MemVfs := List MemEntry

def maxEntries : Nat := 64

-- `strcmp(entry.key, path) == 0` if this is the path
def MemEntry.name (entry : MemEntry) : List Byte := cString entry.key

-- the table is zeroed when it is made, and the last byte of a key is never written
def newKey (path : Path) : List Byte := strncpy (List.replicate 128 0) path.bytes 127

def memOpen (path : Option Path) (handleOut : Bool) : Option Path := if handleOut then path else none

def memRead (path : Path) (size : BitVec 64) : MemVfs → Option (List Byte)
  | [] => none
  | entry :: rest =>
    match entry.val with
    | some val => if entry.name = path.bytes then some (val.take size.toNat) else memRead path size rest
    | none => memRead path size rest

def memReplace (allocated : Bool) (path : Path) (bytes : List Byte) : MemVfs → Option MemVfs
  | [] => none
  | entry :: rest =>
    if entry.name = path.bytes then some ({ entry with val := if allocated then some bytes else none } :: rest)
    else (memReplace allocated path bytes rest).map (entry :: ·)

def memWrite (allocated : Bool) (path : Path) (bytes : List Byte) (ctx : MemVfs) : Option Nat × MemVfs :=
  match memReplace allocated path bytes ctx with
  | some replaced => (if allocated then some bytes.length else none, replaced)
  | none =>
    if ctx.length ≥ maxEntries then (none, ctx)
    else if allocated then (some bytes.length, ctx ++ [⟨newKey path, some bytes⟩])
    else (none, ctx)

/-! ## Calls, and the map that they are about -/

inductive VfsCall where
  | opens (path : Path)
  | write (path : Path) (bytes : List Byte)
  | read (path : Path) (size : BitVec 64)

def VfsCall.path : VfsCall → Path
  | opens path | write path _ | read path _ => path

abbrev Contents := Path → Option (List Byte)

def VfsCall.onContents : VfsCall → Contents → Contents
  | write path bytes, contents => Function.update contents path (some bytes)
  | _, contents => contents

def VfsCall.onMemory : VfsCall → MemVfs → MemVfs
  | write path bytes, ctx => (memWrite true path bytes ctx).2
  | _, ctx => ctx

def lastWritten (calls : List VfsCall) : Contents :=
  calls.foldl (fun contents call => call.onContents contents) fun _ => none

def memAfter (calls : List VfsCall) : MemVfs := calls.foldl (fun ctx call => call.onMemory ctx) []

def VfsCall.target : VfsCall → Option Path
  | write path _ => some path
  | _ => none

def written (calls : List VfsCall) : List Path := calls.filterMap VfsCall.target

structure RefinesMap (calls : List VfsCall) : Prop where
  writes : ∀ before path bytes after, calls = before ++ .write path bytes :: after →
    (memWrite true path bytes (memAfter before)).1 = some bytes.length
  reads : ∀ path size, memRead path size (memAfter calls) = (lastWritten calls path).map (·.take size.toNat)
  apart : ∀ before path bytes, calls = before ++ [.write path bytes] → ∀ other, other ≠ path → ∀ size,
    memRead other size (memAfter calls) = memRead other size (memAfter before)

/-! ## What the table holds -/

def MemVfs.contents : MemVfs → Contents
  | [], _ => none
  | entry :: rest, path => (if entry.name = path.bytes then entry.val else none).or (contents rest path)

theorem memRead_eq (path : Path) (size : BitVec 64) (ctx : MemVfs) :
    memRead path size ctx = (ctx.contents path).map (·.take size.toNat) := by
  induction ctx with
  | nil => rfl
  | cons entry rest ih =>
    rw [memRead, MemVfs.contents]
    cases val : entry.val with
    | none => simpa using ih
    | some bytes =>
      by_cases same : entry.name = path.bytes
      · simp [same]
      · simpa [same] using ih

theorem contents_append (ctx more : MemVfs) (path : Path) :
    (ctx ++ more).contents path = (ctx.contents path).or (more.contents path) := by
  induction ctx with
  | nil => rfl
  | cons entry rest ih =>
    rw [cons_append, MemVfs.contents, MemVfs.contents, ih, Option.or_assoc]

variable {ctx before rest : MemVfs} {bytes : List Byte} {allocated : Bool} {entry : MemEntry} {calls : List VfsCall}
  {paths : Finset Path}

theorem contents_eq_none {path : Path} (absent : path.bytes ∉ ctx.map MemEntry.name) : ctx.contents path = none := by
  induction ctx with
  | nil => rfl
  | cons entry rest ih =>
    obtain ⟨other, absent⟩ := ne_and_not_mem_of_not_mem_cons absent
    rw [MemVfs.contents, if_neg other.symm, ih absent]
    rfl

theorem name_new (path : Path) (val : Option (List Byte)) :
    (MemEntry.mk (newKey path) val).name = path.bytes.take 127 := by
  have clean : 0 ∉ path.bytes.take 127 := fun member => path.clean (mem_of_mem_take member)
  have terminated : ∃ rest, newKey path = path.bytes.take 127 ++ 0 :: rest := by
    unfold newKey strncpy
    rw [append_assoc]
    cases room : 127 - path.bytes.length with
    | zero => exact ⟨[], rfl⟩
    | succ n => exact ⟨_, by rw [replicate_succ, cons_append]⟩
  obtain ⟨rest, terminated⟩ := terminated
  rw [MemEntry.name, terminated]
  exact Lib.terminated_append_nul clean rest

theorem memReplace_some {path : Path} {replaced : MemVfs} (found : memReplace true path bytes ctx = some replaced) :
    replaced.map MemEntry.name = ctx.map MemEntry.name ∧
      replaced.contents = Function.update ctx.contents path (some bytes) := by
  induction ctx generalizing replaced with
  | nil => cases found
  | cons entry rest ih =>
    unfold memReplace at found
    by_cases same : entry.name = path.bytes
    · rw [if_pos same] at found
      obtain rfl : ⟨entry.key, some bytes⟩ :: rest = replaced := Option.some.inj found
      refine ⟨rfl, funext fun other => ?_⟩
      by_cases here : other = path
      · subst here
        have named : (MemEntry.mk entry.key (some bytes)).name = other.bytes := same
        rw [Function.update_self, MemVfs.contents, if_pos named]
        rfl
      · have differs : entry.name ≠ other.bytes := fun named => here (Path.ext (named.symm.trans same))
        have still : (MemEntry.mk entry.key (some bytes)).name ≠ other.bytes := differs
        rw [Function.update_of_ne here, MemVfs.contents, MemVfs.contents, if_neg differs, if_neg still]
    · rw [if_neg same] at found
      obtain ⟨tail, inTail, rfl⟩ := Option.map_eq_some_iff.mp found
      obtain ⟨names, contents⟩ := ih inTail
      refine ⟨congrArg (entry.name :: ·) names, funext fun other => ?_⟩
      rw [MemVfs.contents, contents]
      by_cases here : other = path
      · subst here
        rw [Function.update_self, Function.update_self, if_neg same]
        rfl
      · rw [Function.update_of_ne here, Function.update_of_ne here, MemVfs.contents]

theorem memReplace_none {path : Path}
    (missed : memReplace allocated path bytes ctx = none) : path.bytes ∉ ctx.map MemEntry.name := by
  induction ctx with
  | nil => simp
  | cons entry rest ih =>
    unfold memReplace at missed
    split at missed
    · cases missed
    · next other =>
        exact not_mem_cons_of_ne_of_not_mem (symm other) (ih (Option.map_eq_none_iff.mp missed))

theorem memAfter_snoc (calls : List VfsCall) (call : VfsCall) :
    memAfter (calls ++ [call]) = call.onMemory (memAfter calls) := by
  rw [memAfter, foldl_append]
  rfl

theorem lastWritten_snoc (calls : List VfsCall) (call : VfsCall) :
    lastWritten (calls ++ [call]) = call.onContents (lastWritten calls) := by
  rw [lastWritten, foldl_append]
  rfl

theorem written_snoc (calls : List VfsCall) (call : VfsCall) :
    written (calls ++ [call]) = written calls ++ call.target.toList := by
  cases target : call.target <;> simp [written, target]

theorem lastWritten_isSome {path : Path} (member : path ∈ written calls) : (lastWritten calls path).isSome := by
  induction calls using reverseRecOn with
  | nil => cases member
  | append_singleton calls call ih =>
    rw [written_snoc, mem_append] at member
    rw [lastWritten_snoc]
    cases call with
    | write target bytes =>
      by_cases here : path = target
      · subst here
        rw [VfsCall.onContents, Function.update_self]
        rfl
      · rw [VfsCall.onContents, Function.update_of_ne here]
        exact ih (member.resolve_right (by simpa [VfsCall.target] using here))
    | opens | read => exact ih (member.resolve_right (by simp [VfsCall.target]))

theorem memWrite_names {path : Path} {name : List Byte}
    (member : name ∈ (memWrite true path bytes ctx).2.map MemEntry.name) :
    name ∈ ctx.map MemEntry.name ∨ name = path.bytes.take 127 := by
  unfold memWrite at member
  split at member
  · next found => exact .inl ((memReplace_some found).1 ▸ member)
  · split at member
    · exact .inl member
    · simpa [name_new] using member

theorem name_length {name : List Byte} (member : name ∈ (memAfter calls).map MemEntry.name) : name.length < 128 := by
  induction calls using reverseRecOn with
  | nil => cases member
  | append_singleton calls call ih =>
    rw [memAfter_snoc] at member
    cases call with
    | write path bytes =>
      rcases memWrite_names member with old | rfl
      · exact ih old
      · rw [length_take]
        omega
    | opens | read => exact ih member

structure MemVfs.Keyed (ctx : MemVfs) (paths : Finset Path) : Prop where
  nodup : (ctx.map MemEntry.name).Nodup
  known : ∀ name ∈ ctx.map MemEntry.name, ∃ path ∈ paths, path.bytes = name

theorem MemVfs.Keyed.room (keyed : ctx.Keyed paths) (few : paths.card ≤ maxEntries)
    {path : Path} (member : path ∈ paths) (absent : path.bytes ∉ ctx.map MemEntry.name) : ctx.length < maxEntries := by
  have nodup : (path.bytes :: ctx.map MemEntry.name).Nodup := nodup_cons.mpr ⟨absent, keyed.nodup⟩
  have known : (path.bytes :: ctx.map MemEntry.name).toFinset ⊆ paths.image Path.bytes := by
    intro name named
    rcases mem_cons.mp (mem_toFinset.mp named) with rfl | old
    · exact Finset.mem_image_of_mem _ member
    · exact Finset.mem_image.mpr (keyed.known name old)
  have counted := (Finset.card_le_card known).trans Finset.card_image_le
  rw [toFinset_card_of_nodup nodup, length_cons, length_map] at counted
  omega

theorem MemVfs.Keyed.write (keyed : ctx.Keyed paths)
    (few : paths.card ≤ maxEntries) {path : Path} (member : path ∈ paths) (short : path.bytes.length < 128)
    (bytes : List Byte) :
    ∃ ctx', memWrite true path bytes ctx = (some bytes.length, ctx') ∧ ctx'.Keyed paths ∧
      ctx'.contents = Function.update ctx.contents path (some bytes) := by
  unfold memWrite
  split
  · next replaced found =>
      obtain ⟨names, contents⟩ := memReplace_some found
      exact ⟨replaced, rfl, ⟨names ▸ keyed.nodup, names ▸ keyed.known⟩, contents⟩
  · next missed =>
      have absent := memReplace_none missed
      have name : (MemEntry.mk (newKey path) (some bytes)).name = path.bytes := by
        rw [name_new, take_of_length_le (by omega)]
      rw [if_neg (not_le.mpr (keyed.room few member absent)), if_pos rfl]
      have names : (ctx ++ [MemEntry.mk (newKey path) (some bytes)]).map MemEntry.name =
          ctx.map MemEntry.name ++ [path.bytes] := by
        rw [map_append, map_singleton, name]
      refine ⟨_, rfl, ⟨?_, ?_⟩, funext fun other => ?_⟩
      · rw [names, (perm_append_singleton _ _).nodup_iff]
        exact nodup_cons.mpr ⟨absent, keyed.nodup⟩
      · intro known among
        rw [names] at among
        rcases mem_append.mp among with old | new
        · exact keyed.known known old
        · exact ⟨path, member, (mem_singleton.mp new).symm⟩
      · rw [contents_append, contents]
        by_cases here : other = path
        · subst here
          rw [contents_eq_none absent, Function.update_self, if_pos name]
          rfl
        · have differs : path.bytes ≠ other.bytes := fun same => here (Path.ext same.symm)
          rw [Function.update_of_ne here, name, if_neg differs]
          exact Option.or_none

theorem keyed_memAfter (few : paths.card ≤ maxEntries)
    (within : ∀ path ∈ written calls, path ∈ paths ∧ path.bytes.length < 128) :
    (memAfter calls).Keyed paths ∧ (memAfter calls).contents = lastWritten calls := by
  induction calls using reverseRecOn with
  | nil => exact ⟨⟨nodup_nil, nofun⟩, rfl⟩
  | append_singleton calls call ih =>
    rw [written_snoc] at within
    obtain ⟨keyed, contents⟩ := ih fun path member => within path (mem_append_left _ member)
    rw [memAfter_snoc, lastWritten_snoc]
    cases call with
    | write path bytes =>
      obtain ⟨member, short⟩ := within path (mem_append_right _ (mem_singleton_self _))
      obtain ⟨ctx', wrote, keyed', contents'⟩ := keyed.write few member short bytes
      rw [VfsCall.onMemory, wrote, VfsCall.onContents, ← contents]
      exact ⟨keyed', contents'⟩
    | opens | read => exact ⟨keyed, contents⟩

/-- Exactly if all paths written to it are shorter than 128 bytes. -/
theorem mem_vfs_refines_map (calls : List VfsCall) (few : (written calls).toFinset.card ≤ 64) :
    RefinesMap calls ↔ ∀ path ∈ written calls, path.bytes.length < 128 := by
  constructor
  · intro refines path member
    by_contra long
    have absent : path.bytes ∉ (memAfter calls).map MemEntry.name := fun named => long (name_length named)
    have read := refines.reads path 0
    rw [memRead_eq, contents_eq_none absent, Option.map_none] at read
    have present := lastWritten_isSome member
    rw [Option.map_eq_none_iff.mp read.symm] at present
    cases present
  · intro short
    -- the same paths serve for all the states in between
    have after {before rest : List VfsCall} (split : calls = before ++ rest) :
        (memAfter before).Keyed (written calls).toFinset ∧ (memAfter before).contents = lastWritten before := by
      refine keyed_memAfter few fun path member => ?_
      have among : path ∈ written calls := by
        rw [split, written, filterMap_append]
        exact mem_append_left _ member
      exact ⟨mem_toFinset.mpr among, short path among⟩
    have reads {before rest : List VfsCall} (split : calls = before ++ rest) (path : Path) (size : BitVec 64) :
        memRead path size (memAfter before) = (lastWritten before path).map (·.take size.toNat) := by
      rw [memRead_eq, (after split).2]
    have whole := reads (append_nil calls).symm
    refine ⟨fun before path bytes rest split => ?_, whole, fun before path bytes split other differs size => ?_⟩
    · have among : path ∈ written calls := by simp [split, written, VfsCall.target]
      obtain ⟨_, wrote, _⟩ := (after split).1.write few (mem_toFinset.mpr among) (short path among) bytes
      rw [wrote]
    · rw [whole, reads split, split, lastWritten_snoc, VfsCall.onContents, Function.update_of_ne differs]

/-! ## A short and a long path -/

def pathOf (n : Nat) : Path := ⟨List.replicate n 0x61, fun member => by simpa using eq_of_mem_replicate member⟩

def shortCalls : List VfsCall := [.write (pathOf 1) [1, 2], .write (pathOf 127) [3], .write (pathOf 1) [4, 5, 6]]

theorem mem_vfs_short_paths : RefinesMap shortCalls ∧ memRead (pathOf 1) 2 (memAfter shortCalls) = some [4, 5] :=
  ⟨(mem_vfs_refines_map shortCalls (by decide +kernel)).mpr (by decide +kernel), by decide +kernel⟩

theorem mem_vfs_loses_long_path : memRead (pathOf 128) 1 (memAfter [.write (pathOf 128) [7]]) = none ∧
      memRead (pathOf 127) 1 (memAfter [.write (pathOf 128) [7]]) = some [7] ∧
      ¬ RefinesMap [.write (pathOf 128) [7]] := by
  have lost : memRead (pathOf 128) 1 (memAfter [.write (pathOf 128) [7]]) = none := by decide +kernel
  have stray : memRead (pathOf 127) 1 (memAfter [.write (pathOf 128) [7]]) = some [7] := by decide +kernel
  refine ⟨lost, stray, fun refines => ?_⟩
  have read := refines.reads (pathOf 128) 1
  exact absurd read (by decide +kernel)

end Flinstone.Vfs
