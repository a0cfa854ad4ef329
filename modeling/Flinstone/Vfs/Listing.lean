import Flinstone.Lib.Buffer
import Flinstone.Vfs.Memory
import Mathlib.Algebra.Ring.Nat
import Mathlib.Data.List.TakeWhile

/-! # Listing the entries -/

namespace Flinstone.Vfs
open Flinstone.Lib List

def Path.terminated (name : Path) : List Byte := name.bytes ++ [0]

def copyName (namesLen : Nat) (name : Path) (names : List Byte) (off : Nat) : Option (List Byte × Nat) :=
  let len := name.bytes.length + 1
  if off + len ≤ namesLen then (storeAt names off name.terminated).map (·, off + len) else some (names, off)

def memPack (namesLen : Nat) : List Path → List Byte → Nat → Option (List Byte)
  | [], names, _ => some names
  | name :: rest, names, off =>
    if off < namesLen then
      match copyName namesLen name names off with
      | none => none
      | some (names, off) => memPack namesLen rest names off
    else some names

def hostPack (namesLen : Nat) : List Path → List Byte → Nat → Option (List Byte)
  | [], names, _ => some names
  | name :: rest, names, off =>
    if off < namesLen then
      match copyName namesLen name names off with
      | none => none
      | some (names, off) => if off ≥ namesLen then some names else hostPack namesLen rest names off
    else some names

def MemEntry.path (entry : MemEntry) : Path where
  bytes := entry.name
  clean member := by
    have kept := mem_takeWhile_imp member
    exact absurd rfl (of_decide_eq_true kept)

/-- The result, `*count_out` if it is set, and the buffer. -/
structure Listing where
  rc : Int
  count : Option Nat
  names : List Byte
  deriving DecidableEq

inductive Backend where
  | memory (ctx : MemVfs)
  | host (nodes : Option (List Path))

def Backend.entries : Backend → List Path
  | memory ctx => ctx.map MemEntry.path
  | host nodes => nodes.getD []

/-- `none` when something is stored outside of the buffer. -/
def Backend.list (names : List Byte) : Backend → Option Listing
  | memory ctx => (memPack names.length (ctx.map MemEntry.path) names 0).map (⟨0, some ctx.length, ·⟩)
  | host none => some ⟨-1, none, names⟩
  | host (some nodes) => (hostPack names.length nodes names 0).map (⟨0, some nodes.length, ·⟩)

def Listing.Consistent (listing : Listing) (entries : List Path) : Prop :=
  ∃ count, listing.count = some count ∧ count ≤ entries.length ∧
    (entries.take count).flatMap Path.terminated <+: listing.names

theorem hostPack_eq (namesLen : Nat) (entries : List Path) (names : List Byte) (off : Nat) :
    hostPack namesLen entries names off = memPack namesLen entries names off := by
  induction entries generalizing names off with
  | nil => rfl
  | cons name rest ih =>
    rw [hostPack, memPack]
    split_ifs with room
    · cases copied : copyName namesLen name names off with
      | none => rfl
      | some after =>
        dsimp only
        split_ifs with full
        · cases rest with
          | nil => rfl
          | cons => rw [memPack, if_neg (not_lt.mpr full)]
        · exact ih ..
    · rfl

def kept : Nat → List Path → List Path
  | _, [] => []
  | room, name :: rest =>
    if name.bytes.length + 1 ≤ room then name :: kept (room - (name.bytes.length + 1)) rest else kept room rest

variable (entries : List Path)

@[simp] theorem kept_zero : kept 0 entries = [] := by
  induction entries with
  | nil => rfl
  | cons name rest ih => rw [kept, if_neg (Nat.not_succ_le_zero _), ih]

theorem length_terminated (name : Path) : name.terminated.length = name.bytes.length + 1 := by
  rw [Path.terminated, length_append, length_singleton]

variable {name : Path} {front back : List Byte}

theorem copyName_fits (fits : name.bytes.length + 1 ≤ back.length) :
    copyName (front.length + back.length) name (front ++ back) front.length =
      some (front ++ name.terminated ++ back.drop name.terminated.length, (front ++ name.terminated).length) := by
  have inside : name.terminated.length ≤ back.length := by rw [length_terminated]; exact fits
  rw [copyName, if_pos (by omega), storeAt_behind rfl back name.terminated inside, length_append, length_terminated]
  rfl

theorem copyName_skips (large : ¬ name.bytes.length + 1 ≤ back.length) :
    copyName (front.length + back.length) name (front ++ back) front.length = some (front ++ back, front.length) := by
  rw [copyName, if_neg (by omega)]

theorem memPack_eq (front back : List Byte) :
    ∃ after, memPack (front.length + back.length) entries (front ++ back) front.length =
        some (front ++ ((kept back.length entries).flatMap Path.terminated ++ after)) ∧
      ((kept back.length entries).flatMap Path.terminated ++ after).length = back.length := by
  induction entries generalizing front back with
  | nil => exact ⟨back, rfl, rfl⟩
  | cons name rest ih =>
    by_cases room : front.length < front.length + back.length
    · rw [memPack, if_pos room]
      by_cases fits : name.bytes.length + 1 ≤ back.length
      · have left : (back.drop name.terminated.length).length = back.length - (name.bytes.length + 1) := by
          rw [length_drop, length_terminated]
        have total : (front ++ name.terminated).length + (back.drop name.terminated.length).length =
            front.length + back.length := by
          rw [left, length_append, length_terminated]
          omega
        obtain ⟨after, packed, length⟩ := ih (front ++ name.terminated) (back.drop name.terminated.length)
        rw [left] at packed length
        rw [left] at total
        rw [total] at packed
        refine ⟨after, ?_, ?_⟩
        · rw [copyName_fits fits, kept, if_pos fits, flatMap_cons]
          dsimp only
          rw [packed]
          simp only [append_assoc]
        · rw [kept, if_pos fits, flatMap_cons, append_assoc, length_append, length, length_terminated]
          omega
      · rw [copyName_skips fits, kept, if_neg fits]
        exact ih front back
    · have empty : back = [] := length_eq_zero_iff.mp (by omega)
      subst empty
      refine ⟨[], ?_, ?_⟩
      · rw [memPack, if_neg room, length_nil, kept_zero]
        rfl
      · rw [length_nil, kept_zero]
        rfl

theorem kept_all {entries : List Path} {room : Nat}
    (fits : (entries.flatMap Path.terminated).length ≤ room) : kept room entries = entries := by
  induction entries generalizing room with
  | nil => rfl
  | cons name rest ih =>
    rw [flatMap_cons, length_append, length_terminated] at fits
    rw [kept, if_pos (by omega), ih (by omega)]

theorem memPack_whole (names : List Byte) :
    ∃ packed, memPack names.length entries names 0 = some packed ∧ packed.length = names.length ∧
      (entries.flatMap Path.terminated <+: packed ↔ (entries.flatMap Path.terminated).length ≤ names.length) := by
  obtain ⟨after, packed, length⟩ := memPack_eq entries [] names
  rw [length_nil, Nat.zero_add, nil_append] at packed
  refine ⟨_, packed, length, fun begins => length ▸ begins.length_le, fun fits => ?_⟩
  rw [kept_all fits]
  exact prefix_append ..

theorem consistent_count {rc : Int} {names : List Byte} {entries : List Path} :
    Listing.Consistent ⟨rc, some entries.length, names⟩ entries ↔ entries.flatMap Path.terminated <+: names := by
  constructor
  · rintro ⟨count, counted, -, begins⟩
    obtain rfl := Option.some.inj counted
    rwa [take_length] at begins
  · intro begins
    refine ⟨entries.length, rfl, le_rfl, ?_⟩
    rwa [take_length]

/-- The names are the first ones, as many as the count says, exactly when all of them fit. -/
theorem vfs_list_consistent_iff (backend : Backend) (names : List Byte) :
    ∃ listing, backend.list names = some listing ∧ listing.names.length = names.length ∧
      (listing.rc = 0 → (listing.Consistent backend.entries ↔
        (backend.entries.map fun name => name.bytes.length + 1).sum ≤ names.length)) := by
  have size (entries : List Path) : (entries.flatMap Path.terminated).length =
      (entries.map fun name => name.bytes.length + 1).sum := by
    rw [length_flatMap]
    exact congrArg sum (map_congr_left fun name _ => length_terminated name)
  cases backend with
  | memory ctx =>
    obtain ⟨packed, done, length, begins⟩ := memPack_whole (ctx.map MemEntry.path) names
    refine ⟨⟨0, some ctx.length, packed⟩, by rw [Backend.list, done]; rfl, length, fun _ => ?_⟩
    have counted : ctx.length = (ctx.map MemEntry.path).length := (length_map ..).symm
    rw [counted, ← size]
    exact consistent_count.trans begins
  | host nodes =>
    cases nodes with
    | none => exact ⟨_, rfl, rfl, fun listed => absurd (show (-1 : Int) = 0 from listed) (by decide)⟩
    | some nodes =>
      obtain ⟨packed, done, length, begins⟩ := memPack_whole nodes names
      refine ⟨⟨0, some nodes.length, packed⟩, by rw [Backend.list, hostPack_eq, done]; rfl, length, fun _ => ?_⟩
      rw [← size]
      exact consistent_count.trans begins

theorem vfs_list_counts_skipped :
    (Backend.memory [⟨newKey (pathOf 2), some []⟩, ⟨newKey (pathOf 1), some []⟩]).list [9, 9] =
        some ⟨0, some 2, [0x61, 0]⟩ ∧
      (Backend.host (some [pathOf 2, pathOf 1])).list [9, 9] = some ⟨0, some 2, [0x61, 0]⟩ ∧
      ¬ Listing.Consistent ⟨0, some 2, [0x61, 0]⟩ [pathOf 2, pathOf 1] := by
  refine ⟨by decide +kernel, by decide +kernel, ?_⟩
  rintro ⟨count, counted, -, begins⟩
  obtain rfl := Option.some.inj counted
  have short := begins.length_le
  exact absurd short (by decide)

end Flinstone.Vfs
