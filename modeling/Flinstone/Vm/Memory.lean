import Mathlib.Data.BitVec
import Mathlib.Data.List.OfFn

/-!
# Guest memory

`vm_mem.c`.
-/

namespace Flinstone.Vm

abbrev Byte := BitVec 8
abbrev Word := BitVec 32

scoped instance four_neZero : NeZero 4 := ⟨by decide⟩
scoped instance eight_neZero : NeZero 8 := ⟨by decide⟩
scoped instance ring_neZero : NeZero 32 := ⟨by decide⟩
scoped instance sector_neZero : NeZero 512 := ⟨by decide⟩

-- `size_t`, `uintptr_t` and `uint64_t`
abbrev Size := BitVec 64

inductive Stop where
  | ram (index : Nat)
  | pointer (address length : Nat)
  | heap (offset length : Nat)
  | dangling (object : Nat)
  | blocked
  deriving DecidableEq

abbrev Ram (n : Nat) := Fin n → Byte

structure VmMem (n : Nat) where
  ram : Ram n
  base : Size
  nonnull : base ≠ 0
  fits : base.toNat + n ≤ 2 ^ 64

def guestRamSize : Nat := 16777216
def guestVgaBase : Nat := 0xb8000
def guestVgaSize : Nat := 4000

variable {n : Nat}

def byteAt (ram : Ram n) (index : Nat) : Except Stop Byte :=
  if inside : index < n then .ok (ram ⟨index, inside⟩) else .error (.ram index)

-- `asm_mem_copy` out of RAM; the first index outside is the one reported
def copyOut (ram : Ram n) (start count : Nat) : Except Stop (List Byte) :=
  if inside : start + count ≤ n then
    .ok (List.ofFn fun i : Fin count => ram ⟨start + i, by omega⟩)
  else .error (.ram (max start n))

def overwrite (ram : Ram n) (start : Nat) (bytes : List Byte) : Ram n :=
  fun i => if start ≤ i.val then bytes.getD (i.val - start) (ram i) else ram i

def copyIn (ram : Ram n) (start : Nat) (bytes : List Byte) : Except Stop (Ram n) :=
  if start + bytes.length ≤ n then .ok (overwrite ram start bytes)
  else .error (.ram (max start n))

def wordOf : List Byte → Word
  | [] => 0
  | b :: rest => b.setWidth 32 ||| (wordOf rest <<< 8)

def bytesOf (value : Word) (count : Nat) : List Byte := (List.range count).map fun i => (value >>> (8 * i)).setWidth 8

/-! ## The accessors

The guest address is 32 bits wide and the length a `size_t`, so the sum in the check is exact. -/

def vmMemZero (mem : VmMem n) : VmMem n := { mem with ram := fun _ => 0 }

def vmMemRead (mem : VmMem n) (guestAddr : Word) (count : Nat) : Except Stop (Option (List Byte)) :=
  if guestAddr.toNat + count > n then .ok none
  else (copyOut mem.ram guestAddr.toNat count).map some

def vmMemWrite (mem : VmMem n) (guestAddr : Word) (bytes : List Byte) : Except Stop (Option (VmMem n)) :=
  if guestAddr.toNat + bytes.length > n then .ok none
  else (copyIn mem.ram guestAddr.toNat bytes).map fun ram => some { mem with ram }

def vmMemWrite8 (mem : VmMem n) (guestAddr : Word) (value : Byte) : Except Stop (VmMem n) :=
  if guestAddr.toNat ≥ n then .ok mem
  else (copyIn mem.ram guestAddr.toNat [value]).map fun ram => { mem with ram }

variable {ram : Ram n} {index : Nat}

theorem byteAt_of_lt (inside : index < n) : byteAt ram index = .ok (ram ⟨index, inside⟩) := dif_pos inside

theorem byteAt_of_ge (outside : n ≤ index) : byteAt ram index = .error (.ram index) := dif_neg (not_lt.mpr outside)

theorem vmMemRead_eq (mem : VmMem n) (guestAddr : Word) (count : Nat) : vmMemRead mem guestAddr count =
      .ok (if inside : guestAddr.toNat + count ≤ n then
        some (List.ofFn fun i : Fin count => mem.ram ⟨guestAddr.toNat + i, by omega⟩) else none) := by
  unfold vmMemRead copyOut
  by_cases inside : guestAddr.toNat + count ≤ n
  · rw [if_neg (by omega), dif_pos inside, dif_pos inside]
    rfl
  · rw [if_pos (by omega), dif_neg inside]

theorem vmMemWrite_eq (mem : VmMem n) (guestAddr : Word) (bytes : List Byte) : vmMemWrite mem guestAddr bytes =
      .ok (if guestAddr.toNat + bytes.length ≤ n then
        some { mem with ram := overwrite mem.ram guestAddr.toNat bytes } else none) := by
  unfold vmMemWrite copyIn
  by_cases inside : guestAddr.toNat + bytes.length ≤ n
  · rw [if_neg (by omega), if_pos inside, if_pos inside]
    rfl
  · rw [if_pos (by omega), if_neg inside]

theorem vmMemWrite8_eq (mem : VmMem n) (guestAddr : Word) (value : Byte) : vmMemWrite8 mem guestAddr value =
      .ok (if guestAddr.toNat < n then
        { mem with ram := overwrite mem.ram guestAddr.toNat [value] } else mem) := by
  unfold vmMemWrite8 copyIn
  by_cases inside : guestAddr.toNat < n
  · have single : guestAddr.toNat + [value].length ≤ n := inside
    rw [if_neg (by omega), if_pos inside, if_pos single]
    rfl
  · rw [if_pos (by omega), if_neg inside]

end Flinstone.Vm
