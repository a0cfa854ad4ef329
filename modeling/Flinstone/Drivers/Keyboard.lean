import Mathlib.Data.BitVec
import Mathlib.Data.List.Basic

/-!
# The PS/2 keyboard

`keyboard_driver.c` on x86-64, bare metal.
-/

namespace Flinstone.Drivers.Ps2
open List

abbrev ScanCode := BitVec 8

def scUnshifted : List Char :=
  "\x00\x001234567890-=\x00\x00qwertyuiop[]\n\x00asdfghjkl;'`\x00\\zxcvbnm,./\x00*\x00 ".toList ++
    replicate 13 '\x00' ++ "789-456+1230.\x00\x00\x00\x00\x00".toList

def scShifted : List Char :=
  "\x00\x00!@#$%^&*()_+\x00\x00QWERTYUIOP\x7b\x7d\n\x00ASDFGHJKL:\"~\x00|ZXCVBNM<>?\x00*\x00 ".toList ++
    replicate 13 '\x00' ++ "789-456+1230.\x00\x00\x00\x00\x00".toList

structure Keyboard where
  shift : BitVec 8
  capslock : Bool
  deriving DecidableEq

def hwPollScancode (status data : BitVec 8) : Option ScanCode := if status &&& 1 = 0 then none else some data

def translate (k : Keyboard) (sc : ScanCode) : Option Char :=
  match scUnshifted[sc.toNat]?, scShifted[sc.toNat]? with
  | some base, some shifted =>
    let isLetter := 'a' ≤ base && base ≤ 'z'
    let useShifted := (k.shift != 0) ^^ (k.capslock && isLetter)
    let c := if useShifted then shifted else base
    if c = '\x00' then none else some c
  | _, _ => none

def hwGetChar (status data : BitVec 8) (k : Keyboard) : Option Char × Keyboard :=
  match hwPollScancode status data with
  | none => (none, k)
  | some sc =>
    if sc &&& 0x80 ≠ 0 then
      let make := sc &&& ~~~0x80
      (none, if make = 0x2A then { k with shift := k.shift &&& ~~~1 }
        else if make = 0x36 then { k with shift := k.shift &&& ~~~2 } else k)
    else if sc = 0x2A then (none, { k with shift := k.shift ||| 1 })
    else if sc = 0x36 then (none, { k with shift := k.shift ||| 2 })
    else if sc = 0x3A then (none, { k with capslock := !k.capslock })
    else (translate k sc, k)

/-! ## What a key means -/

def press (key : ScanCode) (held : Bool) (sc : ScanCode) : Bool :=
  if sc = key then true else if sc = key ||| 0x80 then false else held

-- whether the last code of the key was that of pressing it
def down (key : ScanCode) (codes : List ScanCode) : Bool := codes.foldl (press key) false

def capsOn (codes : List ScanCode) : Bool := codes.foldl (fun on sc => on ^^ sc == 0x3A) false

/-- A letter is capital when one of shift and caps lock is on; caps lock does nothing to the other keys. -/
def keyChar (shift caps : Bool) (sc : ScanCode) : Option Char :=
  if sc = 0x2A ∨ sc = 0x36 ∨ sc = 0x3A then none
  else match scUnshifted[sc.toNat]?, scShifted[sc.toNat]? with
    | some base, some shifted =>
      if base = '\x00' then none
      else if base.isLower then some (if shift ^^ caps then base.toUpper else base)
      else some (if shift then shifted else base)
    | _, _ => none

def keyboard (left right caps : Bool) : Keyboard := ⟨(if left then 1 else 0) ||| (if right then 2 else 0), caps⟩

theorem hwGetChar_keyboard : ∀ sc left right caps, hwGetChar 1 sc (keyboard left right caps) =
    (keyChar (left || right) caps sc, keyboard (press 0x2A left sc) (press 0x36 right sc) (caps ^^ sc == 0x3A)) := by
  decide +kernel

abbrev Ports := List (BitVec 8 × BitVec 8)

def scanCodes (ports : Ports) : List ScanCode := ports.filterMap fun p => hwPollScancode p.1 p.2

def after (ports : Ports) : Keyboard := ports.foldl (fun k p => (hwGetChar p.1 p.2 k).2) ⟨0, false⟩

theorem hwGetChar_polled {status data : BitVec 8} {sc : ScanCode} (polled : hwPollScancode status data = some sc)
    (k : Keyboard) : hwGetChar status data k = hwGetChar 1 sc k := by
  have direct : hwPollScancode 1 sc = some sc := if_neg (by decide)
  rw [hwGetChar, hwGetChar, polled, direct]

theorem after_eq (ports : Ports) : after ports =
    keyboard (down 0x2A (scanCodes ports)) (down 0x36 (scanCodes ports)) (capsOn (scanCodes ports)) := by
  induction ports using reverseRecOn with
  | nil => rfl
  | append_singleton ports p ih =>
    have codes : scanCodes (ports ++ [p]) = scanCodes ports ++ scanCodes [p] := filterMap_append
    rw [after, foldl_append, foldl_cons, foldl_nil, ← after, ih, codes]
    cases polled : hwPollScancode p.1 p.2 with
    | none => simp [hwGetChar, scanCodes, polled]
    | some sc =>
      have last : scanCodes [p] = [sc] := by simp [scanCodes, polled]
      rw [hwGetChar_polled polled, hwGetChar_keyboard, last]
      simp only [down, capsOn, foldl_append, foldl_cons, foldl_nil]

/-- Whatever was typed before, a key gives the character that the keys held down and caps lock make of it. -/
theorem keyboard_types (ports : Ports) (status data : BitVec 8) : (hwGetChar status data (after ports)).1 =
    (hwPollScancode status data).bind (keyChar (down 0x2A (scanCodes ports) || down 0x36 (scanCodes ports))
      (capsOn (scanCodes ports))) := by
  cases polled : hwPollScancode status data with
  | none => simp [hwGetChar, polled]
  | some sc => rw [hwGetChar_polled polled, after_eq, hwGetChar_keyboard, Option.bind_some]

end Flinstone.Drivers.Ps2
