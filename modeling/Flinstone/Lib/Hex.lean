import Flinstone.Lib.Text
import Mathlib.Data.List.GetD

/-! # Hexadecimal text -/

namespace Flinstone.Lib
open List

def hex02 (n : Nat) : Text := ((Nat.toDigits 16 n).map Char.toUpper).leftpad 2 '0'

def hexVal (c : Char) : Option Nat :=
  if 48 ≤ c.toNat ∧ c.toNat ≤ 57 then some (c.toNat - 48)
  else if 65 ≤ c.toNat ∧ c.toNat ≤ 70 then some (c.toNat - 55)
  else if 97 ≤ c.toNat ∧ c.toNat ≤ 102 then some (c.toNat - 87)
  else none

def isxdigit (c : Char) : Bool := (hexVal c).isSome

def hexNumber (digits : Text) : Nat :=
  (digits.takeWhile isxdigit).foldl (fun value c => 16 * value + (hexVal c).getD 0) 0

-- `0x` in front of the digits
def skip0x : Text → Text
  | '0' :: 'x' :: rest => rest
  | '0' :: 'X' :: rest => rest
  | rest => rest

def strtol16 (str : Text) : Int :=
  match str.dropWhile isspace with
  | '-' :: rest => -(hexNumber (skip0x rest) : Int)
  | '+' :: rest => hexNumber (skip0x rest)
  | rest => hexNumber (skip0x rest)

/-- The `int` made of what `strtol` returns: a `long`, of which the low 32 bits are kept. -/
def longToInt (value : Int) : Int := (BitVec.ofInt 32 (max (-2 ^ 63) (min value (2 ^ 63 - 1)))).toInt

def strtolInt16 (str : Text) : Int := longToInt (strtol16 str)

abbrev Octet := BitVec 8

def hexBytes (buf : List Octet) : Text := buf.flatMap fun b => hex02 b.toNat

-- `(unsigned char)strtol(byte_str, NULL, 16)`
def byteOf (high low : Char) : Octet := BitVec.ofInt 8 (strtol16 (cstr [high, low]))

def decodeHex (count : Nat) (hex : Text) : List Octet :=
  (List.range count).map fun i => byteOf (hex.getD (2 * i) '\x00') (hex.getD (2 * i + 1) '\x00')

variable {n : Nat} {c : Char} {buf : List Octet}

theorem mem_toDigits (member : c ∈ Nat.toDigits 16 n) : ∃ d < 16, c = Nat.digitChar d := by
  induction n using Nat.strong_induction_on with
  | _ n ih =>
    by_cases small : n < 16
    · rw [Nat.toDigits_of_lt_base small] at member
      exact ⟨n, small, mem_singleton.mp member⟩
    · rw [Nat.toDigits_of_base_le (by omega) (by omega)] at member
      rcases mem_append.mp member with above | last
      · exact ih (n / 16) (by omega) above
      · exact ⟨n % 16, Nat.mod_lt _ (by omega), mem_singleton.mp last⟩

theorem mem_hex02 (member : c ∈ hex02 n) : ∃ d < 16, c = (Nat.digitChar d).toUpper := by
  simp only [hex02, leftpad, mem_append, mem_replicate, mem_map] at member
  rcases member with ⟨_, rfl⟩ | ⟨digit, inside, rfl⟩
  · exact ⟨0, by decide, by decide⟩
  · obtain ⟨d, small, rfl⟩ := mem_toDigits inside
    exact ⟨d, small, rfl⟩

theorem isxdigit_hex02 (member : c ∈ hex02 n) : isxdigit c := by
  have all : ∀ d < 16, isxdigit (Nat.digitChar d).toUpper := by decide
  obtain ⟨d, small, rfl⟩ := mem_hex02 member
  exact all d small

theorem length_hex02 (n : Nat) : (hex02 n).length = max 2 (Nat.toDigits 16 n).length := by
  rw [hex02, length_leftpad, length_map]

theorem two_le_length_hex02 (n : Nat) : 2 ≤ (hex02 n).length := by
  rw [length_hex02]
  exact le_max_left ..

theorem length_hex02_mono {m : Nat} (le : m ≤ n) : (hex02 m).length ≤ (hex02 n).length := by
  have digits : (Nat.toDigits 16 m).length ≤ (Nat.toDigits 16 n).length := by
    rw [Nat.length_toDigits_le_iff (by omega) Nat.length_toDigits_pos]
    exact le.trans_lt ((Nat.length_toDigits_le_iff (by omega) Nat.length_toDigits_pos).mp le_rfl)
  rw [length_hex02, length_hex02]
  exact max_le_max le_rfl digits

theorem length_hex02_byte (b : Octet) : (hex02 b.toNat).length = 2 := by
  have digits : (Nat.toDigits 16 b.toNat).length ≤ 2 := (Nat.length_toDigits_le_iff (by omega) (by omega)).mpr b.isLt
  rw [length_hex02]
  omega

theorem byteOf_hex02 (b : Octet) : byteOf ((hex02 b.toNat).getD 0 '\x00') ((hex02 b.toNat).getD 1 '\x00') = b := by
  have all : ∀ n < 256, byteOf ((hex02 n).getD 0 '\x00') ((hex02 n).getD 1 '\x00') = BitVec.ofNat 8 n := by
    decide +kernel
  rw [all b.toNat b.isLt, BitVec.ofNat_toNat, BitVec.setWidth_eq]

@[simp] theorem length_hexBytes (buf : List Octet) : (hexBytes buf).length = 2 * buf.length := by
  induction buf with
  | nil => rfl
  | cons b buf ih =>
    simp only [hexBytes, flatMap_cons, length_append, length_hex02_byte] at ih ⊢
    rw [ih, length_cons]
    omega

theorem isxdigit_hexBytes (member : c ∈ hexBytes buf) : isxdigit c := by
  obtain ⟨b, _, digit⟩ := mem_flatMap.mp member
  exact isxdigit_hex02 digit

theorem decodeHex_hexBytes (buf : List Octet) : decodeHex buf.length (hexBytes buf) = buf := by
  induction buf with
  | nil => rfl
  | cons b buf ih =>
    have two := length_hex02_byte b
    have front (i : Nat) (inside : i < 2) : (hexBytes (b :: buf)).getD i '\x00' = (hex02 b.toNat).getD i '\x00' := by
      rw [hexBytes, flatMap_cons, getD_append _ _ _ _ (by omega)]
    have behind (i : Nat) : (hexBytes (b :: buf)).getD (i + 2) '\x00' = (hexBytes buf).getD i '\x00' := by
      rw [hexBytes, flatMap_cons, getD_append_right _ _ _ _ (by omega), two]
      rfl
    rw [decodeHex, length_cons, range_succ_eq_map, map_cons, map_map]
    refine congrArg₂ cons ?_ ?_
    · rw [front 0 (by omega), front 1 (by omega), byteOf_hex02]
    · refine trans ?_ ih
      apply map_congr_left
      intro i _
      show byteOf _ _ = byteOf _ _
      rw [show 2 * (i + 1) = 2 * i + 2 by omega, show 2 * i + 2 + 1 = (2 * i + 1) + 2 by omega, behind, behind]

theorem decodeHex_of_length {count : Nat} (len : buf.length = count) : decodeHex count (hexBytes buf) = buf := by
  rw [← len, decodeHex_hexBytes]

theorem isxdigit_ne {d : Char} (digit : isxdigit c) (other : isxdigit d = false) : c ≠ d := by
  rintro rfl
  rw [other] at digit
  cases digit

theorem isxdigit_not_isspace (digit : isxdigit c) : isspace c = false := by
  unfold isxdigit hexVal at digit
  unfold isspace
  split at digit
  · simp; omega
  · split at digit
    · simp; omega
    · split at digit
      · simp; omega
      · cases digit

end Flinstone.Lib
