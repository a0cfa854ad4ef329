import Flinstone.Disk.Format

/-! # The chain of clusters -/

namespace Flinstone.Disk
open Flinstone.Lib List Option

def storedLink (text : Text) (i : Nat) : Option Nat :=
  ((physicalLines text)[i + 1]?.bind fun line => hexPart (cutNewline line)).bind fun digits =>
    if 2 ≤ digits.length then some (byteOf (digits.getD 0 '\x00') (digits.getD 1 '\x00')).toNat else none

def follow (next : Nat → Option Nat) : Nat → Nat → List Nat
  | 0, _ => []
  | steps + 1, i =>
    match next i with
    | none => [i]
    | some j => if j = 0 then [i] else i :: follow next steps j

/-- Following the links from cluster 0 on visits each cluster once and in order, and ends with the last one. -/
structure Chained (next : Nat → Option Nat) (rowCount : Nat) : Prop where
  visits : ∀ steps, rowCount ≤ steps → follow next steps 0 = List.range rowCount
  last : next (rowCount - 1) = some 0

variable {next : Nat → Option Nat}
variable {last steps : Nat}

theorem follow_consecutive (links : ∀ i < last, next i = some (i + 1)) (ends : next last = some 0)
    {i : Nat} (before : i ≤ last) (enough : last < i + steps) :
    follow next steps i = range' i (last + 1 - i) := by
  induction steps generalizing i with
  | zero => omega
  | succ steps ih =>
    rw [follow]
    rcases lt_or_eq_of_le before with inside | rfl
    · have count : last + 1 - i = (last + 1 - (i + 1)) + 1 := by omega
      rw [links i inside, count, range'_succ]
      exact congrArg (i :: ·) (ih inside (by omega))
    · rw [ends, Nat.add_sub_cancel_left]
      rfl

theorem follow_from_zero (links : ∀ i < last, next i = some (i + 1)) (ends : next last = some 0)
    (enough : last < steps) : follow next steps 0 = range (last + 1) := by
  rw [follow_consecutive links ends (Nat.zero_le _) (by omega), range_eq_range', Nat.sub_zero]

section
variable {rand : Nat → Nat → Octet} {volumeName : Text} {rowCount nibbleCount : Nat} {d : TextDisk}
variable {i : Nat} {text : Text}

theorem storedLink_clusterLines {first : Text} (free : '\n' ∉ first) {cells : List Text}
    (digits : ∀ cell ∈ cells, ∀ c ∈ cell, isxdigit c) (inside : i < cells.length)
    (wide : 2 ≤ cells[i].length) :
    storedLink (printLines (first :: clusterLines cells)) i =
      some (byteOf (cells[i].getD 0 '\x00') (cells[i].getD 1 '\x00')).toNat := by
  have tight : ∀ cell ∈ cells, Tight cell := fun cell member => tight_of_isxdigit (digits cell member)
  have line : (physicalLines (printLines (first :: clusterLines cells)))[i + 1]? =
      some (clusterLine i cells[i] ++ ['\n']) := by
    rw [physicalLines_clusterLines free fun cell member => (tight cell member).newline_free]
    simp [clusterLines, inside]
  have cell := tight _ (getElem_mem inside)
  rw [storedLink, line, bind_some, cutNewline_line (clusterLine_tight i cell).newline_free,
    hexPart_clusterLine i cell, bind_some, if_pos wide]

theorem byteOf_hexBytes {bytes : List Octet} (occupied : 0 < bytes.length) :
    byteOf ((hexBytes bytes).getD 0 '\x00') ((hexBytes bytes).getD 1 '\x00') = bytes[0] := by
  have first : (decodeHex bytes.length (hexBytes bytes))[0]? = bytes[0]? := by rw [decodeHex_hexBytes]
  rw [decodeHex, getElem?_map, getElem?_range occupied, getElem?_eq_getElem occupied] at first
  exact some.inj first

theorem formatRow_head (inside : i < rowCount) {clusterSize : Nat} (wide : 0 < clusterSize)
    (there : 0 < (formatRow rand volumeName rowCount clusterSize i).length) :
    (formatRow rand volumeName rowCount clusterSize i)[0] = if i + 1 < rowCount then BitVec.ofNat 8 (i + 1) else 0 := by
  have first : (formatRow rand volumeName rowCount clusterSize i)[0]? =
      some (if i + 1 < rowCount then BitVec.ofNat 8 (i + 1) else 0) := by
    rw [formatRow, getElem?_map, getElem?_range wide, map_some]
    rcases Nat.eq_zero_or_pos i with rfl | later
    · simp
    · simp only [if_neg (ne_of_gt later), if_true, Nat.lt_sub_iff_add_lt]
  rw [getElem?_eq_getElem there] at first
  exact some.inj first

theorem storedLink_format (rows : 1 ≤ rowCount) (wide : 0 < nibbleCount)
    (made : formatDiskFile rand volumeName rowCount nibbleCount = some d) (file : d.file = some text)
    (inside : i < rowCount) :
    storedLink text i = some (if i + 1 < rowCount then (i + 1) % 256 else 0) := by
  obtain ⟨even, size, total, printed⟩ := formatDiskFile_some rows made
  obtain rfl := some.inj (file.symm.trans printed)
  have ruler : '\n' ∉ "XX:".toList ++ rulerDigits nibbleCount := (rulerText_tight (rulerDigits_tight _)).newline_free
  have there : i < (formatCells rand volumeName rowCount nibbleCount).length := by simpa [formatCells] using inside
  have cell : (formatCells rand volumeName rowCount nibbleCount)[i] =
      hexBytes (formatRow rand volumeName rowCount (nibbleCount / 2) i) := by simp [formatCells]
  have occupied : 0 < (formatRow rand volumeName rowCount (nibbleCount / 2) i).length := by
    rw [length_formatRow]
    omega
  have digits : ∀ cell ∈ formatCells rand volumeName rowCount nibbleCount, ∀ c ∈ cell, isxdigit c := by
    intro cell member
    obtain ⟨j, _, rfl⟩ := mem_map.mp member
    exact fun c digit => isxdigit_hexBytes digit
  rw [storedLink_clusterLines ruler digits there (by rw [cell, length_hexBytes]; omega), cell,
    byteOf_hexBytes occupied, formatRow_head inside (by omega) occupied]
  split
  · rw [BitVec.toNat_ofNat]
  · rfl

theorem format_not_chained (wide : 0 < nibbleCount) (many : 256 < rowCount)
    (made : formatDiskFile rand volumeName rowCount nibbleCount = some d) (file : d.file = some text) :
    storedLink text 255 = some 0 ∧ ¬ Chained (storedLink text) rowCount := by
  have link {i : Nat} (inside : i < 256) : storedLink text i = some ((i + 1) % 256) := by
    rw [storedLink_format (by omega) wide made file (by omega), if_pos (by omega)]
  have stops : storedLink text 255 = some 0 := link (by omega)
  have links : ∀ i < 255, storedLink text i = some (i + 1) := by
    intro i below
    rw [link (by omega), Nat.mod_eq_of_lt (by omega)]
  refine ⟨stops, fun chained => ?_⟩
  have visited := follow_from_zero links stops (show 255 < rowCount by omega)
  rw [chained.visits rowCount le_rfl] at visited
  have count := congrArg length visited
  rw [length_range, length_range] at count
  omega

/-- The chain of a formatted disk leads through all clusters exactly when their numbers fit a byte. -/
theorem format_chained_iff (rand : Nat → Nat → Octet) (volumeName : Text) (rowCount nibbleCount : Nat)
    (rows : 1 ≤ rowCount) (wide : 0 < nibbleCount) (d : TextDisk)
    (made : formatDiskFile rand volumeName rowCount nibbleCount = some d) (text : Text) (file : d.file = some text) :
    Chained (storedLink text) rowCount ↔ rowCount ≤ 256 := by
  constructor
  · intro chained
    by_contra many
    exact (format_not_chained wide (by omega) made file).2 chained
  · intro few
    have link {i : Nat} (inside : i < rowCount) := storedLink_format rows wide made file inside
    have links : ∀ i < rowCount - 1, storedLink text i = some (i + 1) := by
      intro i below
      rw [link (by omega), if_pos (by omega), Nat.mod_eq_of_lt (by omega)]
    have ends : storedLink text (rowCount - 1) = some 0 := by rw [link (by omega), if_neg (by omega)]
    refine ⟨fun steps enough => ?_, ends⟩
    rw [follow_from_zero links ends (by omega), Nat.sub_add_cancel rows]

end

theorem format_chained_small :
    ∃ d text, formatDiskFile (fun _ _ => 0x5A) "vol".toList 3 8 = some d ∧ d.file = some text ∧
      follow (storedLink text) 3 0 = [0, 1, 2] ∧ Chained (storedLink text) 3 :=
  ⟨_, _, rfl, rfl, by decide +kernel, (format_chained_iff (fun _ _ => 0x5A) "vol".toList 3 8 (by decide) (by decide) _
    rfl _ rfl).mpr (by decide)⟩

/-- Of 257 rows the last one is never reached: cluster 255 links to 256, which is printed as `00`. -/
theorem format_chain_cut :
    ∃ d text, formatDiskFile (fun _ _ => 0) "vol".toList 257 2 = some d ∧ d.file = some text ∧
      storedLink text 255 = some 0 ∧ ¬ Chained (storedLink text) 257 := by
  obtain ⟨d, made⟩ : ∃ d, formatDiskFile (fun _ _ => 0) "vol".toList 257 2 = some d := ⟨_, rfl⟩
  obtain ⟨_, _, _, file⟩ := formatDiskFile_some (by decide) made
  exact ⟨d, _, made, file, format_not_chained (by decide) (by decide) made file⟩

end Flinstone.Disk
