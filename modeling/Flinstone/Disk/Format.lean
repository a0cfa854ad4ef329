import Flinstone.Disk.Numbering

/-!
# Formatting a disk

`format_disk_file` and `flintstone_format_disk`, which print the same text; the second one makes the name of the file
out of the volume's.
-/

namespace Flinstone.Disk
open Flinstone.Lib List Option

/-- The number of the next row, and behind it the volume name in row 0 or what `rand` gave. -/
def formatRow (rand : Nat → Nat → Octet) (volumeName : Text) (rowCount clusterSize i : Nat) : List Octet :=
  (List.range clusterSize).map fun j =>
    if i = 0 then
      if j = 0 then if rowCount > 1 then 1 else 0
      else if j - 1 < min volumeName.length (clusterSize - 1) then
        BitVec.ofNat 8 (volumeName.getD (j - 1) '\x00').toNat
      else rand 0 j
    else if j = 0 then if i < rowCount - 1 then BitVec.ofNat 8 (i + 1) else 0
    else rand i j

/-- `none` is the call of `exit`. -/
def formatDiskFile (rand : Nat → Nat → Octet) (volumeName : Text) (rowCount nibbleCount : Nat) : Option TextDisk :=
  if nibbleCount % 2 ≠ 0 then none
  else
    let clusterSize := nibbleCount / 2
    let row := formatRow rand volumeName rowCount clusterSize
    let text := printLines (("XX:".toList ++ rulerDigits nibbleCount) ::
      ("00:".toList ++ hexBytes (row 0)) ::
      (List.range' 1 (rowCount - 1)).map fun i => clusterLine i (hexBytes (row i)))
    some { file := some text, clusterSize, totalClusters := rowCount }

/-- The name of the file, cut to its buffer, and the disk in it. -/
def flintstoneFormatDisk (rand : Nat → Nat → Octet) (volumeName : Text) (rowCount nibbleCount : Nat) :
    Option (Text × TextDisk) :=
  (formatDiskFile rand volumeName rowCount nibbleCount).map (Prod.mk ((volumeName ++ "_disk.txt".toList).take 255))

def clusterWrites (d : TextDisk) (writes : List (Nat × Text)) : TextDisk :=
  writes.foldl (fun d write => updateClusterLine d write.1 write.2) d

def InRange (rowCount nibbleCount : Nat) (write : Nat × Text) : Prop :=
  write.1 < rowCount ∧ write.2.length = nibbleCount ∧ ∀ c ∈ write.2, isxdigit c

def Survives (d : TextDisk) (rowCount nibbleCount : Nat) (row : Nat → List Octet) : Prop :=
  ∀ writes, (∀ write ∈ writes, InRange rowCount nibbleCount write) → ∃ text, (clusterWrites d writes).file = some text ∧
      (loaded text).totalClusters = rowCount ∧ (loaded text).clusterSize = nibbleCount / 2 ∧
      ∀ j < rowCount, (∀ write ∈ writes, write.1 ≠ j) → diskAsmReadCluster (clusterWrites d writes) j = some (row j)

def LinesFit (rowCount nibbleCount : Nat) : Prop :=
  (hex02 (rowCount - 1)).length + 1 + nibbleCount ≤ 255 ∧
    (2 ≤ rowCount → (hex02 (rowCount - 2)).length + 1 + nibbleCount ≤ 254)

def formatCells (rand : Nat → Nat → Octet) (volumeName : Text) (rowCount nibbleCount : Nat) : List Text :=
  (List.range rowCount).map fun i => hexBytes (formatRow rand volumeName rowCount (nibbleCount / 2) i)

@[simp] theorem length_formatRow (rand : Nat → Nat → Octet) (volumeName : Text) (rowCount clusterSize i : Nat) :
    (formatRow rand volumeName rowCount clusterSize i).length = clusterSize := by
  simp [formatRow]

theorem clusterLines_map_range (cell : Nat → Text) (n : Nat) :
    clusterLines ((range n).map cell) = (range n).map fun i => clusterLine i (cell i) := by
  apply ext_getElem
  · simp [clusterLines]
  · intro i _ _
    simp [clusterLines]

section Formatted
variable {rand : Nat → Nat → Octet} {volumeName : Text} {rowCount nibbleCount : Nat} {d : TextDisk}

theorem formatDiskFile_some (rows : 1 ≤ rowCount)
    (made : formatDiskFile rand volumeName rowCount nibbleCount = some d) :
    nibbleCount = 2 * (nibbleCount / 2) ∧ d.clusterSize = nibbleCount / 2 ∧ d.totalClusters = rowCount ∧
      d.file = some (printLines (("XX:".toList ++ rulerDigits nibbleCount) ::
        clusterLines (formatCells rand volumeName rowCount nibbleCount))) := by
  unfold formatDiskFile at made
  split_ifs at made with odd
  obtain rfl := some.inj made
  refine ⟨by omega, rfl, rfl, ?_⟩
  obtain ⟨more, rfl⟩ : ∃ more, rowCount = more + 1 := ⟨rowCount - 1, by omega⟩
  have zero : "00:".toList = hex02 0 ++ [':'] := by decide
  rw [formatCells, clusterLines_map_range, range_eq_range', range'_succ, map_cons]
  simp [zero, clusterLine]

theorem format_printed_of_last (rows : 1 ≤ rowCount) (last : (hex02 (rowCount - 1)).length + 1 + nibbleCount ≤ 255)
    (made : formatDiskFile rand volumeName rowCount nibbleCount = some d) :
    Printed d (rulerDigits nibbleCount) (formatCells rand volumeName rowCount nibbleCount) := by
  obtain ⟨even, size, total, file⟩ := formatDiskFile_some rows made
  have two := two_le_length_hex02 (rowCount - 1)
  refine ⟨file, (rulerDigits_tight _).newline_free, ?_, ?_, ?_, ?_⟩
  · simp [rulerDigits]
    omega
  · simp [formatCells, total]
  · intro cell member
    obtain ⟨i, _, rfl⟩ := mem_map.mp member
    exact ⟨by simp [size], fun _ digit => isxdigit_hexBytes digit⟩
  · intro line member
    rw [formatCells, clusterLines_map_range] at member
    obtain ⟨i, inside, rfl⟩ := mem_map.mp member
    have narrower := length_hex02_mono (show i ≤ rowCount - 1 by have := mem_range.mp inside; omega)
    rw [length_clusterLine, length_hexBytes, length_formatRow]
    omega

theorem format_printed (rows : 1 ≤ rowCount) (fit : LinesFit rowCount nibbleCount)
    (made : formatDiskFile rand volumeName rowCount nibbleCount = some d) :
    Printed d (rulerDigits nibbleCount) (formatCells rand volumeName rowCount nibbleCount) :=
  format_printed_of_last rows fit.1 made

end Formatted

/-! ## Lines that fit -/

@[simp] theorem length_oldClusters (d : TextDisk) : (oldClusters d).length = d.totalClusters := by
  have read : (replacedLines d).length ≤ d.totalClusters := by
    unfold replacedLines
    split
    · exact Nat.zero_le _
    · exact length_take_le ..
  simp only [oldClusters, length_append, length_map, length_range']
  omega

section Writes
variable {d : TextDisk} {ruler : Text} {cells : List Text} {rowCount nibbleCount : Nat}

theorem Printed.line_short (printed : Printed d ruler cells) (fit : LinesFit cells.length nibbleCount)
    (size : nibbleCount = 2 * d.clusterSize) (several : 2 ≤ cells.length) :
    ∀ line ∈ (clusterLines cells).dropLast, line.length + 1 ≤ 255 := by
  intro line member
  obtain ⟨i, inside, rfl⟩ := getElem_of_mem member
  have bound : i < cells.length - 1 := by
    simpa [clusterLines] using inside
  have there : i < cells.length := by omega
  have narrower := length_hex02_mono (show i ≤ cells.length - 2 by omega)
  have len := (printed.cell cells[i] (getElem_mem there)).1
  have before := fit.2 several
  simp only [getElem_dropLast, clusterLines, getElem_mapIdx, length_clusterLine, len]
  omega

theorem Printed.old_set (printed : Printed d ruler cells) (fit : LinesFit cells.length nibbleCount)
    (size : nibbleCount = 2 * d.clusterSize) (rulerLength : ruler.length = nibbleCount) {k : Nat}
    (inside : k < cells.length) (line : Text) :
    (Disk.oldClusters d).set k line = (clusterLines cells).set k line := by
  by_cases several : 2 ≤ cells.length
  · have two := two_le_length_hex02 (cells.length - 2)
    have before := fit.2 several
    rw [printed.oldClusters (by omega) (by simp; omega) (printed.line_short fit size several)]
  · have one : cells.length = 1 := by omega
    have first : k = 0 := by omega
    obtain ⟨old, single⟩ := length_eq_one_iff.mp ((length_oldClusters d).trans (printed.count.symm.trans one))
    obtain ⟨cell, rfl⟩ := length_eq_one_iff.mp one
    rw [single, first]
    rfl

theorem Printed.writes (printed : Printed d ruler cells) (fit : LinesFit cells.length nibbleCount)
    (size : nibbleCount = 2 * d.clusterSize) (rulerLength : ruler.length = nibbleCount)
    (writes : List (Nat × Text)) (inRange : ∀ write ∈ writes, InRange cells.length nibbleCount write) :
    ∃ ruler' cells', Printed (clusterWrites d writes) ruler' cells' ∧
      (clusterWrites d writes).clusterSize = d.clusterSize ∧ cells'.length = cells.length ∧
      ∀ j, (∀ write ∈ writes, write.1 ≠ j) → cells'[j]? = cells[j]? := by
  induction writes generalizing d ruler cells with
  | nil => exact ⟨ruler, cells, printed, rfl, rfl, fun _ _ => rfl⟩
  | cons write writes ih =>
    obtain ⟨inside, len, digits⟩ := inRange write (mem_cons_self ..)
    obtain ⟨size', _, after⟩ := printed.update inside (len.trans size) digits
      (printed.old_set fit size rulerLength inside _)
    obtain ⟨ruler', cells', final, finalSize, count, others⟩ := ih after
      (by rw [length_set]; exact fit) (size.trans (by rw [size'])) (by simp [rulerDigits]; omega)
      (by rw [length_set]; exact fun w member => inRange w (mem_cons_of_mem _ member))
    refine ⟨ruler', cells', final, finalSize.trans size', ?_, ?_⟩
    · rw [count, length_set]
    · intro j untouched
      rw [others j fun w member => untouched w (mem_cons_of_mem _ member),
        getElem?_set_ne (untouched write (mem_cons_self ..))]

theorem Printed.loaded (printed : Printed d ruler cells) (occupied : 0 < d.totalClusters) {text : Text}
    (file : d.file = some text) :
    (Disk.loaded text).totalClusters = d.totalClusters ∧ (Disk.loaded text).clusterSize = d.clusterSize := by
  rw [Disk.loaded, readDiskHeader_eq rfl (printed.counted file), getLast?_replicate,
    if_neg (by omega), length_replicate]
  exact ⟨rfl, rfl⟩

end Writes

section Formatted
variable {rand : Nat → Nat → Octet} {volumeName : Text} {rowCount nibbleCount : Nat} {d : TextDisk}

theorem survives_of_linesFit (rows : 1 ≤ rowCount) (fit : LinesFit rowCount nibbleCount)
    (made : formatDiskFile rand volumeName rowCount nibbleCount = some d) :
    Survives d rowCount nibbleCount (formatRow rand volumeName rowCount (nibbleCount / 2)) := by
  intro writes inRange
  obtain ⟨even, size, total, _⟩ := formatDiskFile_some rows made
  have printed := format_printed rows fit made
  have count : (formatCells rand volumeName rowCount nibbleCount).length = rowCount := by
    simp [formatCells]
  obtain ⟨ruler, cells, final, finalSize, finalCount, others⟩ := printed.writes
    (by rw [count]; exact fit) (by omega) (by simp [rulerDigits]) writes
    (by rw [count]; exact inRange)
  have finalTotal : (clusterWrites d writes).totalClusters = rowCount := by
    rw [← final.count, finalCount, count]
  obtain ⟨total', size'⟩ := final.loaded (by omega) final.file
  refine ⟨_, final.file, total'.trans finalTotal, size'.trans (finalSize.trans size), ?_⟩
  intro j inside untouched
  have there : j < cells.length := by omega
  have cell : cells[j] = hexBytes (formatRow rand volumeName rowCount (nibbleCount / 2) j) := by
    have same := others j untouched
    rw [getElem?_eq_getElem there, formatCells, getElem?_map, getElem?_range inside] at same
    exact some.inj same
  rw [final.read there, cell, finalSize, size, decodeHex_of_length (length_formatRow ..)]

end Formatted

/-! ## Lines that are too long -/

variable {s line data text : Text} {i : Nat} {d : TextDisk}

theorem mem_of_mem_trimWhitespace {c : Char} (member : c ∈ trimWhitespace s) : c ∈ s :=
  (dropWhile_sublist _).subset ((List.rdropWhile_prefix _ _).subset member)

theorem countedSize_colonless (fresh : ':' ∉ line) : countedSize line = none := by
  have part : (keptLine line).bind hexPart = none := by
    unfold keptLine
    dsimp only
    split_ifs
    · rfl
    · rfl
    · rw [bind_some, hexPart, strchrRest_eq_none fun member => fresh (mem_of_mem_trimWhitespace member)]
      rfl
  simp [countedSize, part]

theorem scan_colonless (n : Nat) (size : s.length ≤ n) (free : '\n' ∉ s) (fresh : ':' ∉ s) (rest : Text) :
    (scanLines 256 (s ++ '\n' :: rest)).filterMap countedSize = (scanLines 256 rest).filterMap countedSize := by
  induction n generalizing s with
  | zero =>
    have empty : s = [] := length_eq_zero_iff.mp (by omega)
    rw [empty, scan_line countedSize_trims (by omega) not_mem_nil (by simp)]
    rfl
  | succ n ih =>
    by_cases fits : s.length < 256
    · rw [scan_line countedSize_trims (by omega) free fits,
        countedSize_colonless fun member => fresh (mem_of_mem_cstr member)]
      rfl
    · have piece : countedSize (cstr (s.take 255)) = none :=
        countedSize_colonless fun member => fresh (mem_of_mem_take (mem_of_mem_cstr member))
      have below := ih (s := s.drop 255) (by rw [length_drop]; omega) (fun member => free (mem_of_mem_drop member))
        (fun member => fresh (mem_of_mem_drop member))
      rw [scanLines, fgetsAll_long (by omega) free (by omega), map_cons, filterMap_cons_none piece]
      exact below

def headSize (line : Text) : Option Nat := countedSize (line.take 255)

theorem scan_counted (tight : Tight line) (fresh : ':' ∉ line.drop 255) (rest : Text) :
    (scanLines 256 (line ++ '\n' :: rest)).filterMap countedSize =
      (headSize line).toList ++ (scanLines 256 rest).filterMap countedSize := by
  unfold headSize
  by_cases fits : line.length < 256
  · rw [scan_line countedSize_trims (by omega) tight.newline_free fits, tight.cstr, take_of_length_le (by omega)]
  · have part : Tight (line.take 255) := fun c member => tight c (mem_of_mem_take member)
    have behind := scan_colonless _ le_rfl (fun member => tight.newline_free (mem_of_mem_drop member)) fresh rest
    rw [scanLines, fgetsAll_long (by omega) tight.newline_free (by omega), map_cons, part.cstr,
      filterMap_cons, ← behind]
    cases countedSize (line.take 255) <;> rfl

theorem scan_counted_lines (lines : List Text) (long : ∀ line ∈ lines, Tight line ∧ ':' ∉ line.drop 255) :
    (scanLines 256 (printLines lines)).filterMap countedSize = lines.filterMap headSize := by
  induction lines with
  | nil => rfl
  | cons line lines ih =>
    obtain ⟨tight, fresh⟩ := long line (mem_cons_self ..)
    rw [printLines_cons, scan_counted tight fresh,
      ih fun l member => long l (mem_cons_of_mem _ member), filterMap_cons]
    cases headSize line <;> rfl

theorem length_hex02_int (int : i < 2 ^ 31) : (hex02 i).length ≤ 8 := by
  have digits : (Nat.toDigits 16 i).length ≤ 8 :=
    (Nat.length_toDigits_le_iff (by omega) (by omega)).mpr (int.trans (by decide))
  rw [length_hex02]
  omega

theorem clusterLine_take (i : Nat) (data : Text) (narrow : (hex02 i).length ≤ 254) :
    (clusterLine i data).take 255 = clusterLine i (data.take (254 - (hex02 i).length)) := by
  rw [clusterLine, take_append, take_of_length_le (by omega),
    show 255 - (hex02 i).length = 254 - (hex02 i).length + 1 by omega, take_succ_cons]
  rfl

theorem clusterLine_drop_colonless (digits : ∀ c ∈ data, isxdigit c)
    (narrow : (hex02 i).length ≤ 254) : ':' ∉ (clusterLine i data).drop 255 := by
  have behind : (clusterLine i data).drop 255 = data.drop (254 - (hex02 i).length) := by
    rw [clusterLine, drop_append, drop_eq_nil_of_le (by omega),
      show 255 - (hex02 i).length = 254 - (hex02 i).length + 1 by omega, drop_succ_cons,
      nil_append]
  rw [behind]
  exact fun member => isxdigit_ne (digits _ (mem_of_mem_drop member)) (by decide) rfl

theorem loaded_counted (positive : 0 < (loaded text).totalClusters) {sizes : List Nat}
    (counted : (scanLines 256 text).filterMap countedSize = sizes) :
    (loaded text).totalClusters = sizes.length ∧ sizes.getLast? = some (loaded text).clusterSize := by
  obtain ⟨_, total, last⟩ := loaded_eq positive
  rw [total, countedLines, length_numbered, counted]
  rw [counted] at last
  exact ⟨rfl, last⟩

section Formatted
variable {rand : Nat → Nat → Octet} {volumeName : Text} {rowCount nibbleCount : Nat} {d : TextDisk}

theorem format_counted (rows : 1 ≤ rowCount) (int : rowCount < 2 ^ 31)
    (made : formatDiskFile rand volumeName rowCount nibbleCount = some d) {text : Text}
    (file : d.file = some text) :
    (scanLines 256 text).filterMap countedSize =
      (clusterLines (formatCells rand volumeName rowCount nibbleCount)).filterMap headSize := by
  have printed := some.inj (file.symm.trans (formatDiskFile_some rows made).2.2.2)
  have ruler : headSize ("XX:".toList ++ rulerDigits nibbleCount) = none := by
    have skipped := keptLine_rulerText ((rulerDigits nibbleCount).take 252)
    rw [(rulerText_tight fun c member =>
      rulerDigits_tight _ c (mem_of_mem_take member)).cstr] at skipped
    exact countedSize_of_keptLine_none skipped
  rw [printed, scan_counted_lines, filterMap_cons, ruler]
  intro line member
  rcases mem_cons.mp member with rfl | member
  · refine ⟨rulerText_tight (rulerDigits_tight _), ?_⟩
    exact fun digit =>
      isxdigit_ne (isxdigit_rulerDigits (mem_of_mem_drop digit)) (by decide) rfl
  · rw [formatCells, clusterLines_map_range] at member
    obtain ⟨i, inside, rfl⟩ := mem_map.mp member
    have narrow := length_hex02_int ((mem_range.mp inside).trans int)
    have digits := fun c (digit : c ∈ hexBytes (formatRow rand volumeName rowCount (nibbleCount / 2) i)) =>
      isxdigit_hexBytes digit
    exact ⟨clusterLine_tight i (tight_of_isxdigit digits), clusterLine_drop_colonless digits (by omega)⟩

theorem last_line_fits (rows : 1 ≤ rowCount) (int : rowCount < 2 ^ 31)
    (made : formatDiskFile rand volumeName rowCount nibbleCount = some d) {text : Text}
    (file : d.file = some text) (total : (loaded text).totalClusters = rowCount)
    (size : (loaded text).clusterSize = nibbleCount / 2) :
    (hex02 (rowCount - 1)).length + 1 + nibbleCount ≤ 255 := by
  by_contra long
  have even := (formatDiskFile_some rows made).1
  obtain ⟨more, rfl⟩ : ∃ more, rowCount = more + 1 := ⟨rowCount - 1, by omega⟩
  rw [Nat.add_sub_cancel] at long
  have narrow := length_hex02_int (show more < 2 ^ 31 by omega)
  obtain ⟨count, last⟩ := loaded_counted (by omega) (format_counted rows int made file)
  rw [formatCells, clusterLines_map_range] at count last
  -- what the last line shows to the header
  have shown : headSize (clusterLine more (hexBytes (formatRow rand volumeName (more + 1) (nibbleCount / 2) more))) =
      if (254 - (hex02 more).length) % 2 ≠ 0 then none
      else some ((254 - (hex02 more).length) / 2) := by
    rw [headSize, clusterLine_take more _ (by omega), countedSize_clusterLine, length_take,
      length_hexBytes, length_formatRow, min_eq_left (by omega)]
    exact tight_of_isxdigit fun c member => isxdigit_hexBytes (mem_of_mem_take member)
  by_cases odd : (254 - (hex02 more).length) % 2 ≠ 0
  · rw [if_pos odd] at shown
    have member : clusterLine more (hexBytes (formatRow rand volumeName (more + 1) (nibbleCount / 2) more)) ∈
        (range (more + 1)).map fun i =>
          clusterLine i (hexBytes (formatRow rand volumeName (more + 1) (nibbleCount / 2) i)) :=
      mem_map.mpr ⟨more, mem_range.mpr (Nat.lt_succ_self more), rfl⟩
    have fewer := length_filterMap_lt_length_iff_exists.mpr ⟨_, member, shown⟩
    rw [length_map, length_range] at fewer
    omega
  · rw [if_neg odd] at shown
    rw [range_succ, map_append, filterMap_append, map_singleton,
      filterMap_cons_some shown, filterMap_nil, getLast?_concat, some.injEq] at last
    omega

end Formatted

theorem oldClusters_blank {before after : List Text} (file : d.file = some (printLines (before ++ line :: after)))
    (short : ∀ l ∈ before, '\n' ∉ l ∧ l.length + 1 < 256) (free : '\n' ∉ line)
    (full : line.length = 255) (inside : before.length < d.totalClusters) :
    (oldClusters d)[before.length]? = some [] := by
  have read : ((replacedLines d).map fun line => cutNewline line.1)[before.length]? = some [] := by
    rw [replacedLines_cut file, scanLines_printLines 256 before _ short, scanLines_full free full, List.getElem?_map,
      List.getElem?_take_of_lt inside, List.getElem?_drop,
      List.getElem?_append_right (by simp)]
    simp only [length_map, Nat.add_sub_cancel, List.getElem?_cons_succ, List.getElem?_cons_zero, map_some]
    rfl
  unfold oldClusters
  rw [List.getElem?_append_left (List.getElem?_eq_some_iff.mp read).1, read]

theorem exists_oldClusters_blank {front rest : List Text} (file : d.file = some (printLines (front ++ rest)))
    (fits : ∀ l ∈ front, '\n' ∉ l ∧ l.length ≤ 255) (member : line ∈ front)
    (full : line.length = 255) (inside : front.length ≤ d.totalClusters) :
    ∃ q < d.totalClusters, (oldClusters d)[q]? = some [] := by
  obtain ⟨first, found⟩ : ∃ first, front.find? (fun l => l.length = 255) = some first := by
    rw [← isSome_iff_exists, find?_isSome]
    exact ⟨line, member, decide_eq_true full⟩
  obtain ⟨reached, before, after, rfl, shorter⟩ := find?_eq_some_iff_append.mp found
  rw [append_assoc, cons_append] at file
  rw [length_append, length_cons] at inside
  refine ⟨before.length, by omega, oldClusters_blank file ?_ ?_ (of_decide_eq_true reached) (by omega)⟩
  · intro l early
    have bound := fits l (mem_append_left _ early)
    have different := shorter l early
    simp only [Bool.not_eq_eq_eq_not, Bool.not_true, decide_eq_false_iff_not] at different
    exact ⟨bound.1, by omega⟩
  · exact (fits first (mem_append_right _ (mem_cons_self ..))).1

theorem mem_fgetsLoop {size fuel : Nat} {piece : Text} (member : piece ∈ fgetsLoop size fuel s) :
    piece.length ≤ size - 1 := by
  induction fuel generalizing s with
  | zero => cases member
  | succ fuel ih =>
    rw [fgetsLoop] at member
    cases read : fgets size s with
    | none => rw [read] at member; cases member
    | some result =>
      rw [read] at member
      rcases mem_cons.mp member with rfl | below
      · unfold fgets at read
        split_ifs at read
        rw [← some.inj read]
        exact (length_take_le ..).trans (min_le_left ..)
      · exact ih below

theorem mem_replacedLines {entry : Text × Nat} (member : entry ∈ replacedLines d) : entry.1.length ≤ 255 := by
  unfold replacedLines at member
  split at member
  · cases member
  · have scanned := fst_mem_of_mem_zipIdx (mem_of_mem_drop (mem_of_mem_take member))
    obtain ⟨piece, read, same⟩ := mem_map.mp scanned
    rw [← same]
    exact (takeWhile_sublist _).length_le.trans (mem_fgetsLoop read)

theorem oldClusters_newline_free (member : line ∈ oldClusters d) : '\n' ∉ line := by
  rcases mem_append.mp (show line ∈ _ ++ _ from member) with read | blank
  · obtain ⟨piece, -, rfl⟩ := mem_map.mp read
    exact cutNewline_free _
  · obtain ⟨i, -, rfl⟩ := mem_map.mp blank
    exact (clusterLine_tight i (tight_of_isxdigit (isxdigit_zeros _))).newline_free

theorem mem_oldClusters (member : line ∈ oldClusters d)
    (blank : ∀ i < d.totalClusters, (blankLine d.clusterSize i).length ≤ 255) :
    '\n' ∉ line ∧ line.length < 256 := by
  refine ⟨oldClusters_newline_free member, ?_⟩
  rcases mem_append.mp (show line ∈ _ ++ _ from member) with read | added
  · obtain ⟨entry, found, rfl⟩ := mem_map.mp read
    have bound := mem_replacedLines found
    have cut := length_cutNewline_le entry.1
    omega
  · obtain ⟨i, range, rfl⟩ := mem_map.mp added
    have bounds := mem_range'_1.mp range
    have fits := blank i (by omega)
    omega

theorem update_loses {k q : Nat} (inside : k < d.totalClusters) (other : q ≠ k)
    (blank : (oldClusters d)[q]? = some []) (ruler : 3 + 2 * d.clusterSize ≤ 255)
    (fits : ∀ i < d.totalClusters, (blankLine d.clusterSize i).length ≤ 255)
    (tight : Tight data) (file : (updateClusterLine d k data).file = some text) :
    (loaded text).totalClusters < d.totalClusters := by
  rw [updateClusterLine_inside inside, readDiskHeader_file] at file
  have printed := (some.inj file).symm
  by_cases positive : 0 < (loaded text).totalClusters
  · have lines : ∀ line ∈ rulerLine d.clusterSize ::
        (oldClusters d).set k ((clusterLine k data).take 255), '\n' ∉ line ∧ line.length < 256 := by
      intro line member
      rcases mem_cons.mp member with rfl | member
      · exact ⟨(rulerLine_tight _).newline_free, by rw [length_rulerLine]; omega⟩
      · rcases mem_or_eq_of_mem_set member with old | rfl
        · exact mem_oldClusters old fits
        · exact ⟨fun newline => (clusterLine_tight k tight).newline_free (mem_of_mem_take newline), by simp⟩
    have counted := scan_printLines countedSize_trims (by omega) _ lines
    have skipped : countedSize (cstr (rulerLine d.clusterSize)) = none :=
      countedSize_of_keptLine_none (keptLine_rulerText _)
    rw [← printed] at counted
    simp only [filterMap_cons, skipped] at counted
    have kept : ((oldClusters d).set k ((clusterLine k data).take 255))[q]? = some [] := by
      rw [getElem?_set_ne (symm other), blank]
    have member := mem_of_getElem? kept
    have fewer : (filterMap (fun line => countedSize (cstr line))
        ((oldClusters d).set k ((clusterLine k data).take 255))).length <
        ((oldClusters d).set k ((clusterLine k data).take 255)).length :=
      length_filterMap_lt_length_iff_exists.mpr ⟨[], member, by decide⟩
    rw [length_set, length_oldClusters] at fewer
    rw [(loaded_counted positive counted).1]
    exact fewer
  · omega

section Formatted
variable {rand : Nat → Nat → Octet} {volumeName : Text} {rowCount nibbleCount : Nat} {d : TextDisk}

theorem second_last_line_fits (rows : 2 ≤ rowCount) (last : (hex02 (rowCount - 1)).length + 1 + nibbleCount ≤ 255)
    (made : formatDiskFile rand volumeName rowCount nibbleCount = some d)
    (survives : ∀ k < rowCount, ∃ text, (updateClusterLine d k (replicate nibbleCount '0')).file = some text ∧
        (loaded text).totalClusters = rowCount) :
    (hex02 (rowCount - 2)).length + 1 + nibbleCount ≤ 254 := by
  by_contra long
  obtain ⟨even, size, total, file⟩ := formatDiskFile_some (by omega) made
  have width : ∀ i < rowCount, (hex02 i).length ≤ (hex02 (rowCount - 1)).length :=
    fun i inside => length_hex02_mono (by omega)
  have wide := width (rowCount - 2) (by omega)
  have two := two_le_length_hex02 (rowCount - 1)
  rw [formatCells, clusterLines_map_range, ← Nat.sub_add_cancel (show 1 ≤ rowCount by omega),
    range_succ, map_append, ← cons_append, Nat.sub_add_cancel (by omega)] at file
  obtain ⟨q, _, blank⟩ : ∃ q < d.totalClusters, (oldClusters d)[q]? = some [] := by
    refine exists_oldClusters_blank file ?_ (mem_cons_of_mem _ (mem_map_of_mem
      (mem_range.mpr (show rowCount - 2 < rowCount - 1 by omega)))) ?_ ?_
    · intro l member
      rcases mem_cons.mp member with rfl | member
      · exact ⟨(rulerText_tight (rulerDigits_tight _)).newline_free, by simp [rulerDigits]; omega⟩
      · obtain ⟨i, inside, rfl⟩ := mem_map.mp member
        have bound := width i (by have := mem_range.mp inside; omega)
        have tight := tight_of_isxdigit fun c
          (digit : c ∈ hexBytes (formatRow rand volumeName rowCount (nibbleCount / 2) i)) =>
            isxdigit_hexBytes digit
        refine ⟨(clusterLine_tight i tight).newline_free, ?_⟩
        rw [length_clusterLine, length_hexBytes, length_formatRow]
        omega
    · rw [length_clusterLine, length_hexBytes, length_formatRow]
      omega
    · simp only [length_cons, length_map, length_range]
      omega
  -- a write to another cluster keeps the blank line
  obtain ⟨k, inside, other⟩ : ∃ k < rowCount, q ≠ k :=
    if first : q = 0 then ⟨1, by omega, by omega⟩ else ⟨0, by omega, first⟩
  obtain ⟨text, written, kept⟩ := survives k inside
  have lost := update_loses (total ▸ inside) other blank (by omega) (fun i inside => by
      have bound := width i (by omega)
      rw [blankLine, length_clusterLine, length_replicate]
      omega)
    (tight_of_isxdigit (isxdigit_zeros _)) written
  omega

/-- The geometry of a formatted disk survives exactly when its lines fit the buffers of 256 bytes. -/
theorem format_survives_iff (rand : Nat → Nat → Octet) (volumeName : Text) (rowCount nibbleCount : Nat)
    (rows : 1 ≤ rowCount) (int : rowCount < 2 ^ 31) (d : TextDisk)
    (made : formatDiskFile rand volumeName rowCount nibbleCount = some d) :
    Survives d rowCount nibbleCount (formatRow rand volumeName rowCount (nibbleCount / 2)) ↔
      LinesFit rowCount nibbleCount := by
  constructor
  · intro survives
    obtain ⟨text, file, total, size, _⟩ := survives [] (by simp)
    have last := last_line_fits rows int made file total size
    refine ⟨last, fun several => second_last_line_fits several last made fun k inside => ?_⟩
    have write : InRange rowCount nibbleCount (k, replicate nibbleCount '0') :=
      ⟨inside, length_replicate, isxdigit_zeros _⟩
    obtain ⟨text, written, kept, _⟩ := survives [_] (by simpa using write)
    exact ⟨text, written, kept⟩
  · exact fun fit => survives_of_linesFit rows fit made

end Formatted

theorem format_survives_small :
    ∃ d, formatDiskFile (fun _ _ => 0x5A) "vol".toList 2 8 = some d ∧
      (Survives d 2 8 (formatRow (fun _ _ => 0x5A) "vol".toList 2 4) ↔ LinesFit 2 8) :=
  ⟨_, rfl, format_survives_iff (fun _ _ => 0x5A) "vol".toList 2 8 (by decide) (by decide) _ rfl⟩

/-- One row of 127 bytes: the header reads the first 252 of its 254 digits. -/
theorem format_geometry_lost :
    ∃ d, formatDiskFile (fun _ _ => 0) "vol".toList 1 254 = some d ∧
      ¬ Survives d 1 254 (formatRow (fun _ _ => 0) "vol".toList 1 127) := by
  refine ⟨_, rfl, fun survives => ?_⟩
  obtain ⟨text, file, _, size, _⟩ := survives [] (by simp)
  have shown : ((formatDiskFile (fun _ _ => 0) "vol".toList 1 254).bind (·.file)).map
      (fun text => (loaded text).clusterSize) = some 126 := by decide +kernel
  rw [show (formatDiskFile (fun _ _ => 0) "vol".toList 1 254).bind (·.file) = some text from file,
    map_some, size] at shown
  exact absurd shown (by decide)

end Flinstone.Disk
