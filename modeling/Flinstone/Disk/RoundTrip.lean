import Flinstone.Disk.Scan

/-! # A cluster that is written reads back -/

namespace Flinstone.Disk
open Flinstone.Lib List

def clusterLines (cells : List Text) : List Text := cells.mapIdx clusterLine

structure Printed (d : TextDisk) (ruler : Text) (cells : List Text) : Prop where
  file : d.file = some (printLines (("XX:".toList ++ ruler) :: clusterLines cells))
  oneLine : '\n' ∉ ruler
  rulerFits : ("XX:".toList ++ ruler).length ≤ 255
  count : cells.length = d.totalClusters
  cell : ∀ cell ∈ cells, cell.length = 2 * d.clusterSize ∧ ∀ c ∈ cell, isxdigit c
  fits : ∀ line ∈ clusterLines cells, line.length ≤ 255

structure Layout (d : TextDisk) (ruler : Text) (cells : List Text) : Prop where
  file : d.file = some (printLines (("XX:".toList ++ ruler) :: clusterLines cells))
  oneLine : '\n' ∉ ruler
  rulerShort : ("XX:".toList ++ ruler).length + 1 ≤ 255
  count : cells.length = d.totalClusters
  cell : ∀ cell ∈ cells, cell.length = 2 * d.clusterSize ∧ ∀ c ∈ cell, isxdigit c
  short : ∀ line ∈ clusterLines cells, line.length + 1 ≤ 255

def WellFormed (d : TextDisk) : Prop := ∃ ruler cells, Layout d ruler cells

theorem clusterLines_set (cells : List Text) (k : Nat) (data : Text) :
    clusterLines (cells.set k data) = (clusterLines cells).set k (clusterLine k data) := by
  apply ext_getElem?
  intro i
  simp only [clusterLines, getElem?_mapIdx, getElem?_set, length_mapIdx]
  by_cases same : k = i
  · subst same
    by_cases inside : k < cells.length <;> simp
  · simp [same]

variable {cells lines : List Text} {line first text ruler : Text} {d : TextDisk} {k size : Nat}

theorem mem_clusterLines (member : line ∈ clusterLines cells) : ∃ i, ∃ cell ∈ cells, line = clusterLine i cell := by
  obtain ⟨i, inside, rfl⟩ := mem_mapIdx.mp member
  exact ⟨i, cells[i], getElem_mem inside, rfl⟩

theorem physicalLines_clusterLines (free : '\n' ∉ first) (tight : ∀ cell ∈ cells, '\n' ∉ cell) :
    physicalLines (printLines (first :: clusterLines cells)) =
      (first ++ ['\n']) :: (clusterLines cells).map (· ++ ['\n']) := by
  rw [physicalLines_printLines, map_cons]
  intro line member
  rcases mem_cons.mp member with rfl | member
  · exact free
  · obtain ⟨i, cell, inside, rfl⟩ := mem_clusterLines member
    have digits := (hex02_tight i).newline_free
    simpa [clusterLine, digits] using tight cell inside

theorem scanLines_printLines (size : Nat) (lines more : List Text)
    (short : ∀ line ∈ lines, '\n' ∉ line ∧ line.length + 1 < size) :
    scanLines size (printLines (lines ++ more)) =
      lines.map (fun line => cstr (line ++ ['\n'])) ++ scanLines size (printLines more) := by
  induction lines with
  | nil => rfl
  | cons line lines ih =>
    obtain ⟨free, fits⟩ := short line (mem_cons_self ..)
    have below := ih fun l member => short l (mem_cons_of_mem _ member)
    rw [scanLines] at below
    rw [cons_append, printLines_cons, scanLines, fgetsAll_line free fits, map_cons, below, map_cons, cons_append]

theorem replacedLines_cut (file : d.file = some text) : (replacedLines d).map (fun line => cutNewline line.1) =
      (((scanLines 256 text).drop 1).take d.totalClusters).map cutNewline := by
  show (replacedLines d).map (cutNewline ∘ Prod.fst) = _
  rw [← map_map, replacedLines, file, map_take, map_drop, zipIdx_map_fst]

theorem oldClusters_of_read (read : (replacedLines d).map (fun line => cutNewline line.1) = lines)
    (count : lines.length = d.totalClusters) : oldClusters d = lines := by
  simp only [oldClusters, read, count, Nat.sub_self, range'_zero, map_nil, append_nil]

theorem cutNewline_line (free : '\n' ∉ line) : cutNewline (line ++ ['\n']) = line := takeWhile_line free []

theorem cutNewline_printed (free : '\n' ∉ line) (clean : '\x00' ∉ line) :
    cutNewline (cstr (line ++ ['\n'])) = line := by
  have ended : '\x00' ∉ line ++ ['\n'] := by simp [clean]
  rw [cstr_eq_self ended, cutNewline_line free]

theorem scanLines_full (free : '\n' ∉ line) (full : line.length = 255) (more : List Text) :
    scanLines 256 (printLines (line :: more)) = cstr line :: ['\n'] :: scanLines 256 (printLines more) := by
  have first := fgetsAll_long (by omega) free (by omega : 256 ≤ line.length + 1) (printLines more)
  have second := fgetsAll_line (not_mem_nil : '\n' ∉ []) (by decide : 0 + 1 < 256) (printLines more)
  rw [take_of_length_le (by omega), drop_of_length_le (by omega), second] at first
  rw [printLines_cons, scanLines, first, map_cons, map_cons]
  rfl

theorem scanLines_last (tight : Tight line) (fits : line.length ≤ 255) :
    ∃ piece more, scanLines 256 (printLines [line]) = piece :: more ∧ cutNewline piece = line := by
  have clean : '\x00' ∉ line := fun nul => (tight _ nul).2 rfl
  by_cases short : line.length + 1 < 256
  · have read := scanLines_printLines 256 [line] [] (by simpa using ⟨tight.newline_free, short⟩)
    exact ⟨_, _, read, cutNewline_printed tight.newline_free clean⟩
  · refine ⟨_, _, scanLines_full tight.newline_free (by omega) [], ?_⟩
    rw [tight.cstr]
    exact takeWhile_plain tight.newline_free

theorem oldClusters_printed {last : Text} (file : d.file = some (printLines (first :: lines ++ [last])))
    (short : ∀ line ∈ first :: lines, '\n' ∉ line ∧ line.length + 1 ≤ 255)
    (clean : ∀ line ∈ lines, '\x00' ∉ line) (tight : Tight last) (fits : last.length ≤ 255)
    (count : lines.length + 1 = d.totalClusters) : oldClusters d = lines ++ [last] := by
  apply oldClusters_of_read _ (by simpa using count)
  obtain ⟨piece, more, read, cut⟩ := scanLines_last tight fits
  have scanned := scanLines_printLines 256 (first :: lines) [last] fun line member =>
    ⟨(short line member).1, by have := (short line member).2; omega⟩
  rw [replacedLines_cut file, scanned, read, map_cons, cons_append, drop_succ_cons,
    drop_zero, ← count, take_append, length_map, Nat.add_sub_cancel_left,
    take_of_length_le (by simp), take_succ_cons, take_zero, map_append,
    map_map, map_singleton, cut]
  congr 1
  refine (map_congr_left ?_).trans (map_id _)
  intro line member
  exact cutNewline_printed (short line (mem_cons_of_mem _ member)).1 (clean line member)

theorem updateClusterLine_inside (inside : k < d.totalClusters) (hexData : Text) : updateClusterLine d k hexData =
      readDiskHeader (reprint d ((oldClusters d).set k ((clusterLine k hexData).take 255))) := by
  rw [updateClusterLine, if_neg (by omega), Int.toNat_natCast]

/-! ## What the scanners find on a well-formed disk -/

namespace Printed
variable {d : TextDisk} {ruler : Text} {cells : List Text}

theorem tight (printed : Printed d ruler cells) {cell : Text} (member : cell ∈ cells) : Tight cell :=
  tight_of_isxdigit (printed.cell cell member).2

theorem line_tight (printed : Printed d ruler cells) {line : Text}
    (member : line ∈ clusterLines cells) : Tight line := by
  obtain ⟨i, cell, inside, rfl⟩ := mem_clusterLines member
  exact clusterLine_tight i (printed.tight inside)

theorem lines_fit (printed : Printed d ruler cells) :
    ∀ line ∈ ("XX:".toList ++ ruler) :: clusterLines cells, '\n' ∉ line ∧ line.length ≤ 255 := by
  intro line member
  rcases mem_cons.mp member with rfl | member
  · exact ⟨by simp [printed.oneLine], printed.rulerFits⟩
  · exact ⟨(printed.line_tight member).newline_free, printed.fits line member⟩

variable {size : Nat} {text : Text}

theorem scan {α : Type} {f : Text → Option α} (printed : Printed d ruler cells) (trims : Trims f)
    (skips : ∀ line, keptLine line = none → f line = none) (large : 256 ≤ size)
    (file : d.file = some text) :
    (scanLines size text).filterMap f = (clusterLines cells).filterMap f := by
  have same : text = printLines (("XX:".toList ++ ruler) :: clusterLines cells) :=
    Option.some.inj (file.symm.trans printed.file)
  have fit : ∀ line ∈ ("XX:".toList ++ ruler) :: clusterLines cells,
      '\n' ∉ line ∧ line.length < size := by
    intro line member
    have short := printed.lines_fit line member
    exact ⟨short.1, by omega⟩
  rw [same, scan_printLines trims (by omega) _ fit, filterMap_cons, skips _ (keptLine_rulerText ruler)]
  apply filterMap_congr
  intro line member
  rw [(printed.line_tight member).cstr]

theorem kept (printed : Printed d ruler cells) (large : 256 ≤ size) (file : d.file = some text) :
    (scanLines size text).filterMap keptLine = clusterLines cells := by
  rw [printed.scan keptLine_trims (fun _ skipped => skipped) large file]
  have all : ∀ line ∈ clusterLines cells, keptLine line = some (id line) := by
    intro line member
    obtain ⟨i, cell, inside, rfl⟩ := mem_clusterLines member
    exact keptLine_clusterLine i (printed.tight inside)
  rw [filterMap_eq_map_iff_forall_eq_some.mpr all, map_id]

theorem counted (printed : Printed d ruler cells) (file : d.file = some text) :
    (scanLines 256 text).filterMap countedSize = replicate d.totalClusters d.clusterSize := by
  rw [printed.scan countedSize_trims (fun _ => countedSize_of_keptLine_none) le_rfl file]
  have all : ∀ line ∈ clusterLines cells, countedSize line = some d.clusterSize := by
    intro line member
    obtain ⟨i, cell, inside, rfl⟩ := mem_clusterLines member
    have len := (printed.cell cell inside).1
    rw [countedSize_clusterLine i (printed.tight inside), if_neg (by omega)]
    congr 1
    omega
  rw [filterMap_eq_map_iff_forall_eq_some.mpr all, map_const', clusterLines, length_mapIdx, printed.count]

end Printed

theorem rulerLine_fits {limit : Nat} (occupied : 0 < cells.length)
    (cell : ∀ cell ∈ cells, cell.length = 2 * size) (fits : ∀ line ∈ clusterLines cells, line.length ≤ limit) :
    (rulerLine size).length ≤ limit := by
  have first := fits (clusterLine 0 cells[0]) (mem_mapIdx.mpr ⟨0, occupied, rfl⟩)
  have two := two_le_length_hex02 0
  rw [length_clusterLine, cell _ (getElem_mem occupied)] at first
  rw [length_rulerLine]
  omega

theorem printed_reprint (occupied : 0 < cells.length) (count : cells.length = d.totalClusters)
    (cell : ∀ cell ∈ cells, cell.length = 2 * d.clusterSize ∧ ∀ c ∈ cell, isxdigit c)
    (fits : ∀ line ∈ clusterLines cells, line.length ≤ 255) :
    Printed (reprint d (clusterLines cells)) (rulerDigits (d.clusterSize * 2)) cells where
  file := rfl
  oneLine := (rulerDigits_tight _).newline_free
  rulerFits := rulerLine_fits occupied (fun c member => (cell c member).1) fits
  count := count
  cell := cell
  fits := fits

theorem readDiskHeader_eq (file : d.file = some text)
    {sizes : List Nat} (counted : (scanLines 256 text).filterMap countedSize = sizes) :
    readDiskHeader d = match sizes.getLast? with
      | none => d
      | some size => { d with totalClusters := sizes.length, clusterSize := size } := by
  have count : (countedLines text).length = sizes.length := by
    rw [countedLines, length_numbered, counted]
  have last : (countedLines text).getLast?.map Prod.fst = sizes.getLast? := by
    rw [← counted, ← map_fst_numbered, getLast?_map]
    rfl
  cases found : (countedLines text).getLast? with
  | none =>
    simp only [readDiskHeader, file, found, ← last, Option.map_none]
  | some entry =>
    simp only [readDiskHeader, file, found, ← last, ← count, Option.map_some]

theorem Printed.header (printed : Printed d ruler cells) : readDiskHeader d = d := by
  rw [readDiskHeader_eq printed.file (printed.counted printed.file), getLast?_replicate, length_replicate]
  split_ifs <;> rfl

theorem diskAsmReadCluster_inside (file : d.file = some text) (kept : (scanLines 512 text).filterMap keptLine = lines)
    (inside : k < d.totalClusters) :
    diskAsmReadCluster d k = ((lines[k]?).bind hexPart).bind (loadBytes d.clusterSize) := by
  have line : (keptLines 512 text)[k]?.map Prod.fst = lines[k]? := by
    rw [keptLines, getElem?_numbered, kept]
  rw [diskAsmReadCluster, if_neg (by omega), file, ← line, Int.toNat_natCast]
  dsimp only
  cases (keptLines 512 text)[k]? <;> rfl

theorem showDiskDetailForCluster_inside (file : d.file = some text)
    (kept : (scanLines 256 text).filterMap keptLine = lines) (k : Nat) :
    showDiskDetailForCluster d k = ((lines[k]?).bind hexPart).map (detailOf d.clusterSize) := by
  have line : (keptLines 256 text)[k]?.map Prod.fst = lines[k]? := by
    rw [keptLines, getElem?_numbered, kept]
  rw [showDiskDetailForCluster, file, ← line]
  dsimp only
  rw [if_neg (by omega), Int.toNat_natCast]
  cases (keptLines 256 text)[k]? <;> rfl

theorem loadBytes_exact (small : size ≤ 512) {hexData : Text} (len : hexData.length = 2 * size) :
    loadBytes size hexData = some (decodeHex size hexData) := by
  have half : hexData.length / 2 = size := by omega
  have count : min (size * 2) hexData.length / 2 = size := by omega
  rw [loadBytes, if_neg (by omega), count, half, Nat.sub_self, replicate_zero, append_nil]

namespace Printed
variable {d : TextDisk} {ruler : Text} {cells : List Text}

theorem line_fits (printed : Printed d ruler cells) {k : Nat} (inside : k < cells.length) :
    2 * d.clusterSize + (hex02 k).length + 1 ≤ 255 := by
  have len := (printed.cell cells[k] (getElem_mem inside)).1
  have fits := printed.fits (clusterLine k cells[k]) (mem_mapIdx.mpr ⟨k, inside, rfl⟩)
  rw [length_clusterLine, len] at fits
  omega

theorem read (printed : Printed d ruler cells) {k : Nat} (inside : k < cells.length) :
    diskAsmReadCluster d k = some (decodeHex d.clusterSize cells[k]) := by
  have small := printed.line_fits inside
  have member : cells[k] ∈ cells := getElem_mem inside
  have line : (clusterLines cells)[k]? = some (clusterLine k cells[k]) := by
    simp [clusterLines, inside]
  rw [diskAsmReadCluster_inside printed.file (printed.kept (by omega) printed.file)
      (by rw [← printed.count]; exact inside), line, Option.bind_some,
    hexPart_clusterLine k (printed.tight member), Option.bind_some,
    loadBytes_exact (by omega) (printed.cell _ member).1]

theorem oldClusters (printed : Printed d ruler cells) (occupied : 0 < cells.length)
    (rulerShort : ("XX:".toList ++ ruler).length + 1 ≤ 255)
    (short : ∀ line ∈ (clusterLines cells).dropLast, line.length + 1 ≤ 255) :
    oldClusters d = clusterLines cells := by
  have lines : clusterLines cells ≠ [] := by
    rw [clusterLines, ne_eq, mapIdx_eq_nil_iff]
    exact length_pos_iff.mp occupied
  have split := dropLast_append_getLast lines
  have tight : ∀ line ∈ (clusterLines cells).dropLast, Tight line :=
    fun line member => printed.line_tight (dropLast_subset _ member)
  have file : d.file = some (printLines (("XX:".toList ++ ruler) :: (clusterLines cells).dropLast ++
      [(clusterLines cells).getLast lines])) := by
    rw [printed.file, cons_append, split]
  rw [← split]
  apply oldClusters_printed file
  · intro line member
    rcases mem_cons.mp member with rfl | member
    · exact ⟨(printed.lines_fit _ (mem_cons_self ..)).1, rulerShort⟩
    · exact ⟨(tight line member).newline_free, short line member⟩
  · exact fun line member nul => (tight line member _ nul).2 rfl
  · exact printed.line_tight (getLast_mem lines)
  · exact printed.fits _ (getLast_mem lines)
  · rw [length_dropLast, clusterLines, length_mapIdx, ← printed.count]
    omega

theorem update (printed : Printed d ruler cells) {k : Nat} (inside : k < cells.length) {data : Text}
    (len : data.length = 2 * d.clusterSize) (digits : ∀ c ∈ data, isxdigit c)
    (old : (Disk.oldClusters d).set k (clusterLine k data) = (clusterLines cells).set k (clusterLine k data)) :
    let d' := updateClusterLine d k data
    d'.clusterSize = d.clusterSize ∧ d'.totalClusters = d.totalClusters ∧
      Printed d' (rulerDigits (d.clusterSize * 2)) (cells.set k data) := by
  have small := printed.line_fits inside
  have whole : (clusterLine k data).take 255 = clusterLine k data :=
    take_of_length_le (by rw [length_clusterLine]; omega)
  have reprinted : Printed (reprint d (clusterLines (cells.set k data)))
      (rulerDigits (d.clusterSize * 2)) (cells.set k data) := by
    apply printed_reprint
    · rw [length_set]
      exact Nat.zero_lt_of_lt inside
    · rw [length_set, printed.count]
    · intro cell member
      rcases mem_or_eq_of_mem_set member with old | rfl
      · exact printed.cell cell old
      · exact ⟨len, digits⟩
    · intro line member
      rw [clusterLines_set] at member
      rcases mem_or_eq_of_mem_set member with old | rfl
      · exact printed.fits line old
      · rw [length_clusterLine]
        omega
  rw [updateClusterLine_inside (by rw [← printed.count]; exact inside), whole, old,
    ← clusterLines_set, reprinted.header]
  exact ⟨rfl, rfl, reprinted⟩

end Printed

namespace Layout
variable {d : TextDisk} {ruler : Text} {cells : List Text}

theorem printed (layout : Layout d ruler cells) : Printed d ruler cells where
  file := layout.file
  oneLine := layout.oneLine
  rulerFits := Nat.le_of_succ_le layout.rulerShort
  count := layout.count
  cell := layout.cell
  fits line member := Nat.le_of_succ_le (layout.short line member)

theorem oldClusters (layout : Layout d ruler cells) (occupied : 0 < cells.length) :
    oldClusters d = clusterLines cells :=
  layout.printed.oldClusters occupied layout.rulerShort fun line member =>
    layout.short line (dropLast_subset _ member)

theorem update (layout : Layout d ruler cells) {k : Nat} (inside : k < cells.length) {data : Text}
    (len : data.length = 2 * d.clusterSize) (digits : ∀ c ∈ data, isxdigit c) :
    let d' := updateClusterLine d k data
    d'.clusterSize = d.clusterSize ∧ d'.totalClusters = d.totalClusters ∧
      Layout d' (rulerDigits (d.clusterSize * 2)) (cells.set k data) := by
  obtain ⟨size, total, after⟩ := layout.printed.update inside len digits (by rw [layout.oldClusters (by omega)])
  have line : (clusterLine k cells[k]).length + 1 ≤ 255 := layout.short _ (mem_mapIdx.mpr ⟨k, inside, rfl⟩)
  rw [length_clusterLine, (layout.cell _ (getElem_mem inside)).1] at line
  refine ⟨size, total, after.file, after.oneLine, ?_, after.count, after.cell, ?_⟩
  · show (rulerLine d.clusterSize).length + 1 ≤ 255
    rw [length_rulerLine]
    have two := two_le_length_hex02 k
    omega
  · intro l member
    rw [clusterLines_set] at member
    rcases mem_or_eq_of_mem_set member with old | rfl
    · exact layout.short l old
    · rw [length_clusterLine, len]
      exact line

end Layout

theorem Layout.writeCluster (layout : Layout d ruler cells)
    (inside : k < d.totalClusters) (buf : List Octet) (enough : d.clusterSize ≤ buf.length) :
    ∃ d', diskAsmWriteCluster d k buf = (0, d') ∧ WellFormed d' ∧
      d'.totalClusters = d.totalClusters ∧ d'.clusterSize = d.clusterSize ∧
      diskAsmReadCluster d' k = some (buf.take d.clusterSize) ∧
      ∀ j : Int, j ≠ k → diskAsmReadCluster d' j = diskAsmReadCluster d j := by
  have cell : k < cells.length := by rw [layout.count]; exact inside
  have full : (buf.take d.clusterSize).length = d.clusterSize := length_take_of_le enough
  have len : (hexBytes (buf.take d.clusterSize)).length = 2 * d.clusterSize := by rw [length_hexBytes, full]
  obtain ⟨size, total, after⟩ := layout.update cell len fun _ member => isxdigit_hexBytes member
  refine ⟨updateClusterLine d k (hexBytes (buf.take d.clusterSize)), ?_, ⟨_, _, after⟩, total, size, ?_, ?_⟩
  · rw [diskAsmWriteCluster, if_neg (by omega)]
  · have decoded := decodeHex_hexBytes (buf.take d.clusterSize)
    rw [full] at decoded
    rw [after.printed.read (by rw [length_set]; exact cell), size, getElem_set_self, decoded]
  · intro j other
    by_cases range : j < 0 ∨ j ≥ d.totalClusters
    · rw [diskAsmReadCluster, diskAsmReadCluster, total, if_pos range, if_pos range]
    · obtain ⟨j, rfl⟩ : ∃ n : Nat, j = n := ⟨j.toNat, by omega⟩
      have there : j < cells.length := by rw [layout.count]; omega
      rw [after.printed.read (by rw [length_set]; exact there), layout.printed.read there, size,
        getElem_set_ne (by omega)]

/-- The cluster reads back as the buffer and every other one as before. -/
theorem writeCluster_readBack (d : TextDisk) (wellFormed : WellFormed d) (k : Nat)
    (inside : k < d.totalClusters) (buf : List Octet) (full : buf.length = d.clusterSize) :
    ∃ d', diskAsmWriteCluster d k buf = (0, d') ∧ WellFormed d' ∧
      d'.totalClusters = d.totalClusters ∧ d'.clusterSize = d.clusterSize ∧
      diskAsmReadCluster d' k = some buf ∧
      ∀ j : Int, j ≠ k → diskAsmReadCluster d' j = diskAsmReadCluster d j := by
  obtain ⟨ruler, cells, layout⟩ := wellFormed
  obtain ⟨d', written, after, total, size, read, others⟩ := layout.writeCluster inside buf full.ge
  rw [← full, take_length] at read
  exact ⟨d', written, after, total, size, read, others⟩

def smallDisk : TextDisk where
  file := some "XX:01\n00:AB\n01:cd\n".toList
  clusterSize := 1
  totalClusters := 2

theorem smallDisk_wellFormed : WellFormed smallDisk := by
  refine ⟨"01".toList, ["AB".toList, "cd".toList], by decide, by decide, by decide, by decide,
    ?_, by decide +kernel⟩
  intro cell member
  simp only [mem_cons, not_mem_nil, or_false] at member
  rcases member with rfl | rfl
  · exact ⟨by decide, all_eq_true.mp (by decide)⟩
  · exact ⟨by decide, all_eq_true.mp (by decide)⟩

theorem writeCluster_readBack_small : ∃ d', diskAsmWriteCluster smallDisk 1 [0x5e#8] = (0, d') ∧ WellFormed d' ∧
      d'.totalClusters = 2 ∧ d'.clusterSize = 1 ∧ diskAsmReadCluster d' 1 = some [0x5e#8] ∧
      ∀ j : Int, j ≠ 1 → diskAsmReadCluster d' j = diskAsmReadCluster smallDisk j :=
  writeCluster_readBack smallDisk smallDisk_wellFormed 1 (by decide) [0x5e#8] rfl

end Flinstone.Disk
