import Flinstone.Disk.RoundTrip

/-! # Which line is cluster `k` -/

namespace Flinstone.Disk
open Flinstone.Lib List

def loaded (text : Text) : TextDisk := readDiskHeader { file := some text, clusterSize := 0, totalClusters := 0 }

def SameLine (text : Text) (k : Nat) : Prop :=
  ∃ n, (countedLines text)[k]?.map Prod.snd = some n ∧
    (keptLines 512 text)[k]?.map Prod.snd = some n ∧
    (keptLines 256 text)[k]?.map Prod.snd = some n ∧
    (replacedLines (loaded text))[k]?.map Prod.snd = some n

def UpdatesOnly (d : TextDisk) (k : Nat) : Prop :=
  ∀ data : Text, data.length = 2 * d.clusterSize → (∀ c ∈ data, isxdigit c) →
    diskAsmReadCluster (updateClusterLine d k data) k = some (decodeHex d.clusterSize data) ∧
    (showDiskDetailForCluster (updateClusterLine d k data) k).map ClusterDetail.hexData = some data ∧
    ∀ j : Nat, j < d.totalClusters → j ≠ k →
      diskAsmReadCluster (updateClusterLine d k data) j = diskAsmReadCluster d j ∧
      showDiskDetailForCluster (updateClusterLine d k data) j = showDiskDetailForCluster d j

def ShortLines (text : Text) : Prop := ∀ line ∈ physicalLines text, line.length ≤ 255

/-- A first line that is no cluster, and directly behind it all the lines that `read_disk_header` counts. -/
structure Block (text first : Text) (body rest : List Text) : Prop where
  lines : (physicalLines text).map cstr = first :: (body ++ rest)
  skipped : keptLine first = none
  counted : ∀ line ∈ body, (countedSize line).isSome
  after : ∀ line ∈ rest, countedSize line = none

def Contiguous (text : Text) : Prop := ∃ first body rest, Block text first body rest

namespace ShortLines
variable {text : Text}

theorem scan (short : ShortLines text) {size : Nat} (large : 256 ≤ size) :
    scanLines size text = (physicalLines text).map cstr := by
  rw [scanLines, fgetsAll_eq_physicalLines text fun line member => by
    have := short line member
    omega]

end ShortLines

variable {line text : Text} {α : Type} {f : Text → Option α} {lines : List Text} {k : Nat} {d : TextDisk}

theorem countedSize_isSome_kept (counted : (countedSize line).isSome) : (keptLine line).isSome := by
  cases kept : keptLine line with
  | none => rw [countedSize_of_keptLine_none kept] at counted; cases counted
  | some trim => rfl

theorem loaded_eq (positive : 0 < (loaded text).totalClusters) :
    (loaded text).file = some text ∧ (loaded text).totalClusters = (countedLines text).length ∧
      ((scanLines 256 text).filterMap countedSize).getLast? = some (loaded text).clusterSize := by
  rw [← map_fst_numbered, getLast?_map]
  unfold loaded readDiskHeader at positive ⊢
  dsimp only at positive ⊢
  cases found : (countedLines text).getLast? with
  | none => rw [found] at positive; simp at positive
  | some entry => exact ⟨rfl, rfl, congrArg (Option.map Prod.fst) found⟩

/-! ## When the numbers agree -/

theorem getElem?_numberedFrom_all (accepted : ∀ line ∈ lines, (f line).isSome) (start : Nat) (inside : k < lines.length)
    (more : List (α × Nat)) :
    (numberedFrom f start lines ++ more)[k]?.map Prod.snd = some (start + k) := by
  have numbers := numberedFrom_all accepted start
  have len : (numberedFrom f start lines).length = lines.length := by
    rw [← length_map Prod.snd, numbers, length_range']
  rw [getElem?_append_left (by omega), ← getElem?_map, numbers, getElem?_range' inside, one_mul]

theorem getElem?_filterMap_all (accepted : ∀ line ∈ lines, (f line).isSome) (inside : k < lines.length)
    (more : List α) : (lines.filterMap f ++ more)[k]? = f lines[k] := by
  induction lines generalizing k with
  | nil => simp at inside
  | cons line lines ih =>
    obtain ⟨value, found⟩ := Option.isSome_iff_exists.mp (accepted line (mem_cons_self ..))
    rw [filterMap_cons_some found]
    cases k with
    | zero => simp [found]
    | succ k =>
      have below := fun l member => accepted l (mem_cons_of_mem _ member)
      simpa using ih below (by simpa using inside)

theorem length_filterMap_all
    (accepted : ∀ line ∈ lines, (f line).isSome) : (lines.filterMap f).length = lines.length := by
  rw [length_filterMap_eq_countP]
  exact countP_eq_length.mpr accepted

namespace Block
variable {text first : Text} {body rest : List Text}

theorem kept (block : Block text first body rest) : ∀ line ∈ body, (keptLine line).isSome :=
  fun line member => countedSize_isSome_kept (block.counted line member)

theorem countedLines (block : Block text first body rest) (short : ShortLines text) :
    countedLines text = numberedFrom countedSize 1 body := by
  have uncounted := countedSize_of_keptLine_none block.skipped
  rw [Disk.countedLines, short.scan le_rfl, block.lines, numbered, numberedFrom_cons, uncounted,
    numberedFrom_append, numberedFrom_none block.after, append_nil]
  rfl

theorem keptLines (block : Block text first body rest) (short : ShortLines text) {size : Nat} (large : 256 ≤ size) :
    keptLines size text = numberedFrom keptLine 1 body ++ numberedFrom keptLine (1 + body.length) rest := by
  rw [Disk.keptLines, short.scan large, block.lines, numbered, numberedFrom_cons, block.skipped, numberedFrom_append]
  rfl

theorem total (block : Block text first body rest) (short : ShortLines text)
    (positive : 0 < (loaded text).totalClusters) : (loaded text).totalClusters = body.length := by
  rw [(loaded_eq positive).2.1, block.countedLines short, ← length_map Prod.snd,
    numberedFrom_all block.counted, length_range']

theorem replacedLines (block : Block text first body rest) (short : ShortLines text)
    (positive : 0 < (loaded text).totalClusters) :
    replacedLines (loaded text) = body.zipIdx 1 := by
  have all : ((body ++ rest).zipIdx 1).take body.length = body.zipIdx 1 := by
    rw [zipIdx_append, take_left' length_zipIdx]
  simp only [Disk.replacedLines, (loaded_eq positive).1, short.scan le_rfl, block.lines,
    zipIdx_cons, drop_succ_cons, drop_zero, block.total short positive, all]

theorem sameLine (block : Block text first body rest) (short : ShortLines text) {k : Nat}
    (inside : k < (loaded text).totalClusters) : SameLine text k := by
  have positive : 0 < (loaded text).totalClusters := by omega
  have there : k < body.length := by rw [← block.total short positive]; exact inside
  refine ⟨1 + k, ?_, ?_, ?_, ?_⟩
  · rw [block.countedLines short, ← append_nil (numberedFrom countedSize 1 body)]
    exact getElem?_numberedFrom_all block.counted 1 there []
  · rw [block.keptLines short (by omega)]
    exact getElem?_numberedFrom_all block.kept 1 there _
  · rw [block.keptLines short le_rfl]
    exact getElem?_numberedFrom_all block.kept 1 there _
  · rw [block.replacedLines short positive, getElem?_zipIdx, getElem?_eq_getElem there]
    rfl

end Block

theorem replacedLines_number (file : d.file = some text) {n : Nat}
    (inside : k < d.totalClusters) (found : (replacedLines d)[k]?.map Prod.snd = some n) :
    n = k + 1 ∧ k + 1 < (scanLines 256 text).length := by
  simp only [replacedLines, file, List.getElem?_take_of_lt inside, List.getElem?_drop,
    List.getElem?_zipIdx, Option.map_map, Option.map_eq_some_iff] at found
  obtain ⟨line, there, rfl⟩ := found
  have bound := (List.getElem?_eq_some_iff.mp there).1
  simp only [Function.comp_apply]
  omega

theorem contiguous_of_sameLine (short : ShortLines text) (positive : 0 < (loaded text).totalClusters)
    (agree : ∀ k < (loaded text).totalClusters, SameLine text k) : Contiguous text := by
  obtain ⟨file, count, _⟩ := loaded_eq positive
  have numbers : ∀ k < (loaded text).totalClusters, (countedLines text)[k]?.map Prod.snd = some (k + 1) ∧
      (keptLines 256 text)[k]?.map Prod.snd = some (k + 1) ∧
      k + 1 < (scanLines 256 text).length := by
    intro k inside
    obtain ⟨n, counted, _, kept, replaced⟩ := agree k inside
    obtain ⟨rfl, bound⟩ := replacedLines_number file inside replaced
    exact ⟨counted, kept, bound⟩
  generalize (loaded text).totalClusters = n at positive count numbers
  have scanned : scanLines 256 text = (physicalLines text).map cstr := short.scan le_rfl
  cases lines : scanLines 256 text with
  | nil =>
    have bound := (numbers 0 positive).2.2
    rw [lines] at bound
    simp at bound
  | cons first tail =>
    refine ⟨first, tail.take n, tail.drop n, ?_, ?_, ?_, ?_⟩
    · rw [← scanned, lines, take_append_drop]
    · have firstKept := (numbers 0 positive).2.1
      cases kept : keptLine first with
      | none => rfl
      | some trim =>
        rw [keptLines, lines, numbered, numberedFrom_cons, kept] at firstKept
        simp at firstKept
    · intro line member
      obtain ⟨i, bound, rfl⟩ := getElem_of_mem member
      rw [length_take] at bound
      have number : i + 1 ∈ (countedLines text).map Prod.snd := by
        apply mem_of_getElem? (i := i)
        rw [getElem?_map]
        exact (numbers i (by omega)).1
      obtain ⟨found, there, counted⟩ := mem_numbered.mp number
      rw [lines, getElem?_cons_succ, getElem?_eq_getElem (by omega)] at there
      rw [getElem_take, Option.some.inj there]
      exact counted
    · intro line member
      obtain ⟨i, bound, rfl⟩ := getElem_of_mem member
      rw [length_drop] at bound
      rw [← Option.not_isSome_iff_eq_none]
      intro counted
      -- a counted line has one of the numbers up to `n`
      have number : n + i + 1 ∈ (countedLines text).map Prod.snd := by
        apply mem_numbered.mpr
        refine ⟨_, ?_, counted⟩
        rw [lines, getElem?_cons_succ, getElem_drop, getElem?_eq_getElem (by omega)]
      obtain ⟨k, inside, same⟩ := getElem_of_mem number
      rw [length_map, ← count] at inside
      have known := (numbers k inside).1
      rw [← getElem?_map, getElem?_eq_getElem (by rw [length_map, ← count]; exact inside),
        same, Option.some.injEq] at known
      omega

/-! ## What an update leaves to the readers -/

theorem mem_physicalLines (member : line ∈ physicalLines text) :
    ∃ body, '\n' ∉ body ∧ (line = body ∨ line = body ++ ['\n']) := by
  induction text using text_induction with
  | plain s free =>
    by_cases occupied : s = []
    · simp [occupied, physicalLines] at member
    · rw [physicalLines_plain free occupied, mem_singleton] at member
      exact ⟨s, free, .inl member⟩
  | line before rest free ih =>
    rw [physicalLines_line free] at member
    rcases mem_cons.mp member with rfl | below
    · exact ⟨before, free, .inr rfl⟩
    · exact ih below

theorem cutNewline_free (s : Text) : '\n' ∉ cutNewline s := by
  intro member
  simpa using mem_takeWhile_imp member

theorem length_cutNewline_le (s : Text) : (cutNewline s).length ≤ s.length := (takeWhile_sublist _).length_le

theorem cstr_cutNewline {s : Text} (clean : '\x00' ∉ s) : cstr (cutNewline s) = cutNewline s :=
  cstr_eq_self fun member => clean ((takeWhile_sublist _).subset member)

theorem cutNewline_cstr {body : Text} (free : '\n' ∉ body) :
    cutNewline (cstr body) = cstr body ∧ cutNewline (cstr (body ++ ['\n'])) = cstr body := by
  have plain : cutNewline (cstr body) = cstr body := takeWhile_plain fun newline => free (mem_of_mem_cstr newline)
  refine ⟨plain, ?_⟩
  by_cases nul : '\x00' ∈ body
  · obtain ⟨front, back, rfl, fresh⟩ := eq_append_cons_of_mem nul
    have cut : cstr (front ++ '\x00' :: back ++ ['\n']) = cstr (front ++ '\x00' :: back) := by
      have clean : ∀ c ∈ front, (c ≠ '\x00' : Bool) = true := by
        intro c member
        simpa using fun same : c = '\x00' => fresh (same ▸ member)
      rw [append_assoc, cons_append, cstr, cstr, terminated, terminated, takeWhile_append_of_pos (by simpa using clean),
        takeWhile_append_of_pos (by simpa using clean)]
      simp
    rw [cut, plain]
  · have ended : '\x00' ∉ body ++ ['\n'] := by simp [nul]
    rw [cstr_eq_self ended, cutNewline_line free, cstr_eq_self nul]

theorem trimWhitespace_cutNewline (member : line ∈ physicalLines text) :
    trimWhitespace (cutNewline (cstr line)) = trimWhitespace (cstr line) := by
  obtain ⟨body, free, rfl | rfl⟩ := mem_physicalLines member
  · rw [(cutNewline_cstr free).1]
  · rw [(cutNewline_cstr free).2, trimWhitespace_cstr_newline]

namespace Block
variable {text first : Text} {body rest : List Text}
variable {line : Text} {α : Type} {f : Text → Option α} {size : Nat}

theorem physical (block : Block text first body rest) (member : line ∈ body) :
    ∃ source ∈ physicalLines text, line = cstr source := by
  have there : line ∈ (physicalLines text).map cstr := by
    rw [block.lines]
    simp [member]
  obtain ⟨source, found, same⟩ := mem_map.mp there
  exact ⟨source, found, same.symm⟩

theorem cut_scan (block : Block text first body rest)
    (trims : Trims f) (member : line ∈ body) : f (cutNewline line) = f line := by
  obtain ⟨source, found, rfl⟩ := block.physical member
  exact trims.congr _ _ (trimWhitespace_cutNewline found)

theorem cut_short (block : Block text first body rest) (short : ShortLines text) (member : line ∈ body) :
    '\n' ∉ cutNewline line ∧ (cutNewline line).length < 256 ∧ cstr (cutNewline line) = cutNewline line := by
  obtain ⟨source, found, rfl⟩ := block.physical member
  have bound := short source found
  have cut := length_cutNewline_le (cstr source)
  have string : (cstr source).length ≤ source.length := (takeWhile_sublist _).length_le
  exact ⟨cutNewline_free _, by omega, cstr_cutNewline (cstr_clean source)⟩

theorem oldClusters (block : Block text first body rest) (short : ShortLines text)
    (positive : 0 < (loaded text).totalClusters) :
    oldClusters (loaded text) = body.map cutNewline := by
  apply oldClusters_of_read
  · rw [block.replacedLines short positive]
    show (body.zipIdx 1).map (cutNewline ∘ Prod.fst) = _
    rw [← map_map, zipIdx_map_fst]
  · rw [length_map, block.total short positive]

theorem scan_updated (block : Block text first body rest)
    (short : ShortLines text) (trims : Trims f) (skips : ∀ line, keptLine line = none → f line = none)
    (large : 256 ≤ size) {clusterSize : Nat} (small : 2 * clusterSize ≤ 252) (k : Nat)
    {newLine : Text} (tight : Tight newLine) (fit : newLine.length < 256) :
    (scanLines size (printLines (rulerLine clusterSize ::
      (body.map cutNewline).set k newLine))).filterMap f = (body.set k newLine).filterMap f := by
  have fits : ∀ line ∈ rulerLine clusterSize :: (body.map cutNewline).set k newLine,
      '\n' ∉ line ∧ line.length < size := by
    intro line member
    rcases mem_cons.mp member with rfl | member
    · exact ⟨(rulerLine_tight _).newline_free, by rw [length_rulerLine]; omega⟩
    · rcases mem_or_eq_of_mem_set member with old | rfl
      · obtain ⟨source, found, rfl⟩ := mem_map.mp old
        have cut := block.cut_short short found
        exact ⟨cut.1, by omega⟩
      · exact ⟨tight.newline_free, by omega⟩
  have olds : (body.map cutNewline).map (fun line => f (cstr line)) = body.map f := by
    rw [map_map]
    apply map_congr_left
    intro line member
    show f (cstr (cutNewline line)) = f line
    rw [(block.cut_short short member).2.2, block.cut_scan trims member]
  have same : ((body.map cutNewline).set k newLine).map (fun line => f (cstr line)) = (body.set k newLine).map f := by
    rw [map_set, map_set, olds, tight.cstr]
  have ruler : f (cstr (rulerLine clusterSize)) = none := skips _ (keptLine_rulerText _)
  calc _ = ((body.map cutNewline).set k newLine).filterMap (fun line => f (cstr line)) := by
        rw [scan_printLines trims (by omega) _ fits, filterMap_cons, ruler]
    _ = (((body.map cutNewline).set k newLine).map fun line => f (cstr line)).filterMap id := by
        rw [filterMap_map]
        rfl
    _ = (body.set k newLine).filterMap f := by
        rw [same, filterMap_map]
        rfl

theorem scan (block : Block text first body rest) (short : ShortLines text) :
    (scanLines 256 text).filterMap countedSize = body.filterMap countedSize := by
  have none : rest.filterMap countedSize = [] := filterMap_eq_nil_iff.mpr block.after
  rw [short.scan le_rfl, block.lines, filterMap_cons,
    countedSize_of_keptLine_none block.skipped, filterMap_append, none, append_nil]

theorem kept_line (block : Block text first body rest) (short : ShortLines text)
    (large : 256 ≤ size) {j : Nat} (inside : j < body.length) :
    ((scanLines size text).filterMap keptLine)[j]? = keptLine body[j] := by
  rw [short.scan large, block.lines, filterMap_cons, block.skipped, filterMap_append]
  exact getElem?_filterMap_all block.kept inside _

end Block

/-! ## Where the new line fits -/

theorem length_trimWhitespace_le (s : Text) : (trimWhitespace s).length ≤ s.length :=
  ((List.rdropWhile_prefix _ _).length_le).trans (dropWhile_sublist _).length_le

theorem length_hexPart_lt {trim hexData : Text} (found : hexPart trim = some hexData) :
    hexData.length < trim.length := by
  unfold hexPart strchrRest at found
  have dropped : (trim.dropWhile (· ≠ ':')).length ≤ trim.length := (dropWhile_sublist _).length_le
  cases tail : trim.dropWhile (· ≠ ':') with
  | nil => rw [tail] at found; simp at found
  | cons c rest =>
    rw [tail] at found dropped
    simp only [Option.map_some, Option.some.injEq] at found
    rw [← found]
    have := length_trimWhitespace_le rest
    simp only [length_cons] at dropped
    omega

theorem countedSize_bound {size : Nat} (counted : countedSize line = some size) : 2 * size < line.length := by
  unfold countedSize at counted
  split at counted
  · cases counted
  · rename_i hexData found
    obtain ⟨trim, kept, found⟩ := Option.bind_eq_some_iff.mp found
    have shorter := length_hexPart_lt found
    have trimmed : trim.length ≤ line.length := by
      unfold keptLine at kept
      dsimp only at kept
      split_ifs at kept
      rw [← Option.some.inj kept]
      exact length_trimWhitespace_le line
    split_ifs at counted with odd
    rw [← Option.some.inj counted]
    omega

namespace Block
variable {text first : Text} {body rest : List Text}

theorem last_size (block : Block text first body rest) (short : ShortLines text)
    (positive : 0 < (loaded text).totalClusters) :
    ∃ inside : body.length - 1 < body.length, countedSize body[body.length - 1] = some (loaded text).clusterSize := by
  have total := block.total short positive
  have inside : body.length - 1 < body.length := by omega
  have last := (loaded_eq positive).2.2
  rw [block.scan short, getLast?_eq_getElem?, length_filterMap_all block.counted,
    ← append_nil (body.filterMap countedSize),
    getElem?_filterMap_all block.counted inside] at last
  exact ⟨inside, last⟩

theorem clusterSize_le (block : Block text first body rest) (short : ShortLines text)
    (positive : 0 < (loaded text).totalClusters) : 2 * (loaded text).clusterSize ≤ 254 := by
  obtain ⟨inside, counted⟩ := block.last_size short positive
  obtain ⟨source, found, same⟩ := block.physical (getElem_mem inside)
  have bound := countedSize_bound counted
  have string : (cstr source).length ≤ source.length := (takeWhile_sublist _).length_le
  have line := short source found
  rw [same] at bound
  omega

variable {k : Nat} {data : Text}

theorem update (block : Block text first body rest) (short : ShortLines text)
    (inside : k < (loaded text).totalClusters) (len : data.length = 2 * (loaded text).clusterSize)
    (digits : ∀ c ∈ data, isxdigit c)
    (fits : (hex02 k).length + 1 + 2 * (loaded text).clusterSize ≤ 255) :
    updateClusterLine (loaded text) k data =
      reprint (loaded text) ((body.map cutNewline).set k (clusterLine k data)) := by
  have positive : 0 < (loaded text).totalClusters := by omega
  have total := block.total short positive
  have tight := tight_of_isxdigit digits
  have two := two_le_length_hex02 k
  have whole : (clusterLine k data).take 255 = clusterLine k data :=
    take_of_length_le (by rw [length_clusterLine]; omega)
  have sizeOf : countedSize (clusterLine k data) = some (loaded text).clusterSize := by
    rw [countedSize_clusterLine k tight, if_neg (by omega)]
    congr 1
    omega
  have accepted : ∀ line ∈ body.set k (clusterLine k data), (countedSize line).isSome := by
    intro line member
    rcases mem_or_eq_of_mem_set member with old | rfl
    · exact block.counted line old
    · rw [sizeOf]
      rfl
  have small : 2 * (loaded text).clusterSize ≤ 252 := by omega
  have scanned := block.scan_updated short countedSize_trims
    (fun _ => countedSize_of_keptLine_none) le_rfl small k (clusterLine_tight k tight)
    (by rw [length_clusterLine]; omega)
  have last : ((body.set k (clusterLine k data)).filterMap countedSize).getLast? = some (loaded text).clusterSize := by
    obtain ⟨there, counted⟩ := block.last_size short positive
    rw [getLast?_eq_getElem?, length_filterMap_all accepted, length_set, ← append_nil (filterMap _ _),
      getElem?_filterMap_all accepted (by rw [length_set]; exact there)]
    by_cases same : k = body.length - 1
    · subst same
      rw [getElem_set_self, sizeOf]
    · rw [getElem_set_ne same, counted]
  rw [updateClusterLine_inside inside, whole, block.oldClusters short positive,
    readDiskHeader_eq rfl scanned, last, length_filterMap_all accepted, length_set, ← total]
  rfl

theorem kept_updated (block : Block text first body rest) (short : ShortLines text)
    (small : 2 * (loaded text).clusterSize ≤ 252) {newLine : Text}
    (tight : Tight newLine) (fit : newLine.length < 256) (kept : keptLine newLine = some newLine)
    {size : Nat} (large : 256 ≤ size) {j : Nat} (there : j < body.length) :
    ((scanLines size (printLines (rulerLine (loaded text).clusterSize ::
      (body.map cutNewline).set k newLine))).filterMap keptLine)[j]? =
        if k = j then some newLine else keptLine body[j] := by
  have accepted : ∀ line ∈ body.set k newLine, (keptLine line).isSome := by
    intro line member
    rcases mem_or_eq_of_mem_set member with old | rfl
    · exact block.kept line old
    · rw [kept]
      rfl
  rw [block.scan_updated short keptLine_trims (fun _ skipped => skipped) large small k tight fit,
    ← append_nil (filterMap _ _),
    getElem?_filterMap_all accepted (by rw [length_set]; exact there), getElem_set]
  split_ifs
  · exact kept
  · rfl

theorem updatesOnly (block : Block text first body rest) (short : ShortLines text)
    (inside : k < (loaded text).totalClusters)
    (fits : (hex02 k).length + 1 + 2 * (loaded text).clusterSize ≤ 255) :
    UpdatesOnly (loaded text) k := by
  intro data len digits
  have positive : 0 < (loaded text).totalClusters := by omega
  have total := block.total short positive
  have two := two_le_length_hex02 k
  have tight := tight_of_isxdigit digits
  have line := fun {size : Nat} (large : 256 ≤ size) {j : Nat} (there : j < body.length) =>
    block.kept_updated (k := k) short (by omega) (clusterLine_tight k tight)
      (by rw [length_clusterLine]; omega) (keptLine_clusterLine k tight) large there
  rw [block.update short inside len digits fits]
  refine ⟨?_, ?_, ?_⟩
  · rw [diskAsmReadCluster_inside (d := reprint _ _) rfl rfl inside, line (by omega) (by omega), if_pos rfl,
      Option.bind_some, hexPart_clusterLine k tight, Option.bind_some]
    show loadBytes (loaded text).clusterSize data = _
    exact loadBytes_exact (by omega) len
  · rw [showDiskDetailForCluster_inside rfl rfl, line le_rfl (by omega), if_pos rfl,
      Option.bind_some, hexPart_clusterLine k tight]
    rfl
  · intro j there other
    have file := (loaded_eq positive).1
    have inBody : j < body.length := by omega
    constructor
    · rw [diskAsmReadCluster_inside (d := reprint _ _) rfl rfl there, diskAsmReadCluster_inside file rfl there,
        line (by omega) inBody, if_neg (symm other), block.kept_line short (by omega) inBody]
      rfl
    · rw [showDiskDetailForCluster_inside rfl rfl, showDiskDetailForCluster_inside file rfl,
        line le_rfl inBody, if_neg (symm other), block.kept_line short le_rfl inBody]
      rfl

end Block

theorem readDiskHeader_file (d : TextDisk) : (readDiskHeader d).file = d.file := by
  unfold readDiskHeader
  split
  · rfl
  · split <;> rfl

theorem show_updated (inside : k < d.totalClusters) (data : Text) :
    (showDiskDetailForCluster (updateClusterLine d k data) k).map ClusterDetail.hexData =
      (((scanLines 256 (printLines (rulerLine d.clusterSize ::
        (oldClusters d).set k ((clusterLine k data).take 255)))).filterMap keptLine)[k]?).bind hexPart := by
  rw [updateClusterLine_inside inside,
    showDiskDetailForCluster_inside ((readDiskHeader_file _).trans rfl) rfl, Option.map_map]
  exact Option.map_id'

theorem ruler_overflows (lines : List Text) :
    ((scanLines 256 (printLines (rulerLine 127 :: lines))).filterMap keptLine)[0]? = some ['C', 'D'] := by
  have free : '\n' ∉ rulerLine 127 := (rulerLine_tight 127).newline_free
  have left : (rulerLine 127).drop 255 = ['C', 'D'] := by decide +kernel
  have front : keptLine (cstr ((rulerLine 127).take 255)) = none := by
    exact keptLine_rulerText _
  have back : keptLine (cstr (['C', 'D'] ++ ['\n'])) = some ['C', 'D'] := by decide
  rw [printLines_cons, scanLines, fgetsAll_long (by omega) free (by simp), left,
    fgetsAll_line (by decide) (by decide), map_cons, map_cons,
    filterMap_cons_none front, filterMap_cons_some back]
  rfl

theorem length_le_of_hexPart_take {data : Text} (tight : Tight data)
    (found : hexPart ((clusterLine k data).take 255) = some data) :
    (hex02 k).length + 1 + data.length ≤ 255 := by
  by_cases colon : (hex02 k).length + 1 ≤ 255
  · have cut : (clusterLine k data).take 255 = clusterLine k (data.take (254 - (hex02 k).length)) := by
      rw [clusterLine, take_append, take_of_length_le (by omega),
        show 255 - (hex02 k).length = 254 - (hex02 k).length + 1 by omega, take_succ_cons]
      rfl
    have part : Tight (data.take (254 - (hex02 k).length)) := fun c member => tight c (mem_of_mem_take member)
    rw [cut, hexPart_clusterLine k part, Option.some.injEq] at found
    have len := congrArg length found
    rw [length_take] at len
    omega
  · have cut : (clusterLine k data).take 255 = (hex02 k).take 255 := by
      rw [clusterLine, take_append_of_le_length (by omega)]
    have fresh : ':' ∉ (hex02 k).take 255 := fun member =>
      isxdigit_ne (isxdigit_hex02 (mem_of_mem_take member)) (by decide) rfl
    rw [cut, hexPart, strchrRest_eq_none fresh] at found
    cases found

namespace Block
variable {text first : Text} {body rest : List Text}

theorem clusterSize_small (block : Block text first body rest) (short : ShortLines text)
    (positive : 0 < (loaded text).totalClusters) (local_ : UpdatesOnly (loaded text) 0) :
    2 * (loaded text).clusterSize ≤ 252 := by
  by_contra large
  have bound := block.clusterSize_le short positive
  have size : (loaded text).clusterSize = 127 := by omega
  have shown := (local_ (replicate (2 * (loaded text).clusterSize) 'F') (by simp)
    (by intro c member; rw [eq_of_mem_replicate member]; decide)).2.1
  have colonless : hexPart ['C', 'D'] = none := by decide
  rw [show_updated positive, size, ruler_overflows, Option.bind_some, colonless] at shown
  cases shown

theorem newLine_fits (block : Block text first body rest) (short : ShortLines text)
    (small : 2 * (loaded text).clusterSize ≤ 252) {k : Nat}
    (inside : k < (loaded text).totalClusters) (local_ : UpdatesOnly (loaded text) k) :
    (hex02 k).length + 1 + 2 * (loaded text).clusterSize ≤ 255 := by
  have positive : 0 < (loaded text).totalClusters := by omega
  have total := block.total short positive
  have digits : ∀ c ∈ replicate (2 * (loaded text).clusterSize) 'F', isxdigit c := by
    intro c member
    rw [eq_of_mem_replicate member]
    decide
  have tight := tight_of_isxdigit digits
  have shown := (local_ _ (by simp) digits).2.1
  have part : Tight ((clusterLine k (replicate (2 * (loaded text).clusterSize) 'F')).take 255) :=
    fun c member => clusterLine_tight k tight c (mem_of_mem_take member)
  have kept : keptLine ((clusterLine k (replicate (2 * (loaded text).clusterSize) 'F')).take 255) =
      some ((clusterLine k (replicate (2 * (loaded text).clusterSize) 'F')).take 255) := by
    obtain ⟨c, line, split, digit⟩ := clusterLine_head k (replicate (2 * (loaded text).clusterSize) 'F')
    rw [split, take_succ_cons] at part ⊢
    exact keptLine_digit part digit
  rw [show_updated inside, block.oldClusters short positive,
    block.kept_updated short small part (by simp) kept le_rfl (by omega), if_pos rfl,
    Option.bind_some] at shown
  have fits := length_le_of_hexPart_take tight shown
  rwa [length_replicate] at fits

end Block

/-- The scanners agree iff the counted lines follow a ruler or blank line and the longest line fits `newLine`. -/
theorem numbering_agrees_iff (text : Text) (short : ShortLines text) (positive : 0 < (loaded text).totalClusters) :
    (∀ k < (loaded text).totalClusters, SameLine text k ∧ UpdatesOnly (loaded text) k) ↔
      Contiguous text ∧ (hex02 ((loaded text).totalClusters - 1)).length + 1 + 2 * (loaded text).clusterSize ≤ 255 := by
  constructor
  · intro agrees
    obtain ⟨first, body, rest, block⟩ := contiguous_of_sameLine short positive fun k inside => (agrees k inside).1
    have small := block.clusterSize_small short positive (agrees 0 positive).2
    exact ⟨⟨first, body, rest, block⟩, block.newLine_fits short small (by omega) (agrees _ (by omega)).2⟩
  · rintro ⟨⟨first, body, rest, block⟩, fits⟩ k inside
    have narrower := length_hex02_mono (show k ≤ (loaded text).totalClusters - 1 by omega)
    exact ⟨block.sameLine short inside, block.updatesOnly short inside (by omega)⟩

theorem numbering_agrees_small :
    (loaded "XX:01\n00:AB\n01:cd\n".toList).totalClusters = 2 ∧
      ∀ k < 2, SameLine "XX:01\n00:AB\n01:cd\n".toList k ∧
        UpdatesOnly (loaded "XX:01\n00:AB\n01:cd\n".toList) k := by
  have short : ShortLines "XX:01\n00:AB\n01:cd\n".toList := by
    unfold ShortLines
    decide
  have contiguous : Contiguous "XX:01\n00:AB\n01:cd\n".toList :=
    ⟨"XX:01\n".toList, ["00:AB\n".toList, "01:cd\n".toList], [], by decide, by decide, by decide,
      by decide⟩
  exact ⟨by decide, (numbering_agrees_iff _ short (by decide)).mpr ⟨contiguous, by decide⟩⟩

/-- Without a ruler line, writing cluster 0 replaces the line of cluster 1. -/
theorem numbering_disagrees :
    ShortLines "00:AB\n01:CD\n".toList ∧ 0 < (loaded "00:AB\n01:CD\n".toList).totalClusters ∧
      ¬ SameLine "00:AB\n01:CD\n".toList 0 ∧ ¬ UpdatesOnly (loaded "00:AB\n01:CD\n".toList) 0 := by
  refine ⟨by unfold ShortLines; decide, by decide, ?_, ?_⟩
  · rintro ⟨n, counted, _, _, replaced⟩
    have first : (countedLines "00:AB\n01:CD\n".toList)[0]?.map Prod.snd = some 0 := by decide
    have second : (replacedLines (loaded "00:AB\n01:CD\n".toList))[0]?.map Prod.snd = some 1 := by
      decide
    rw [first, Option.some.injEq] at counted
    rw [second, Option.some.injEq] at replaced
    omega
  · intro updates
    have digits : ∀ c ∈ "EE".toList, isxdigit c := all_eq_true.mp (by decide)
    have other := ((updates "EE".toList (by decide) digits).2.2 1 (by decide) (by decide)).1
    exact absurd other (by decide +kernel)

end Flinstone.Disk
