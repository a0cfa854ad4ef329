import Flinstone.Disk.Text

/-! # Scanning a text that was printed line by line -/

namespace Flinstone.Disk
open Flinstone.Lib List

variable {α : Type} {f : Text → Option α}

structure Trims (f : Text → Option α) : Prop where
  congr : ∀ a b, trimWhitespace a = trimWhitespace b → f a = f b
  blank : f [] = none

theorem keptLine_trims : Trims keptLine where
  congr a b same := by unfold keptLine; rw [same]
  blank := rfl

theorem countedSize_trims : Trims countedSize where
  congr a b same := by unfold countedSize; rw [keptLine_trims.congr a b same]
  blank := rfl

theorem map_fst_numbered (f : Text → Option α) (lines : List Text) :
    (numbered f lines).map Prod.fst = lines.filterMap f := by
  rw [numbered, numberedFrom, map_filterMap]
  conv_rhs => rw [← zipIdx_map_fst 0 lines, filterMap_map]
  congr 1
  funext line
  cases found : f line.1 <;> simp [found]

theorem numberedFrom_cons (f : Text → Option α) (start : Nat) (line : Text) (lines : List Text) :
    numberedFrom f start (line :: lines) = ((f line).map (·, start)).toList ++ numberedFrom f (start + 1) lines := by
  simp only [numberedFrom, zipIdx_cons, filterMap_cons]
  cases f line <;> rfl

theorem numberedFrom_append (f : Text → Option α) (start : Nat) (front back : List Text) :
    numberedFrom f start (front ++ back) =
      numberedFrom f start front ++ numberedFrom f (start + front.length) back := by
  simp only [numberedFrom, zipIdx_append, filterMap_append]

variable {f : Text → Option α} {lines : List Text} {size : Nat} {line data : Text} {c : Char}

theorem numberedFrom_none
    (skipped : ∀ line ∈ lines, f line = none) (start : Nat) : numberedFrom f start lines = [] := by
  rw [numberedFrom, filterMap_eq_nil_iff]
  intro line member
  rw [skipped _ (fst_mem_of_mem_zipIdx member), Option.map_none]

theorem numberedFrom_all (accepted : ∀ line ∈ lines, (f line).isSome) (start : Nat) :
    (numberedFrom f start lines).map Prod.snd = range' start lines.length := by
  induction lines generalizing start with
  | nil => rfl
  | cons line lines ih =>
    obtain ⟨value, found⟩ := Option.isSome_iff_exists.mp (accepted line (mem_cons_self ..))
    have below := ih (fun l member => accepted l (mem_cons_of_mem _ member)) (start + 1)
    rw [numberedFrom_cons, found, map_append, below, length_cons, range'_succ]
    rfl

theorem mem_numbered {n : Nat} :
    n ∈ (numbered f lines).map Prod.snd ↔ ∃ line, lines[n]? = some line ∧ (f line).isSome := by
  simp only [numbered, numberedFrom, mem_map, mem_filterMap]
  constructor
  · rintro ⟨pair, ⟨entry, there, found⟩, rfl⟩
    obtain ⟨value, accepted, rfl⟩ := Option.map_eq_some_iff.mp found
    exact ⟨entry.1, mem_zipIdx_iff_getElem?.mp there, by simp [accepted]⟩
  · rintro ⟨line, there, accepted⟩
    obtain ⟨value, found⟩ := Option.isSome_iff_exists.mp accepted
    exact ⟨(value, n), ⟨(line, n), mem_zipIdx_iff_getElem?.mpr there, by simp [found]⟩, rfl⟩

theorem length_numbered (f : Text → Option α) (lines : List Text) :
    (numbered f lines).length = (lines.filterMap f).length := by
  rw [← map_fst_numbered, length_map]

theorem getElem?_numbered (f : Text → Option α) (lines : List Text) (k : Nat) :
    ((numbered f lines)[k]?).map Prod.fst = (lines.filterMap f)[k]? := by
  rw [← map_fst_numbered, getElem?_map]

theorem scan_line (trims : Trims f) (room : 1 < size) (free : '\n' ∉ line) (fits : line.length < size) (rest : Text) :
    (scanLines size (line ++ '\n' :: rest)).filterMap f =
      (f (cstr line)).toList ++ (scanLines size rest).filterMap f := by
  by_cases short : line.length + 1 < size
  · have same : f (cstr (line ++ ['\n'])) = f (cstr line) := trims.congr _ _ (trimWhitespace_cstr_newline line)
    rw [scanLines, fgetsAll_line free short, map_cons, filterMap_cons, same]
    cases f (cstr line) <;> rfl
  · -- the buffer is full before the newline, which is then a blank line of its own
    have newline : f (cstr ['\n']) = none := by
      rw [trims.congr (cstr ['\n']) [] (trimWhitespace_newline []), trims.blank]
    rw [scanLines, fgetsAll_long room free (by omega), take_of_length_le (by omega),
      drop_eq_nil_of_le (by omega), fgetsAll_line not_mem_nil (by simpa using room),
      map_cons, map_cons, filterMap_cons, nil_append,
      filterMap_cons_none newline]
    cases f (cstr line) <;> rfl

@[simp] theorem printLines_nil : printLines [] = [] := rfl

theorem printLines_cons (line : Text) (lines : List Text) :
    printLines (line :: lines) = line ++ '\n' :: printLines lines := by
  simp [printLines]

theorem physicalLines_printLines (free : ∀ line ∈ lines, '\n' ∉ line) :
    physicalLines (printLines lines) = lines.map (· ++ ['\n']) := by
  induction lines with
  | nil => rfl
  | cons line lines ih =>
    rw [printLines_cons, physicalLines_line (free line (mem_cons_self ..)),
      ih fun l member => free l (mem_cons_of_mem _ member), map_cons]

theorem scan_printLines (trims : Trims f) (room : 1 < size) (lines : List Text)
    (fit : ∀ line ∈ lines, '\n' ∉ line ∧ line.length < size) :
    (scanLines size (printLines lines)).filterMap f = lines.filterMap fun line => f (cstr line) := by
  induction lines with
  | nil => rfl
  | cons line lines ih =>
    obtain ⟨free, short⟩ := fit line (mem_cons_self ..)
    have below := ih fun l member => fit l (mem_cons_of_mem _ member)
    rw [printLines_cons, scan_line trims room free short, below, filterMap_cons]
    cases f (cstr line) <;> rfl

def Tight (data : Text) : Prop := ∀ c ∈ data, isspace c = false ∧ c ≠ '\x00'

theorem tight_of_isxdigit (digits : ∀ c ∈ data, isxdigit c) : Tight data :=
  fun c member => ⟨isxdigit_not_isspace (digits c member), isxdigit_ne (digits c member) (by decide)⟩

theorem isxdigit_zeros (n : Nat) : ∀ c ∈ replicate n '0', isxdigit c := by
  intro c digit
  rw [eq_of_mem_replicate digit]
  decide

theorem Tight.append {a b : Text} (left : Tight a) (right : Tight b) : Tight (a ++ b) := by
  intro c member
  rcases mem_append.mp member with member | member
  · exact left c member
  · exact right c member

theorem Tight.trim (tight : Tight data) : trimWhitespace data = data :=
  trimWhitespace_eq_self fun c member => (tight c member).1

theorem Tight.cstr (tight : Tight data) : cstr data = data := cstr_eq_self fun member => (tight _ member).2 rfl

theorem Tight.newline_free (tight : Tight data) : '\n' ∉ data := by
  intro member
  have space := (tight _ member).1
  cases space

theorem hex02_tight (n : Nat) : Tight (hex02 n) := tight_of_isxdigit fun _ member => isxdigit_hex02 member

variable (i : Nat)

theorem clusterLine_tight (tight : Tight data) : Tight (clusterLine i data) := by
  apply (hex02_tight i).append
  intro c member
  rcases mem_cons.mp member with rfl | member
  · decide
  · exact tight c member

@[simp] theorem length_clusterLine (data : Text) :
    (clusterLine i data).length = (hex02 i).length + 1 + data.length := by
  simp [clusterLine]
  omega

theorem keptLine_digit (tight : Tight (c :: line)) (digit : isxdigit c) : keptLine (c :: line) = some (c :: line) := by
  have other : c ≠ 'X' := isxdigit_ne digit (by decide)
  have notRuler : "XX:".toList.isPrefixOf (c :: line) = false := by
    simp [isPrefixOf, symm other]
  simp only [keptLine, tight.trim, notRuler]
  rfl

theorem clusterLine_head (data : Text) : ∃ c line, clusterLine i data = c :: line ∧ isxdigit c := by
  have two := two_le_length_hex02 i
  cases digits : hex02 i with
  | nil => rw [digits] at two; simp at two
  | cons c cs =>
    refine ⟨c, cs ++ ':' :: data, ?_, isxdigit_hex02 (n := i) (by rw [digits]; simp)⟩
    rw [clusterLine, digits, cons_append]

theorem keptLine_clusterLine (tight : Tight data) :
    keptLine (clusterLine i data) = some (clusterLine i data) := by
  have whole := clusterLine_tight i tight
  obtain ⟨c, line, split, digit⟩ := clusterLine_head i data
  rw [split] at whole ⊢
  exact keptLine_digit whole digit

theorem hexPart_clusterLine (tight : Tight data) : hexPart (clusterLine i data) = some data := by
  have fresh : ':' ∉ hex02 i := fun member => isxdigit_ne (isxdigit_hex02 member) (by decide) rfl
  rw [hexPart, clusterLine, strchrRest_eq_some fresh, Option.map_some, tight.trim]

theorem countedSize_clusterLine (tight : Tight data) : countedSize (clusterLine i data) =
      if data.length % 2 ≠ 0 then none else some (data.length / 2) := by
  simp only [countedSize, keptLine_clusterLine i tight, Option.bind_some, hexPart_clusterLine i tight]

theorem isxdigit_rulerDigits {len : Nat} (member : c ∈ rulerDigits len) : isxdigit c := by
  obtain ⟨i, _, rfl⟩ := mem_map.mp member
  have all : ∀ r < 16, isxdigit ("0123456789ABCDEF".toList.getD r '0') := by decide
  exact all (i % 16) (Nat.mod_lt _ (by omega))

theorem rulerDigits_tight (len : Nat) : Tight (rulerDigits len) :=
  tight_of_isxdigit fun _ member => isxdigit_rulerDigits member

theorem rulerText_tight {ruler : Text} (tight : Tight ruler) : Tight ("XX:".toList ++ ruler) := by
  have plain : Tight "XX:".toList := by
    intro c member
    have tested := all_eq_true.mp
      (show "XX:".toList.all (fun c => !isspace c && c != '\x00') by decide) c member
    simpa using tested
  exact Tight.append plain tight

theorem rulerLine_tight (clusterSize : Nat) : Tight (rulerLine clusterSize) := rulerText_tight (rulerDigits_tight _)

@[simp] theorem length_rulerLine (clusterSize : Nat) : (rulerLine clusterSize).length = 3 + 2 * clusterSize := by
  simp [rulerLine, rulerDigits]
  omega

theorem keptLine_ruler (ruler : "XX:".toList <+: trimWhitespace line) :
    keptLine line = none := by
  unfold keptLine
  rw [if_neg, if_pos (List.isPrefixOf_iff_prefix.mpr ruler)]
  rintro blank
  rw [blank] at ruler
  simp at ruler

theorem rdropWhile_stays {p : Char → Bool} (before : Text) (stop : p c = false)
    (rest : Text) : before ++ [c] <+: (before ++ c :: rest).rdropWhile p := by
  induction rest using reverseRecOn with
  | nil => rw [rdropWhile_concat_neg _ _ _ (by simp [stop])]
  | append_singleton rest last ih =>
    have split : before ++ c :: (rest ++ [last]) = (before ++ c :: rest) ++ [last] := by simp
    rw [split, rdropWhile_concat]
    split_ifs
    · exact ih
    · exact ⟨rest ++ [last], by simp⟩

theorem keptLine_rulerText (ruler : Text) : keptLine (cstr ("XX:".toList ++ ruler)) = none := by
  apply keptLine_ruler
  exact rdropWhile_stays ['X', 'X'] (by decide) (cstr ruler)

theorem countedSize_of_keptLine_none (skipped : keptLine line = none) : countedSize line = none := by
  simp [countedSize, skipped]

end Flinstone.Disk
