import Mathlib.Data.BitVec
import Mathlib.Data.List.DropRight

/-! # Text and its lines -/

namespace Flinstone.Lib
open List

abbrev Text := List Char

/-- What a string function sees of a buffer: everything before the first NUL. -/
def terminated {α : Type} [DecidableEq α] (nul : α) (buf : List α) : List α := buf.takeWhile (· ≠ nul)

abbrev cstr (buf : Text) : Text := terminated '\x00' buf

-- the blank and the codes from '\t' to '\r'
def isspace (c : Char) : Bool := c.toNat = 32 || (9 ≤ c.toNat && c.toNat ≤ 13)

def trimWhitespace (str : Text) : Text := (str.dropWhile isspace).rdropWhile isspace

def strchrRest (c : Char) (str : Text) : Option Text :=
  match str.dropWhile (· ≠ c) with
  | [] => none
  | _ :: rest => some rest

/-- One call of `fgets` on the unread text `s`: what it stores and what is left. -/
def fgets (size : Nat) (s : Text) : Option (Text × Text) :=
  if s = [] then none
  else
    let count := min (size - 1) ((s.takeWhile (· ≠ '\n')).length + 1)
    some (s.take count, s.drop count)

def fgetsLoop (size : Nat) : Nat → Text → List Text
  | 0, _ => []
  | fuel + 1, s => match fgets size s with
      | none => []
      | some (line, rest) => line :: fgetsLoop size fuel rest

def fgetsAll (size : Nat) (s : Text) : List Text := fgetsLoop size s.length s

def physicalLines : Text → List Text
  | [] => []
  | c :: cs =>
    if c = '\n' then [c] :: physicalLines cs
    else match physicalLines cs with
      | [] => [[c]]
      | line :: lines => (c :: line) :: lines

theorem isspace_newline : isspace '\n' := by decide

theorem trimWhitespace_newline (s : Text) : trimWhitespace (s ++ ['\n']) = trimWhitespace s := by
  unfold trimWhitespace
  rw [dropWhile_append]
  split
  · rename_i blank
    rw [isEmpty_iff.mp blank]
    rfl
  · exact rdropWhile_concat_pos _ _ _ isspace_newline

variable {s line rest : Text} {c : Char} {motive : Text → Prop} {size : Nat} {lines : List Text}

theorem trimWhitespace_eq_self (tight : ∀ c ∈ s, isspace c = false) : trimWhitespace s = s := by
  have front : s.dropWhile isspace = s := by
    cases s with
    | nil => rfl
    | cons c cs => rw [dropWhile_cons, if_neg (by simp [tight c])]
  rw [trimWhitespace, front, rdropWhile_eq_self_iff]
  intro occupied
  simp [tight _ (getLast_mem occupied)]

theorem strchrRest_eq_some {before : Text} (fresh : c ∉ before) (rest : Text) :
    strchrRest c (before ++ c :: rest) = some rest := by
  have skipped : (before ++ c :: rest).dropWhile (· ≠ c) = c :: rest := by
    rw [dropWhile_append_of_pos]
    · simp
    · intro d member
      simpa using fun same : d = c => fresh (same ▸ member)
  rw [strchrRest, skipped]

theorem strchrRest_eq_none (fresh : c ∉ s) : strchrRest c s = none := by
  have skipped : s.dropWhile (· ≠ c) = [] := by
    rw [dropWhile_eq_nil_iff]
    intro d member
    simpa using fun same : d = c => fresh (same ▸ member)
  rw [strchrRest, skipped]

section
variable {α : Type} [DecidableEq α] {nul : α} {buf : List α}

theorem terminated_eq_self (clean : nul ∉ buf) : terminated nul buf = buf := by
  rw [terminated, takeWhile_eq_self_iff]
  intro c member
  simpa using fun same : c = nul => clean (same ▸ member)

theorem terminated_append_nul (clean : nul ∉ buf) (rest : List α) : terminated nul (buf ++ nul :: rest) = buf := by
  rw [terminated, takeWhile_append_of_pos, takeWhile_cons_of_neg (by simp), append_nil]
  intro c member
  simpa using fun same : c = nul => clean (same ▸ member)

end

theorem cstr_eq_self (clean : '\x00' ∉ s) : cstr s = s := terminated_eq_self clean

theorem mem_of_mem_cstr (member : c ∈ cstr s) : c ∈ s := (takeWhile_sublist _).subset member

theorem cstr_clean (s : Text) : '\x00' ∉ cstr s := by
  intro member
  simpa using mem_takeWhile_imp member

theorem trimWhitespace_cstr_newline (s : Text) : trimWhitespace (cstr (s ++ ['\n'])) = trimWhitespace (cstr s) := by
  unfold cstr terminated
  rw [takeWhile_append]
  split
  · rename_i full
    have same : s.takeWhile (· ≠ '\x00') = s := (List.takeWhile_prefix _).eq_of_length full
    rw [same]
    exact trimWhitespace_newline s
  · rfl

theorem cut_cases (c : Char) (s : Text) : c ∉ s ∨ ∃ line rest, c ∉ line ∧ s = line ++ c :: rest := by
  by_cases found : c ∈ s
  · obtain ⟨line, rest, split, fresh⟩ := eq_append_cons_of_mem found
    exact .inr ⟨line, rest, fresh, split⟩
  · exact .inl found

theorem cut_induction (plain : ∀ s, c ∉ s → motive s)
    (line : ∀ line rest, c ∉ line → motive rest → motive (line ++ c :: rest)) (s : Text) :
    motive s := by
  generalize size : s.length = n
  induction n using Nat.strong_induction_on generalizing s with
  | _ n ih =>
    rcases cut_cases c s with free | ⟨before, rest, free, rfl⟩
    · exact plain s free
    · apply line before rest free
      apply ih rest.length ?_ rest rfl
      simp only [length_append, length_cons] at size
      omega

theorem text_induction (plain : ∀ s, '\n' ∉ s → motive s)
    (line : ∀ line rest, '\n' ∉ line → motive rest → motive (line ++ '\n' :: rest)) (s : Text) :
    motive s := cut_induction plain line s

theorem takeWhile_line (free : '\n' ∉ line) (rest : Text) : (line ++ '\n' :: rest).takeWhile (· ≠ '\n') = line := by
  rw [takeWhile_append_of_pos]
  · simp
  · intro c member
    simpa using fun same : c = '\n' => free (same ▸ member)

theorem takeWhile_plain (free : '\n' ∉ s) : s.takeWhile (· ≠ '\n') = s := by
  rw [takeWhile_eq_self_iff]
  intro c member
  simpa using fun same : c = '\n' => free (same ▸ member)

theorem fgets_shortens (room : 1 < size) (read : fgets size s = some (line, rest)) : rest.length < s.length := by
  unfold fgets at read
  split at read
  · cases read
  · rename_i occupied
    have positive : 0 < s.length := length_pos_iff.mpr occupied
    simp only [Option.some.injEq, Prod.mk.injEq] at read
    rw [← read.2, length_drop]
    omega

theorem fgetsLoop_enough (room : 1 < size) (fuel more : Nat) (s : Text)
    (enough : s.length ≤ fuel) (also : s.length ≤ more) :
    fgetsLoop size fuel s = fgetsLoop size more s := by
  induction fuel generalizing more s with
  | zero =>
    have empty : s = [] := length_eq_zero_iff.mp (by omega)
    subst empty
    cases more <;> simp [fgetsLoop, fgets]
  | succ fuel ih =>
    cases more with
    | zero =>
      have empty : s = [] := length_eq_zero_iff.mp (by omega)
      subst empty
      simp [fgetsLoop, fgets]
    | succ more =>
      simp only [fgetsLoop]
      cases read : fgets size s with
      | none => rfl
      | some result =>
        have shorter := fgets_shortens room read
        exact congrArg (result.1 :: ·) (ih more result.2 (by omega) (by omega))

theorem fgetsAll_cons (room : 1 < size) (read : fgets size s = some (line, rest)) :
    fgetsAll size s = line :: fgetsAll size rest := by
  have shorter := fgets_shortens room read
  calc fgetsAll size s = fgetsLoop size (s.length + 1) s := fgetsLoop_enough room _ _ s le_rfl (Nat.le_succ _)
    _ = line :: fgetsLoop size s.length rest := by simp only [fgetsLoop, read]
    _ = line :: fgetsAll size rest := by
        rw [fgetsLoop_enough room s.length rest.length rest (by omega) le_rfl]
        rfl

@[simp] theorem fgetsAll_nil (size : Nat) : fgetsAll size [] = [] := rfl

theorem fgets_line (free : '\n' ∉ line) (short : line.length + 1 < size)
    (rest : Text) : fgets size (line ++ '\n' :: rest) = some (line ++ ['\n'], rest) := by
  have count : min (size - 1) (line.length + 1) = line.length + 1 := by omega
  have split : line ++ '\n' :: rest = (line ++ ['\n']) ++ rest := by simp
  have stored : (line ++ ['\n']).length = line.length + 1 := by simp
  simp only [fgets, takeWhile_line free, count]
  rw [if_neg (by simp), split, ← stored, take_left, drop_left]

theorem fgets_long (free : '\n' ∉ line) (long : size ≤ line.length + 1) (rest : Text) :
    fgets size (line ++ '\n' :: rest) = some (line.take (size - 1), line.drop (size - 1) ++ '\n' :: rest) := by
  have count : min (size - 1) (line.length + 1) = size - 1 := by omega
  have fits : size - 1 ≤ line.length := by omega
  simp only [fgets, takeWhile_line free, count]
  rw [if_neg (by simp), take_append_of_le_length fits, drop_append_of_le_length fits]

theorem fgetsAll_line (free : '\n' ∉ line) (short : line.length + 1 < size) (rest : Text) :
    fgetsAll size (line ++ '\n' :: rest) = (line ++ ['\n']) :: fgetsAll size rest :=
  fgetsAll_cons (by omega) (fgets_line free short rest)

theorem fgetsAll_long (room : 1 < size) (free : '\n' ∉ line) (long : size ≤ line.length + 1) (rest : Text) :
    fgetsAll size (line ++ '\n' :: rest) =
      line.take (size - 1) :: fgetsAll size (line.drop (size - 1) ++ '\n' :: rest) :=
  fgetsAll_cons room (fgets_long free long rest)

theorem fgetsAll_pieces (room : 1 < size) (free : '\n' ∉ line) (rest : Text) :
    ∃ pieces, fgetsAll size (line ++ '\n' :: rest) = pieces ++ fgetsAll size rest ∧ 1 ≤ pieces.length ∧
      (size ≤ line.length + 1 → 2 ≤ pieces.length) := by
  generalize length : line.length = n
  induction n using Nat.strong_induction_on generalizing line with
  | _ n ih =>
    by_cases short : line.length + 1 < size
    · refine ⟨[line ++ ['\n']], fgetsAll_line free short rest, le_refl 1, fun long => ?_⟩
      omega
    · have smaller : (line.drop (size - 1)).length < n := by
        rw [length_drop]
        omega
      have below : '\n' ∉ line.drop (size - 1) := fun member => free (mem_of_mem_drop member)
      obtain ⟨pieces, more, one, _⟩ := ih _ smaller below rfl
      refine ⟨line.take (size - 1) :: pieces, ?_, ?_, fun _ => ?_⟩
      · rw [fgetsAll_long room free (Nat.le_of_not_lt short), more]
        rfl
      · exact Nat.le_add_left 1 _
      · rw [length_cons]
        omega

def unlines (lines : List Text) : Text := lines.flatMap (· ++ ['\n'])

@[simp] theorem unlines_nil : unlines [] = [] := rfl

theorem unlines_cons (line : Text) (lines : List Text) : unlines (line :: lines) = line ++ '\n' :: unlines lines := by
  simp [unlines]

theorem fgetsAll_unlines (free : ∀ line ∈ lines, '\n' ∉ line) (short : ∀ line ∈ lines, line.length + 1 < size) :
    fgetsAll size (unlines lines) = lines.map (· ++ ['\n']) := by
  induction lines with
  | nil => rfl
  | cons line lines ih =>
    rw [unlines_cons, fgetsAll_line (free line (mem_cons_self ..)) (short line (mem_cons_self ..)),
      ih (fun l member => free l (mem_cons_of_mem _ member))
        (fun l member => short l (mem_cons_of_mem _ member)), map_cons]

theorem length_fgetsAll_unlines (room : 1 < size)
    (free : ∀ line ∈ lines, '\n' ∉ line) : lines.length ≤ (fgetsAll size (unlines lines)).length := by
  induction lines with
  | nil => exact Nat.zero_le _
  | cons line lines ih =>
    have rest := ih fun l member => free l (mem_cons_of_mem _ member)
    obtain ⟨pieces, split, one, _⟩ := fgetsAll_pieces room (free line (mem_cons_self ..)) (unlines lines)
    rw [unlines_cons, split, length_append, length_cons]
    omega

theorem fgetsAll_unlines_length_iff (room : 1 < size) (free : ∀ line ∈ lines, '\n' ∉ line) :
    (fgetsAll size (unlines lines)).length = lines.length ↔ ∀ line ∈ lines, line.length + 1 < size := by
  constructor
  · induction lines with
    | nil => intro _ line member; cases member
    | cons line lines ih =>
      intro same
      have later := fun l member => free l (mem_cons_of_mem line member)
      have rest := length_fgetsAll_unlines room later
      obtain ⟨pieces, split, one, two⟩ := fgetsAll_pieces room (free line (mem_cons_self ..)) (unlines lines)
      rw [unlines_cons, split, length_append, length_cons] at same
      have fits : line.length + 1 < size := by
        by_contra long
        omega
      intro l member
      rcases mem_cons.mp member with rfl | below
      · exact fits
      · exact ih later (by omega) l below
  · intro short
    rw [fgetsAll_unlines free short, length_map]

theorem fgetsAll_plain (free : '\n' ∉ s) (occupied : s ≠ []) (short : s.length < size) : fgetsAll size s = [s] := by
  have positive : 0 < s.length := length_pos_iff.mpr occupied
  have read : fgets size s = some (s, []) := by
    have all : s.length ≤ min (size - 1) (s.length + 1) := by omega
    simp only [fgets, takeWhile_plain free, if_neg occupied, take_of_length_le all, drop_eq_nil_of_le all]
  rw [fgetsAll_cons (by omega) read, fgetsAll_nil]

theorem physicalLines_line (free : '\n' ∉ line) (rest : Text) :
    physicalLines (line ++ '\n' :: rest) = (line ++ ['\n']) :: physicalLines rest := by
  induction line with
  | nil => rfl
  | cons c line ih =>
    have other : c ≠ '\n' := fun same => free (by simp [same])
    have below : '\n' ∉ line := fun member => free (mem_cons_of_mem _ member)
    simp only [cons_append, physicalLines, if_neg other, ih below]

theorem physicalLines_plain (free : '\n' ∉ s) (occupied : s ≠ []) : physicalLines s = [s] := by
  induction s with
  | nil => exact absurd rfl occupied
  | cons c cs ih =>
    have other : c ≠ '\n' := fun same => free (by simp [same])
    have below : '\n' ∉ cs := fun member => free (mem_cons_of_mem _ member)
    cases cs with
    | nil => simp [physicalLines, other]
    | cons d ds => rw [physicalLines, if_neg other, ih below (by simp)]

theorem fgetsAll_eq_physicalLines (s : Text)
    (short : ∀ line ∈ physicalLines s, line.length < size) : fgetsAll size s = physicalLines s := by
  induction s using text_induction with
  | plain s free =>
    by_cases occupied : s = []
    · simp [occupied, physicalLines]
    · rw [physicalLines_plain free occupied] at short ⊢
      exact fgetsAll_plain free occupied (short s (by simp))
  | line line rest free ih =>
    rw [physicalLines_line free] at short ⊢
    have fits := short _ (mem_cons_self ..)
    rw [length_append, length_singleton] at fits
    rw [fgetsAll_line free fits, ih fun l member => short l (mem_cons_of_mem _ member)]

end Flinstone.Lib
