import Flinstone.Shell.Session

/-! # The numbering of the history -/

namespace Flinstone.Shell
open Flinstone.Lib Flinstone.Fs List

def intMax : Nat := 2147483647

/-- The loop of `load_history`; `granted` tells which sizes of the array can be had. -/
def loadLines (granted : Nat → Bool) : Nat → List Text → List Text → List Text
  | _, hist, [] => hist
  | capacity, hist, line :: lines =>
    let stored := hist ++ [Disk.cutNewline line]
    if hist.length < capacity then loadLines granted capacity stored lines
    else if capacity > intMax / 2 then hist
    else if !granted (capacity * 2) then hist
    else loadLines granted (capacity * 2) stored lines

namespace Session

def loadHistory (granted : Nat → Bool) (s : Session) : Option (List Text) :=
  match s.world.readFile historyFile with
  | none => none
  | some text => if !granted 100 then none else some (loadLines granted 100 [] (Disk.scanLines 512 text))

def historyLine (line : Text) (idx : Nat) : Text := '[' :: (Nat.repr idx).toList ++ "] ".toList ++ line

def showHistory (s : Session) : List Text :=
  match s.world.readFile historyFile with
  | none => ["No history.\n".toList]
  | some text => ((Disk.scanLines 256 text).zipIdx 1).map fun line => historyLine line.1 line.2

end Session

variable {s : Session} {old : Text} {cmds : List Text}

theorem appendHistory_stat (file : s.world.stat historyFile = some (.file old))
    (cmd : Text) : (s.appendHistory cmd).world.stat historyFile = some (.file (old ++ (cmd ++ ['\n']))) := by
  obtain ⟨w', written, content⟩ := World.appendFile_stat file (cmd ++ ['\n'])
  rw [Session.appendHistory, Session.act, HostCall.run]
  rw [show World.appendFile _ historyFile (cmd ++ ['\n']) = some w' from written]
  exact content

theorem recorded_stat (file : s.world.stat historyFile = some (.file old)) (cmds : List Text) :
    (cmds.foldl Session.appendHistory s).world.stat historyFile = some (.file (old ++ unlines cmds)) := by
  induction cmds generalizing s old with
  | nil => rw [unlines_nil, append_nil]; exact file
  | cons cmd cmds ih =>
    rw [foldl_cons, ih (appendHistory_stat file cmd), unlines_cons]
    simp

theorem recorded_file (empty : s.world.stat historyFile = some (.file [])) (cmds : List Text) :
    (cmds.foldl Session.appendHistory s).world.readFile historyFile = some (unlines cmds) := by
  rw [World.readFile, recorded_stat empty cmds]
  rfl

def Clean (cmd : Text) : Prop := '\n' ∉ cmd ∧ '\x00' ∉ cmd

theorem scanLines_unlines {size : Nat} (clean : ∀ cmd ∈ cmds, Clean cmd) (short : ∀ cmd ∈ cmds, cmd.length + 1 < size) :
    Disk.scanLines size (unlines cmds) = cmds.map (· ++ ['\n']) := by
  rw [Disk.scanLines, fgetsAll_unlines (fun cmd member => (clean cmd member).1) short, map_map]
  apply map_congr_left
  intro cmd member
  apply cstr_eq_self
  intro zero
  rcases mem_append.mp zero with inside | newline
  · exact (clean cmd member).2 inside
  · exact absurd (mem_singleton.mp newline) (by decide)

theorem cutNewline_line {cmd : Text} (clean : Clean cmd) : Disk.cutNewline (cmd ++ ['\n']) = cmd :=
  takeWhile_line clean.1 []

theorem map_cutNewline (clean : ∀ cmd ∈ cmds, Clean cmd) : (cmds.map (· ++ ['\n'])).map Disk.cutNewline = cmds := by
  rw [map_map]
  conv_rhs => rw [← map_id cmds]
  exact map_congr_left fun cmd member => cutNewline_line (clean cmd member)

/-- The size of the array is doubled while it is at most half of the largest `int`. -/
def Loadable (granted : Nat → Bool) (n : Nat) : Prop :=
  granted 100 ∧ ∀ k, 100 * 2 ^ k < n → 100 * 2 ^ k ≤ intMax / 2 ∧ granted (100 * 2 ^ (k + 1))

variable (granted : Nat → Bool)

theorem loadLines_all_iff (j : Nat) {hist : List Text} (lines : List Text)
    (fits : hist.length ≤ 100 * 2 ^ j) :
    loadLines granted (100 * 2 ^ j) hist lines = hist ++ lines.map Disk.cutNewline ↔
      ∀ k, j ≤ k → 100 * 2 ^ k < hist.length + lines.length →
        100 * 2 ^ k ≤ intMax / 2 ∧ granted (100 * 2 ^ (k + 1)) := by
  induction lines generalizing j hist with
  | nil =>
    refine iff_of_true (by simp [loadLines]) fun k later less => ?_
    have grows : 2 ^ j ≤ 2 ^ k := Nat.pow_le_pow_right (by decide) later
    rw [length_nil] at less
    omega
  | cons line lines ih =>
    have longer : (hist ++ [Disk.cutNewline line]).length = hist.length + 1 := by simp
    have all : hist ++ (line :: lines).map Disk.cutNewline =
        (hist ++ [Disk.cutNewline line]) ++ lines.map Disk.cutNewline := by simp
    have lost : hist ≠ (hist ++ [Disk.cutNewline line]) ++ lines.map Disk.cutNewline := by
      intro same
      have lengths := congrArg length same
      rw [length_append, longer] at lengths
      omega
    rw [loadLines, all, length_cons]
    split_ifs with room huge refused
    · rw [ih j (by omega), longer]
      simp only [add_assoc, add_comm 1]
    · refine iff_of_false lost fun enough => ?_
      have := (enough j (le_refl j) (by omega)).1
      omega
    · refine iff_of_false lost fun enough => ?_
      have got := (enough j (le_refl j) (by omega)).2
      rw [pow_succ, ← mul_assoc] at got
      simp [got] at refused
    · have next : 100 * 2 ^ j * 2 = 100 * 2 ^ (j + 1) := by rw [pow_succ, mul_assoc]
      have positive := Nat.two_pow_pos j
      rw [next] at refused ⊢
      rw [ih (j + 1) (by omega), longer]
      constructor
      · intro enough k later less
        rcases eq_or_lt_of_le later with rfl | above
        · exact ⟨by omega, by simpa using refused⟩
        · exact enough k above (by omega)
      · intro enough k later less
        exact enough k (by omega) (by omega)

theorem loadLines_loadable (lines : List Text) :
    (granted 100 ∧ loadLines granted 100 [] lines = lines.map Disk.cutNewline) ↔ Loadable granted lines.length := by
  have none_yet : ([] : List Text).length ≤ 100 * 2 ^ 0 := Nat.zero_le _
  have all := loadLines_all_iff granted 0 lines none_yet
  simp only [length_nil, zero_add, Nat.zero_le, forall_const, nil_append, pow_zero, mul_one] at all
  rw [all]
  rfl

theorem history_numbering_iff {s : Session}
    (empty : s.world.stat historyFile = some (.file [])) (cmds : List Text) (clean : ∀ cmd ∈ cmds, Clean cmd) :
    ((∀ i, (cmds.foldl Session.appendHistory s).readHistoryLine (i + 1) = cmds[i]?) ∧
        (cmds.foldl Session.appendHistory s).loadHistory granted = some cmds ∧
        (cmds.foldl Session.appendHistory s).showHistory =
          (cmds.zipIdx 1).map fun cmd => Session.historyLine (cmd.1 ++ ['\n']) cmd.2) ↔
      (∀ cmd ∈ cmds, cmd.length ≤ 254) ∧ Loadable granted cmds.length := by
  have file := recorded_file empty cmds
  have newlineFree := fun cmd member => (clean cmd member).1
  simp only [Session.readHistoryLine, Session.loadHistory, Session.showHistory, file]
  constructor
  · rintro ⟨_, loaded, shown⟩
    have short : ∀ cmd ∈ cmds, cmd.length + 1 < 256 := by
      have lengths := congrArg length shown
      simp only [length_map, length_zipIdx, Disk.scanLines] at lengths
      exact (fgetsAll_unlines_length_iff (by decide) newlineFree).mp lengths
    refine ⟨fun cmd member => by have := short cmd member; omega, ?_⟩
    rw [scanLines_unlines clean fun cmd member => by have := short cmd member; omega] at loaded
    have size : cmds.length = (cmds.map (· ++ ['\n'])).length := (length_map _).symm
    rw [size, ← loadLines_loadable, map_cutNewline clean]
    split_ifs at loaded with refused
    exact ⟨by simpa using refused, Option.some.inj loaded⟩
  · rintro ⟨short, loadable⟩
    have scanned (size : Nat) (large : 256 ≤ size) : Disk.scanLines size (unlines cmds) = cmds.map (· ++ ['\n']) :=
      scanLines_unlines clean fun cmd member => by have := short cmd member; omega
    rw [scanned 512 (by decide), scanned 256 (by decide)]
    refine ⟨fun i => ?_, ?_, ?_⟩
    · rw [Nat.add_sub_cancel, ← getElem?_map, map_cutNewline clean]
    · rw [← length_map (f := (· ++ ['\n'])), ← loadLines_loadable, map_cutNewline clean] at loadable
      rw [loadable.2, loadable.1]
      rfl
    · rw [zipIdx_map, map_map]
      rfl

def historyName : Name := ⟨historyFile, by decide⟩

def freshSession : Session where
  jail := .off
  service := {
    world := {
      tree := Tree.bare.put [] historyName (.file []) Tree.bare.root (by decide)
      cwd := some []
      maxLinks := 40
      touched := []
      cwd_dir := by
        intro l here
        rw [← Option.some.inj here]
        rfl }
    policy := none
    undoStack := [] }
  ready := true
  currentDiskFile := defaultDiskFile
  clusterSize := 32
  totalClusters := 32
  running := true
  log := []

theorem history_numbering_two :
    (["dir".toList, "help".toList].foldl Session.appendHistory freshSession).readHistoryLine 2 =
      some "help".toList := by
  have clean : ∀ cmd ∈ ["dir".toList, "help".toList], Clean cmd := by
    intro cmd member
    rcases mem_pair.mp member with rfl | rfl
    · exact ⟨by decide, by decide⟩
    · exact ⟨by decide, by decide⟩
  have loadable : Loadable (fun _ => true) 2 := by
    refine ⟨rfl, fun k less => ?_⟩
    have positive := Nat.two_pow_pos k
    omega
  exact ((history_numbering_iff (fun _ => true) (s := freshSession) (by decide) _ clean).mpr
    ⟨by decide, loadable⟩).1 1

/-- A line of 255 characters has two numbers, and one of 511 characters is two lines to `rerun`. -/
theorem history_splits_lines :
    ([replicate 255 'a', "dir".toList].foldl Session.appendHistory freshSession).showHistory =
        ["[1] ".toList ++ replicate 255 'a', "[2] \n".toList, "[3] dir\n".toList] ∧
      ([replicate 511 'a', "dir".toList].foldl Session.appendHistory freshSession).readHistoryLine 2 =
        some [] := by
  decide +kernel

end Flinstone.Shell
