import Flinstone.Lib.Text

/-!
# The path log

`path_log.c`.
-/

namespace Flinstone.Fs
open Flinstone.Lib List

inductive PathOp
  | read | write | create | delete | move | cd | dir
deriving DecidableEq

def opStr : PathOp → Text
  | .read => "read".toList
  | .write => "write".toList
  | .create => "create".toList
  | .delete => "delete".toList
  | .move => "move".toList
  | .cd => "cd".toList
  | .dir => "dir".toList

def pathLogMax : Nat := 64

structure LogEntry where
  op : PathOp
  path : Text
deriving DecidableEq

structure PathLog where
  log : Fin pathLogMax → LogEntry
  head : Fin pathLogMax
  count : Nat
  inited : Bool

def zeroEntry : LogEntry := ⟨.read, []⟩

namespace PathLog

def pathLogInit (s : PathLog) : PathLog := if s.inited then s else ⟨fun _ => zeroEntry, ⟨0, by decide⟩, 0, true⟩

def entry (op : PathOp) (path : Text) : LogEntry := ⟨op, path.take 255⟩

/-- A path of `none` is the null pointer. -/
def pathLogRecord (s : PathLog) (op : PathOp) (path : Option Text) : PathLog :=
  match s.inited, path with
  | true, some path =>
    { s with
      log := Function.update s.log s.head (entry op path)
      head := ⟨(s.head.val + 1) % pathLogMax, Nat.mod_lt _ (Fin.pos s.head)⟩
      count := if s.count < pathLogMax then s.count + 1 else s.count }
  | _, _ => s

def headerLine (n : Nat) : Text := "Path log (last ".toList ++ (Nat.repr n).toList ++ " operations):\n".toList

def entryLine (e : LogEntry) : Text :=
  "  [".toList ++ opStr e.op ++ "] ".toList ++ e.path ++ ['\n']

def pathLogPrint (s : PathLog) (last : Int) : List Text :=
  if !s.inited then []
  else
    let n := if last ≤ 0 ∨ last > pathLogMax then s.count else last.toNat
    let start := if s.count < pathLogMax then 0 else (s.head.val + pathLogMax - n) % pathLogMax
    let total := if s.count < pathLogMax then s.count else pathLogMax
    headerLine (if n > total then total else n) :: (List.range (min n total)).map fun i =>
        entryLine (s.log ⟨(start + i) % pathLogMax, Nat.mod_lt _ (by decide)⟩)

def recorded (calls : List (PathOp × Option Text)) : List LogEntry :=
  calls.filterMap fun call => call.2.map (entry call.1)

def recordAll (s : PathLog) (calls : List (PathOp × Option Text)) : PathLog :=
  calls.foldl (fun s call => s.pathLogRecord call.1 call.2) s

structure Holds (s : PathLog) (records : List LogEntry) : Prop where
  on : s.inited = true
  head_eq : s.head.val = records.length % pathLogMax
  count_eq : s.count = min records.length pathLogMax
  cells : ∀ (place : Fin pathLogMax) (k : Nat), k < records.length → records.length ≤ k + pathLogMax →
    place.val = k % pathLogMax → records[k]? = some (s.log place)

variable {s : PathLog} {records : List LogEntry}

theorem holds_init (off : s.inited = false) : s.pathLogInit.Holds [] := by
  simp only [pathLogInit, off, Bool.false_eq_true, if_false]
  constructor
  · rfl
  · rfl
  · rfl
  · intro place k old
    exact absurd old (Nat.not_lt_zero k)

theorem Holds.record (holds : s.Holds records) (op : PathOp) (path : Option Text) :
    (s.pathLogRecord op path).Holds (records ++ (path.map (entry op)).toList) := by
  cases path with
  | none => simpa [pathLogRecord] using holds
  | some path =>
    have grown : (records ++ [entry op path]).length = records.length + 1 := by simp
    simp only [pathLogRecord, holds.on, Option.map_some, Option.toList_some]
    constructor
    · rfl
    · simp [holds.head_eq]
    · simp only [holds.count_eq]
      split_ifs <;> omega
    · intro place k old recent at_place
      dsimp only
      by_cases new : k = records.length
      · have here : place = s.head := by
          apply Fin.ext
          rw [at_place, new, holds.head_eq]
        rw [here, Function.update_self, new]
        simp
      · -- 64 records in a row are at 64 different places
        have elsewhere : place ≠ s.head := by
          intro same
          have places : k % pathLogMax = records.length % pathLogMax := by
            rw [← at_place, same, holds.head_eq]
          unfold pathLogMax at places recent
          omega
        rw [Function.update_of_ne elsewhere, getElem?_append_left (by omega)]
        exact holds.cells place k (by omega) (by omega) at_place

theorem Holds.recordAll (holds : s.Holds records)
    (calls : List (PathOp × Option Text)) : (s.recordAll calls).Holds (records ++ recorded calls) := by
  induction calls generalizing s records with
  | nil => simpa [recordAll, recorded] using holds
  | cons call calls ih =>
    have rest := ih (holds.record call.1 call.2)
    obtain ⟨op, path⟩ := call
    cases path with
    | none => simpa [recordAll, recorded] using rest
    | some path => simpa [recordAll, recorded] using rest

theorem recordAll_holds (off : s.inited = false) (calls : List (PathOp × Option Text)) :
    (s.pathLogInit.recordAll calls).Holds (recorded calls) := by
  simpa using (holds_init off).recordAll calls

theorem Holds.lines (holds : s.Holds records) {start k len : Nat}
    (aligned : start % pathLogMax = k % pathLogMax) (there : k + len ≤ records.length)
    (recent : records.length ≤ k + pathLogMax) :
    ((range len).map fun i =>
        entryLine (s.log ⟨(start + i) % pathLogMax, Nat.mod_lt _ (by decide)⟩)) =
      ((records.drop k).take len).map entryLine := by
  apply ext_getElem
  · simp only [length_map, length_range, length_take, length_drop]
    omega
  · intro i left right
    have old : i < len := by simpa using left
    have cell := holds.cells ⟨(start + i) % pathLogMax, Nat.mod_lt _ (by decide)⟩ (k + i) (by omega) (by omega)
      (by simp only [Nat.add_mod start, aligned, ← Nat.add_mod])
    have inside : k + i < records.length := by omega
    rw [getElem?_eq_getElem inside, Option.some_inj] at cell
    simp [cell]

theorem Holds.print (holds : s.Holds records) {n : Nat} (positive : 1 ≤ n) (bounded : n ≤ pathLogMax) :
    s.pathLogPrint n = headerLine (min n records.length) ::
      (if records.length < pathLogMax then records.take n else records.drop (records.length - n)).map entryLine := by
  have asked : ¬((n : Int) ≤ 0 ∨ (n : Int) > pathLogMax) := by omega
  simp only [pathLogPrint, holds.on, if_neg asked, Int.toNat_natCast]
  by_cases few : records.length < pathLogMax
  · have count : s.count = records.length := by
      rw [holds.count_eq]
      exact min_eq_left few.le
    simp only [count, if_pos few]
    apply congrArg₂ cons
    · apply congrArg headerLine
      split_ifs <;> omega
    · rw [holds.lines (refl (0 % pathLogMax)) (by omega) (by omega), drop_zero]
      rcases le_total n records.length with short | long
      · rw [min_eq_left short]
      · rw [min_eq_right long, take_length, take_of_length_le long]
  · have count : s.count = pathLogMax := by
      rw [holds.count_eq]
      exact min_eq_right (Nat.le_of_not_lt few)
    simp only [count, lt_irrefl, if_false, if_neg few, min_eq_left bounded]
    apply congrArg₂ cons
    · apply congrArg headerLine
      split_ifs <;> omega
    · have aligned : (s.head.val + pathLogMax - n) % pathLogMax % pathLogMax = (records.length - n) % pathLogMax := by
        have head := holds.head_eq
        unfold pathLogMax at *
        omega
      rw [holds.lines aligned (by omega) (by omega), take_of_length_le]
      rw [length_drop]
      omega

def mostRecent (n : Nat) (records : List LogEntry) : List LogEntry := records.drop (records.length - n)

/-- Exactly when the ring is full, no more than asked for is there, or the oldest records look the same. -/
theorem print_most_recent_iff {s : PathLog} (off : s.inited = false) (calls : List (PathOp × Option Text))
    {n : Nat} (positive : 1 ≤ n) (bounded : n ≤ pathLogMax) :
    (s.pathLogInit.recordAll calls).pathLogPrint n =
        headerLine (min n (recorded calls).length) :: (mostRecent n (recorded calls)).map entryLine ↔
      pathLogMax ≤ (recorded calls).length ∨ (recorded calls).length ≤ n ∨
        ((recorded calls).take n).map entryLine = (mostRecent n (recorded calls)).map entryLine := by
  rw [(recordAll_holds off calls).print positive bounded, cons_eq_cons, and_iff_right rfl]
  generalize recorded calls = records
  by_cases few : records.length < pathLogMax
  · rw [if_pos few]
    constructor
    · intro same
      exact .inr (.inr same)
    · rintro (full | short | same)
      · exact absurd few (Nat.not_lt_of_le full)
      · rw [mostRecent, Nat.sub_eq_zero_of_le short, drop_zero, take_of_length_le short]
      · exact same
  · rw [if_neg few]
    exact iff_of_true rfl (.inl (Nat.le_of_not_lt few))

def unused : PathLog := ⟨fun _ => zeroEntry, ⟨0, by decide⟩, 0, false⟩

theorem print_most_recent_of_two :
    (unused.pathLogInit.recordAll [(.cd, some "/a".toList), (.dir, none), (.dir, some "/b".toList)]).pathLogPrint 2 =
      headerLine 2 :: [⟨.cd, "/a".toList⟩, ⟨.dir, "/b".toList⟩].map entryLine :=
  (print_most_recent_iff rfl [(.cd, some "/a".toList), (.dir, none), (.dir, some "/b".toList)]
    (by decide : 1 ≤ 2) (by decide)).mpr (.inr (.inl (by decide)))

theorem print_oldest_of_two :
    (unused.pathLogInit.recordAll [(.cd, some "/a".toList), (.dir, some "/b".toList)]).pathLogPrint 1 =
        headerLine 1 :: [entryLine ⟨.cd, "/a".toList⟩] ∧
      mostRecent 1 (recorded [(.cd, some "/a".toList), (.dir, some "/b".toList)]) = [⟨.dir, "/b".toList⟩] := by
  decide

end PathLog

end Flinstone.Fs
