import Flinstone.Shell.Interpreter

/-! # Batch mode -/

namespace Flinstone.Shell
open Flinstone.Lib List Option

def eqCi (a b : Text) : Bool := a.map Char.toLower = b.map Char.toLower

/-- What is kept behind `argv[0]`; the flags but the first count once the virtual machine is on. -/
def parseVmArgs : Bool → List Text → List Text
  | _, [] => []
  | vmMode, arg :: args =>
    if eqCi arg "-Virtualization".toList then parseVmArgs true args
    else if eqCi arg "-y".toList && vmMode then parseVmArgs vmMode args
    else if eqCi arg "-n".toList && vmMode then parseVmArgs vmMode args
    else if eqCi arg "-vm".toList && vmMode then parseVmArgs vmMode args
    else arg :: parseVmArgs vmMode args

def flagged (flags : List String) (rest : List Text) : Bool :=
  rest.head?.any fun arg => flags.any fun flag => arg = flag.toList

def named (rest : List Text) : Bool := rest.head?.any fun arg => arg.head? ≠ some '-'

/-- How `tokensCount` is found. -/
inductive Rule
  | single
  | flag (flags : List String)
  | exit (flags : List String)
  | disk
  | fixed (count : Nat)
  | path
  | write
  | importDrive
  | addcluster
  | other
deriving DecidableEq

def rules : List (List String × Rule) := [
  (["help", "listclusters", "clear", "history", "his", "cc"], .single),
  (["version"], .flag ["-y", "-n", "-Y", "-N"]),
  (["exit"], .exit ["-y", "-Y", "-n", "-N"]),
  (["bios"], .flag ["-y", "-Y"]),
  (["setdisk", "createdisk"], .disk),
  (["format"], .fixed 5),
  (["dir"], .path),
  (["make"], .fixed 2),
  (["mkdir", "rmtree", "rmdir"], .fixed 2),
  (["mv"], .fixed 3),
  (["write"], .write),
  (["type", "cat"], .fixed 2),
  (["where", "loc"], .path),
  (["search", "delcluster", "rerun", "redirect"], .fixed 2),
  (["cd"], .path),
  (["writecluster"], .fixed 4),
  (["initdisk"], .fixed 3),
  (["import"], .importDrive),
  (["update"], .fixed 4),
  (["addcluster"], .addcluster)]

def isOne (names : List String) (cmd : Text) : Bool := names.any fun name => cmd = name.toList

def rule (cmd : Text) : Rule := ((rules.find? fun entry => isOne entry.1 cmd).map Prod.snd).getD .other

/-- The arguments behind a command of no other rule end at a flag, at `make` and at `write`. -/
def goesOn (arg : Text) : Bool := arg.head? ≠ some '-' && !isOne ["make", "write"] arg

/-- `tokensCount` with the arguments `rest` behind the command; `none` for an `exit` without a flag. -/
def Rule.tokensCount (rest : List Text) : Rule → Option Nat
  | single => some 1
  | flag flags => some (if flagged flags rest then 2 else 1)
  | exit flags => if flagged flags rest then some 2 else none
  | disk => some (if 3 ≤ rest.length then if 4 ≤ rest.length then 5 else 4 else 0)
  | fixed count => some count
  | path => some (if named rest then 2 else 1)
  | write => some (if 2 ≤ rest.length then rest.length + 1 else 0)
  | importDrive => some (if 4 ≤ rest.length then 5 else 3)
  | addcluster => some (if 2 ≤ rest.length && flagged ["-t", "-h"] rest then 3 else 1)
  | other => some (1 + (rest.takeWhile goesOn).length)

inductive Piece
  | submitted (args : List Text)
  /-- An `exit` without a flag, submitted as `exit -n`. -/
  | exiting (cmd : Text)
  | skipped (args : List Text)
deriving DecidableEq

namespace Piece

def args : Piece → List Text
  | submitted args | skipped args => args
  | exiting cmd => [cmd]

def line : Piece → Option Text
  | submitted args => some ([' '].intercalate args)
  | exiting _ => some "exit -n".toList
  | skipped _ => none

end Piece

/-- What a round depends on besides the arguments, by the number of those left. -/
structure BatchHost where
  /-- Whether `malloc` gives the text of the command. -/
  granted : Nat → Bool
  /-- Whether the job and its copy of the text can be allocated; if not, nothing is run. -/
  queued : Nat → Bool
  /-- Whether the command, once it is run, comes back. -/
  returns : Nat → Text → Bool
  exits : ∀ count line flag, parse line = .leave flag → returns count line = false

/-- `none` when `strlen` gets the null pointer behind the last argument. -/
def nextPiece (host : BatchHost) (cmd : Text) (rest : List Text) : Option (Piece × List Text) :=
  match (rule cmd).tokensCount rest with
  | none => some (.exiting cmd, rest)
  | some 0 => some (.skipped [cmd], rest)
  | some (n + 1) =>
    if rest.length < n then none
    else
      let args := cmd :: rest.take n
      some (if host.granted (rest.length + 1) then .submitted args else .skipped args, rest.drop n)

def BatchHost.comesBack (host : BatchHost) (count : Nat) (piece : Piece) : Bool :=
  piece.line.all fun line => !host.queued count || host.returns count line

inductive BatchEnd
  | finished
  | nullRead
  /-- The command submitted last has ended the process. -/
  | left
  | running
deriving DecidableEq

def batchLoop (host : BatchHost) : Nat → List Text → List Piece × BatchEnd
  | _, [] => ([], .finished)
  | 0, _ :: _ => ([], .running)
  | fuel + 1, cmd :: rest =>
    match nextPiece host cmd rest with
    | none => ([], .nullRead)
    | some (piece, rest') =>
      if host.comesBack (rest.length + 1) piece then
        let later := batchLoop host fuel rest'
        (piece :: later.1, later.2)
      else ([piece], .left)

def batch (host : BatchHost) (args : List Text) : List Piece × BatchEnd :=
  let kept := parseVmArgs false args
  batchLoop host kept.length kept

def Rule.least : Rule → Option Nat
  | .fixed count => some count
  | .importDrive => some 3
  | _ => none

def Starved (cmd : Text) (rest : List Text) : Prop := ∃ n ∈ (rule cmd).least, rest.length + 1 < n

/-- The command ends the process with arguments left. -/
def Forsaken (host : BatchHost) (cmd : Text) (rest : List Text) : Prop :=
  ∃ piece rest', nextPiece host cmd rest = some (piece, rest') ∧ host.comesBack (rest.length + 1) piece = false ∧
    rest' ≠ []

variable {rest : List Text} {fuel : Nat}

theorem flagged_pos {flags : List String} (found : flagged flags rest) : 1 ≤ rest.length := by
  cases rest with
  | nil => cases found
  | cons arg rest => exact Nat.le_add_left 1 _

theorem named_pos (found : named rest) : 1 ≤ rest.length := by
  cases rest with
  | nil => cases found
  | cons arg rest => exact Nat.le_add_left 1 _

theorem tokensCount_exceeds_iff (r : Rule) (rest : List Text) :
    (∃ n, r.tokensCount rest = some n ∧ rest.length + 1 < n) ↔ ∃ n ∈ r.least, rest.length + 1 < n := by
  have within {n : Nat} (le : n ≤ rest.length + 1) (none : r.least = none) :
      (∃ m, some n = some m ∧ rest.length + 1 < m) ↔ ∃ m ∈ r.least, rest.length + 1 < m := by
    rw [none]
    refine iff_of_false ?_ (by simp)
    rintro ⟨m, same, more⟩
    rw [← some.inj same] at more
    omega
  cases r with
  | single => exact within (by omega) rfl
  | flag flags =>
    apply within ?_ rfl
    split_ifs with found
    · have := flagged_pos found
      omega
    · omega
  | exit flags =>
    rw [Rule.tokensCount]
    split_ifs with found
    · have := flagged_pos found
      exact within (by omega) rfl
    · simp [Rule.least]
  | disk =>
    apply within ?_ rfl
    split_ifs <;> omega
  | fixed count => simp [Rule.tokensCount, Rule.least]
  | path =>
    apply within ?_ rfl
    split_ifs with found
    · have := named_pos found
      omega
    · omega
  | write =>
    apply within ?_ rfl
    split_ifs <;> omega
  | importDrive =>
    simp only [Rule.tokensCount, Rule.least, some.injEq, mem_def, exists_eq_left']
    split_ifs <;> omega
  | addcluster =>
    apply within ?_ rfl
    split_ifs with found
    · rw [Bool.and_eq_true, decide_eq_true_eq] at found
      omega
    · omega
  | other =>
    apply within ?_ rfl
    have shorter := (takeWhile_sublist (l := rest) goesOn).length_le
    omega

variable (host : BatchHost)

theorem nextPiece_eq_none_iff (cmd : Text) (rest : List Text) :
    nextPiece host cmd rest = none ↔ Starved cmd rest := by
  rw [Starved, ← tokensCount_exceeds_iff, nextPiece]
  split
  next none => simp [none]
  next zero => simp [zero]
  next n count =>
    simp only [count, some.injEq, exists_eq_left']
    split_ifs with short
    · simp [short]
    · simp [short]

theorem nextPiece_some {host : BatchHost} {cmd : Text} {rest' : List Text} {piece : Piece}
    (next : nextPiece host cmd rest = some (piece, rest')) :
    piece.args ++ rest' = cmd :: rest ∧ rest'.length ≤ rest.length := by
  unfold nextPiece at next
  split at next
  next none =>
    obtain ⟨rfl, rfl⟩ := Prod.mk.inj (some.inj next)
    exact ⟨rfl, le_refl _⟩
  next zero =>
    obtain ⟨rfl, rfl⟩ := Prod.mk.inj (some.inj next)
    exact ⟨rfl, le_refl _⟩
  next n count =>
    have whole : (cmd :: rest.take n) ++ rest.drop n = cmd :: rest := by simp
    have fewer : (rest.drop n).length ≤ rest.length := by simp
    split_ifs at next with short given
    · obtain ⟨rfl, rfl⟩ := Prod.mk.inj (some.inj next)
      exact ⟨whole, fewer⟩
    · obtain ⟨rfl, rfl⟩ := Prod.mk.inj (some.inj next)
      exact ⟨whole, fewer⟩

/-- The rounds that are begun, each by the arguments left. -/
inductive Reached (host : BatchHost) : List Text → List Text → Prop
  | here (args : List Text) : Reached host args args
  | later {cmd : Text} {rest rest' left : List Text} {piece : Piece} :
    nextPiece host cmd rest = some (piece, rest') → host.comesBack (rest.length + 1) piece →
      Reached host rest' left → Reached host (cmd :: rest) left

theorem batchLoop_ends {args : List Text} (enough : args.length ≤ fuel) : (batchLoop host fuel args).2 ≠ .running := by
  induction fuel generalizing args with
  | zero =>
    obtain rfl := length_eq_zero_iff.mp (Nat.le_zero.mp enough)
    exact BatchEnd.noConfusion
  | succ fuel ih =>
    cases args with
    | nil => exact BatchEnd.noConfusion
    | cons cmd rest =>
      rw [batchLoop]
      cases next : nextPiece host cmd rest with
      | none => exact BatchEnd.noConfusion
      | some result =>
        rw [length_cons] at enough
        dsimp only
        split_ifs
        · exact ih ((nextPiece_some next).2.trans (by omega))
        · exact BatchEnd.noConfusion

theorem batchLoop_args (fuel : Nat) (args : List Text) :
    (batchLoop host fuel args).1.flatMap Piece.args <+: args ∧
      ((batchLoop host fuel args).2 = .nullRead → (batchLoop host fuel args).1.flatMap Piece.args ≠ args) := by
  induction fuel generalizing args with
  | zero =>
    cases args with
    | nil => exact ⟨prefix_refl [], BatchEnd.noConfusion⟩
    | cons cmd rest => exact ⟨List.nil_prefix, BatchEnd.noConfusion⟩
  | succ fuel ih =>
    cases args with
    | nil => exact ⟨prefix_refl [], BatchEnd.noConfusion⟩
    | cons cmd rest =>
      rw [batchLoop]
      cases next : nextPiece host cmd rest with
      | none => exact ⟨List.nil_prefix, fun _ => (cons_ne_nil _ _).symm⟩
      | some result =>
        obtain ⟨piece, rest'⟩ := result
        obtain ⟨first, cut⟩ := ih rest'
        rw [← (nextPiece_some next).1]
        dsimp only
        by_cases back : host.comesBack (rest.length + 1) piece
        · rw [if_pos back]
          simp only [flatMap_cons]
          exact ⟨(prefix_append_right_inj _).mpr first, fun ended same => cut ended (append_cancel_left same)⟩
        · rw [if_neg back, flatMap_singleton]
          exact ⟨prefix_append _ _, BatchEnd.noConfusion⟩

theorem batchLoop_through_iff {args : List Text} (enough : args.length ≤ fuel) :
    (batchLoop host fuel args).1.flatMap Piece.args = args ↔
      ∀ cmd rest, Reached host args (cmd :: rest) → ¬ Starved cmd rest ∧ ¬ Forsaken host cmd rest := by
  induction fuel generalizing args with
  | zero =>
    obtain rfl := length_eq_zero_iff.mp (Nat.le_zero.mp enough)
    exact iff_of_true rfl fun cmd rest reached => nomatch reached
  | succ fuel ih =>
    cases args with
    | nil => exact iff_of_true rfl fun cmd rest reached => nomatch reached
    | cons cmd rest =>
      rw [batchLoop]
      cases next : nextPiece host cmd rest with
      | none =>
        refine iff_of_false (by simp) fun fed => ?_
        exact (fed cmd rest (.here _)).1 ((nextPiece_eq_none_iff host cmd rest).mp next)
      | some result =>
        obtain ⟨piece, rest'⟩ := result
        obtain ⟨whole, fewer⟩ := nextPiece_some next
        have fed : ¬ Starved cmd rest := by
          rw [← nextPiece_eq_none_iff host, next]
          simp
        dsimp only
        split_ifs with back
        · rw [length_cons] at enough
          simp only [flatMap_cons]
          rw [← whole, append_right_inj, ih (fewer.trans (by omega)), whole]
          refine ⟨fun later name left reached => ?_,
            fun all name left reached => all name left (.later next back reached)⟩
          cases reached with
          | here =>
            refine ⟨fed, ?_⟩
            rintro ⟨piece', left', next', gone, _⟩
            obtain ⟨rfl, rfl⟩ := Prod.mk.inj (some.inj (next.symm.trans next'))
            rw [back] at gone
            cases gone
          | later next' _ reached =>
            obtain ⟨rfl, rfl⟩ := Prod.mk.inj (some.inj (next.symm.trans next'))
            exact later name left reached
        · rw [Bool.not_eq_true] at back
          rw [flatMap_singleton, ← whole, self_eq_append_right, whole]
          refine ⟨fun none name left reached => ?_, fun all => ?_⟩
          · cases reached with
            | here =>
              refine ⟨fed, ?_⟩
              rintro ⟨piece', left', next', _, some'⟩
              obtain ⟨rfl, rfl⟩ := Prod.mk.inj (some.inj (next.symm.trans next'))
              exact some' none
            | later next' back' _ =>
              obtain ⟨rfl, rfl⟩ := Prod.mk.inj (some.inj (next.symm.trans next'))
              rw [back] at back'
              cases back'
          · by_contra some'
            exact (all cmd rest (.here _)).2 ⟨piece, rest', next, back, some'⟩

theorem parseVmArgs_sublist (vmMode : Bool) (args : List Text) : (parseVmArgs vmMode args).Sublist args := by
  induction args generalizing vmMode with
  | nil => exact Sublist.refl []
  | cons arg args ih =>
    rw [parseVmArgs]
    split_ifs
    · exact (ih true).cons arg
    · exact (ih vmMode).cons arg
    · exact (ih vmMode).cons arg
    · exact (ih vmMode).cons arg
    · exact (ih vmMode).cons_cons arg

/-- Every allocation succeeds, and only `exit` and `version` end the process. -/
def quietHost : BatchHost where
  granted _ := true
  queued _ := true
  returns _ line := match parse line with
    | .leave _ => false
    | _ => true
  exits _ line flag leaves := by rw [leaves]

example : (batch quietHost ["-virtualization".toList, "-Y".toList, "dir".toList, "a".toList, "exit".toList]).1.map
    Piece.line = [some "dir a".toList, some "exit -n".toList] := by
  decide

end Flinstone.Shell
