import Flinstone.Fs.Provider

/-!
# The file manager service

`fs_facade.c`, `fs_command.c` and `fs_policy.c`.
-/

namespace Flinstone.Fs
open Flinstone.Lib

def fsPolicyMaxProtected : Nat := 16

def protectedAdd (stored : List Text) (path : Text) : List Text :=
  if stored.length ≥ fsPolicyMaxProtected then stored else stored ++ [path.take (fsPathMax - 1)]

/-- `strncmp(path, protected, len) == 0` and the path ends or goes on with a slash there. -/
def matchesProtected (path stored : Text) : Bool :=
  stored.isPrefixOf path &&
    ((path.drop stored.length).head? = none || (path.drop stored.length).head? = some '/')

def protectedCanWrite (stored : List Text) (path : Text) : Bool := !stored.any (matchesProtected path)

def protectedCanDelete (stored : List Text) (path : Text) : Bool := protectedCanWrite stored path

def chainRun : List (Text → Int) → Text → Int
  | [], _ => 0
  | validate :: next, path => if validate path ≠ 0 then validate path else chainRun next path

def cmdStrMax : Nat := 4096

inductive Command
  | createFile (path : Text)
  | createDir (path : Text)
  | delete (path : Text)
  | move (path path2 : Text)
  | write (path newContent : Text) (oldContent : Option Text)
deriving DecidableEq

def pathField (path : Text) : Text := path.take (fsPathMax - 1)

namespace Command

def execute (j : Jail) (w : World) : Command → (Int × World) × Command
  | createFile path => (localCreateFile j w path, createFile path)
  | createDir path => (localCreateDir j w path, createDir path)
  | delete path => (localDelete j w path, delete path)
  | move path path2 => (localMove j w path path2, move path path2)
  | write path newContent oldContent =>
    let read := (localReadText j w path cmdStrMax).map cstr
    (localWriteText j w path newContent, write path newContent (read.or oldContent))

def undo (j : Jail) (w : World) : Command → Int × World
  | createFile path => localDelete j w path
  | createDir path => localDelete j w path
  | delete _ => (-1, w)
  | move path path2 => localMove j w path2 path
  | write path _ oldContent =>
    match oldContent with
    | none => (-1, w)
    | some old => localWriteText j w path old

end Command

def fsUndoStackMax : Nat := 32

structure Service where
  world : World
  policy : Option (List Text)
  undoStack : List Command

namespace Service

def checkPolicyDelete (s : Service) (path : Text) : Int :=
  match s.policy with
  | none => 0
  | some stored => if protectedCanDelete stored path then 0 else -1

def checkPolicyWrite (s : Service) (path : Text) : Int :=
  match s.policy with
  | none => 0
  | some stored => if protectedCanWrite stored path then 0 else -1

def pushUndo (s : Service) (cmd : Command) : Service :=
  if s.undoStack.length < fsUndoStackMax then { s with undoStack := cmd :: s.undoStack } else s

def perform (j : Jail) (s : Service) (cmd : Command) : Int × Service :=
  let done := cmd.execute j s.world
  let s := { s with world := done.1.2 }
  if done.1.1 = 0 then (0, s.pushUndo done.2) else (done.1.1, s)

theorem perform_world (j : Jail) (s : Service) (cmd : Command) :
    (s.perform j cmd).2.world = (cmd.execute j s.world).1.2 := by
  unfold perform
  dsimp only
  split_ifs
  · unfold pushUndo
    split_ifs <;> rfl
  · rfl

def fmSaveText (j : Jail) (s : Service) (path content : Text) : Int × Service :=
  if chainRun [s.checkPolicyWrite] path ≠ 0 then (-1, s)
  else s.perform j (.write (pathField path) (cstr content) none)

def fmCreateFile (j : Jail) (s : Service) (path : Text) : Int × Service := s.perform j (.createFile (pathField path))

def fmCreateDir (j : Jail) (s : Service) (path : Text) : Int × Service := s.perform j (.createDir (pathField path))

def fmDelete (j : Jail) (s : Service) (path : Text) : Int × Service :=
  if chainRun [s.checkPolicyDelete] path ≠ 0 then (-1, s)
  else
    let done := (Command.delete (pathField path)).execute j s.world
    (done.1.1, { s with world := done.1.2 })

def fmMove (j : Jail) (s : Service) (src dst : Text) : Int × Service :=
  s.perform j (.move (pathField src) (pathField dst))

def fmUndo (j : Jail) (s : Service) : Int × Service :=
  match s.undoStack with
  | [] => (-1, s)
  | cmd :: rest =>
    let undone := cmd.undo j s.world
    (undone.1, { s with world := undone.2, undoStack := rest })

def fmUndoAvailable (s : Service) : Nat := s.undoStack.length

end Service

inductive Op
  | save (path content : Text)
  | createFile (path : Text)
  | createDir (path : Text)
  | delete (path : Text)
  | move (src dst : Text)
  | undo
deriving DecidableEq

def Op.run (j : Jail) (s : Service) : Op → Int × Service
  | save path content => s.fmSaveText j path content
  | createFile path => s.fmCreateFile j path
  | createDir path => s.fmCreateDir j path
  | delete path => s.fmDelete j path
  | move src dst => s.fmMove j src dst
  | undo => s.fmUndo j

def history (j : Jail) (s : Service) (ops : List Op) : Service := ops.foldl (fun s op => (op.run j s).2) s

end Flinstone.Fs
