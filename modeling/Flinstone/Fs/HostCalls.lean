import Flinstone.Fs.Facade
import Flinstone.Fs.Removal

/-! # The host calls that an operation makes -/

namespace Flinstone.Fs
open Flinstone.Lib List

inductive HostCall
  | mkdir (path : Text)
  | write (path bytes : Text)
  | append (path bytes : Text)
  | unlink (path : Text)
  | rmdir (path : Text)
  | remove (path : Text)
  | rename (old new : Text)
deriving DecidableEq

namespace HostCall

def run (w : World) : HostCall → Option World
  | mkdir path => w.mkdir path
  | write path bytes => w.writeFile path bytes
  | append path bytes => w.appendFile path bytes
  | unlink path => w.unlink path
  | rmdir path => w.rmdir path
  | remove path => w.remove path
  | rename old new => w.rename old new

def paths : HostCall → List Text
  | mkdir path | write path _ | append path _ | unlink path | rmdir path | remove path => [path]
  | rename old new => [old, new]

end HostCall

def replay (w : World) (calls : List HostCall) : World := calls.foldl (fun w call => (call.run w).getD w) w

variable (w : World)

theorem replay_append (first second : List HostCall) :
    replay w (first ++ second) = replay (replay w first) second := foldl_append ..

theorem result_replay (call : HostCall) : (result w (call.run w)).2 = replay w [call] := by
  show _ = (call.run w).getD w
  cases call.run w with
  | none => rfl
  | some w' => rfl

def mkdirParentsCalls : Nat → Text → World → List HostCall
  | 0, _, _ => []
  | fuel + 1, path, w =>
    match cutLast '/' (path.take (fsPathMax - 1)) with
    | none | some [] => []
    | some tmp =>
      if w.stat tmp = some .dir then []
      else mkdirParentsCalls fuel tmp w ++ if (mkdirParents fuel tmp w).1 ≠ 0 then [] else [.mkdir tmp]

def Call.calls (j : Jail) (w : World) : Call → List HostCall
  | .writeText path content => if localPathOk j w path ≠ 0 then [] else [.write path content]
  | .createFile path =>
    if localPathOk j w path ≠ 0 then [] else mkdirParentsCalls fsPathMax path w ++ [.write path []]
  | .createDir path =>
    if localPathOk j w path ≠ 0 then [] else mkdirParentsCalls fsPathMax path w ++ [.mkdir path]
  | .delete path =>
    if localPathOk j w path ≠ 0 then []
    else match w.stat path with
      | none => []
      | some .dir => [.rmdir path]
      | some _ => [.unlink path]
  | .move src dst =>
    if localPathOk j w src ≠ 0 then [] else if localPathOk j w dst ≠ 0 then [] else [.rename src dst]

theorem mkdirParents_replay (fuel : Nat) (path : Text) (w : World) :
    (mkdirParents fuel path w).2 = replay w (mkdirParentsCalls fuel path w) := by
  induction fuel generalizing path with
  | zero => rfl
  | succ fuel ih =>
    rw [mkdirParents, mkdirParentsCalls]
    cases cutLast '/' (path.take (fsPathMax - 1)) with
    | none => rfl
    | some tmp =>
      cases tmp with
      | nil => rfl
      | cons c tmp =>
        dsimp only
        split_ifs
        · rfl
        · rw [append_nil, ← ih]
        · rw [replay_append, ← ih]
          show _ = (World.mkdir _ (c :: tmp)).getD _
          cases World.mkdir _ (c :: tmp) with
          | none => rfl
          | some w' => rfl

theorem call_replay (j : Jail) (w : World) (call : Call) : (call.run j w).2 = replay w (call.calls j w) := by
  cases call with
  | writeText path content =>
    rw [Call.run, localWriteText, Call.calls]
    split_ifs
    · rfl
    · exact result_replay w (.write path content)
  | createFile path =>
    rw [Call.run, localCreateFile, Call.calls]
    split_ifs
    · rfl
    · rw [replay_append, ← mkdirParents_replay]
      exact result_replay _ (.write path [])
  | createDir path =>
    rw [Call.run, localCreateDir, Call.calls]
    split_ifs
    · rfl
    · rw [replay_append, ← mkdirParents_replay]
      exact result_replay _ (.mkdir path)
  | delete path =>
    rw [Call.run, localDelete, Call.calls]
    split_ifs
    · rfl
    · cases w.stat path with
      | none => rfl
      | some x =>
        cases x with
        | dir => exact result_replay w (.rmdir path)
        | file bytes => exact result_replay w (.unlink path)
        | link target => exact result_replay w (.unlink path)
  | move src dst =>
    rw [Call.run, localMove, Call.calls]
    split_ifs
    · rfl
    · rfl
    · exact result_replay w (.rename src dst)

def Command.call : Command → Call
  | .createFile path => .createFile path
  | .createDir path => .createDir path
  | .delete path => .delete path
  | .move path path2 => .move path path2
  | .write path newContent _ => .writeText path newContent

def Command.undoCall : Command → Option Call
  | .createFile path | .createDir path => some (.delete path)
  | .delete _ => none
  | .move path path2 => some (.move path2 path)
  | .write path _ oldContent => oldContent.map (.writeText path)

def Op.call (s : Service) : Op → Option Call
  | .save path content =>
    if chainRun [s.checkPolicyWrite] path ≠ 0 then none
    else some (.writeText (pathField path) (cstr content))
  | .createFile path => some (.createFile (pathField path))
  | .createDir path => some (.createDir (pathField path))
  | .delete path =>
    if chainRun [s.checkPolicyDelete] path ≠ 0 then none else some (.delete (pathField path))
  | .move src dst => some (.move (pathField src) (pathField dst))
  | .undo => s.undoStack.head?.bind Command.undoCall

def Op.calls (j : Jail) (s : Service) (op : Op) : List HostCall :=
  match op.call s with
  | none => []
  | some call => call.calls j s.world

theorem execute_call (j : Jail) (w : World) (cmd : Command) : (cmd.execute j w).1 = cmd.call.run j w := by
  cases cmd <;> rfl

theorem undo_replay (j : Jail) (w : World) (cmd : Command) :
    (cmd.undo j w).2 = replay w ((cmd.undoCall.map (·.calls j w)).getD []) := by
  cases cmd with
  | createFile path => exact call_replay j w (.delete path)
  | createDir path => exact call_replay j w (.delete path)
  | delete path => rfl
  | move path path2 => exact call_replay j w (.move path2 path)
  | write path content old =>
    cases old with
    | none => rfl
    | some text => exact call_replay j w (.writeText path text)

theorem op_replay (j : Jail) (s : Service) (op : Op) : (op.run j s).2.world = replay s.world (op.calls j s) := by
  have performed : ∀ cmd, (s.perform j cmd).2.world = replay s.world (cmd.call.calls j s.world) := by
    intro cmd
    rw [Service.perform_world, execute_call, call_replay]
  cases op with
  | save path content =>
    rw [Op.run, Service.fmSaveText, Op.calls, Op.call]
    split_ifs
    · rfl
    · exact performed _
  | createFile path => exact performed _
  | createDir path => exact performed _
  | delete path =>
    rw [Op.run, Service.fmDelete, Op.calls, Op.call]
    split_ifs
    · rfl
    · exact call_replay j s.world (.delete (pathField path))
  | move src dst => exact performed _
  | undo =>
    rw [Op.run, Service.fmUndo, Op.calls, Op.call]
    cases stack : s.undoStack with
    | nil => rfl
    | cons cmd rest =>
      have undone := undo_replay j s.world cmd
      rw [head?_cons, Option.bind_some]
      cases called : cmd.undoCall with
      | none =>
        rw [called] at undone
        exact undone
      | some call =>
        rw [called] at undone
        exact undone

def removalCalls (host : Host) (w : World) (d : Text) : List HostCall :=
  let found := scanDir host w host.openMax d 0
  if sortDies host found then []
  else
    let entries := host.qsort found
    (entries.filter (!·.isDir)).map (fun e => .remove e.path) ++
      (entries.filter (·.isDir)).map (fun e => .rmdir e.path) ++ [.rmdir d]

theorem removeFiles_replay (entries : List Entry) :
    removeFiles w entries = replay w ((entries.filter (!·.isDir)).map fun e => .remove e.path) := by
  induction entries generalizing w with
  | nil => rfl
  | cons e entries ih =>
    rw [removeFiles, foldl_cons, ← removeFiles, ih]
    cases dir : e.isDir with
    | true => simp [dir]
    | false => simp [dir, replay, HostCall.run]

theorem removeDirs_replay (entries : List Entry) :
    removeDirs w entries = replay w ((entries.filter (·.isDir)).map fun e => .rmdir e.path) := by
  induction entries generalizing w with
  | nil => rfl
  | cons e entries ih =>
    rw [removeDirs, foldl_cons, ← removeDirs, ih]
    cases dir : e.isDir with
    | true => simp [dir, replay, HostCall.run]
    | false => simp [dir]

theorem removal_replay (host : Host) (w : World) (d : Text) :
    (removeDirectoryRecursive host w d).2 = replay w (removalCalls host w d) := by
  rw [removeDirectoryRecursive, removalCalls]
  dsimp only
  split_ifs
  · rfl
  · rw [replay_append, replay_append, ← removeFiles_replay, ← removeDirs_replay]
    show _ = (World.rmdir _ d).getD _
    cases World.rmdir _ d with
    | none => rfl
    | some w' => rfl

end Flinstone.Fs
