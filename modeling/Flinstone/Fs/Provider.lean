import Flinstone.Fs.Jail

/-!
# The local provider

`fs_provider.c`.
-/

namespace Flinstone.Fs
open Flinstone.Lib

def fsPathMax : Nat := 256

/-- Each round is on a shorter path, so `fsPathMax` rounds are enough. -/
def mkdirParents : Nat → Text → World → Int × World
  | 0, _, w => (0, w)
  | fuel + 1, path, w =>
    match cutLast '/' (path.take (fsPathMax - 1)) with
    | none | some [] => (0, w)
    | some tmp =>
      if w.stat tmp = some .dir then (0, w)
      else
        let made := mkdirParents fuel tmp w
        if made.1 ≠ 0 then (-1, made.2)
        else match made.2.mkdir tmp with
          | some w => (0, w)
          | none => (-1, made.2)

def localPathOk (j : Jail) (w : World) (pathForJail : Text) : Int :=
  if !j.isActive then 0 else if j.checkPath w pathForJail ≠ 0 then -1 else 0

def localReadText (j : Jail) (w : World) (path : Text) (bufsiz : Nat) : Option Text :=
  if localPathOk j w path ≠ 0 then none else (w.readFile path).map (·.take (bufsiz - 1))

def result (w : World) : Option World → Int × World
  | some w => (0, w)
  | none => (-1, w)

def localWriteText (j : Jail) (w : World) (path content : Text) : Int × World :=
  if localPathOk j w path ≠ 0 then (-1, w) else result w (w.writeFile path content)

def localCreateFile (j : Jail) (w : World) (path : Text) : Int × World :=
  if localPathOk j w path ≠ 0 then (-1, w)
  else
    let made := (mkdirParents fsPathMax path w).2
    result made (made.writeFile path [])

def localCreateDir (j : Jail) (w : World) (path : Text) : Int × World :=
  if localPathOk j w path ≠ 0 then (-1, w)
  else
    let made := (mkdirParents fsPathMax path w).2
    result made (made.mkdir path)

def localDelete (j : Jail) (w : World) (path : Text) : Int × World :=
  if localPathOk j w path ≠ 0 then (-1, w)
  else match w.stat path with
    | none => (-1, w)
    | some .dir => result w (w.rmdir path)
    | some _ => result w (w.unlink path)

def localMove (j : Jail) (w : World) (src dst : Text) : Int × World :=
  if localPathOk j w src ≠ 0 then (-1, w)
  else if localPathOk j w dst ≠ 0 then (-1, w)
  else result w (w.rename src dst)

inductive Call
  | createFile (path : Text)
  | createDir (path : Text)
  | writeText (path content : Text)
  | delete (path : Text)
  | move (src dst : Text)

namespace Call

def run (j : Jail) (w : World) : Call → Int × World
  | createFile path => localCreateFile j w path
  | createDir path => localCreateDir j w path
  | writeText path content => localWriteText j w path content
  | delete path => localDelete j w path
  | move src dst => localMove j w src dst

def paths : Call → List Text
  | createFile path | createDir path | writeText path _ | delete path => [path]
  | move src dst => [src, dst]

end Call

end Flinstone.Fs
