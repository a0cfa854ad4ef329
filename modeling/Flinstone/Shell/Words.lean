import Flinstone.Fs.Sandbox
import Flinstone.Lib.Hex

/-!
# The words of a command line

`strtok`, `atoi` and `resolve_path`.
-/

namespace Flinstone.Shell
open Flinstone.Lib Flinstone.Fs List

def words (line : Text) : List Text := (line.splitOnP fun c => c = ' ' || c = '\t').filter (· ≠ [])

def strtol10 (str : Text) : Int :=
  let digits := fun s : Text => (s.takeWhile Char.isDigit).foldl (fun n c => 10 * n + (c.toNat - 48)) 0
  match str.dropWhile isspace with
  | '-' :: rest => -(digits rest : Nat)
  | '+' :: rest => (digits rest : Nat)
  | rest => (digits rest : Nat)

-- `(int)strtol(str, NULL, 10)` in the C library
def atoi (str : Text) : Int := longToInt (strtol10 str)

def segsMax : Nat := 64
def segSize : Nat := 256

def collectSegs : List Text → List Text → List Text
  | [], segs => segs
  | seg :: rest, segs =>
    if segs.length ≥ segsMax then segs
    else if seg = ['.', '.'] then collectSegs rest segs.tail
    else if seg = ['.'] then collectSegs rest segs
    else collectSegs rest (seg.take (segSize - 1) :: segs)

def joinSeg (outsize : Nat) (first : Bool) (out seg : Text) : Text :=
  if out.length ≥ outsize - 1 then out
  else
    let out := if !first && out ≠ [] then out ++ ['/'] else out
    if out.length + seg.length < outsize then out ++ seg else out

def joinSegs (outsize : Nat) (out : Text) : List Text → Text
  | [] => out
  | seg :: rest => rest.foldl (joinSeg outsize false) (joinSeg outsize true out seg)

def normalisePath (full : Text) (outsize : Nat) : Text :=
  let segs := collectSegs ((full.splitOnP (· = '/')).filter (· ≠ [])) []
  let out := joinSegs outsize (if full.head? = some '/' && 0 < outsize - 1 then ['/'] else []) segs.reverse
  if out = [] then ['.'] else out

def resolvePath (cwd path : Text) (outsize : Nat) : Text :=
  let size := cwdMax + 256
  if path.head? = some '/' then normalisePath (path.take (size - 1)) outsize
  else if path = [] || path = ['.'] then cwd.take (outsize - 1)
  else normalisePath ((cwd ++ '/' :: path).take (size - 1)) outsize

variable {outsize : Nat}

theorem joinSeg_fits (first : Bool) {out : Text} (seg : Text) (fits : out.length < outsize) :
    (joinSeg outsize first out seg).length < outsize := by
  have added : ∀ out : Text, out.length < outsize →
      (if out.length + seg.length < outsize then out ++ seg else out).length < outsize := by
    intro out fits
    split_ifs with room
    · rwa [length_append]
    · exact fits
  unfold joinSeg
  split_ifs with full
  · exact fits
  · refine added _ ?_
    rw [length_append, length_singleton]
    omega
  · exact added out fits

theorem normalisePath_fits (full : Text) (room : 1 < outsize) : (normalisePath full outsize).length < outsize := by
  have joined : ∀ (out : Text) (segs : List Text), out.length < outsize →
      (joinSegs outsize out segs).length < outsize := by
    intro out segs fits
    have rest : ∀ (segs : List Text) (out : Text), out.length < outsize →
        (segs.foldl (joinSeg outsize false) out).length < outsize := by
      intro segs
      induction segs with
      | nil => exact fun _ fits => fits
      | cons seg segs ih => exact fun out fits => ih _ (joinSeg_fits false seg fits)
    cases segs with
    | nil => exact fits
    | cons seg segs => exact rest segs _ (joinSeg_fits true seg fits)
  unfold normalisePath
  dsimp only
  split_ifs
  · exact room
  · exact joined _ _ (by simpa using room)
  · exact room
  · exact joined _ _ (by simp; omega)

theorem resolvePath_fits (cwd path : Text) (room : 1 < outsize) : (resolvePath cwd path outsize).length < outsize := by
  unfold resolvePath
  split_ifs
  · exact normalisePath_fits _ room
  · rw [length_take]
    omega
  · exact normalisePath_fits _ room

example : resolvePath "/home/a".toList "../b/./c//d".toList cwdMax = "/home/b/c/d".toList := by decide

end Flinstone.Shell
