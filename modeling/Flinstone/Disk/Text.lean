import Flinstone.Lib.Hex

/-!
# The text disk

The host side of `disk.c`, `disk_asm.c` and `cluster.c`.
-/

namespace Flinstone.Disk
open Flinstone.Lib

structure TextDisk where
  file : Option Text
  clusterSize : Nat
  totalClusters : Nat
  deriving DecidableEq

def scanLines (size : Nat) (text : Text) : List Text := (fgetsAll size text).map cstr

def numberedFrom {α : Type} (f : Text → Option α) (start : Nat) (lines : List Text) : List (α × Nat) :=
  (lines.zipIdx start).filterMap fun line => (f line.1).map (·, line.2)

def numbered {α : Type} (f : Text → Option α) (lines : List Text) : List (α × Nat) := numberedFrom f 0 lines

def keptLine (line : Text) : Option Text :=
  let trim := trimWhitespace line
  if trim = [] then none
  else if "XX:".toList.isPrefixOf trim then none
  else some trim

def hexPart (trim : Text) : Option Text := (strchrRest ':' trim).map trimWhitespace

def countedSize (line : Text) : Option Nat :=
  match (keptLine line).bind hexPart with
  | none => none
  | some hexData => if hexData.length % 2 ≠ 0 then none else some (hexData.length / 2)

def countedLines (text : Text) : List (Nat × Nat) := numbered countedSize (scanLines 256 text)

def readDiskHeader (d : TextDisk) : TextDisk :=
  match d.file with
  | none => d
  | some text =>
    match (countedLines text).getLast? with
    | none => d
    | some (detectedSize, _) =>
      { d with totalClusters := (countedLines text).length, clusterSize := detectedSize }

def keptLines (size : Nat) (text : Text) : List (Text × Nat) := numbered keptLine (scanLines size text)

def loadBytes (clusterSize : Nat) (hexData : Text) : Option (List Octet) :=
  let nBytes := min (clusterSize * 2) hexData.length / 2
  if clusterSize > 512 then none
  else some (decodeHex nBytes hexData ++ List.replicate (clusterSize - hexData.length / 2) 0)

def diskAsmReadCluster (d : TextDisk) (cluIndex : Int) : Option (List Octet) :=
  if cluIndex < 0 ∨ cluIndex ≥ d.totalClusters then none
  else
    match d.file with
    | none => none
    | some text =>
      (((keptLines 512 text)[cluIndex.toNat]?).bind fun line => hexPart line.1).bind (loadBytes d.clusterSize)

structure ClusterDetail where
  hexData : Text
  bytes : List Octet
  ascii : Text
  used : Nat
  short : Bool
  deriving DecidableEq

def isprint (b : Octet) : Bool := 32 ≤ b.toNat && b.toNat ≤ 126

def detailBytes (clusterSize : Nat) (hexData : Text) : List Octet :=
  (List.range clusterSize).map fun i =>
    if 2 * i + 1 < hexData.length then
      byteOf (hexData.getD (2 * i) '\x00') (hexData.getD (2 * i + 1) '\x00')
    else byteOf '0' '0'

def detailOf (clusterSize : Nat) (hexData : Text) : ClusterDetail :=
  let bytes := detailBytes clusterSize hexData
  { hexData, bytes
    ascii := bytes.map fun b => if isprint b then Char.ofNat b.toNat else '.'
    used := bytes.countP (· ≠ 0)
    short := hexData.length < clusterSize * 2 }

-- `none` where the source prints that there is no such cluster
def showDiskDetailForCluster (d : TextDisk) (clu : Int) : Option ClusterDetail :=
  match d.file with
  | none => none
  | some text =>
    -- `currentClu` counts up from 0, so no line has a negative number
    if clu < 0 then none
    else (((keptLines 256 text)[clu.toNat]?).bind fun line => hexPart line.1).map (detailOf d.clusterSize)

def rulerDigits (len : Nat) : Text :=
  (List.range len).map fun i => "0123456789ABCDEF".toList.getD (i % 16) '0'

def rulerLine (clusterSize : Nat) : Text := "XX:".toList ++ rulerDigits (clusterSize * 2)

-- `"%02X:%s"`
def clusterLine (i : Nat) (hexData : Text) : Text := hex02 i ++ ':' :: hexData

def blankLine (clusterSize i : Nat) : Text := clusterLine i (List.replicate (clusterSize * 2) '0')

-- `fprintf(fp, "%s\n", line)` for each
def printLines (lines : List Text) : Text := lines.flatMap (· ++ ['\n'])

def replacedLines (d : TextDisk) : List (Text × Nat) :=
  match d.file with
  | none => []
  | some text => ((scanLines 256 text).zipIdx.drop 1).take d.totalClusters

-- `buf[strcspn(buf, "\n")] = '\0'`
def cutNewline (buf : Text) : Text := buf.takeWhile (· ≠ '\n')

def oldClusters (d : TextDisk) : List Text :=
  let read := (replacedLines d).map fun line => cutNewline line.1
  read ++ (List.range' read.length (d.totalClusters - read.length)).map (blankLine d.clusterSize)

def reprint (d : TextDisk) (clusters : List Text) : TextDisk where
  file := some (printLines (rulerLine d.clusterSize :: clusters))
  clusterSize := d.clusterSize
  totalClusters := d.totalClusters

def updateClusterLine (d : TextDisk) (clu : Int) (hexData : Text) : TextDisk :=
  if clu < 0 ∨ clu ≥ d.totalClusters then d
  else
    -- `char newLine[256]`
    let newLine := (clusterLine clu.toNat hexData).take 255
    readDiskHeader (reprint d ((oldClusters d).set clu.toNat newLine))

-- `(int)strlen(data)`
def strlenInt (data : Text) : Int := (BitVec.ofNat 32 data.length).toInt

def counted (data : Text) : Text := data.take (strlenInt data).toNat

def textPair (data : Text) (i : Nat) : Text :=
  if i < data.length then hex02 ((data.getD i '\x00').toNat % 256) else ['0', '0']

def convertDataToHex (data : Text) (inputIsText : Bool) (clusterSize : Nat) : Text :=
  if inputIsText then (List.range clusterSize).flatMap (textPair (counted data))
  else (counted data).take (clusterSize * 2) ++ List.replicate (clusterSize * 2 - (counted data).length) '0'

def diskAsmWriteCluster (d : TextDisk) (cluIndex : Int) (buf : List Octet) : Int × TextDisk :=
  if cluIndex < 0 ∨ cluIndex ≥ d.totalClusters then (-1, d)
  else (0, updateClusterLine d cluIndex (hexBytes (buf.take d.clusterSize)))

def importedLine (line : Text) : Option (Nat × Text) :=
  match keptLine line with
  | none => none
  | some trim =>
    match hexPart trim with
    | none => none
    | some hexData =>
      let clusterIndex := strtolInt16 (trimWhitespace (trim.takeWhile (· ≠ ':')))
      if clusterIndex < 0 ∨ clusterIndex > 65535 then none
      else if hexData.length < 2 then none
      else some (clusterIndex.toNat, hexData)

/-- `linesStorage`: of two lines with one index the later stays. -/
def linesStorage (text : Text) (i : Nat) : Option Text :=
  (((scanLines 256 text).filterMap importedLine).reverse.find? (·.1 = i)).map Prod.snd

def importGeometry (stored : Nat → Option Text) : Option (Nat × Nat) → Nat × Nat
  | some override => override
  | none =>
    match stored 0 with
    | none => (32, 32)
    | some first => ((List.range 65536).countP fun i => (stored i).isSome, first.length / 2)

def importTextDrive (text : Text) (override : Option (Nat × Nat)) : Text :=
  let stored := linesStorage text
  let geometry := importGeometry stored override
  printLines (rulerLine geometry.2 :: (List.range geometry.1).map fun c =>
      clusterLine c ((stored c).getD (List.replicate (geometry.2 * 2) '0')))

end Flinstone.Disk
