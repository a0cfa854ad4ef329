import Flinstone.Shell.Session

/-!
# The command interpreter

`execute_command_str`.
-/

namespace Flinstone.Shell
open Flinstone.Lib Flinstone.Fs

inductive Cmd
  | nothing
  | usage
  | display
  /-- `exit` and `version`, with `-y` or `-n`. -/
  | leave (deleteHistory : Option Bool)
  | cc
  | make (filename : Text)
  | cd (dir : Option Text)
  | createdisk (volume : Text) (rowCount nibbleCount : Nat)
  | format (file volume : Text) (rowCount nibbleCount : Nat)
  | setdisk (file : Text)
  | listclusters
  /-- `dir`, `listdirs`, `type` and `cat`. -/
  | look (path : Text)
  | du
  | writecluster (clu : Int) (data : Text) (inputIsText : Bool)
  | delcluster (clu : Int)
  | update (clu : Int) (data : Text) (inputIsText : Bool)
  | redirect (filename : Option Text)
  | initdisk (count size : Nat)
  | rerun (index : Nat)
  | importDrive (src dst : Text) (geometry : Option (Nat × Nat))
  | mkdir (dir : Text)
  | rmdir (dir : Text)
  | rmtree (dir : Text)
  | write (file content : Text)
  | mv (src dst : Text)
  | addcluster (data : Option (Text × Bool))
  | external
deriving DecidableEq

def diskGeometry (rows nibbles : Text) : Option (Nat × Nat) :=
  let rowCount := atoi rows
  let nibbleCount := atoi nibbles
  if rowCount ≤ 0 ∨ nibbleCount ≤ 0 ∨ nibbleCount % 2 ≠ 0 then none
  else some (rowCount.toNat, nibbleCount.toNat)

def clusterGeometry (count size : Text) : Option (Nat × Nat) :=
  let newCount := atoi count
  let newSize := atoi size
  if newCount ≤ 0 ∨ newSize ≤ 0 ∨ newCount > 65535 ∨ newSize > 65535 then none
  else some (newCount.toNat, newSize.toNat)

def leaveFlag (flag : Text) : Cmd :=
  if flag = "-y".toList ∨ flag = "-Y".toList then .leave (some true)
  else if flag = "-n".toList ∨ flag = "-N".toList then .leave (some false)
  else .usage

def dispatch (name : Text) (args : List Text) : Cmd :=
  match String.ofList name, args with
  | "cd", [] => .cd none
  | "cd", dir :: _ => .cd (some dir)
  | "createdisk", volume :: rows :: nibbles :: _ =>
    match diskGeometry rows nibbles with
    | none => .usage
    | some (rowCount, nibbleCount) => .createdisk volume rowCount nibbleCount
  | "createdisk", _ => .usage
  | "format", file :: volume :: rows :: nibbles :: _ =>
    match diskGeometry rows nibbles with
    | none => .usage
    | some (rowCount, nibbleCount) => .format file volume rowCount nibbleCount
  | "format", _ => .usage
  | "setdisk", file :: _ => .setdisk file
  | "setdisk", [] => .usage
  | "version", [] => .leave none
  | "version", flag :: _ => leaveFlag flag
  | "listclusters", _ => .listclusters
  | "listdirs", _ => .look ['.']
  | "search", [] => .usage
  | "search", _ => .display
  | "writecluster", clu :: flag :: data :: _ => .writecluster (atoi clu) data (flag = "-t".toList)
  | "writecluster", _ => .usage
  | "delcluster", clu :: _ => .delcluster (atoi clu)
  | "delcluster", [] => .usage
  | "update", clu :: flag :: data :: _ => .update (atoi clu) data (flag = "-t".toList)
  | "update", _ => .usage
  | "type", file :: _ => .look file
  | "type", [] => .usage
  | "redirect", file :: _ => .redirect (if file = "off".toList then none else some file)
  | "redirect", [] => .usage
  | "initdisk", count :: size :: _ =>
    match clusterGeometry count size with
    | none => .usage
    | some (newCount, newSize) => .initdisk newCount newSize
  | "initdisk", _ => .usage
  | "rerun", index :: _ => if atoi index ≤ 0 then .usage else .rerun (atoi index).toNat
  | "rerun", [] => .usage
  | "import", [src, dst] => .importDrive src dst none
  | "import", [src, dst, count, size] =>
    match clusterGeometry count size with
    | none => .usage
    | some geometry => .importDrive src dst (some geometry)
  | "import", _ => .usage
  | "du", mode :: _ => if mode = "dtl".toList then .display else .du
  | "du", [] => .du
  | "printdisk", _ => .display
  | "dir", path :: _ => .look (if path.head? = some '-' then ['.'] else path)
  | "dir", [] => .look ['.']
  | "mkdir", dir :: _ => .mkdir dir
  | "mkdir", [] => .usage
  | "rmdir", dir :: _ => .rmdir dir
  | "rmdir", [] => .usage
  | "rmtree", dir :: _ => .rmtree dir
  | "rmtree", [] => .usage
  | "cat", file :: _ => .look file
  | "cat", [] => .usage
  -- a line of 511 characters fits the 4096 of `content`
  | "write", file :: word :: more => .write file ([' '].intercalate (word :: more))
  | "write", _ => .usage
  | "mv", src :: dst :: _ => .mv src dst
  | "mv", _ => .usage
  | "where", _ | "loc", _ => .display
  | "addcluster", flag :: data :: _ => .addcluster (some (data, flag = "-t".toList || flag = "-h".toList))
  | "addcluster", _ => .addcluster none
  | _, _ => .external

def parse (line : Text) : Cmd :=
  let buffer := line.take 511
  let trimmed := trimWhitespace buffer
  if "exit".toList.isPrefixOf trimmed then
    match words trimmed with
    | _ :: flag :: _ => leaveFlag flag
    | _ => .leave none
  else if trimmed ∈ ["clear".toList, "help".toList, "history".toList, "his".toList] then .display
  else if trimmed = "cc".toList then .cc
  else if "bios".toList.isPrefixOf trimmed && (trimmed.length = 4 || (trimmed.drop 4).head? = some ' ') then
    .display
  else if "make ".toList.isPrefixOf trimmed then .make (trimWhitespace (trimmed.drop 5))
  else match (words buffer).take 63 with
    | [] => .nothing
    | name :: args => dispatch name args

/-- What reaches the shell from outside with a command. -/
structure Input where
  line : Text
  tty : Bool
  stdin : Text
  /-- The bytes `rand` gives to a format. -/
  rand : Nat → Nat → Octet
  output : Option (Loc × Text)

namespace Input

def fileLines (input : Input) : List Text :=
  ((Disk.scanLines 256 input.stdin).map Disk.cutNewline).takeWhile (· ≠ "EOF".toList)

def makeContent (input : Input) : Text :=
  input.fileLines.foldl (fun content buf =>
    if content.length + buf.length + 2 < 4096 then content ++ buf ++ ['\n'] else content) []

def saysYes (input : Input) : Bool :=
  input.tty && match (Disk.scanLines 10 input.stdin).head? with
    | none => false
    | some response => Disk.cutNewline response = ['y'] || Disk.cutNewline response = ['Y']

end Input

namespace Session

def changeDir (s : Session) (resolved : Text) : Int × Session :=
  match getcwd s.world true cwdMax with
  | none => (1, s)
  | some oldcwd =>
    match s.world.chdir resolved with
    | none => (1, s)
    | some w =>
      let cwd := (getcwd w true cwdMax).getD (resolved.take (cwdMax - 1))
      let check := (s.enter w cwd).jailBlockedPath cwd
      if !check.1 then (0, check.2)
      else match check.2.world.chdir oldcwd with
        | none => (1, check.2)
        | some w => (1, check.2.enter w oldcwd)

def flush (s : Session) : Option (Loc × Text) → Session
  | some (n :: d, text) =>
    match file : s.world.tree.node (n :: d) with
    | some (.file _) =>
      s.setWorld (s.world.put d n (.file text) (s.world.tree.parent n d (by rw [file]; rfl)) (by rw [file]; simp))
    | _ => s
  | _ => s

end Session

/-- Every command but `rerun`. The interactive shell that `createdisk -y` starts reads the lines that
follow. -/
def Cmd.run (host : Host) (input : Input) (s : Session) : Cmd → Int × Session
  | nothing => (0, s)
  | usage => (1, s)
  | display => (0, s)
  | leave deleteHistory =>
    let s := if deleteHistory.getD input.saysYes then (s.act (.unlink historyFile)).2 else s
    (0, s.stop)
  | cc => (0, (s.act (.remove historyFile)).2)
  | make filename =>
    if filename = [] then (0, s)
    else
      let rpath := s.resolve filename
      s.guarded rpath fun s =>
        if s.ready then
          (0, ((s.manage (.createFile rpath)).2.manage (.save rpath input.makeContent)).2)
        else (0, (s.act (.write rpath (Disk.printLines input.fileLines))).2)
  | cd none => (0, s)
  | cd (some dir) =>
    let resolved := s.resolve dir
    s.guarded resolved fun s => s.changeDir resolved
  | createdisk volume rowCount nibbleCount =>
    s.formatDisk (Disk.flintstoneFormatDisk input.rand volume rowCount nibbleCount) (volume ++ "_disk.txt".toList)
  | format file volume rowCount nibbleCount =>
    let fpath := s.resolve file
    s.guarded fpath fun s =>
      s.formatDisk ((Disk.formatDiskFile input.rand volume rowCount nibbleCount).map (Prod.mk fpath)) fpath
  | setdisk file =>
    let spath := s.resolve file
    s.guarded spath fun s =>
      match s.world.readFile spath with
      | none => (1, s)
      | some _ => (0, (s.setDiskFile spath).readDiskHeader)
  | listclusters => (0, s.readDiskHeader)
  | look path => s.guarded (s.resolve path) fun s => (0, s)
  | du =>
    match s.world.readFile s.currentDiskFile with
    | none | some [] => (1, s)
    | some _ => (0, s)
  | writecluster clu data inputIsText => (0, s.processWriteCluster clu data inputIsText)
  | delcluster clu => (0, s.deleteCluster clu)
  | update clu data inputIsText =>
    if clu < 0 ∨ clu ≥ s.totalClusters then (1, s)
    else (0, (s.deleteCluster clu).processWriteCluster clu data inputIsText)
  | redirect none => (0, s)
  | redirect (some filename) =>
    let rpath := s.resolve filename
    -- `do_redirect_output` compares with `off` once more
    s.guarded rpath fun s =>
      (0, if rpath = "off".toList then s else (s.act (.write rpath [])).2)
  | initdisk count size => (0, s.setGeometry count size)
  | importDrive src dst geometry =>
    let srcpath := s.resolve src
    let dstpath := s.resolve dst
    s.guarded srcpath fun s => s.guarded dstpath fun s =>
      match s.world.readFile srcpath with
      | none => (0, s)
      | some text => (0, (s.act (.write dstpath (Disk.importTextDrive text geometry))).2)
  | mkdir dir =>
    let rpath := s.resolve dir
    s.guarded rpath fun s =>
      (0, if s.ready then (s.manage (.createDir rpath)).2 else (s.act (.mkdir rpath)).2)
  | rmdir dir =>
    let rpath := s.resolve dir
    s.guarded rpath fun s =>
      (0, if s.ready then (s.manage (.delete rpath)).2 else (s.act (.rmdir rpath)).2)
  | rmtree dir =>
    let rpath := s.resolve dir
    s.guarded rpath fun s => (0, s.removeTree host rpath)
  | write file content =>
    let rpath := s.resolve file
    s.guarded rpath fun s =>
      (0, if s.ready then (s.manage (.save rpath content)).2 else (s.act (.write rpath content)).2)
  | mv src dst =>
    let srcpath := s.resolve src
    let dstpath := s.resolve dst
    s.guarded srcpath fun s => s.guarded dstpath fun s =>
      (0, if s.ready then (s.manage (.move srcpath dstpath)).2
        else (s.act (.rename srcpath dstpath)).2)
  | addcluster data =>
    let s := s.readDiskHeader
    if s.totalClusters ≥ 65535 then (1, s)
    else s.addCluster data
  -- `rerun` is below; what another program does is not followed
  | rerun _ => (0, s)
  | external => (0, s)

/-- `depth` bounds how far the commands that `rerun` reads lead to another `rerun`. -/
def executeCommandStr (host : Host) : Nat → Session → Input → Int × Session
  | 0, s, _ => (0, s)
  | depth + 1, s, input =>
    if !s.running || input.line = [] then (0, s)
    else
      let s := s.appendHistory input.line
      match parse input.line with
      | .rerun index =>
        match s.readHistoryLine index with
        | none => (1, s)
        | some cmd => (0, (executeCommandStr host depth s { input with line := cmd }).2)
      | cmd => cmd.run host input s

def step (host : Host) (depth : Nat) (s : Session) (input : Input) : Session :=
  (executeCommandStr host depth s input).2.flush input.output

def run (host : Host) (depth : Nat) (s : Session) (inputs : List Input) : Session := inputs.foldl (step host depth) s

end Flinstone.Shell
