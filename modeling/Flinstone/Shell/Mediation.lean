import Flinstone.Shell.Interpreter

/-! # Which paths pass the jail before they are used -/

namespace Flinstone.Shell
open Flinstone.Lib Flinstone.Fs List Option

/-- The paths that a host call is given are among those that passed `earlier`; the history file is
apart. -/
def Covered (earlier : List Event) : Event → Prop
  | .passed _ => True
  | .acted call => ∀ path ∈ call.paths, path = historyFile ∨ .passed path ∈ earlier

def Mediated (log : List Event) : Prop := ∀ later event earlier, log = later ++ event :: earlier → Covered earlier event

theorem mediated_cons {event : Event} {log : List Event} :
    Mediated (event :: log) ↔ Covered log event ∧ Mediated log := by
  constructor
  · intro mediated
    refine ⟨mediated [] event log rfl, fun later other earlier split => ?_⟩
    exact mediated (event :: later) other earlier (by rw [split, cons_append])
  · rintro ⟨covered, mediated⟩ later other earlier split
    cases later with
    | nil =>
      obtain ⟨rfl, rfl⟩ := cons.inj split
      exact covered
    | cons first later => exact mediated later other earlier (cons.inj split).2

instance (earlier : List Event) : DecidablePred (Covered earlier)
  | .passed _ => isTrue trivial
  | .acted call =>
    inferInstanceAs (Decidable (∀ path ∈ call.paths, path = historyFile ∨ .passed path ∈ earlier))

instance decidableMediated : DecidablePred Mediated
  | [] => isTrue (by simp [Mediated])
  | _ :: log =>
    have := decidableMediated log
    decidable_of_iff _ mediated_cons.symm

def ParentThere (w : World) (path : Text) : Prop :=
  ∀ front ∈ cutLast '/' (path.take (fsPathMax - 1)), front = [] ∨ w.stat front = some .dir

def Refused (s : Session) (path : Text) : Prop := s.jail.checkPath s.world path ≠ 0

/-- A new file or directory has its parent, a directory to be removed no entries, no cluster is written, and one is
added only to a file that `setdisk` or `format` chose. -/
def Cmd.Plain (host : Host) (s : Session) : Cmd → Prop
  | .make file => Refused s (s.resolve file) ∨ s.ready = false ∨ ParentThere s.world (s.resolve file)
  | .mkdir dir => Refused s (s.resolve dir) ∨ s.ready = false ∨ ParentThere s.world (s.resolve dir)
  | .rmtree dir => Refused s (s.resolve dir) ∨ scanDir host s.world host.openMax (s.resolve dir) 0 = []
  | .createdisk .. => False
  | .writecluster clu .. | .delcluster clu | .update clu .. => clu < 0 ∨ clu ≥ s.totalClusters
  | .addcluster _ => s.readDiskHeader.totalClusters ≥ 65535 ∨ s.currentDiskFile ≠ defaultDiskFile
  | .external => False
  | _ => True

def PlainLine (host : Host) : Nat → Session → Text → Prop
  | 0, _, _ => True
  | depth + 1, s, line =>
    s.running = true → line ≠ [] → match parse line with
      | .rerun index =>
        ∀ cmd ∈ (s.appendHistory line).readHistoryLine index, PlainLine host depth (s.appendHistory line) cmd
      | cmd => cmd.Plain host (s.appendHistory line)

/-! ## What the steps of a command add to the log -/

structure Sound (s : Session) : Prop where
  active : s.jail.isActive
  mediated : Mediated s.log
  disk : s.currentDiskFile = defaultDiskFile ∨ .passed s.currentDiskFile ∈ s.log

theorem mediated_calls {log : List Event} (mediated : Mediated log) (calls : List HostCall)
    (covered : ∀ call ∈ calls, ∀ path ∈ call.paths, .passed path ∈ log) :
    Mediated ((calls.map .acted).reverse ++ log) := by
  induction calls generalizing log with
  | nil => exact mediated
  | cons call calls ih =>
    obtain ⟨first, rest⟩ := forall_mem_cons.mp covered
    rw [map_cons, reverse_cons, append_assoc]
    refine ih (mediated_cons.mpr ⟨fun path member => Or.inr (first path member), mediated⟩) ?_
    exact fun other member path used => mem_cons_of_mem _ (rest other member path used)

section Steps
variable {s : Session} {path : Text}

theorem Sound.pass (sound : Sound s) (path : Text) : Sound (s.pass path) where
  active := sound.active
  mediated := mediated_cons.mpr ⟨trivial, sound.mediated⟩
  disk := sound.disk.imp_right (mem_cons_of_mem _)

theorem passed_pass (s : Session) (path : Text) : .passed path ∈ (s.pass path).log := mem_cons_self ..

theorem Sound.jailBlockedPath_eq (sound : Sound s) (path : Text) : s.jailBlockedPath path =
      if s.jail.checkPath s.world path = 0 then (false, s.pass path) else (true, s) := by
  rw [Session.jailBlockedPath, sound.active]
  rfl

theorem Sound.checked (sound : Sound s) (path : Text) : Sound (s.jailBlockedPath path).2 := by
  rw [sound.jailBlockedPath_eq]
  split_ifs
  · exact sound.pass path
  · exact sound

theorem Sound.guarded (sound : Sound s) {next : Session → Int × Session}
    (further : ¬ Refused s path → Sound (next (s.pass path)).2) : Sound (s.guarded path next).2 := by
  rw [Session.guarded, sound.jailBlockedPath_eq]
  by_cases ok : s.jail.checkPath s.world path = 0
  · rw [if_pos ok]
    exact further (not_not.mpr ok)
  · rw [if_neg ok]
    exact sound

theorem act_log (s : Session) (call : HostCall) : (s.act call).2.log = .acted call :: s.log := by
  unfold Session.act
  dsimp only
  split <;> rfl

theorem act_currentDiskFile (s : Session) (call : HostCall) : (s.act call).2.currentDiskFile = s.currentDiskFile := by
  unfold Session.act
  dsimp only
  split <;> rfl

theorem act_jail (s : Session) (call : HostCall) : (s.act call).2.jail = s.jail := by
  unfold Session.act
  dsimp only
  split <;> rfl

variable {call : HostCall}

theorem Sound.act (sound : Sound s) (covered : ∀ path ∈ call.paths, path = historyFile ∨ .passed path ∈ s.log) :
    Sound (s.act call).2 where
  active := by rw [act_jail]; exact sound.active
  mediated := by
    rw [act_log]
    exact mediated_cons.mpr ⟨covered, sound.mediated⟩
  disk := by
    rw [act_log, act_currentDiskFile]
    exact sound.disk.imp_right (mem_cons_of_mem _)

theorem Sound.act_passed (sound : Sound s) (single : call.paths = [path])
    (passed : .passed path ∈ s.log) : Sound (s.act call).2 := by
  refine sound.act fun other member => Or.inr ?_
  rw [single] at member
  rwa [mem_singleton.mp member]

theorem Sound.act_history (sound : Sound s) (single : call.paths = [historyFile]) : Sound (s.act call).2 := by
  refine sound.act fun other member => Or.inl ?_
  rw [single] at member
  exact mem_singleton.mp member

theorem Sound.manage (sound : Sound s) {op : Op}
    (covered : ∀ call ∈ op.calls s.jail s.service, ∀ path ∈ call.paths, .passed path ∈ s.log) :
    Sound (s.manage op).2 where
  active := sound.active
  mediated := mediated_calls sound.mediated _ covered
  disk := sound.disk.imp_right (mem_append_right _)

theorem Sound.removeTree (sound : Sound s) {host : Host}
    (covered : ∀ call ∈ removalCalls host s.world path, ∀ path ∈ call.paths, .passed path ∈ s.log) :
    Sound (s.removeTree host path) where
  active := sound.active
  mediated := mediated_calls sound.mediated _ covered
  disk := sound.disk.imp_right (mem_append_right _)

theorem Sound.setDiskFile (sound : Sound s) (short : path.length < cwdMax)
    (passed : .passed path ∈ s.log) : Sound (s.setDiskFile path) where
  active := sound.active
  mediated := sound.mediated
  disk := by
    have whole : path.take (cwdMax - 1) = path := take_of_length_le (by omega)
    right
    rwa [Session.setDiskFile, whole]

theorem resolve_short (s : Session) (path : Text) : (s.resolve path).length < cwdMax := resolvePath_fits _ _ (by decide)

end Steps

/-! ## The host calls of the service -/

section Service
variable {j : Jail} {w : World} {path : Text}

theorem pathField_resolve (s : Session) (path : Text) : pathField (s.resolve path) = s.resolve path := by
  have short := resolve_short s path
  exact take_of_length_le (Nat.le_sub_one_of_lt short)

theorem mkdirParentsCalls_idle (there : ParentThere w path) (fuel : Nat) : mkdirParentsCalls fuel path w = [] := by
  cases fuel with
  | zero => rfl
  | succ fuel =>
    rw [mkdirParentsCalls]
    cases cut : cutLast '/' (path.take (fsPathMax - 1)) with
    | none => rfl
    | some front =>
      cases front with
      | nil => rfl
      | cons c front =>
        dsimp only
        rw [if_pos ((there _ cut).resolve_left (by simp))]

def Rooted (w : World) : Call → Prop
  | .createFile path | .createDir path => ParentThere w path
  | _ => True

theorem call_paths {call : Call} (rooted : Rooted w call) :
    ∀ used ∈ call.calls j w, ∀ path ∈ used.paths, path ∈ call.paths := by
  cases call with
  | writeText path content =>
    rw [Call.calls]
    split_ifs <;> simp [HostCall.paths, Call.paths]
  | createFile path =>
    rw [Call.calls, mkdirParentsCalls_idle rooted]
    split_ifs <;> simp [HostCall.paths, Call.paths]
  | createDir path =>
    rw [Call.calls, mkdirParentsCalls_idle rooted]
    split_ifs <;> simp [HostCall.paths, Call.paths]
  | delete path =>
    rw [Call.calls]
    split_ifs
    · simp
    · split <;> simp [HostCall.paths, Call.paths]
  | move src dst =>
    rw [Call.calls]
    split_ifs <;> simp [HostCall.paths, Call.paths]

theorem Sound.manage_call {s : Session} (sound : Sound s) {op : Op}
    (covered : ∀ call ∈ op.call s.service, Rooted s.world call ∧
      ∀ path ∈ call.paths, .passed path ∈ s.log) : Sound (s.manage op).2 := by
  refine sound.manage fun used member path handed => ?_
  rw [Op.calls] at member
  cases called : op.call s.service with
  | none => rw [called] at member; cases member
  | some call =>
    rw [called] at member
    obtain ⟨rooted, passed⟩ := covered call called
    exact passed path (call_paths rooted used member path handed)

end Service

section Commands
variable {s : Session} {host : Host} {path : Text}

theorem Sound.save (sound : Sound s) (whole : pathField path = path) (passed : .passed path ∈ s.log)
    (content : Text) : Sound (s.manage (.save path content)).2 := by
  refine sound.manage_call fun call called => ?_
  rw [Op.call, whole] at called
  split_ifs at called
  · cases called
  · obtain rfl := some.inj called
    exact ⟨trivial, by simpa [Call.paths] using passed⟩

theorem Sound.delete (sound : Sound s) (whole : pathField path = path) (passed : .passed path ∈ s.log) :
    Sound (s.manage (.delete path)).2 := by
  refine sound.manage_call fun call called => ?_
  rw [Op.call, whole] at called
  split_ifs at called
  · cases called
  · obtain rfl := some.inj called
    exact ⟨trivial, by simpa [Call.paths] using passed⟩

theorem Sound.createFile (sound : Sound s) (whole : pathField path = path)
    (passed : .passed path ∈ s.log) (there : ParentThere s.world path) :
    Sound (s.manage (.createFile path)).2 := by
  refine sound.manage_call fun call called => ?_
  rw [Op.call, whole] at called
  obtain rfl := some.inj called
  exact ⟨there, by simpa [Call.paths] using passed⟩

theorem Sound.createDir (sound : Sound s) (whole : pathField path = path)
    (passed : .passed path ∈ s.log) (there : ParentThere s.world path) :
    Sound (s.manage (.createDir path)).2 := by
  refine sound.manage_call fun call called => ?_
  rw [Op.call, whole] at called
  obtain rfl := some.inj called
  exact ⟨there, by simpa [Call.paths] using passed⟩

theorem Sound.move {dst : Text} (sound : Sound s) (whole : pathField path = path)
    (whole' : pathField dst = dst) (passed : .passed path ∈ s.log) (passed' : .passed dst ∈ s.log) :
    Sound (s.manage (.move path dst)).2 := by
  refine sound.manage_call fun call called => ?_
  rw [Op.call, whole, whole'] at called
  obtain rfl := some.inj called
  exact ⟨trivial, by simpa [Call.paths] using ⟨passed, passed'⟩⟩

theorem Sound.formatDisk (sound : Sound s) (short : path.length < cwdMax) (passed : .passed path ∈ s.log)
    (formatted : Option Disk.TextDisk) : Sound (s.formatDisk (formatted.map (Prod.mk path)) path).2 := by
  unfold Session.formatDisk
  cases formatted with
  | none => exact ⟨sound.active, sound.mediated, sound.disk⟩
  | some d =>
    have written : Sound (s.act (.write path (d.file.getD []))).2 := sound.act_passed rfl passed
    dsimp only [Option.map]
    split_ifs
    · exact ⟨written.active, written.mediated, written.disk⟩
    · have chosen := written.setDiskFile short (by rw [act_log]; exact mem_cons_of_mem _ passed)
      exact ⟨chosen.active, chosen.mediated, chosen.disk⟩

theorem Sound.enter (sound : Sound s) (w : World) (cwd : Text) : Sound (s.enter w cwd) :=
  ⟨sound.active, sound.mediated, sound.disk⟩

theorem Sound.changeDir (sound : Sound s) (resolved : Text) : Sound (s.changeDir resolved).2 := by
  rw [Session.changeDir]
  split
  · exact sound
  · split
    · exact sound
    · have checked : ∀ w cwd, Sound ((s.enter w cwd).jailBlockedPath cwd).2 :=
        fun w cwd => (sound.enter w cwd).checked cwd
      dsimp only
      split_ifs
      · exact checked ..
      · split
        · exact checked ..
        · exact (checked ..).enter ..

theorem Sound.addCluster (sound : Sound s) (chosen : s.currentDiskFile ≠ defaultDiskFile)
    (data : Option (Text × Bool)) : Sound (s.addCluster data).2 := by
  have added : ∀ line, Sound (s.act (.append s.currentDiskFile line)).2 :=
    fun _ => sound.act_passed rfl (sound.disk.resolve_left chosen)
  rw [Session.addCluster]
  split_ifs
  · exact added _
  · exact ⟨(added _).active, (added _).mediated, (added _).disk⟩

theorem Sound.readDiskHeader (sound : Sound s) : Sound s.readDiskHeader := ⟨sound.active, sound.mediated, sound.disk⟩

theorem removalCalls_empty {w : World} (empty : scanDir host w host.openMax path 0 = []) :
    removalCalls host w path = [.rmdir path] := by
  have nothing : host.qsort [] = [] := (host.qsort_perm []).eq_nil
  have lives : sortDies host [] = false := by simp [sortDies]
  rw [removalCalls, empty]
  dsimp only
  rw [lives, nothing]
  rfl

theorem Sound.command (sound : Sound s) (input : Input) {cmd : Cmd} (plain : cmd.Plain host s) :
    Sound (cmd.run host input s).2 := by
  cases cmd with
  | nothing => exact sound
  | usage => exact sound
  | display => exact sound
  | leave deleteHistory =>
    rw [Cmd.run]
    split_ifs
    · have removed : Sound (s.act (.unlink historyFile)).2 := sound.act_history rfl
      exact ⟨removed.active, removed.mediated, removed.disk⟩
    · exact ⟨sound.active, sound.mediated, sound.disk⟩
  | cc => exact sound.act_history rfl
  | make file =>
    rw [Cmd.run]
    split_ifs
    · exact sound
    · refine sound.guarded fun allowed => ?_
      have passed := passed_pass s (s.resolve file)
      have whole := pathField_resolve s file
      split_ifs with ready
      · have there := (plain.resolve_left allowed).resolve_left (ne_false_of_eq_true ready)
        have made := (sound.pass _).createFile whole passed there
        exact made.save whole (mem_append_right _ passed) _
      · exact (sound.pass _).act_passed rfl passed
  | cd dir =>
    cases dir with
    | none => exact sound
    | some dir => exact sound.guarded fun _ => (sound.pass _).changeDir _
  | createdisk volume rowCount nibbleCount => exact plain.elim
  | format file volume rowCount nibbleCount =>
    exact sound.guarded fun _ => (sound.pass _).formatDisk (resolve_short s file) (passed_pass s _) _
  | setdisk file =>
    refine sound.guarded fun _ => ?_
    split
    · exact sound.pass _
    · exact ((sound.pass _).setDiskFile (resolve_short s file) (passed_pass s _)).readDiskHeader
  | listclusters => exact sound.readDiskHeader
  | look path => exact sound.guarded fun _ => sound.pass _
  | du =>
    rw [Cmd.run]
    split <;> exact sound
  | writecluster clu data inputIsText =>
    have outside : clu < 0 ∨ clu ≥ s.totalClusters := plain
    rw [Cmd.run, Session.processWriteCluster, Session.updateClusterLine, if_pos outside]
    exact sound
  | delcluster clu =>
    have outside : clu < 0 ∨ clu ≥ s.totalClusters := plain
    rw [Cmd.run, Session.deleteCluster, if_pos outside]
    exact sound
  | update clu data inputIsText =>
    have outside : clu < 0 ∨ clu ≥ s.totalClusters := plain
    rw [Cmd.run, if_pos outside]
    exact sound
  | redirect filename =>
    cases filename with
    | none => exact sound
    | some file =>
      refine sound.guarded fun _ => ?_
      split_ifs
      · exact sound.pass _
      · exact (sound.pass _).act_passed rfl (passed_pass s _)
  | initdisk count size => exact ⟨sound.active, sound.mediated, sound.disk⟩
  | rerun index => exact sound
  | importDrive src dst geometry =>
    refine sound.guarded fun _ => (sound.pass _).guarded fun _ => ?_
    split
    · exact (sound.pass _).pass _
    · exact ((sound.pass _).pass _).act_passed rfl (passed_pass _ _)
  | mkdir dir =>
    refine sound.guarded fun allowed => ?_
    split_ifs with ready
    · have there := (plain.resolve_left allowed).resolve_left (ne_false_of_eq_true ready)
      exact (sound.pass _).createDir (pathField_resolve s dir) (passed_pass s _) there
    · exact (sound.pass _).act_passed rfl (passed_pass s _)
  | rmdir dir =>
    refine sound.guarded fun _ => ?_
    split_ifs
    · exact (sound.pass _).delete (pathField_resolve s dir) (passed_pass s _)
    · exact (sound.pass _).act_passed rfl (passed_pass s _)
  | rmtree dir =>
    refine sound.guarded fun allowed => ?_
    refine (sound.pass _).removeTree fun call member path handed => ?_
    have empty := removalCalls_empty (plain.resolve_left allowed)
    obtain rfl := mem_singleton.mp (empty ▸ member)
    rw [mem_singleton.mp handed]
    exact passed_pass s _
  | write file content =>
    refine sound.guarded fun _ => ?_
    split_ifs
    · exact (sound.pass _).save (pathField_resolve s file) (passed_pass s _) content
    · exact (sound.pass _).act_passed rfl (passed_pass s _)
  | mv src dst =>
    refine sound.guarded fun _ => (sound.pass _).guarded fun _ => ?_
    have passed : Event.passed (s.resolve src) ∈ ((s.pass (s.resolve src)).pass (s.resolve dst)).log :=
      mem_cons_of_mem _ (passed_pass s _)
    have passed' := passed_pass (s.pass (s.resolve src)) (s.resolve dst)
    split_ifs
    · exact ((sound.pass _).pass _).move (pathField_resolve s src) (pathField_resolve s dst) passed passed'
    · refine ((sound.pass _).pass _).act fun path member => Or.inr ?_
      rcases mem_pair.mp member with rfl | rfl
      · exact passed
      · exact passed'
  | addcluster data =>
    rw [Cmd.run]
    split_ifs with full
    · exact sound.readDiskHeader
    · exact sound.readDiskHeader.addCluster (plain.resolve_left full) _
  | external => exact plain.elim

end Commands

section Sessions
variable {s : Session} {host : Host}

theorem Sound.flush (sound : Sound s) (output : Option (Loc × Text)) : Sound (s.flush output) := by
  unfold Session.flush
  split
  · split
    · exact ⟨sound.active, sound.mediated, sound.disk⟩
    · exact sound
  · exact sound

theorem Sound.executeCommandStr (sound : Sound s) (depth : Nat) (input : Input)
    (plain : PlainLine host depth s input.line) :
    Sound (executeCommandStr host depth s input).2 := by
  induction depth generalizing s input with
  | zero => exact sound
  | succ depth ih =>
    rw [executeCommandStr]
    split_ifs with idle
    · exact sound
    · rw [Bool.or_eq_true, not_or] at idle
      have noted : Sound (s.appendHistory input.line) := sound.act_history rfl
      replace plain := plain (by simpa using idle.1) (by simpa using idle.2)
      generalize parse input.line = cmd at plain ⊢
      cases cmd with
      | rerun index =>
        dsimp only at plain ⊢
        cases read : (s.appendHistory input.line).readHistoryLine index with
        | none => exact noted
        | some cmd => exact ih noted { input with line := cmd } (plain cmd read)
      | _ => exact noted.command input plain

theorem Sound.session (sound : Sound s) (depth : Nat) (inputs : List Input)
    (plain : ∀ before input after, inputs = before ++ input :: after →
      PlainLine host depth (run host depth s before) input.line) :
    Sound (run host depth s inputs) := by
  induction inputs generalizing s with
  | nil => exact sound
  | cons input inputs ih =>
    have stepped := (sound.executeCommandStr depth input (plain [] input inputs rfl)).flush input.output
    refine ih stepped fun before other after split => ?_
    exact plain (input :: before) other after (by rw [split, cons_append])

end Sessions

theorem builtins_mediated (host : Host) (depth : Nat) (s : Session) (active : s.jail.isActive)
    (fresh : s.log = []) (initial : s.currentDiskFile = defaultDiskFile) (inputs : List Input)
    (plain : ∀ before input after, inputs = before ++ input :: after →
      PlainLine host depth (run host depth s before) input.line) :
    ∀ before after, inputs = before ++ after → Mediated (run host depth s before).log := by
  rintro before after rfl
  have sound : Sound s := ⟨active, by rw [fresh]; simp [Mediated], Or.inl initial⟩
  refine (sound.session depth before fun front input rest split => ?_).mediated
  exact plain front input (rest ++ after) (by rw [split, append_assoc, cons_append])

/-! ## A session in a jail -/

def jailName : Name := ⟨"jail".toList, by decide⟩

def jailWorld : World where
  tree := Tree.bare.put [] jailName .dir Tree.bare.root (by decide)
  cwd := some [jailName]
  maxLinks := 40
  touched := []
  cwd_dir l here := by
    rw [← Option.some.inj here]
    decide

def jailedSession : Session where
  jail := { vmMode := true, root := "/jail".toList, cwd := "/jail".toList }
  service := { world := jailWorld, policy := none, undoStack := [] }
  ready := true
  currentDiskFile := defaultDiskFile
  clusterSize := 32
  totalClusters := 32
  running := true
  log := []

def typed (line : Text) : Input where
  line
  tty := false
  stdin := []
  rand _ _ := 0
  output := none

theorem builtins_mediated_small :
    Mediated (run smallHost 1 jailedSession [typed "write f x".toList, typed "mv f g".toList]).log := by
  refine builtins_mediated smallHost 1 jailedSession (by decide) rfl rfl _ ?_ _ [] (append_nil _).symm
  intro before input after split
  match before, split with
  | [], split =>
    obtain ⟨rfl, _⟩ := cons.inj split
    intro _ _
    trivial
  | [_], split =>
    obtain ⟨_, rest⟩ := cons.inj split
    obtain ⟨rfl, _⟩ := cons.inj rest
    intro _ _
    trivial
  | _ :: _ :: _, split => simp at split

/-- `createdisk` writes where its argument says, and a cluster goes to a `.tmp` file that nobody checks. -/
theorem builtins_bypass_jail :
    ¬ Mediated (run smallHost 1 jailedSession [typed "createdisk /out 1 2".toList]).log ∧
      ¬ Mediated (run smallHost 1 jailedSession
        [typed "initdisk 1 1".toList, typed "delcluster 0".toList]).log := by
  decide +kernel

end Flinstone.Shell
