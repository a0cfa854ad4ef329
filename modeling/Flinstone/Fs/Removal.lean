import Flinstone.Lib.Frame
import Mathlib.Data.List.Sort

/-!
# Removing a directory with all that is in it

`remove_directory_recursive` of `fs.c`.
-/

namespace Flinstone.Fs
open Flinstone.Lib List Option

structure Entry where
  path : Text
  depth : Nat
  isDir : Bool
deriving DecidableEq

/-- What POSIX leaves to the host. -/
structure Host where
  openMax : Nat
  /-- Whether code on the stack can be run. What the `Makefile` links with `-z noexecstack` cannot. -/
  execStack : Bool
  /-- The entries that are read from a directory opened in `w`, in their order. An entry that is
  removed before its turn may be left out. -/
  readdir : World → Loc → List Name
  readdir_there : ∀ w l n, n ∈ readdir w l → (w.tree.node (n :: l)).isSome
  qsort : List Entry → List Entry
  qsort_perm : ∀ entries, (qsort entries).Perm entries
  qsort_sorted : ∀ entries, (qsort entries).Pairwise fun a b => b.depth ≤ a.depth

def subPath (size : Nat) (dir : Text) (n : Name) : Text := (dir ++ '/' :: n.val).take (size - 1)

def entryPathSize : Nat := 1024

def scanDir (host : Host) (w : World) : Nat → Text → Nat → List Entry
  | 0, _, _ => []
  | free + 1, dir, depth =>
    match w.opendir dir with
    | none => []
    | some l => (host.readdir w l).flatMap fun n =>
      let fullPath := subPath entryPathSize dir n
      if w.stat fullPath = some .dir then
        ⟨fullPath, depth, true⟩ :: scanDir host w free fullPath (depth + 1)
      else [⟨fullPath, depth, false⟩]

def removeFiles (w : World) (entries : List Entry) : World :=
  entries.foldl (fun w e => if e.isDir then w else (w.remove e.path).getD w) w

def removeDirs (w : World) (entries : List Entry) : World :=
  entries.foldl (fun w e => if e.isDir then (w.rmdir e.path).getD w else w) w

/-- `compare_entries` is a nested function: `qsort` calls it through a trampoline on the stack. -/
def sortDies (host : Host) (entries : List Entry) : Bool := !host.execStack && 2 ≤ entries.length

/-- No result when the process is killed. -/
def removeDirectoryRecursive (host : Host) (w : World) (d : Text) : Option Int × World :=
  let found := scanDir host w host.openMax d 0
  if sortDies host found then (none, w)
  else
    let entries := host.qsort found
    let w := removeDirs (removeFiles w entries) entries
    match w.rmdir d with
    | none => (some (-1), w)
    | some w => (some 0, w)

def rmrf (host : Host) : Nat → World → Text → World
  | 0, w, _ => w
  | free + 1, w, path =>
    match w.opendir path with
    | none => w
    | some l =>
      let w := (host.readdir w l).foldl (fun w n =>
        let sub := subPath pathMax path n
        if w.stat sub = some .dir then rmrf host free w sub else (w.unlink sub).getD w) w
      (w.rmdir path).getD w

structure VmGlobals where
  vmMode : Bool
  vmCleanup : Bool
  vmRoot : Text

def vmCleanupAtExit (host : Host) (w : World) (g : VmGlobals) : World :=
  if !g.vmMode || !g.vmCleanup || g.vmRoot = [] then w
  else match w.chdir "/tmp".toList with
    | none => w
    | some w => rmrf host host.openMax w g.vmRoot

inductive Met (size : Nat) (w : World) : Nat → Text → Text → Prop
  | entry {free : Nat} {dir : Text} {l : Loc} {n : Name} (opened : w.opendir dir = some l)
      (there : (w.tree.node (n :: l)).isSome) : Met size w (free + 1) dir (subPath size dir n)
  | deeper {free : Nat} {dir : Text} {l : Loc} {n : Name} {path : Text} (opened : w.opendir dir = some l)
      (there : (w.tree.node (n :: l)).isSome) (isDir : w.stat (subPath size dir n) = some .dir)
      (met : Met size w free (subPath size dir n) path) : Met size w (free + 1) dir path

def Outside (w : World) (d : Text) (l : Loc) : Prop := ∀ L k, w.lookup d = .reached L k → ¬ L <:+ l

def Harmless (S : Loc → Prop) (w : World) (path : Text) : Prop :=
  ∀ d n, w.entry path = some (d, n) → (w.tree.node (n :: d)).isSome → ¬ S (n :: d)

def StaysInside (host : Host) (size : Nat) (w : World) (d : Text) : Prop :=
  ∀ path, Met size w host.openMax d path → Harmless (Outside w d) w path

theorem met_of_scanDir {host : Host} {w : World} {free : Nat} {dir : Text} {depth : Nat} {e : Entry}
    (member : e ∈ scanDir host w free dir depth) : Met entryPathSize w free dir e.path := by
  induction free generalizing dir depth with
  | zero => cases member
  | succ free ih =>
    rw [scanDir] at member
    cases opened : w.opendir dir with
    | none => rw [opened] at member; cases member
    | some l =>
      rw [opened] at member
      obtain ⟨n, listed, here⟩ := mem_flatMap.mp member
      have there := host.readdir_there w l n listed
      dsimp only at here
      split_ifs at here with isDir
      · rcases mem_cons.mp here with rfl | deeper
        · exact .entry opened there
        · exact .deeper opened there isDir (ih deeper)
      · obtain rfl := mem_singleton.mp here
        exact .entry opened there

section Removals
variable {S : Loc → Prop} {w w' w'' : World} {path : Text}

structure Left (S : Loc → Prop) (w w' : World) : Prop where
  shrinks : w.Shrinks w'
  keeps : World.Keeps S w w'

theorem Left.refl (S : Loc → Prop) (w : World) : Left S w w := ⟨.refl w, .refl S w⟩

variable {n : Name} {d : Loc} {entries : List Entry}

theorem Left.take (left : Left S w w') {leaf : w'.tree.Leaf (n :: d)}
    (outside : ¬ S (n :: d)) : Left S w (w'.take n d leaf) :=
  ⟨left.shrinks.take leaf, left.keeps.trans (World.keeps_take outside)⟩

theorem Left.unlink (left : Left S w w') (harmless : Harmless S w path) : Left S w ((w'.unlink path).getD w') := by
  cases removed : w'.unlink path with
  | none => exact left
  | some w'' =>
    obtain ⟨d, n, leaf, found, there, _, _, rfl⟩ := World.unlink_some removed
    exact left.take (harmless d n (left.shrinks.entry found) (left.shrinks.isSome there))

theorem Left.rmdir (left : Left S w w')
    (harmless : ∀ d n, w.entry path = some (d, n) → w.tree.node (n :: d) = some .dir → ¬ S (n :: d)) :
    Left S w ((w'.rmdir path).getD w') := by
  cases removed : w'.rmdir path with
  | none => exact left
  | some w'' =>
    obtain ⟨d, n, leaf, found, dir, rfl⟩ := World.rmdir_some removed
    exact left.take (harmless d n (left.shrinks.entry found) (left.shrinks.sub _ _ dir))

theorem Harmless.dir (harmless : Harmless S w path)
    (found : w.entry path = some (d, n)) (dir : w.tree.node (n :: d) = some .dir) : ¬ S (n :: d) :=
  harmless d n found (by rw [dir]; rfl)

theorem Left.remove (left : Left S w w') (harmless : Harmless S w path) : Left S w ((w'.remove path).getD w') := by
  have unlinked := left.unlink harmless
  have emptied := left.rmdir fun d n => harmless.dir
  unfold World.remove
  cases removed : w'.unlink path with
  | none => exact emptied
  | some w'' =>
    rw [removed] at unlinked
    exact unlinked

theorem Left.removeFiles (left : Left S w w')
    (harmless : ∀ e ∈ entries, Harmless S w e.path) : Left S w (removeFiles w' entries) := by
  apply foldlRecOn entries _ left
  intro v kept e member
  split_ifs
  · exact kept
  · exact kept.remove (harmless e member)

theorem Left.removeDirs (left : Left S w w')
    (harmless : ∀ e ∈ entries, Harmless S w e.path) : Left S w (removeDirs w' entries) := by
  apply foldlRecOn entries _ left
  intro v kept e member
  split_ifs
  · exact kept.rmdir fun d n => (harmless e member).dir
  · exact kept

theorem given_inside {d : Text} {e : Loc} (found : w.entry d = some (e, n))
    (dir : w.tree.node (n :: e) = some .dir) : ¬ Outside w d (n :: e) := by
  obtain ⟨k, arrived⟩ := World.lookup_plain found dir (by simp) (Or.inl rfl)
  exact fun outside => outside (n :: e) k arrived suffix_rfl

theorem left_removeDirectoryRecursive (host : Host) {d : Text} (inside : StaysInside host entryPathSize w d) :
    Left (Outside w d) w (removeDirectoryRecursive host w d).2 := by
  have harmless : ∀ e ∈ host.qsort (scanDir host w host.openMax d 0), Harmless (Outside w d) w e.path :=
    fun e member => inside e.path (met_of_scanDir ((host.qsort_perm _).mem_iff.mp member))
  have emptied := ((Left.refl (Outside w d) w).removeFiles harmless).removeDirs harmless
  have removed := emptied.rmdir fun _ _ => given_inside
  rw [removeDirectoryRecursive]
  dsimp only
  split_ifs
  · exact .refl _ w
  · revert removed
    cases World.rmdir _ d with
    | none => exact id
    | some w' => exact id

theorem left_rmrf (host : Host) {free : Nat} (left : Left S w w')
    (harmless : ∀ p, Met pathMax w free path p → Harmless S w p)
    (given : ∀ d n, w.entry path = some (d, n) → w.tree.node (n :: d) = some .dir → ¬ S (n :: d)) :
    Left S w (rmrf host free w' path) := by
  induction free generalizing w' path with
  | zero => exact left
  | succ free ih =>
    rw [rmrf]
    cases opened : w'.opendir path with
    | none => exact left
    | some l =>
      refine Left.rmdir ?_ given
      have before := left.shrinks.opendir opened
      have there : ∀ n ∈ host.readdir w' l, (w.tree.node (n :: l)).isSome :=
        fun n listed => left.shrinks.isSome (host.readdir_there w' l n listed)
      -- the entries were listed when the directory was opened
      generalize host.readdir w' l = names at there
      clear opened
      induction names generalizing w' with
      | nil => exact left
      | cons n names next =>
        obtain ⟨first, rest⟩ := forall_mem_cons.mp there
        refine next ?_ rest
        dsimp only
        split_ifs with isDir
        · have stat := left.shrinks.stat_dir isDir
          refine ih left (fun p met => harmless p (.deeper before first stat met)) ?_
          exact fun d m => (harmless _ (.entry before first)).dir
        · exact left.unlink (harmless _ (.entry before first))

end Removals

theorem keeps_chdir {w w' : World} {path : Text} (S : Loc → Prop) (entered : w.chdir path = some w') :
    World.Keeps S w w' := by
  unfold World.chdir at entered
  split at entered
  · split_ifs at entered
    obtain rfl := some.inj entered
    exact ⟨⟨[], rfl, by simp⟩, fun _ _ => rfl⟩
  · cases entered

/-- While the walk meets nothing outside, nothing outside the directory is removed. -/
theorem removal_stays_inside (host : Host) (w : World) : (∀ d, StaysInside host entryPathSize w d →
      World.Keeps (Outside w d) w (removeDirectoryRecursive host w d).2) ∧
    ∀ g w', w.chdir "/tmp".toList = some w' → StaysInside host pathMax w' g.vmRoot →
      World.Keeps (Outside w' g.vmRoot) w (vmCleanupAtExit host w g) := by
  refine ⟨fun d inside => (left_removeDirectoryRecursive host inside).keeps, ?_⟩
  intro g w' entered inside
  rw [vmCleanupAtExit]
  split_ifs
  · exact .refl _ w
  · rw [entered]
    have left := left_rmrf host (Left.refl (Outside w' g.vmRoot) w') inside fun _ _ => given_inside
    exact (keeps_chdir _ entered).trans left.keeps

def tmpName : Name := ⟨"tmp".toList, by decide⟩
def dirName : Name := ⟨"d".toList, by decide⟩
def awayName : Name := ⟨"o".toList, by decide⟩
def fileName : Name := ⟨"f".toList, by decide⟩
def linkOutName : Name := ⟨"l".toList, by decide⟩

def smallHost : Host where
  openMax := 3
  execStack := true
  readdir w l := [tmpName, dirName, awayName, fileName, linkOutName].filter fun n => (w.tree.node (n :: l)).isSome
  readdir_there _ _ _ listed := (mem_filter.mp listed).2
  qsort entries := entries.insertionSort fun a b => b.depth ≤ a.depth
  qsort_perm entries := perm_insertionSort _ entries
  qsort_sorted entries := pairwise_insertionSort _ entries

def insideTree : Tree :=
  ((Tree.bare.put [] tmpName .dir Tree.bare.root (by decide)).put [tmpName] dirName .dir
    (by decide) (by decide)).put [dirName, tmpName] fileName (.file []) (by decide) (by decide)

def insideWorld : World where
  tree := insideTree
  cwd := some [tmpName]
  maxLinks := 40
  touched := []
  cwd_dir l here := by
    rw [← some.inj here]
    decide

theorem insideWorld_stays {size : Nat} (path : subPath size "/tmp/d".toList fileName = "/tmp/d/f".toList) :
    StaysInside smallHost size insideWorld "/tmp/d".toList := by
  have opened : insideWorld.opendir "/tmp/d".toList = some [dirName, tmpName] := by decide +kernel
  have only : ∀ n, (insideWorld.tree.node [n, dirName, tmpName]).isSome → n = fileName := by
    intro n there
    by_contra other
    revert there
    simp [insideWorld, insideTree, Tree.node_put, Tree.bare, other]
  intro p met
  cases met with
  | entry opened' there =>
    obtain rfl := some.inj (opened.symm.trans opened')
    obtain rfl := only _ there
    rw [path]
    intro d n found _ outside
    have place : insideWorld.entry "/tmp/d/f".toList = some ([dirName, tmpName], fileName) := by
      decide +kernel
    obtain ⟨rfl, rfl⟩ := Prod.mk.inj (some.inj (place.symm.trans found))
    exact outside [dirName, tmpName] 40 (by decide +kernel) (by decide)
  | deeper opened' there isDir _ =>
    obtain rfl := some.inj (opened.symm.trans opened')
    obtain rfl := only _ there
    rw [path] at isDir
    exact absurd isDir (by decide +kernel)

theorem removal_stays_inside_small :
    World.Keeps (Outside insideWorld "/tmp/d".toList) insideWorld
        (removeDirectoryRecursive smallHost insideWorld "/tmp/d".toList).2 ∧
      World.Keeps (Outside insideWorld "/tmp/d".toList) insideWorld
        (vmCleanupAtExit smallHost insideWorld ⟨true, true, "/tmp/d".toList⟩) := by
  obtain ⟨rmtree, cleanup⟩ := removal_stays_inside smallHost insideWorld
  exact ⟨rmtree _ (insideWorld_stays (by decide +kernel)),
    cleanup ⟨true, true, "/tmp/d".toList⟩ insideWorld rfl (insideWorld_stays (by decide +kernel))⟩

def linkTree : Tree :=
  ((insideTree.put [] awayName .dir (by decide) (by decide)).put [awayName] fileName (.file [])
    (by decide) (by decide)).put [dirName, tmpName] linkOutName (.link "/o".toList) (by decide) (by decide)

def linkWorld : World where
  tree := linkTree
  cwd := some [tmpName]
  maxLinks := 40
  touched := []
  cwd_dir l here := by
    rw [← some.inj here]
    decide

theorem removal_leaves_directory :
    ¬ World.Keeps (Outside linkWorld "/tmp/d".toList) linkWorld
        (removeDirectoryRecursive smallHost linkWorld "/tmp/d".toList).2 ∧
      ¬ World.Keeps (Outside linkWorld "/tmp/d".toList) linkWorld
        (vmCleanupAtExit smallHost linkWorld ⟨true, true, "/tmp/d".toList⟩) := by
  have outside : Outside linkWorld "/tmp/d".toList [fileName, awayName] := by
    intro L k found
    have place : linkWorld.lookup "/tmp/d".toList = .reached [dirName, tmpName] 40 := by decide +kernel
    obtain ⟨rfl, rfl⟩ := Walk.reached.inj (place.symm.trans found)
    decide
  constructor
  · intro keeps
    have same := keeps.node _ outside
    revert same
    decide +kernel
  · intro keeps
    have same := keeps.node _ outside
    revert same
    decide +kernel

end Flinstone.Fs
