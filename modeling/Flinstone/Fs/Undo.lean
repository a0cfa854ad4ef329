import Flinstone.Fs.Facade
import Flinstone.Fs.Parents
import Flinstone.Lib.Linkless

/-! # Undoing operations -/

namespace Flinstone.Fs
open Flinstone.Lib List Option

/-- What `resolve_path` hands to the service: the canonical name of a place, shorter than 256. -/
def Normalised (path : Text) (l : Loc) : Prop := path = render l ∧ path.length < fsPathMax

def Reversible (t : Tree) : Op → Prop
  | .createFile path | .createDir path => ∃ n d, Normalised path (n :: d) ∧
      t.node d = some .dir ∧ t.node (n :: d) = none
  | .move src dst => ∃ l n d, Normalised src l ∧ Normalised dst (n :: d) ∧ t.node (n :: d) = none
  | .save path _ => ∃ l bytes, Normalised path l ∧ t.node l = some (.file bytes) ∧
      '\x00' ∉ bytes ∧ bytes.length < cmdStrMax
  | .delete _ | .undo => False

def Succeeds (j : Jail) (s : Service) : List Op → Prop
  | [] => True
  | op :: ops => Reversible s.world.tree op ∧ (op.run j s).1 = 0 ∧ Succeeds j (op.run j s).2 ops

def undoTimes (j : Jail) : Nat → Service → List Int × Service
  | 0, s => ([], s)
  | k + 1, s =>
    let before := undoTimes j k s
    (before.1 ++ [(before.2.fmUndo j).1], (before.2.fmUndo j).2)

/-! ## The commands on canonical names -/

variable {l : Loc} {j : Jail} {s : Service} {w : World}

theorem Normalised.pathField {path : Text} (normal : Normalised path l) : pathField path = render l := by
  rw [Fs.pathField, take_of_length_le, normal.1]
  have short := normal.2
  omega

section Commands
variable {j : Jail} {w : World} {n : Name} {d : Loc}

theorem localPathOk_inactive (inactive : ¬ j.isActive) (w : World) (path : Text) : localPathOk j w path = 0 := by
  rw [localPathOk, if_pos (by simpa using inactive)]

theorem createFile_render (inactive : ¬ j.isActive) (linkless : w.tree.Linkless)
    (home : w.tree.node d = some .dir) (free : w.tree.node (n :: d) = none) :
    localCreateFile j w (render (n :: d)) = (0, w.put d n (.file []) home (by simp [free])) := by
  have idle := mkdirParents_idle (w := w) (by rw [World.lookup_render_none home free]; simp) fsPathMax
  rw [localCreateFile, if_neg (by simp [localPathOk_inactive inactive]), idle]
  dsimp only
  rw [World.writeFile_render linkless home (by simp [free])]
  rfl

theorem createDir_render (inactive : ¬ j.isActive)
    (home : w.tree.node d = some .dir) (free : w.tree.node (n :: d) = none) :
    localCreateDir j w (render (n :: d)) = (0, w.put d n .dir home (by simp [free])) := by
  have idle := mkdirParents_idle (w := w) (by rw [World.lookup_render_none home free]; simp) fsPathMax
  rw [localCreateDir, if_neg (by simp [localPathOk_inactive inactive]), idle]
  dsimp only
  rw [World.mkdir_render home free]
  rfl

variable {x : Node} {m : Name} {e : Loc}

theorem delete_entry {path : Text} (ok : localPathOk j w path = 0)
    (found : w.entry path = some (d, n)) (node : w.tree.node (n :: d) = some x)
    (plain : ∀ target, x ≠ .link target) (slash : x = .dir ∨ path.getLast? ≠ some '/')
    (leaf : w.tree.Leaf (n :: d)) : localDelete j w path = (0, w.take n d leaf) := by
  obtain ⟨k, reached⟩ := World.lookup_plain found node plain slash
  rw [localDelete, if_neg (not_not.mpr ok), World.stat_of_reached reached, node]
  cases x with
  | dir =>
    rw [World.rmdir_entry found node leaf]
    rfl
  | file bytes =>
    rw [World.unlink_entry found node (by simp) (slash.resolve_left (by simp)) leaf]
    rfl
  | link target => exact absurd rfl (plain target)

theorem delete_render (inactive : ¬ j.isActive) (linkless : w.tree.Linkless)
    (present : (w.tree.node (n :: d)).isSome) (leaf : w.tree.Leaf (n :: d)) :
    localDelete j w (render (n :: d)) = (0, w.take n d leaf) := by
  have found := World.entry_render (n := n) (w.tree.parent n d present)
  obtain ⟨x, node⟩ := isSome_iff_exists.mp present
  have plain : ∀ target, x ≠ .link target := fun target linked => linkless _ target (linked ▸ node)
  exact delete_entry (localPathOk_inactive inactive w _) found node plain (Or.inr World.render_getLast) leaf

theorem writeText_render (inactive : ¬ j.isActive) (linkless : w.tree.Linkless)
    (home : w.tree.node d = some .dir) (flat : w.tree.node (n :: d) ≠ some .dir) (content : Text) :
    localWriteText j w (render (n :: d)) content = (0, w.put d n (.file content) home flat) := by
  rw [localWriteText, if_neg (by simp [localPathOk_inactive inactive]), World.writeFile_render linkless home flat]
  rfl

theorem move_entry {src dst : Text} (ok : localPathOk j w src = 0)
    (ok' : localPathOk j w dst = 0) (found : w.entry src = some (d, n)) (found' : w.entry dst = some (e, m))
    (node : w.tree.node (n :: d) = some x)
    (plain : x ≠ .dir → src.getLast? ≠ some '/' ∧ dst.getLast? ≠ some '/')
    (home : w.tree.node e = some .dir) (free : w.tree.node (m :: e) = none)
    (apart : ¬ n :: d <:+ m :: e) :
    ∃ inner leaf, localMove j w src dst = (0, w.shift (n :: d) m e inner home apart leaf) := by
  obtain ⟨inner, leaf, renamed⟩ := World.rename_free found node plain found' home free apart
  refine ⟨inner, leaf, ?_⟩
  rw [localMove, if_neg (not_not.mpr ok), if_neg (not_not.mpr ok'), renamed]
  rfl

theorem move_render (inactive : ¬ j.isActive) (present : (w.tree.node (n :: d)).isSome)
    (home : w.tree.node e = some .dir) (free : w.tree.node (m :: e) = none)
    (apart : ¬ n :: d <:+ m :: e) :
    ∃ inner leaf, localMove j w (render (n :: d)) (render (m :: e)) =
      (0, w.shift (n :: d) m e inner home apart leaf) := by
  have found := World.entry_render (n := n) (w.tree.parent n d present)
  obtain ⟨x, node⟩ := isSome_iff_exists.mp present
  exact move_entry (localPathOk_inactive inactive w _) (localPathOk_inactive inactive w _) found
    (World.entry_render home) node (fun _ => ⟨World.render_getLast, World.render_getLast⟩) home free apart

end Commands

def Undoes (j : Jail) (t t' : Tree) (cmd : Command) : Prop :=
  ∀ w : World, w.tree = t' → (cmd.undo j w).1 = 0 ∧ (cmd.undo j w).2.tree = t

section Undoes
variable {j : Jail} {t : Tree} {n : Name} {d : Loc}

theorem undoes_create (inactive : ¬ j.isActive) (linkless : t.Linkless) (home : t.node d = some .dir)
    (free : t.node (n :: d) = none) {x : Node} (plain : ∀ target, x ≠ .link target) {cmd : Command}
    (undo : ∀ w : World, cmd.undo j w = localDelete j w (render (n :: d))) :
    Undoes j t (t.put d n x home (by simp [free])) cmd := by
  intro w same
  have nodes : ∀ l, w.tree.node l = if l = n :: d then some x else t.node l := by
    rw [same]
    exact Tree.node_put home _
  have leaf : w.tree.Leaf (n :: d) := by
    intro m
    rw [nodes, if_neg (by simp)]
    exact Tree.leaf_of_ne_dir (by simp [free]) m
  rw [undo, delete_render inactive (by rw [same]; exact linkless.put _ _ plain) (by simp [nodes]) leaf]
  refine ⟨rfl, Tree.ext fun l => ?_⟩
  rw [World.take, Tree.node_remove, nodes]
  split_ifs with here
  · rw [here, free]
  · rfl

theorem undoes_write (inactive : ¬ j.isActive) (linkless : t.Linkless) (home : t.node d = some .dir)
    {bytes : Text} (present : t.node (n :: d) = some (.file bytes)) (content : Text) :
    Undoes j t (t.put d n (.file content) home (by simp [present]))
      (.write (render (n :: d)) content (some bytes)) := by
  intro w same
  have nodes : ∀ l, w.tree.node l = if l = n :: d then some (.file content) else t.node l := by
    rw [same]
    exact Tree.node_put home _
  rw [Command.undo, writeText_render inactive (by rw [same]; exact linkless.put _ _ (by simp))
    (by rw [nodes, if_neg (by simp), home]) (by simp [nodes])]
  refine ⟨rfl, Tree.ext fun l => ?_⟩
  rw [World.put, Tree.node_put, nodes]
  split_ifs with here
  · rw [here, present]
  · rfl

theorem undoes_move (inactive : ¬ j.isActive) {m : Name} {e : Loc} (present : (t.node (n :: d)).isSome)
    (inner : n :: d ≠ []) (home : t.node e = some .dir) (apart : ¬ n :: d <:+ m :: e)
    (free : t.node (m :: e) = none) :
    Undoes j t (t.move (n :: d) m e inner home apart) (.move (render (n :: d)) (render (m :: e))) := by
  rintro ⟨_, cwd, maxLinks, touched, cwd_dir⟩ rfl
  obtain ⟨home', gone, back⟩ := Tree.move_free present inner home apart free
  have arrived := Tree.node_move_below inner home apart []
  rw [nil_append, nil_append] at arrived
  obtain ⟨other, _, moved⟩ := move_render (w := ⟨_, cwd, maxLinks, touched, cwd_dir⟩) inactive
    (by rw [arrived]; exact present) home' gone back
  rw [Command.undo, moved]
  exact ⟨rfl, Tree.move_move free other home' back⟩

end Undoes

theorem perform_success {cmd kept : Command}
    (room : s.undoStack.length < fsUndoStackMax) (done : cmd.execute j s.world = ((0, w), kept)) :
    s.perform j cmd = (0, { s with world := w, undoStack := kept :: s.undoStack }) := by
  rw [Service.perform, done]
  rw [if_pos rfl, Service.pushUndo, if_pos room]

theorem perform_result (j : Jail) (s : Service) (cmd : Command) :
    (s.perform j cmd).1 = (cmd.execute j s.world).1.1 := by
  rw [Service.perform]
  split_ifs with zero
  · exact zero.symm
  · rfl

theorem result_success {after : Option World} (success : (result w after).1 = 0) : ∃ w', after = some w' := by
  cases after with
  | none => cases success
  | some w' => exact ⟨w', rfl⟩

theorem readText_render {bytes : Text} (inactive : ¬ j.isActive)
    (linkless : w.tree.Linkless) (present : w.tree.node l = some (.file bytes)) (size : Nat) :
    localReadText j w (render l) size = some (bytes.take (size - 1)) := by
  rw [localReadText, if_neg (by simp [localPathOk_inactive inactive]), World.readFile,
    World.stat_render linkless present]
  rfl

theorem reversible_step {op : Op} (inactive : ¬ j.isActive)
    (linkless : s.world.tree.Linkless) (room : s.undoStack.length < fsUndoStackMax)
    (reversible : Reversible s.world.tree op) (success : (op.run j s).1 = 0) :
    (op.run j s).2.world.tree.Linkless ∧ ∃ cmd, (op.run j s).2.undoStack = cmd :: s.undoStack ∧
      Undoes j s.world.tree (op.run j s).2.world.tree cmd := by
  cases op with
  | createFile path =>
    obtain ⟨n, d, normal, home, free⟩ := reversible
    have done : (Command.createFile (pathField path)).execute j s.world =
        ((0, s.world.put d n (.file []) home (by simp [free])), .createFile (render (n :: d))) := by
      rw [normal.pathField, Command.execute, createFile_render inactive linkless home free]
    rw [Op.run, Service.fmCreateFile, perform_success room done]
    exact ⟨linkless.put home (by simp [free]) (by simp), _, rfl,
      undoes_create inactive linkless home free (by simp) fun w => rfl⟩
  | createDir path =>
    obtain ⟨n, d, normal, home, free⟩ := reversible
    have done : (Command.createDir (pathField path)).execute j s.world =
        ((0, s.world.put d n .dir home (by simp [free])), .createDir (render (n :: d))) := by
      rw [normal.pathField, Command.execute, createDir_render inactive home free]
    rw [Op.run, Service.fmCreateDir, perform_success room done]
    exact ⟨linkless.put home (by simp [free]) (by simp), _, rfl,
      undoes_create inactive linkless home free (by simp) fun w => rfl⟩
  | move src dst =>
    obtain ⟨l, m, e, normal, normal', free⟩ := reversible
    have renamed : ∃ w', s.world.rename (render l) (render (m :: e)) = some w' := by
      rw [Op.run, Service.fmMove, perform_result, normal.pathField, normal'.pathField, Command.execute,
        localMove, if_neg (by simp [localPathOk_inactive inactive]),
        if_neg (by simp [localPathOk_inactive inactive])] at success
      exact result_success success
    obtain ⟨w', renamed⟩ := renamed
    obtain ⟨present, inner, home, apart, leaf, rfl⟩ := World.rename_render_some linkless free renamed
    obtain ⟨n, d, rfl⟩ := exists_cons_of_ne_nil inner
    have done : (Command.move (pathField src) (pathField dst)).execute j s.world =
        ((0, s.world.shift (n :: d) m e inner home apart leaf), .move (render (n :: d)) (render (m :: e))) := by
      obtain ⟨_, _, moved⟩ := move_render inactive present home free apart
      rw [normal.pathField, normal'.pathField, Command.execute, moved]
    rw [Op.run, Service.fmMove, perform_success room done]
    exact ⟨linkless.move inner home apart, _, rfl, undoes_move inactive present inner home apart free⟩
  | save path content =>
    obtain ⟨l, bytes, normal, present, clean, short⟩ := reversible
    cases l with
    | nil => rw [s.world.tree.root] at present; cases present
    | cons n d =>
      have home := s.world.tree.parent n d (by rw [present]; rfl)
      have done : (Command.write (pathField path) (cstr content) none).execute j s.world =
          ((0, s.world.put d n (.file (cstr content)) home (by simp [present])),
            .write (render (n :: d)) (cstr content) (some bytes)) := by
        rw [normal.pathField, Command.execute, readText_render inactive linkless present,
          take_of_length_le (by omega), writeText_render inactive linkless home (by simp [present]),
          map_some, cstr_eq_self clean]
        rfl
      have allowed : ¬ chainRun [s.checkPolicyWrite] path ≠ 0 := by
        intro denied
        rw [Op.run, Service.fmSaveText, if_pos denied] at success
        cases success
      rw [Op.run, Service.fmSaveText, if_neg allowed, perform_success room done]
      exact ⟨linkless.put home (by simp [present]) (by simp), _, rfl, undoes_write inactive linkless home present _⟩
  | delete path => exact reversible.elim
  | undo => exact reversible.elim

theorem undoTimes_succeeds (inactive : ¬ j.isActive) (ops : List Op) (s u : Service)
    (linkless : s.world.tree.Linkless) (room : s.undoStack.length + ops.length ≤ fsUndoStackMax)
    (succeeds : Succeeds j s ops) (tree : u.world.tree = (history j s ops).world.tree)
    (stack : u.undoStack = (history j s ops).undoStack) :
    (undoTimes j ops.length u).1 = replicate ops.length 0 ∧
      (undoTimes j ops.length u).2.world.tree = s.world.tree ∧
      (undoTimes j ops.length u).2.undoStack = s.undoStack := by
  induction ops generalizing s with
  | nil => exact ⟨rfl, tree, stack⟩
  | cons op ops ih =>
    obtain ⟨reversible, success, rest⟩ := succeeds
    rw [length_cons] at room
    obtain ⟨linkless', cmd, pushed, undoes⟩ := reversible_step inactive linkless (by omega) reversible success
    obtain ⟨zeros, before, top⟩ := ih (op.run j s).2 linkless' (by rw [pushed, length_cons]; omega) rest tree stack
    obtain ⟨zero, back⟩ := undoes _ before
    rw [pushed] at top
    have last : (undoTimes j ops.length u).2.fmUndo j = ((cmd.undo j (undoTimes j ops.length u).2.world).1,
          { (undoTimes j ops.length u).2 with
            world := (cmd.undo j (undoTimes j ops.length u).2.world).2, undoStack := s.undoStack }) := by
      rw [Service.fmUndo, top]
    rw [length_cons, undoTimes, last]
    exact ⟨by rw [zeros, zero, ← replicate_succ'], back, rfl⟩

theorem undo_composes (j : Jail) (inactive : ¬ j.isActive) (s : Service)
    (linkless : s.world.tree.Linkless) (fresh : s.undoStack = []) (ops : List Op)
    (few : ops.length ≤ fsUndoStackMax) (succeeds : Succeeds j s ops) :
    (undoTimes j ops.length (history j s ops)).1 = replicate ops.length 0 ∧
      (undoTimes j ops.length (history j s ops)).2.world.tree = s.world.tree ∧
      (undoTimes j ops.length (history j s ops)).2.fmUndoAvailable = 0 := by
  obtain ⟨zeros, tree, stack⟩ := undoTimes_succeeds inactive ops s (history j s ops) linkless
    (by rw [fresh]; simpa using few) succeeds rfl rfl
  exact ⟨zeros, tree, by rw [Service.fmUndoAvailable, stack, fresh]; rfl⟩

def emptyWorld : World where
  tree := .bare
  cwd := some []
  maxLinks := 40
  touched := []
  cwd_dir := Tree.bare_cwd

def emptyService : Service where
  world := emptyWorld
  policy := none
  undoStack := []

theorem emptyService_linkless : emptyService.world.tree.Linkless := by
  intro l target
  show (if l = [] then _ else _) ≠ _
  split_ifs <;> simp

def smallHistory : List Op :=
  [.createDir "/a".toList, .createFile "/a/f".toList, .save "/a/f".toList "x".toList,
    .move "/a".toList "/b".toList]

theorem undo_composes_small : (undoTimes Jail.off 4 (history Jail.off emptyService smallHistory)).1 = [0, 0, 0, 0] ∧
      (undoTimes Jail.off 4 (history Jail.off emptyService smallHistory)).2.world.tree = .bare ∧
      (undoTimes Jail.off 4 (history Jail.off emptyService smallHistory)).2.fmUndoAvailable = 0 := by
  refine undo_composes Jail.off (by decide) emptyService emptyService_linkless rfl smallHistory (by decide) ?_
  let a : Name := ⟨"a".toList, by decide⟩
  let b : Name := ⟨"b".toList, by decide⟩
  let f : Name := ⟨"f".toList, by decide⟩
  refine ⟨⟨a, [], ⟨rfl, by decide⟩, rfl, rfl⟩, by decide +kernel,
    ⟨f, [a], ⟨rfl, by decide⟩, by decide +kernel, by decide +kernel⟩, by decide +kernel,
    ⟨[f, a], [], ⟨rfl, by decide⟩, by decide +kernel, by decide, by decide⟩, by decide +kernel,
    ⟨[a], b, [], ⟨rfl, by decide⟩, ⟨rfl, by decide⟩, by decide +kernel⟩, by decide +kernel, trivial⟩

end Flinstone.Fs
