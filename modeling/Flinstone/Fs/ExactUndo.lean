import Flinstone.Fs.Undo

/-! # What one undo gives back -/

namespace Flinstone.Fs
open Flinstone.Lib List

def ExactlyUndone (j : Jail) (s : Service) (op : Op) : Prop :=
  ((op.run j s).2.fmUndo j).1 = 0 ∧ ((op.run j s).2.fmUndo j).2.world.tree = s.world.tree

variable {j : Jail} {s : Service}

theorem perform_undone_iff {cmd : Command}
    (room : s.undoStack.length < fsUndoStackMax) (success : (cmd.execute j s.world).1.1 = 0) :
    (((s.perform j cmd).2.fmUndo j).1 = 0 ∧ ((s.perform j cmd).2.fmUndo j).2.world.tree = s.world.tree) ↔
      ((cmd.execute j s.world).2.undo j (cmd.execute j s.world).1.2).1 = 0 ∧
        ((cmd.execute j s.world).2.undo j (cmd.execute j s.world).1.2).2.tree = s.world.tree := by
  have done : cmd.execute j s.world = ((0, (cmd.execute j s.world).1.2), (cmd.execute j s.world).2) :=
    Prod.ext (Prod.ext success rfl) rfl
  rw [perform_success room done]
  rfl

theorem checked_success {w : World} {path : Text} {act : Int × World}
    (success : (if localPathOk j w path ≠ 0 then (-1, w) else act).1 = 0) :
    localPathOk j w path = 0 ∧ (if localPathOk j w path ≠ 0 then (-1, w) else act) = act := by
  by_cases refused : localPathOk j w path ≠ 0
  · rw [if_pos refused] at success
    cases success
  · exact ⟨not_not.mp refused, if_neg refused⟩

section Save
variable {j : Jail} {w : World} {path : Text} {n : Name} {d : Loc}

theorem localPathOk_alike {w' : World} (alike : w.tree.Alike w'.tree) (cwd : w'.cwd = w.cwd)
    (links : w'.maxLinks = w.maxLinks) : localPathOk j w' path = localPathOk j w path := by
  rw [localPathOk, localPathOk, Jail.checkPath_congr (World.within_lookup_alike alike cwd links)]

theorem writeText_again {old : Text} {k : Nat} (ok : localPathOk j w path = 0)
    (found : w.lookup path = .reached (n :: d) k) (file : w.tree.node (n :: d) = some (.file old))
    (home : w.tree.node d = some .dir) (flat : w.tree.node (n :: d) ≠ some .dir) (new bytes : Text) :
    ∃ home' flat', localWriteText j (w.put d n (.file new) home flat) path bytes =
      (0, (w.put d n (.file new) home flat).put d n (.file bytes) home' flat') := by
  have alike := World.put_alike file new home flat
  have same := World.lookup_alike alike rfl rfl
  have home' : (w.put d n (.file new) home flat).tree.node d = some .dir := by
    rw [World.put, Tree.node_put, if_neg (by simp), home]
  have flat' : (w.put d n (.file new) home flat).tree.node (n :: d) ≠ some .dir := by
    rw [World.put, Tree.node_put, if_pos rfl]
    simp
  refine ⟨home', flat', ?_⟩
  rw [localWriteText, localPathOk_alike alike rfl rfl, if_neg (not_not.mpr ok),
    World.writeFile_reached ((same path).trans found) home' flat']
  rfl

theorem put_put_tree_iff {old new bytes : Text} {home : w.tree.node d = some .dir}
    {flat : w.tree.node (n :: d) ≠ some .dir} {home' flat'}
    (file : w.tree.node (n :: d) = some (.file old)) :
    ((w.put d n (.file new) home flat).put d n (.file bytes) home' flat').tree = w.tree ↔ bytes = old := by
  constructor
  · intro same
    have node := congrArg (fun t => t.node (n :: d)) same
    simp only [World.put, Tree.node_put, if_pos, file] at node
    simpa using node
  · rintro rfl
    ext l
    simp only [World.put, Tree.node_put]
    split_ifs with here
    · rw [here, file]
    · rfl

theorem kept_whole_iff (bytes : Text) :
    cstr (bytes.take (cmdStrMax - 1)) = bytes ↔ '\x00' ∉ bytes ∧ bytes.length < cmdStrMax := by
  constructor
  · intro whole
    have clean := cstr_clean (bytes.take (cmdStrMax - 1))
    have short : (cstr (bytes.take (cmdStrMax - 1))).length ≤ (bytes.take (cmdStrMax - 1)).length :=
      (takeWhile_sublist _).length_le
    rw [whole] at clean short
    rw [length_take] at short
    exact ⟨clean, by unfold cmdStrMax at *; omega⟩
  · rintro ⟨clean, short⟩
    rw [take_of_length_le (by omega), cstr_eq_self clean]

end Save

/-- A save is undone exactly when there was a file, and what it held is a string that the buffer takes whole. -/
theorem save_undo_exact_iff (j : Jail) (s : Service) (path content : Text)
    (room : s.undoStack.length < fsUndoStackMax) (success : (s.fmSaveText j path content).1 = 0) :
    ExactlyUndone j s (.save path content) ↔
      ∃ bytes, s.world.stat (pathField path) = some (.file bytes) ∧ '\x00' ∉ bytes ∧ bytes.length < cmdStrMax := by
  have allowed : ¬ chainRun [s.checkPolicyWrite] path ≠ 0 := by
    intro denied
    rw [Service.fmSaveText, if_pos denied] at success
    cases success
  rw [Service.fmSaveText, if_neg allowed, perform_result] at success
  obtain ⟨ok, act⟩ := checked_success success
  obtain ⟨w', written⟩ := result_success ((congrArg Prod.fst act).symm.trans success)
  have done : (Command.write (pathField path) (cstr content) none).execute j s.world =
      ((0, w'), .write (pathField path) (cstr content)
        ((s.world.readFile (pathField path)).map fun bytes => cstr (bytes.take (cmdStrMax - 1)))) := by
    rw [Command.execute, localWriteText, localReadText, if_neg (not_not.mpr ok), if_neg (not_not.mpr ok),
      written, Option.map_map, Option.or_none]
    rfl
  rw [ExactlyUndone, Op.run, Service.fmSaveText, if_neg allowed, perform_undone_iff room success, done]
  obtain ⟨d, n, home, flat, opens, rfl⟩ := World.writeFile_some written
  rcases opens with ⟨e, m, found, _⟩ | ⟨k, old, found, file⟩
  · -- nothing was read, so nothing can be written back
    have absent : s.world.stat (pathField path) = none := by rw [World.stat, found]
    rw [World.readFile, absent]
    simp [Command.undo]
  · have stat : s.world.stat (pathField path) = some (.file old) := by
      rw [World.stat_of_reached found, file]
    obtain ⟨home', flat', again⟩ := writeText_again ok found file home flat (cstr content)
      (cstr (old.take (cmdStrMax - 1)))
    rw [World.readFile, stat]
    show (localWriteText j _ _ _).1 = 0 ∧ (localWriteText j _ _ _).2.tree = _ ↔ _
    rw [again, put_put_tree_iff file, kept_whole_iff]
    simp

def savedService : Service := (emptyService.fmSaveText Jail.off "/f".toList "old".toList).2

theorem saved_text_undone : ExactlyUndone Jail.off savedService (.save "/f".toList "new".toList) :=
  (save_undo_exact_iff Jail.off savedService "/f".toList "new".toList (by decide +kernel)
    (by decide +kernel)).mpr ⟨"old".toList, by decide +kernel, by decide, by decide⟩

theorem new_file_not_undone :
    (emptyService.fmSaveText Jail.off "/f".toList "old".toList).1 = 0 ∧
      (savedService.fmUndo Jail.off).1 = -1 ∧
      (savedService.fmUndo Jail.off).2.world.stat "/f".toList = some (.file "old".toList) ∧
      emptyService.world.stat "/f".toList = none := by
  decide +kernel

/-! ## Creations and moves -/

/-- The operations that make or rename an entry, on canonical names. -/
def Canonical : Op → Prop
  | .createFile path | .createDir path => ∃ n d, Normalised path (n :: d)
  | .move src dst => ∃ l n d, Normalised src l ∧ Normalised dst (n :: d)
  | _ => False

section Canonical
variable {j : Jail} {w : World} {n : Name} {d : Loc}

theorem mkdirParents_linkless (linkless : w.tree.Linkless) (fuel : Nat) (path : Text) :
    (mkdirParents fuel path w).2.tree.Linkless := by
  have chained : ∀ {e new : Loc} {w' : World}, Chain w e new w' → w'.tree.Linkless := by
    intro e new w' chain
    induction chain with
    | base => exact linkless
    | deeper n chain home free ih => exact ih.put home (by simp [free]) (by simp)
  rcases mkdirParents_made fuel path w with same | ⟨_, _, _, _, _, _, _, _, chain, _⟩
  · rwa [same]
  · exact chained chain

/-- What a deletion leaves: the directory without the entry. -/
theorem delete_render_success (linkless : w.tree.Linkless) (success : (localDelete j w (render (n :: d))).1 = 0) :
    (localDelete j w (render (n :: d))).2.tree.node d = some .dir ∧
      (localDelete j w (render (n :: d))).2.tree.node (n :: d) = none := by
  have taken {leaf : w.tree.Leaf (n :: d)} (there : (w.tree.node (n :: d)).isSome) :
      (w.take n d leaf).tree.node d = some .dir ∧ (w.take n d leaf).tree.node (n :: d) = none := by
    rw [World.take, Tree.node_remove, Tree.node_remove, if_pos rfl, if_neg (by simp), w.tree.parent n d there]
    exact ⟨rfl, rfl⟩
  obtain ⟨_, act⟩ := checked_success success
  rw [localDelete, act] at success ⊢
  split at success
  · cases success
  · obtain ⟨w', removed⟩ := result_success success
    obtain ⟨e, m, leaf, found, dir, rfl⟩ := World.rmdir_some removed
    obtain ⟨rfl, rfl⟩ := cons.inj (World.entry_render_some linkless found)
    rw [removed]
    exact taken (by rw [dir]; rfl)
  · obtain ⟨w', removed⟩ := result_success success
    obtain ⟨e, m, leaf, found, there, _, _, rfl⟩ := World.unlink_some removed
    obtain ⟨rfl, rfl⟩ := cons.inj (World.entry_render_some linkless found)
    rw [removed]
    exact taken there

theorem checked_linkless {path : Text} {made : World} {after : Option World}
    (linkless : ∀ w', after = some w' → w'.tree.Linkless)
    (success : (if localPathOk j w path ≠ 0 then (-1, w) else result made after).1 = 0) :
    (if localPathOk j w path ≠ 0 then (-1, w) else result made after).2.tree.Linkless := by
  obtain ⟨_, act⟩ := checked_success success
  rw [act] at success ⊢
  obtain ⟨w', rfl⟩ := result_success success
  exact linkless w' rfl

theorem move_success {src dst : Text} (success : (localMove j w src dst).1 = 0) :
    w.rename src dst = some (localMove j w src dst).2 := by
  obtain ⟨_, first⟩ := checked_success success
  rw [localMove, first] at success ⊢
  obtain ⟨_, second⟩ := checked_success success
  rw [second] at success ⊢
  obtain ⟨w', renamed⟩ := result_success success
  rw [renamed]
  rfl

theorem move_render_gone {l : Loc} (linkless : w.tree.Linkless) (differ : l ≠ n :: d)
    (success : (localMove j w (render (n :: d)) (render l)).1 = 0) :
    (localMove j w (render (n :: d)) (render l)).2.tree.node (n :: d) = none := by
  obtain ⟨d', n', e, m, x, found, found', present, _, moved⟩ := World.rename_some (move_success success)
  obtain ⟨rfl, rfl⟩ := cons.inj (World.entry_render_some linkless found)
  obtain rfl := World.entry_render_some linkless found'
  rw [if_neg differ.symm] at moved
  obtain ⟨_, inner, home, apart, leaf, shifted⟩ := moved
  rw [shifted, World.shift]
  refine Tree.node_move_gone inner home apart suffix_rfl fun below => differ ?_
  exact (leaf.eq_of_suffix (Option.isSome_of_eq_some present) below).symm

end Canonical

def twoFiles : Service := (savedService.fmSaveText Jail.off "/g".toList "lost".toList).2

theorem savedService_linkless : savedService.world.tree.Linkless := by
  have written : emptyWorld.writeFile "/f".toList "old".toList = some savedService.world := rfl
  exact World.writeFile_linkless emptyService_linkless written

theorem twoFiles_linkless : twoFiles.world.tree.Linkless := by
  have written : savedService.world.writeFile "/g".toList "lost".toList = some twoFiles.world := rfl
  exact World.writeFile_linkless savedService_linkless written

theorem not_exactlyUndone {op : Op} (l : Loc)
    (differs : ((op.run j s).2.fmUndo j).2.world.tree.node l ≠ s.world.tree.node l) :
    ¬ ExactlyUndone j s op := fun undone => differs (by rw [undone.2])

end Flinstone.Fs
