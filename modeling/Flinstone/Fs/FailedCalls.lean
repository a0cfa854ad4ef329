import Flinstone.Fs.ExactUndo

/-! # What a failed call leaves behind -/

namespace Flinstone.Fs
open Flinstone.Lib List

namespace Chain
variable {w w' : World} {e new : Loc}

theorem last_dir (chain : Chain w e new w') (some_new : new ≠ []) : w'.tree.node (new ++ e) = some .dir := by
  cases chain with
  | base => exact absurd rfl some_new
  | deeper n chain home free => exact if_pos rfl

theorem last_empty (chain : Chain w e new w') (some_new : new ≠ []) (m : Name) :
    w'.tree.node (m :: (new ++ e)) = none := by
  cases chain with
  | base => exact absurd rfl some_new
  | @deeper new w' n chain home free =>
    have other : m :: (n :: new ++ e) ≠ n :: (new ++ e) := by
      intro same
      have lengths := congrArg length same
      simp at lengths
    rw [World.put, Tree.node_put, if_neg other]
    by_contra present
    have above := w'.tree.parent m (n :: (new ++ e)) (Option.isSome_iff_ne_none.mpr present)
    rw [free] at above
    cases above

theorem tree_ne (chain : Chain w e new w') (some_new : new ≠ []) : w'.tree ≠ w.tree := by
  intro same
  obtain ⟨inner, n, order⟩ := (eq_nil_or_concat' new).resolve_left some_new
  have made := chain.first_made order
  rw [same, (chain.first order).2] at made
  cases made

end Chain

def Plain (path : Text) : Prop := ∀ piece ∈ (path.splitOnP (· = '/')).tail, ∃ n, comp piece = some (.name n)

theorem Plain.cut {front last : Text} (plain : Plain (front ++ '/' :: last)) (free : '/' ∉ last) :
    Plain front ∧ ∃ n, comp last = some (.name n) := by
  have single : last.splitOnP (· = '/') = [last] := by
    apply splitOnP_eq_singleton
    intro c member
    exact decide_eq_false fun same => free (same ▸ member)
  have pieces : ((front ++ '/' :: last).splitOnP (· = '/')).tail = (front.splitOnP (· = '/')).tail ++ [last] := by
    rw [splitOnP_append_cons _ _ (by decide), single, tail_append_of_ne_nil (splitOnP_ne_nil _ _)]
  rw [Plain, pieces] at plain
  exact ⟨fun piece member => plain piece (mem_append_left _ member),
    plain last (mem_append_right _ (mem_singleton_self last))⟩

structure FreeName (w : World) (path : Text) (d : Loc) (n : Name) : Prop where
  entry : w.entry path = some (d, n)
  lookup : w.lookup path = .missing d n
  home : w.tree.node d = some .dir
  free : w.tree.node (n :: d) = none

variable {w : World} {path : Text} {d : Loc} {n : Name} {j : Jail} {s : Service} {cmd : Command}

theorem FreeName.mkdir (name : FreeName w path d n) : (w.mkdir path).isSome := by
  rw [World.mkdir, name.entry]
  dsimp only
  rw [dif_pos ⟨name.home, name.free⟩]
  rfl

theorem FreeName.writeFile (name : FreeName w path d n) (bytes : Text) : (w.writeFile path bytes).isSome := by
  rw [World.writeFile, name.lookup]
  dsimp only
  rw [dif_pos ⟨name.home, by simp [name.free]⟩]
  rfl

theorem Made.freeName {made : Int × World} (front : Made w path made)
    (short : path.length < fsPathMax) (plain : Plain path) (success : made.1 = 0) (new : made.2 ≠ w) :
    ∃ d n, FreeName made.2 path d n := by
  rcases front with same | ⟨front, m, inner, e, i, rest, start, parts, chain, whole⟩
  · exact absurd same new
  · obtain ⟨tmp, cut, names⟩ := whole success
    rw [take_of_length_le (Nat.le_sub_one_of_lt short)] at cut
    obtain ⟨last, rfl, free⟩ := cutLast_some cut
    obtain ⟨_, n, named⟩ := plain.cut free
    have some_new : inner ++ [m] ≠ [] := by simp
    have arrives : made.2.walkFrom (tmp ++ '/' :: last) (comps tmp) = .reached (inner ++ [m] ++ e) i := by
      rw [names, World.walkFrom_append, chain.walkFrom start, Walk.andThen, chain.walk_new]
    have home := chain.last_dir some_new
    have fresh := chain.last_empty some_new n
    refine ⟨inner ++ [m] ++ e, n, ?_, ?_, home, fresh⟩
    · refine World.entry_of_walk ?_ arrives
      rw [comps_slash, comps_plain free, named]
      rfl
    · rw [World.lookup, steps_slash tmp free, lastComp, named, Option.getD_some, World.walkFrom_append, arrives,
        Walk.andThen, walk_none home fresh, if_pos rfl]

theorem mkdirParents_plain (fuel : Nat) (w : World) (short : path.length < fsPathMax)
    (plain : Plain path) : (mkdirParents fuel path w).2 = w ∨ (mkdirParents fuel path w).1 = 0 := by
  induction fuel generalizing path with
  | zero => exact .inl rfl
  | succ fuel ih =>
    rw [mkdirParents]
    cases cut : cutLast '/' (path.take (fsPathMax - 1)) with
    | none => exact .inl rfl
    | some tmp =>
      cases tmp with
      | nil => exact .inl rfl
      | cons x tmp =>
        rw [take_of_length_le (Nat.le_sub_one_of_lt short)] at cut
        obtain ⟨last, rfl, free⟩ := cutLast_some cut
        have shorter : (x :: tmp).length < fsPathMax := by
          rw [length_append] at short
          omega
        have plain_front := (plain.cut free).1
        have front := ih shorter plain_front
        dsimp only
        split_ifs with there failed
        · exact .inl rfl
        · exact .inl (front.resolve_right failed)
        · cases step : (mkdirParents fuel (x :: tmp) w).2.mkdir (x :: tmp) with
          | some w' => exact .inr rfl
          | none =>
            by_cases same : (mkdirParents fuel (x :: tmp) w).2 = w
            · exact .inl same
            · obtain ⟨d, n, name⟩ := (mkdirParents_made fuel (x :: tmp) w).freeName shorter plain_front
                (not_not.mp failed) same
              have made := name.mkdir
              rw [step] at made
              cases made

theorem nothing_made {act : World → Option World} (short : path.length < fsPathMax) (plain : Plain path)
    (works : ∀ w' d n, FreeName w' path d n → (act w').isSome)
    (failed : act (mkdirParents fsPathMax path w).2 = none) : (mkdirParents fsPathMax path w).2 = w := by
  by_contra new
  have success := (mkdirParents_plain fsPathMax w short plain).resolve_left new
  obtain ⟨d, n, name⟩ := (mkdirParents_made fsPathMax path w).freeName short plain success new
  have worked := works _ d n name
  rw [failed] at worked
  cases worked

/-- The jail turns the path down, or no part of it in front of a slash names a free place in a directory. -/
def LeavesNothing (j : Jail) (w : World) (path : Text) : Prop := localPathOk j w path ≠ 0 ∨ ¬ LacksFront w path

structure CreationFailed (j : Jail) (s : Service) (path : Text) (s' : Service) : Prop where
  stack : s'.undoStack = s.undoStack
  tree : s'.world.tree = s.world.tree ↔ LeavesNothing j s.world (pathField path)
  plain : Plain (pathField path) → s'.world.tree = s.world.tree

theorem result_failed {after : Option World} (failed : (result w after).1 ≠ 0) :
    after = none ∧ (result w after).2 = w := by
  cases after with
  | none => exact ⟨rfl, rfl⟩
  | some w' => exact absurd rfl failed

theorem perform_failed (failed : (cmd.execute j s.world).1.1 ≠ 0) :
    (s.perform j cmd).2 = { s with world := (cmd.execute j s.world).1.2 } := by
  rw [Service.perform, if_neg failed]

theorem made_tree_eq_iff (w : World) (path : Text) :
    (mkdirParents fsPathMax path w).2.tree = w.tree ↔ (mkdirParents fsPathMax path w).2 = w := by
  constructor
  · intro same
    rcases mkdirParents_made fsPathMax path w with idle | ⟨front, n, inner, e, k, rest, _, _, chain, _⟩
    · exact idle
    · exact absurd same (chain.tree_ne (by simp))
  · intro same
    rw [same]

theorem pathField_short (path : Text) : (pathField path).length < fsPathMax := by
  rw [pathField, length_take]
  exact lt_of_le_of_lt (min_le_left ..) (by decide)

section Creation
variable {j : Jail} {s : Service} {path : Text} {cmd : Command}

theorem creationFailed (act : World → Option World)
    (runs : (cmd.execute j s.world).1 = if localPathOk j s.world (pathField path) ≠ 0 then (-1, s.world)
      else result (mkdirParents fsPathMax (pathField path) s.world).2
        (act (mkdirParents fsPathMax (pathField path) s.world).2))
    (works : ∀ w' d n, FreeName w' (pathField path) d n → (act w').isSome)
    (failed : (s.perform j cmd).1 = -1) : CreationFailed j s path (s.perform j cmd).2 := by
  rw [perform_result] at failed
  have after : (s.perform j cmd).2 = { s with world := (cmd.execute j s.world).1.2 } :=
    perform_failed (by rw [failed]; decide)
  have short := pathField_short path
  rw [runs] at failed
  by_cases refused : localPathOk j s.world (pathField path) ≠ 0
  · have world : (s.perform j cmd).2.world = s.world := by rw [after, runs, if_pos refused]
    constructor
    · rw [after]
    · rw [world]
      exact iff_of_true rfl (.inl refused)
    · intro _
      rw [world]
  · rw [if_neg refused] at failed
    obtain ⟨none, same⟩ := result_failed (by rw [failed]; decide)
    have world : (s.perform j cmd).2.world = (mkdirParents fsPathMax (pathField path) s.world).2 := by
      rw [after, runs, if_neg refused]
      exact same
    constructor
    · rw [after]
    · rw [world, made_tree_eq_iff, mkdirParents_idle_iff short short, LeavesNothing]
      exact (or_iff_right refused).symm
    · intro plain
      rw [world, nothing_made short plain works none]

end Creation

theorem localWriteText_failed {content : Text}
    (failed : (localWriteText j w path content).1 ≠ 0) : (localWriteText j w path content).2 = w := by
  unfold localWriteText at failed ⊢
  split_ifs at failed ⊢ with refused
  · rfl
  · exact (result_failed failed).2

theorem localMove_failed {src dst : Text} (failed : (localMove j w src dst).1 ≠ 0) : (localMove j w src dst).2 = w := by
  unfold localMove at failed ⊢
  split_ifs at failed ⊢ with refused_src refused_dst
  · rfl
  · rfl
  · exact (result_failed failed).2

theorem perform_kept (kept : (cmd.execute j s.world).1.1 ≠ 0 → (cmd.execute j s.world).1.2 = s.world)
    (failed : (s.perform j cmd).1 = -1) : (s.perform j cmd).2 = s := by
  rw [perform_result] at failed
  have nonzero : (cmd.execute j s.world).1.1 ≠ 0 := by rw [failed]; decide
  rw [perform_failed nonzero, kept nonzero]

/-- A failed creation leaves the directories that were made in front of the path. -/
theorem failed_calls (j : Jail) (s : Service) :
    (∀ path content, (s.fmSaveText j path content).1 = -1 → (s.fmSaveText j path content).2 = s) ∧
      (∀ src dst, (s.fmMove j src dst).1 = -1 → (s.fmMove j src dst).2 = s) ∧
      (∀ path, (s.fmCreateFile j path).1 = -1 → CreationFailed j s path (s.fmCreateFile j path).2) ∧
      ∀ path, (s.fmCreateDir j path).1 = -1 → CreationFailed j s path (s.fmCreateDir j path).2 := by
  refine ⟨fun path content failed => ?_, fun src dst failed => ?_, fun path failed => ?_, fun path failed => ?_⟩
  · unfold Service.fmSaveText at failed ⊢
    split_ifs at failed ⊢ with denied
    · rfl
    · exact perform_kept localWriteText_failed failed
  · exact perform_kept localMove_failed failed
  · exact creationFailed (fun w => w.writeFile (pathField path) []) rfl (fun w' d n name => name.writeFile []) failed
  · exact creationFailed (fun w => w.mkdir (pathField path)) rfl (fun w' d n name => name.mkdir) failed

/-- Making the file or the directory `/a/` on an empty system fails and leaves the directory `/a`. -/
theorem failed_creation_leaves_dir :
    (emptyService.fmCreateDir Jail.off "/a/".toList).1 = -1 ∧
      (emptyService.fmCreateDir Jail.off "/a/".toList).2.world.stat "/a".toList = some .dir ∧
      (emptyService.fmCreateFile Jail.off "/a/".toList).1 = -1 ∧
      (emptyService.fmCreateFile Jail.off "/a/".toList).2.world.stat "/a".toList = some .dir ∧
      emptyService.world.stat "/a".toList = none := by
  decide +kernel

end Flinstone.Fs
