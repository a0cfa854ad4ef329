import Flinstone.Fs.HostCalls
import Flinstone.Lib.Subtree

/-! # What `rmtree` removes -/

namespace Flinstone.Fs
open Flinstone.Lib List

structure Removable (host : Host) (w : World) (d : Text) (D : Loc) : Prop where
  opened : w.opendir d = some D
  linkless : ∀ l target, Below D l → w.tree.node l ≠ some (.link target)
  short : ∀ rel, rel ≠ [] → (w.tree.node (rel ++ D)).isSome → (d ++ spell rel).length < entryPathSize
  lists : ∀ l n, D <:+ l → (w.tree.node (n :: l)).isSome → n ∈ host.readdir w l
  once : (host.readdir w D).Nodup
  opens : ∀ rel, w.tree.node (rel ++ D) = some .dir → rel.length < host.openMax

def RmdirsEmpty (w : World) (calls : List HostCall) : Prop :=
  ∀ before path after, calls = before ++ .rmdir path :: after →
    ∀ l, (replay w before).At path l → (replay w before).tree.Leaf l

structure Removed (host : Host) (w : World) (d : Text) (D : Loc) : Prop where
  returns : (removeDirectoryRecursive host w d).1 = some 0
  node : ∀ l, (removeDirectoryRecursive host w d).2.tree.node l = if D <:+ l then none else w.tree.node l
  empty : RmdirsEmpty w (removalCalls host w d)

/-- At most one file or directory. -/
def Sparse (w : World) (D : Loc) : Prop :=
  ∀ l m, Below D l → Below D m → (w.tree.node l).isSome → (w.tree.node m).isSome → l = m

def entryAt (w : World) (d : Text) (D rel : Loc) : Entry where
  path := d ++ spell rel
  depth := rel.length - 1
  isDir := w.tree.node (rel ++ D) = some .dir

def Scanned (w : World) (d : Text) (D : Loc) (e : Entry) : Prop :=
  ∃ rel, rel ≠ [] ∧ (w.tree.node (rel ++ D)).isSome ∧ e = entryAt w d D rel

section Scan
variable {host : Host} {w : World} {d : Text} {D rel : Loc} {e : Entry}

theorem Removable.dir (fits : Removable host w d D) : w.tree.node D = some .dir := (World.opendir_some fits.opened).2

theorem Removable.leads (fits : Removable host w d D) : ∃ k, w.walkFrom d (comps d) = .reached D k := by
  obtain ⟨⟨k, found⟩, _⟩ := World.opendir_some fits.opened
  exact ⟨k, World.lookup_front found⟩

theorem Removable.opendir (fits : Removable host w d D) (dir : w.tree.node (rel ++ D) = some .dir) :
    w.opendir (d ++ spell rel) = some (rel ++ D) := by
  by_cases top : rel = []
  · rw [top, spell, append_nil]
    exact fits.opened
  · obtain ⟨k, leads⟩ := fits.leads
    exact World.opendir_of_lookup (World.lookup_onward leads top (by rw [dir]; rfl) (by rw [dir]; simp)) dir

theorem Removable.stat (fits : Removable host w d D) (inner : rel ≠ []) (there : (w.tree.node (rel ++ D)).isSome) :
    w.stat (d ++ spell rel) = w.tree.node (rel ++ D) := by
  obtain ⟨k, leads⟩ := fits.leads
  have plain := fun target => fits.linkless (rel ++ D) target (below_append inner)
  exact World.stat_of_reached (World.lookup_onward leads inner there plain)

variable {n : Name} {free : Nat}

theorem Removable.subPath (fits : Removable host w d D) (there : (w.tree.node (n :: rel ++ D)).isSome) :
    subPath entryPathSize (d ++ spell rel) n = d ++ spell (n :: rel) := by
  have whole : d ++ spell rel ++ '/' :: n.val = d ++ spell (n :: rel) := by rw [spell, append_assoc]
  have short := fits.short (n :: rel) (cons_ne_nil n rel) there
  rw [Fs.subPath, whole, take_of_length_le (by omega)]

theorem entryAt_cons :
    entryAt w d D (n :: rel) = ⟨d ++ spell (n :: rel), rel.length, w.tree.node (n :: rel ++ D) = some .dir⟩ := rfl

theorem mem_scanDir (fits : Removable host w d D) (dir : w.tree.node (rel ++ D) = some .dir) :
    e ∈ scanDir host w (free + 1) (d ++ spell rel) rel.length ↔
      ∃ n, (w.tree.node (n :: rel ++ D)).isSome ∧ (e = entryAt w d D (n :: rel) ∨
        w.tree.node (n :: rel ++ D) = some .dir ∧
          e ∈ scanDir host w free (d ++ spell (n :: rel)) (n :: rel).length) := by
  have one {n : Name} (there : (w.tree.node (n :: rel ++ D)).isSome) :
      (e ∈ if w.stat (subPath entryPathSize (d ++ spell rel) n) = some .dir then
          ⟨subPath entryPathSize (d ++ spell rel) n, rel.length, true⟩ ::
            scanDir host w free (subPath entryPathSize (d ++ spell rel) n) (rel.length + 1)
        else [⟨subPath entryPathSize (d ++ spell rel) n, rel.length, false⟩]) ↔
      e = entryAt w d D (n :: rel) ∨ w.tree.node (n :: rel ++ D) = some .dir ∧
        e ∈ scanDir host w free (d ++ spell (n :: rel)) (n :: rel).length := by
    rw [fits.subPath there, fits.stat (cons_ne_nil n rel) there]
    rw [entryAt_cons]
    split_ifs with isDir
    · rw [mem_cons, decide_eq_true isDir, and_iff_right isDir]
      rfl
    · rw [mem_singleton, decide_eq_false isDir, or_iff_left fun both => isDir both.1]
  rw [scanDir, fits.opendir dir]
  rw [mem_flatMap]
  constructor
  · rintro ⟨n, listed, here⟩
    have there : (w.tree.node (n :: rel ++ D)).isSome := host.readdir_there w _ n listed
    exact ⟨n, there, (one there).mp here⟩
  · rintro ⟨n, there, here⟩
    exact ⟨n, fits.lists _ n (suffix_append rel D) there, (one there).mpr here⟩

theorem scanned_of_mem (fits : Removable host w d D) (dir : w.tree.node (rel ++ D) = some .dir)
    (member : e ∈ scanDir host w free (d ++ spell rel) rel.length) : Scanned w d D e := by
  induction free generalizing rel with
  | zero => cases member
  | succ free ih =>
    obtain ⟨n, there, rfl | ⟨isDir, deeper⟩⟩ := (mem_scanDir fits dir).mp member
    · exact ⟨n :: rel, cons_ne_nil n rel, there, rfl⟩
    · exact ih isDir deeper

theorem mem_of_there (fits : Removable host w d D) {front : Loc}
    (enough : rel.length + free = host.openMax) (there : (w.tree.node (front ++ (n :: rel) ++ D)).isSome) :
    entryAt w d D (front ++ n :: rel) ∈ scanDir host w free (d ++ spell rel) rel.length := by
  induction free generalizing rel front n with
  | zero =>
    have dir : w.tree.node (rel ++ D) = some .dir := Tree.dir_of_isSome (n := n) there (by simp)
    exact absurd (fits.opens rel dir) (by omega)
  | succ free ih =>
    have dir : w.tree.node (rel ++ D) = some .dir := Tree.dir_of_isSome (n := n) there (by simp)
    rw [mem_scanDir fits dir]
    rcases eq_nil_or_concat front with rfl | ⟨shorter, m, rfl⟩
    · exact ⟨n, there, .inl rfl⟩
    · rw [concat_eq_append, ← append_cons] at there ⊢
      have isDir : w.tree.node (n :: rel ++ D) = some .dir := Tree.dir_of_isSome (n := m) there (by simp)
      refine ⟨n, by rw [isDir]; rfl, .inr ⟨isDir, ih ?_ there⟩⟩
      rw [length_cons]
      omega

theorem mem_scan_iff (fits : Removable host w d D) : e ∈ scanDir host w host.openMax d 0 ↔ Scanned w d D e := by
  have whole : d ++ spell [] = d := append_nil d
  constructor
  · intro member
    rw [← whole] at member
    have dir : w.tree.node ([] ++ D) = some .dir := fits.dir
    exact scanned_of_mem fits dir member
  · rintro ⟨rel, inner, there, rfl⟩
    obtain ⟨front, n, rfl⟩ := (eq_nil_or_concat rel).resolve_left inner
    rw [concat_eq_append] at there ⊢
    have enough : length ([] : Loc) + host.openMax = host.openMax := zero_add _
    have member := mem_of_there fits enough there
    rwa [whole] at member

theorem entryAt_injective : Function.Injective (entryAt w d D) := by
  intro rel rel' same
  have paths : d ++ spell rel = d ++ spell rel' := congrArg Entry.path same
  exact spell_injective (append_cancel_left paths)

theorem scan_sparse_iff (fits : Removable host w d D) :
    (scanDir host w host.openMax d 0).length ≤ 1 ↔ Sparse w D := by
  constructor
  · intro few l m below below' there there'
    obtain ⟨rel, inner, rfl⟩ := below_iff.mp below
    obtain ⟨rel', inner', rfl⟩ := below_iff.mp below'
    have first := (mem_scan_iff fits).mpr ⟨rel, inner, there, rfl⟩
    have second := (mem_scan_iff fits).mpr ⟨rel', inner', there', rfl⟩
    obtain ⟨e, one⟩ := length_eq_one_iff.mp (le_antisymm few (length_pos_of_mem first))
    rw [one, mem_singleton] at first second
    rw [entryAt_injective (first.trans second.symm)]
  · intro sparse
    have dir : w.tree.node ([] ++ D) = some .dir := fits.dir
    -- a second place below the directory is none
    have single (n : Name) (rel : Loc) (inner : rel ≠ []) (there : (w.tree.node (rel ++ D)).isSome)
        (there' : (w.tree.node ([n] ++ D)).isSome) : rel = [n] :=
      append_cancel_right (sparse _ _ (below_append inner) (below_append (cons_ne_nil n [])) there there')
    cases host.openMax with
    | zero => exact Nat.zero_le 1
    | succ free =>
      rw [scanDir, fits.opened]
      dsimp only
      have there := host.readdir_there w D
      have once := fits.once
      generalize host.readdir w D = listed at there once
      cases listed with
      | nil => exact Nat.zero_le 1
      | cons n more =>
        have first := there n (mem_cons_self ..)
        have alone : more = [] := eq_nil_iff_forall_not_mem.mpr fun m member => by
          have same := single n [m] (cons_ne_nil m []) (there m (mem_cons_of_mem _ member)) first
          exact (nodup_cons.mp once).1 (singleton_inj.mp same ▸ member)
        have path : subPath entryPathSize d n = d ++ spell [n] := by
          have cut : subPath entryPathSize (d ++ spell []) n = d ++ spell [n] := fits.subPath first
          rwa [spell, append_nil] at cut
        rw [alone, flatMap_singleton, path]
        split_ifs with isDir
        · rw [fits.stat (cons_ne_nil n []) first] at isDir
          have deeper : scanDir host w free (d ++ spell [n]) (0 + 1) = [] := by
            refine eq_nil_iff_forall_not_mem.mpr fun e member => ?_
            cases free with
            | zero => cases member
            | succ free =>
              obtain ⟨m, below, _⟩ := (mem_scanDir fits isDir).mp member
              have same := single n [m, n] (cons_ne_nil m [n]) below first
              exact absurd (congrArg length same) (by simp)
          rw [deeper]
          rfl
        · rfl

end Scan

/-! ## Calls that remove -/

section Calls
variable {w v : World} {path : Text} {D l : Loc}

theorem rmdir_gone (shrinks : w.Shrinks v) (named : w.At path l) (gone : v.tree.node l = none) :
    v.rmdir path = none := by
  cases removed : v.rmdir path with
  | none => rfl
  | some u =>
    obtain ⟨d, n, _, found, dir, _⟩ := World.rmdir_some removed
    obtain rfl := named.unique (shrinks.at ⟨d, n, found, rfl⟩)
    rw [gone] at dir
    cases dir

theorem unlink_gone (shrinks : w.Shrinks v) (named : w.At path l) (gone : v.tree.node l = none) :
    v.unlink path = none := by
  cases removed : v.unlink path with
  | none => rfl
  | some u =>
    obtain ⟨d, n, _, found, there, _⟩ := World.unlink_some removed
    obtain rfl := named.unique (shrinks.at ⟨d, n, found, rfl⟩)
    rw [gone] at there
    cases there

structure Dropped (D : Loc) (w v : World) (l : Loc) (u : World) : Prop where
  emptying : World.Emptying D w u
  node : ∀ m, u.tree.node m = if m = l then none else v.tree.node m

theorem Dropped.same (emptying : World.Emptying D w v) (gone : v.tree.node l = none) : Dropped D w v l v where
  emptying := emptying
  node m := by
    split_ifs with here
    · rw [here, gone]
    · rfl

theorem dropped_rmdir (emptying : World.Emptying D w v) (below : Below D l) (named : w.At path l)
    (stands : (v.tree.node l).isSome → v.At path l) (dir : w.tree.node l = some .dir) (leaf : v.tree.Leaf l) :
    Dropped D w v l ((v.rmdir path).getD v) := by
  cases node : v.tree.node l with
  | none =>
    rw [rmdir_gone emptying.above named node]
    exact .same emptying node
  | some x =>
    obtain ⟨d, n, found, rfl⟩ := stands (by rw [node]; rfl)
    have was := emptying.above.sub _ x node
    rw [dir] at was
    obtain rfl := Option.some.inj was
    rw [World.rmdir_entry found node leaf]
    exact ⟨emptying.take leaf below, fun m => Tree.node_remove leaf m⟩

theorem dropped_remove (emptying : World.Emptying D w v) (below : Below D l) (named : w.At path l)
    (stands : (v.tree.node l).isSome → v.At path l) (other : w.tree.node l ≠ some .dir)
    (plain : path.getLast? ≠ some '/') : Dropped D w v l ((v.remove path).getD v) := by
  cases node : v.tree.node l with
  | none =>
    rw [World.remove, unlink_gone emptying.above named node, rmdir_gone emptying.above named node]
    exact .same emptying node
  | some x =>
    obtain ⟨d, n, found, rfl⟩ := stands (by rw [node]; rfl)
    have file : x ≠ .dir := by
      rintro rfl
      exact other (emptying.above.sub _ _ node)
    have leaf : v.tree.Leaf (n :: d) := Tree.leaf_of_ne_dir (by simpa [node] using file)
    rw [World.remove, World.unlink_entry found node file plain leaf]
    exact ⟨emptying.take leaf below, fun m => Tree.node_remove leaf m⟩

theorem Dropped.left {u : World} {rel rel' : Loc} (dropped : Dropped D w v (rel ++ D) u)
    (there : (u.tree.node (rel' ++ D)).isSome) : rel' ≠ rel ∧ (v.tree.node (rel' ++ D)).isSome := by
  rw [dropped.node] at there
  split_ifs at there with here
  · cases there
  · exact ⟨fun same => here (by rw [same]), there⟩

end Calls

section Rmdirs
variable {w : World}

theorem RmdirsEmpty.append {first second : List HostCall} (early : RmdirsEmpty w first)
    (late : RmdirsEmpty (replay w first) second) : RmdirsEmpty w (first ++ second) := by
  intro before path after split l found
  rcases append_eq_append_iff.mp split with ⟨more, rfl, rest⟩ | ⟨more, rfl, rest⟩
  · rw [replay_append] at found ⊢
    exact late more path after rest l found
  · cases more with
    | nil =>
      rw [append_nil] at late
      exact late [] path after rest.symm l found
    | cons call more =>
      obtain ⟨rfl, rfl⟩ := cons.inj rest
      exact early before path more rfl l found

theorem RmdirsEmpty.single {path : Text} (leaf : ∀ l, w.At path l → w.tree.Leaf l) : RmdirsEmpty w [.rmdir path] := by
  intro before path' after split l found
  cases before with
  | nil =>
    obtain ⟨same, _⟩ := cons.inj split
    obtain rfl := HostCall.rmdir.inj same
    exact leaf l found
  | cons call before => simp at split

theorem RmdirsEmpty.removes (entries : List Entry) : RmdirsEmpty w (entries.map fun e => .remove e.path) := by
  intro before path after split
  have member : HostCall.rmdir path ∈ entries.map fun e => .remove e.path := by
    rw [split]
    simp
  simp at member

end Rmdirs

variable {w : World} {d : Text} {D : Loc}

theorem entryAt_isDir {rel : Loc} :
    (entryAt w d D rel).isDir = true ↔ w.tree.node (rel ++ D) = some .dir := decide_eq_true_iff

section Loops
variable {w v : World} {d : Text} {D : Loc} {entries : List Entry}

theorem files_removed (given : (w.emptied D).At d D) (dir : w.tree.node D = some .dir)
    (emptying : World.Emptying D w v) (scanned : ∀ e ∈ entries, Scanned w d D e)
    (left : ∀ rel, rel ≠ [] → (v.tree.node (rel ++ D)).isSome →
      w.tree.node (rel ++ D) = some .dir ∨ entryAt w d D rel ∈ entries) :
    World.Emptying D w (removeFiles v entries) ∧
      ∀ rel, rel ≠ [] → ((removeFiles v entries).tree.node (rel ++ D)).isSome → w.tree.node (rel ++ D) = some .dir := by
  induction entries generalizing v with
  | nil => exact ⟨emptying, fun rel inner there => (left rel inner there).resolve_right not_mem_nil⟩
  | cons e entries ih =>
    obtain ⟨first, others⟩ := forall_mem_cons.mp scanned
    obtain ⟨rel, inner, there, rfl⟩ := first
    rw [removeFiles, foldl_cons, ← removeFiles]
    by_cases isDir : w.tree.node (rel ++ D) = some .dir
    · rw [if_pos (entryAt_isDir.mpr isDir)]
      refine ih emptying others fun rel' inner' there' => ?_
      rcases left rel' inner' there' with done | member
      · exact .inl done
      rcases mem_cons.mp member with same | later
      · rw [entryAt_injective same]
        exact .inl isDir
      · exact .inr later
    · rw [if_neg fun flagged => isDir (entryAt_isDir.mp flagged)]
      have dropped := dropped_remove emptying (below_append inner)
        ((World.Emptying.refl D w).at_onward given dir inner there) (emptying.at_onward given dir inner) isDir
        (World.getLast_onward inner)
      refine ih dropped.emptying others fun rel' inner' there' => ?_
      obtain ⟨other, before⟩ := dropped.left there'
      refine (left rel' inner' before).imp_right fun member => ?_
      exact (mem_cons.mp member).resolve_left fun same => other (entryAt_injective same)

theorem dirs_removed (given : (w.emptied D).At d D) (dir : w.tree.node D = some .dir)
    (emptying : World.Emptying D w v) (scanned : ∀ e ∈ entries, Scanned w d D e ∧ e.isDir)
    (sorted : entries.Pairwise fun a b => b.depth ≤ a.depth)
    (left : ∀ rel, rel ≠ [] → (v.tree.node (rel ++ D)).isSome → entryAt w d D rel ∈ entries) :
    World.Emptying D w (replay v (entries.map fun e => .rmdir e.path)) ∧
      (∀ rel, rel ≠ [] → (replay v (entries.map fun e => .rmdir e.path)).tree.node (rel ++ D) = none) ∧
      RmdirsEmpty v (entries.map fun e => .rmdir e.path) := by
  induction entries generalizing v with
  | nil =>
    refine ⟨emptying, fun rel inner => ?_, fun before path after split => by simp at split⟩
    by_contra there
    exact not_mem_nil (left rel inner (Option.isSome_iff_ne_none.mpr there))
  | cons e entries ih =>
    obtain ⟨first, others⟩ := forall_mem_cons.mp scanned
    obtain ⟨deeper, sorted'⟩ := pairwise_cons.mp sorted
    obtain ⟨⟨rel, inner, there, rfl⟩, isDir⟩ := first
    rw [entryAt_isDir] at isDir
    have leaf : v.tree.Leaf (rel ++ D) := by
      intro n
      by_contra stands
      have member := left (n :: rel) (cons_ne_nil n rel) (Option.isSome_iff_ne_none.mpr stands)
      have shallow : (entryAt w d D (n :: rel)).depth ≤ (entryAt w d D rel).depth := by
        rcases mem_cons.mp member with same | later
        · rw [same]
        · exact deeper _ later
      have positive := length_pos_iff.mpr inner
      simp only [entryAt, length_cons] at shallow
      omega
    have named := (World.Emptying.refl D w).at_onward given dir inner there
    have dropped := dropped_rmdir emptying (below_append inner) named (emptying.at_onward given dir inner) isDir leaf
    have run := ih dropped.emptying others sorted' fun rel' inner' there' => by
      obtain ⟨other, before⟩ := dropped.left there'
      exact (mem_cons.mp (left rel' inner' before)).resolve_left fun same => other (entryAt_injective same)
    have empty : RmdirsEmpty v [.rmdir (d ++ spell rel)] := by
      refine .single fun l found => ?_
      rw [← named.unique (emptying.above.at found)]
      exact leaf
    exact ⟨run.1, run.2.1, empty.append run.2.2⟩

end Loops

/-! ## The whole removal -/

def beforeLast (host : Host) (w : World) (d : Text) : World :=
  let entries := host.qsort (scanDir host w host.openMax d 0)
  removeDirs (removeFiles w entries) entries

section Removal
variable {host : Host} {w v : World} {d : Text} {D : Loc}

theorem sorts_iff (fits : Removable host w d D) :
    sortDies host (scanDir host w host.openMax d 0) = false ↔ host.execStack ∨ Sparse w D := by
  rw [← scan_sparse_iff fits, sortDies, Bool.and_eq_false_iff, Bool.not_eq_false', decide_eq_false_iff_not, not_le,
    Nat.lt_succ_iff]

theorem removal_killed (dies : sortDies host (scanDir host w host.openMax d 0)) :
    removeDirectoryRecursive host w d = (none, w) := by
  rw [removeDirectoryRecursive]
  exact if_pos dies

section Sorted
variable (lives : sortDies host (scanDir host w host.openMax d 0) = false)
include lives

theorem removal_last (last : (beforeLast host w d).rmdir d = some v) :
    removeDirectoryRecursive host w d = (some 0, v) := by
  rw [beforeLast] at last
  rw [removeDirectoryRecursive]
  dsimp only
  rw [if_neg (by rw [lives]; simp), last]

theorem removal_last_failed (last : (beforeLast host w d).rmdir d = none) :
    (removeDirectoryRecursive host w d).1 = some (-1) := by
  rw [beforeLast] at last
  rw [removeDirectoryRecursive]
  dsimp only
  rw [if_neg (by rw [lives]; simp), last]

end Sorted

theorem beforeLast_shrinks (host : Host) (w : World) (d : Text) : w.Shrinks (beforeLast host w d) := by
  have harmless : ∀ e ∈ host.qsort (scanDir host w host.openMax d 0), Harmless (fun _ => False) w e.path :=
    fun _ _ _ _ _ _ => id
  exact (((Left.refl _ w).removeFiles harmless).removeDirs harmless).shrinks

theorem contents_removed (fits : Removable host w d D) (given : (w.emptied D).At d D)
    (lives : sortDies host (scanDir host w host.openMax d 0) = false) :
    World.Emptying D w (beforeLast host w d) ∧ (∀ rel, rel ≠ [] → (beforeLast host w d).tree.node (rel ++ D) = none) ∧
      ∃ calls, removalCalls host w d = calls ++ [.rmdir d] ∧ beforeLast host w d = replay w calls ∧
        RmdirsEmpty w calls := by
  rw [beforeLast, removalCalls]
  dsimp only
  rw [if_neg (by rw [lives]; simp)]
  generalize noted : host.qsort (scanDir host w host.openMax d 0) = entries
  have all {e : Entry} : e ∈ entries ↔ Scanned w d D e := by
    rw [← noted, (host.qsort_perm _).mem_iff]
    exact mem_scan_iff fits
  have sorted : entries.Pairwise fun a b => b.depth ≤ a.depth := by
    rw [← noted]
    exact host.qsort_sorted _
  obtain ⟨emptying, dirsLeft⟩ := files_removed given fits.dir (.refl D w) (fun e => all.mp)
    fun rel inner there => .inr (all.mpr ⟨rel, inner, there, rfl⟩)
  obtain ⟨emptied, nothing, empty⟩ := dirs_removed given fits.dir emptying
    (fun e member => ⟨all.mp (mem_filter.mp member).1, (mem_filter.mp member).2⟩) (sorted.filter _)
    fun rel inner there => mem_filter.mpr
      ⟨all.mpr ⟨rel, inner, emptying.above.isSome there, rfl⟩, entryAt_isDir.mpr (dirsLeft rel inner there)⟩
  rw [← removeDirs_replay] at emptied nothing
  refine ⟨emptied, nothing, _, rfl, ?_, RmdirsEmpty.append (.removes _) ?_⟩
  · rw [removeDirs_replay, removeFiles_replay, replay_append]
  · rw [← removeFiles_replay]
    exact empty

theorem removed_of_at (fits : Removable host w d D) (given : (w.emptied D).At d D)
    (lives : sortDies host (scanDir host w host.openMax d 0) = false) : Removed host w d D := by
  obtain ⟨emptying, nothing, calls, made, last, empty⟩ := contents_removed fits given lives
  have dir : (beforeLast host w d).tree.node D = some .dir := by
    rw [emptying.node fun below => below.2 rfl, fits.dir]
  have leaf : (beforeLast host w d).tree.Leaf D := fun n => nothing [n] (cons_ne_nil n [])
  have named := emptying.rest.at given
  obtain ⟨e, n, found, rfl⟩ := id named
  have whole := removal_last lives (World.rmdir_entry found dir leaf)
  refine ⟨by rw [whole], fun l => ?_, ?_⟩
  · rw [whole]
    change ((beforeLast host w d).tree.remove n e leaf).node l = _
    rw [Tree.node_remove]
    by_cases below : Below (n :: e) l
    · obtain ⟨rel, inner, rfl⟩ := below_iff.mp below
      rw [if_neg below.2, if_pos below.1, nothing rel inner]
    · rw [emptying.node below]
      split_ifs with here under under
      · rfl
      · exact absurd (here ▸ suffix_rfl) under
      · exact absurd ⟨under, here⟩ below
      · rfl
  · rw [made]
    refine empty.append (.single fun l again => ?_)
    rw [← last] at again ⊢
    rw [← named.unique again]
    exact leaf

theorem at_of_returns (fits : Removable host w d D) (lives : sortDies host (scanDir host w host.openMax d 0) = false)
    (returns : (removeDirectoryRecursive host w d).1 = some 0) : (w.emptied D).At d D := by
  cases last : (beforeLast host w d).rmdir d with
  | none =>
    rw [removal_last_failed lives last] at returns
    cases returns
  | some v =>
    obtain ⟨e, n, leaf, found, dir, _⟩ := World.rmdir_some last
    have shrinks := beforeLast_shrinks host w d
    -- the entry that goes is the directory that was opened
    have same : n :: e = D := by
      obtain ⟨k, arrived⟩ := World.lookup_plain (shrinks.entry found) (shrinks.sub _ _ dir) (by simp) (.inl rfl)
      obtain ⟨⟨k', reached⟩, _⟩ := World.opendir_some fits.opened
      exact (Walk.reached.inj (arrived.symm.trans reached)).1
    subst same
    exact (shrinks.emptied leaf).at ⟨e, n, found, rfl⟩

end Removal

/-- Exactly when the comparator of the sort can be called or is not needed, and the path still stands for the
directory once everything below that is gone. -/
theorem removal_complete_iff (host : Host) (w : World) (d : Text) (D : Loc) (fits : Removable host w d D) :
    Removed host w d D ↔ (host.execStack ∨ Sparse w D) ∧ (w.emptied D).At d D := by
  rw [← sorts_iff fits]
  constructor
  · intro removed
    have lives : sortDies host (scanDir host w host.openMax d 0) = false := by
      by_contra dies
      have returns := removed.returns
      rw [removal_killed (Bool.not_eq_false _ ▸ dies)] at returns
      cases returns
    exact ⟨lives, at_of_returns fits lives removed.returns⟩
  · exact fun ⟨lives, given⟩ => removed_of_at fits given lives

/-! ## The small tree -/

theorem insideTree_places {l : Loc} (there : (insideTree.node l).isSome) :
    l = [] ∨ l = [tmpName] ∨ l = [dirName, tmpName] ∨ l = [fileName, dirName, tmpName] := by
  rw [← insideTree.mem_paths] at there
  simp only [insideTree, Tree.put, Tree.bare, Finset.mem_insert, Finset.mem_singleton] at there
  tauto

theorem insideWorld_removable (opened : insideWorld.opendir d = some D)
    (short : d.length < 1000) : Removable smallHost insideWorld d D where
  opened := opened
  linkless l target _ linked := by
    simp only [insideWorld, insideTree, Tree.node_put, Tree.bare] at linked
    split_ifs at linked <;> cases linked
  short rel _ there := by
    have bound : (spell (rel ++ D)).length ≤ 8 := by
      rcases insideTree_places there with same | same | same | same <;> rw [same] <;> decide +kernel
    rw [spell_append, length_append] at bound
    rw [length_append, entryPathSize]
    omega
  lists l n _ there := by
    refine mem_filter.mpr ⟨?_, there⟩
    rcases insideTree_places there with same | same | same | same
    · cases same
    all_goals
      obtain ⟨rfl, _⟩ := cons.inj same
      decide +kernel
  once := Nodup.filter _ (by decide +kernel)
  opens rel dir := by
    have there : (insideTree.node (rel ++ D)).isSome := by
      change insideTree.node _ = _ at dir
      rw [dir]
      rfl
    have bound : (rel ++ D).length < 3 := by
      rcases insideTree_places there with same | same | same | same
      · rw [same]; decide
      · rw [same]; decide
      · rw [same]; decide
      · rw [same] at dir
        exact absurd dir (by decide +kernel)
    rw [length_append] at bound
    change rel.length < 3
    omega

/-- The same host with what the `Makefile` links. -/
def linkedHost : Host := { smallHost with execStack := false }

theorem Removable.linked (fits : Removable smallHost w d D) : Removable linkedHost w d D :=
  ⟨fits.opened, fits.linkless, fits.short, fits.lists, fits.once, fits.opens⟩

theorem removal_complete_small : Removed linkedHost insideWorld "/tmp/d".toList [dirName, tmpName] := by
  have sparse : Sparse insideWorld [dirName, tmpName] := by
    have only : ∀ l, Below [dirName, tmpName] l → (insideWorld.tree.node l).isSome →
        l = [fileName, dirName, tmpName] := by
      intro l below there
      rcases insideTree_places there with rfl | rfl | rfl | rfl
      · exact absurd below.1 (by decide)
      · exact absurd below.1 (by decide)
      · exact absurd rfl below.2
      · rfl
    intro l m below below' there there'
    rw [only l below there, only m below' there']
  have fits := (insideWorld_removable (d := "/tmp/d".toList) (D := [dirName, tmpName]) (by decide +kernel)
    (by decide)).linked
  exact (removal_complete_iff _ _ _ _ fits).mpr ⟨.inr sparse, [tmpName], dirName, by decide +kernel, rfl⟩

/-- As linked by the `Makefile` the process dies over two entries; with another stack the spelling of the path can
still be in the way. -/
theorem removal_leaves_given :
    (Removable linkedHost insideWorld "/tmp".toList [tmpName] ∧
      (removeDirectoryRecursive linkedHost insideWorld "/tmp".toList).1 = none ∧
      (removeDirectoryRecursive linkedHost insideWorld "/tmp".toList).2.tree.node [tmpName] = some .dir) ∧
    (Removable smallHost insideWorld ".".toList [tmpName] ∧
      (removeDirectoryRecursive smallHost insideWorld ".".toList).1 = some (-1) ∧
      (removeDirectoryRecursive smallHost insideWorld ".".toList).2.tree.node [tmpName] = some .dir) ∧
    Removable smallHost insideWorld "/tmp/d/../../tmp".toList [tmpName] ∧
      (removeDirectoryRecursive smallHost insideWorld "/tmp/d/../../tmp".toList).1 = some (-1) ∧
      (removeDirectoryRecursive smallHost insideWorld "/tmp/d/../../tmp".toList).2.tree.node [tmpName] =
        some .dir := by
  refine ⟨⟨(insideWorld_removable (by decide +kernel) (by decide)).linked, ?_, ?_⟩,
    ⟨insideWorld_removable (by decide +kernel) (by decide), ?_, ?_⟩,
    insideWorld_removable (by decide +kernel) (by decide), ?_, ?_⟩
  all_goals decide +kernel

end Flinstone.Fs
