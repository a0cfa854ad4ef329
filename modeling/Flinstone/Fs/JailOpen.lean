import Flinstone.Fs.JailExact
import Flinstone.Lib.Open

/-! # Opening a file in the jail -/

namespace Flinstone.Fs
open Flinstone.Lib List Option

/-- What the calls on a descriptor answer: `st_dev`, and the link in `/proc/self/fd`. -/
structure OpenHost where
  device : Loc → Option Nat
  fdPath : Loc → Option Text

namespace Jail

def relpath (j : Jail) (ab : Text) : Text :=
  if j.root.isPrefixOf ab then
    let rest := (ab.drop j.root.length).dropWhile (· = '/')
    if rest = [] then ['.'] else rest
  else ab

def fdInside (j : Jail) (host : OpenHost) (dir l : Loc) : Bool :=
  match host.device dir, host.device l with
  | some jailDev, some fileDev =>
    fileDev = jailDev && match host.fdPath l with
      | none | some [] => true
      | some text => j.underJail (text.take (jailRootMax - 1))
  | _, _ => false

/-- A descriptor that is closed again leaves what its opening has made. -/
def openat (j : Jail) (host : OpenHost) (dirfd : Option Loc) (w : World) (path : Text) (flags : OpenFlags) :
    Option Loc × World :=
  match j.isActive, dirfd with
  | true, some dir =>
    match j.absolute path with
    | none => (none, w)
    | some ab =>
      if j.checkPath w path ≠ 0 then (none, w)
      else match w.openat (some dir) (j.relpath ab) { flags with nofollow := true } with
        | none => (none, w)
        | some (l, w') => if j.fdInside host dir l then (some l, w') else (none, w')
  | _, _ =>
    match w.openat w.cwd path flags with
    | none => (none, w)
    | some (l, w') => (some l, w')

def Meets (R : Loc) (w : World) (ab : Text) : Prop :=
  (ab.head? = some '/' ∨ w.cwd = some R) ∧
    ∀ rest, ab = render R ++ rest → R = [] ∨ rest = [] ∨ rest.head? = some '/'

variable {j : Jail} {host : OpenHost} {w w' : World} {path ab : Text} {flags : OpenFlags} {R l : Loc}

theorem openat_some (active : j.isActive) (opened : j.openat host (some R) w path flags = (some l, w')) :
    ∃ ab, j.absolute path = some ab ∧ j.checkPath w path = 0 ∧
      w.openat (some R) (j.relpath ab) { flags with nofollow := true } = some (l, w') := by
  unfold openat at opened
  rw [active] at opened
  cases made : j.absolute path with
  | none =>
    rw [made] at opened
    cases opened
  | some ab =>
    rw [made] at opened
    dsimp only at opened
    by_cases checked : j.checkPath w path = 0
    · rw [if_neg (not_not.mpr checked)] at opened
      refine ⟨ab, rfl, checked, ?_⟩
      split at opened
      · cases opened
      next e u found =>
        split_ifs at opened
        · obtain ⟨same, rfl⟩ := Prod.mk.inj opened
          obtain rfl := some.inj same
          exact found
        · cases opened
    · rw [if_pos checked] at opened
      cases opened

end Jail

theorem steps_behind (front rest : Text) : steps (front ++ '/' :: rest) = comps front ++ steps ('/' :: rest) := by
  have last : (front ++ '/' :: rest).getLast? = ('/' :: rest).getLast? := getLast?_append_of_ne_nil _ (cons_ne_nil _ _)
  have root := comps_slash [] rest
  rw [nil_append, comps_nil, nil_append] at root
  rw [steps, steps, last, comps_slash, root, append_assoc]

theorem steps_slashes (rest : Text) : steps ('/' :: rest) =
      steps (if rest.dropWhile (· = '/') = [] then ['.'] else rest.dropWhile (· = '/')) := by
  induction rest with
  | nil => rfl
  | cons c rest ih =>
    by_cases slash : c = '/'
    · subst slash
      rw [dropWhile_cons_of_pos (by simp), ← ih]
      exact steps_behind ['/'] rest
    · rw [dropWhile_cons_of_neg (by simpa using slash), if_neg (cons_ne_nil _ _)]
      exact steps_join [] (cons_ne_nil _ _)

section Open
variable {j : Jail} {host : OpenHost} {w w' : World} {path ab rest : Text} {flags : OpenFlags} {R l : Loc}

theorem relpath_behind (root : j.root = render R) (rest : Text) :
    j.relpath (render R ++ rest) = if rest.dropWhile (· = '/') = [] then ['.'] else rest.dropWhile (· = '/') := by
  rw [Jail.relpath, root, if_pos (List.isPrefixOf_iff_prefix.mpr (prefix_append _ _)), drop_left]

theorem openStart_behind (root : j.root = render R) (rest : Text) :
    World.openStart (some R) (j.relpath (render R ++ rest)) = some R := by
  rw [relpath_behind root]
  split_ifs with empty
  · rfl
  · have plain : (rest.dropWhile (· = '/')).head? ≠ some '/' := by
      intro slash
      have stops := head?_dropWhile_not (· = '/') rest
      rw [slash] at stops
      exact absurd stops (by decide)
    rw [World.openStart, if_neg empty, if_neg plain]

theorem lookup_behind (meets : Jail.Meets R w (render R ++ rest))
    (goes : walk w.tree w.maxLinks R (steps ('/' :: rest)) ≠ .failed) :
    w.lookup (render R ++ rest) = walk w.tree w.maxLinks R (steps ('/' :: rest)) := by
  have head : (render R ++ rest).head? = some '/' := by
    rw [head?_append, World.render_head]
    rfl
  have dir : w.tree.node R = some .dir := by
    by_contra other
    obtain ⟨c, cs, first⟩ := steps_front [] rest
    rw [nil_append, comps_nil, nil_append] at first
    rw [first, walk_not_dir other] at goes
    exact goes rfl
  have names := World.walk_names_dir w.maxLinks dir
  rw [World.lookup, w.walkFrom_absolute head]
  by_cases top : R = []
  · subst top
    rfl
  rcases (meets.2 rest rfl).resolve_left top with rfl | slash
  · rw [append_nil, World.steps_render, if_neg top, append_nil, names]
    change _ = walk w.tree w.maxLinks R [.here]
    rw [walk_here dir, walk_nil]
  · obtain ⟨s, rfl⟩ := head?_eq_some_iff.mp slash
    rw [steps_behind (render R), comps_render, walk_append, names, Walk.andThen]
    exact congrArg (walk w.tree w.maxLinks R) (steps_behind ['/'] s).symm

theorem relpath_walk (root : j.root = render R) (meets : Jail.Meets R w ab) {s : Loc}
    (start : World.openStart (some R) (j.relpath ab) = some s)
    (goes : walk w.tree w.maxLinks s (steps (j.relpath ab)) ≠ .failed) :
    w.lookup ab = walk w.tree w.maxLinks s (steps (j.relpath ab)) := by
  by_cases behind : j.root.isPrefixOf ab
  · rw [root] at behind
    obtain ⟨rest, rfl⟩ := isPrefixOf_iff_prefix.mp behind
    obtain rfl := some.inj ((openStart_behind root rest).symm.trans start)
    rw [relpath_behind root, ← steps_slashes] at goes ⊢
    exact lookup_behind meets goes
  · have whole : j.relpath ab = ab := if_neg behind
    rw [whole] at start goes ⊢
    have same : w.start ab = some s := by
      rw [← start, World.start, World.openStart]
      rcases meets.1 with slash | cwd
      · rw [if_pos slash, if_pos slash]
      · rw [cwd]
    rw [World.lookup, World.walkFrom, same]

end Open

/-- What is opened is the file that was there when the path was checked, or the one made in its place. -/
theorem openat_checked_file (j : Jail) (host : OpenHost) (w w' : World) (path : Text) (flags : OpenFlags) (R l : Loc)
    (active : j.isActive) (root : j.root = render R)
    (opened : j.openat host (some R) w path flags = (some l, w')) :
    ∃ ab, j.absolute path = some ab ∧ j.checkPath w path = 0 ∧
      (Jail.Meets R w ab → (w.lookup ab).LeadsTo l ∧ ∃ k, w'.lookup ab = .reached l k) := by
  obtain ⟨ab, made, checked, file⟩ := Jail.openat_some active opened
  obtain ⟨s, start, there, leads⟩ := World.openat_leads file
  refine ⟨ab, made, checked, fun meets => ?_⟩
  have goes : walk w.tree w.maxLinks s (steps (j.relpath ab)) ≠ .failed := by
    intro failed
    rw [failed] at there
    exact there
  have same := relpath_walk root meets start goes
  exact ⟨by rwa [same], leads ab same⟩

def besideName : Name := ⟨"cell2".toList, by decide⟩
def subName : Name := ⟨"sub".toList, by decide⟩
def twoName : Name := ⟨"2".toList, by decide⟩
def innerFile : Name := ⟨"x".toList, by decide⟩

def besideTree : Tree :=
  (((((Tree.bare.put [] cellName .dir Tree.bare.root cell_free).put [cellName] subName .dir (by decide)
    (by decide)).put [cellName] twoName .dir (by decide) (by decide)).put [subName, cellName] innerFile (.file [])
    (by decide) (by decide)).put [twoName, cellName] innerFile (.file []) (by decide) (by decide)).put [] besideName
    (.link "/cell/sub".toList) (by decide) (by decide)

def besideWorld : World where
  tree := besideTree
  cwd := some [cellName]
  maxLinks := 40
  touched := []
  cwd_dir l here := by
    rw [← some.inj here]
    decide

def oneDevice : OpenHost where
  device _ := some 0
  fdPath l := some (render l)

def readOnly : OpenFlags where
  write := false
  creat := false
  excl := false
  trunc := false
  directory := false
  nofollow := false

theorem openat_checked_sub :
    ((jailOn "/cell".toList).openat oneDevice (some [cellName]) besideWorld "sub/x".toList readOnly).1 =
        some [innerFile, subName, cellName] ∧
      ∃ k, besideWorld.lookup "/cell/sub/x".toList = .reached [innerFile, subName, cellName] k := by
  have opened : (jailOn "/cell".toList).openat oneDevice (some [cellName]) besideWorld "sub/x".toList readOnly =
      (some [innerFile, subName, cellName], besideWorld) := rfl
  have root : (jailOn "/cell".toList).root = render [cellName] := by decide +kernel
  obtain ⟨ab, made, _, names⟩ := openat_checked_file _ _ _ _ _ _ _ _ (by decide +kernel) root opened
  have whole : (jailOn "/cell".toList).absolute "sub/x".toList = some "/cell/sub/x".toList := by decide +kernel
  obtain rfl := some.inj (whole.symm.trans made)
  refine ⟨by rw [opened], (names ⟨.inl rfl, fun rest same => ?_⟩).2⟩
  have behind : "/cell".toList ++ "/sub/x".toList = "/cell".toList ++ rest := same
  exact .inr (.inr (by rw [← append_cancel_left behind]; rfl))

theorem openat_beside_root :
    (jailOn "/cell".toList).isActive ∧ (jailOn "/cell".toList).root = render [cellName] ∧
      (jailOn "/cell".toList).absolute "/cell2/x".toList = some "/cell2/x".toList ∧
      (jailOn "/cell".toList).checkPath besideWorld "/cell2/x".toList = 0 ∧
      besideWorld.lookup "/cell2/x".toList = .reached [innerFile, subName, cellName] 39 ∧
      ((jailOn "/cell".toList).openat oneDevice (some [cellName]) besideWorld "/cell2/x".toList readOnly).1 =
        some [innerFile, twoName, cellName] := by
  decide +kernel

-- behind the wrong remainder the two walks can still meet
example : ((jailOn "/cell".toList).openat oneDevice (some [cellName]) besideWorld "/cell2/../../cell/sub/x".toList
      readOnly).1 = some [innerFile, subName, cellName] ∧
    besideWorld.lookup "/cell2/../../cell/sub/x".toList = .reached [innerFile, subName, cellName] 39 := by
  decide +kernel

end Flinstone.Fs
