import Flinstone.Fs.Jail

/-!
# Setting the jail up

What `main` does in virtual machine mode before the first command.
-/

namespace Flinstone.Fs
open Flinstone.Lib List Option

def cwdMax : Nat := 256

structure Outcomes where
  getcwdMain : Bool
  getcwdConfigure : Bool
  getcwdInit : Bool
  realpathInit : Bool

def getcwd (w : World) (granted : Bool) (size : Nat) : Option Text :=
  if granted then (w.cwd.map render).filter (·.length < size) else none

/-- For one command in the directory that `mkdtemp` made, or for the machine in the launch directory. -/
inductive Launch
  | command (tmpl : Text)
  | embedded

structure Globals where
  vmRoot : Text
  cwd : Text

def mainGlobals (launch : Launch) (o : Outcomes) (w : World) : Globals :=
  match launch with
  | .command tmpl => { vmRoot := tmpl.take (cwdMax - 1), cwd := tmpl.take (cwdMax - 1) }
  | .embedded => { vmRoot := [], cwd := (getcwd w o.getcwdMain cwdMax).getD ['.'] }

def vmConfigureRootFromCwd (o : Outcomes) (w : World) (g : Globals) : Int × Globals :=
  if g.vmRoot ≠ [] then (0, g)
  else match getcwd w o.getcwdConfigure Jail.jailRootMax with
    | none => (-1, g)
    | some root => (0, { g with vmRoot := root.take (cwdMax - 1) })

def stripSlashes (root : Text) : Text := root.take 1 ++ (root.drop 1).rdropWhile (· = '/')

/-- The descriptor of the root, which the check does not read, is left out. -/
def fsJailInit (o : Outcomes) (w : World) (g : Globals) : Jail :=
  let closed : Jail := { vmMode := true, root := [], cwd := g.cwd }
  match getcwd w o.getcwdInit Jail.jailRootMax with
  | none => closed
  | some wd =>
    let root := if g.vmRoot ≠ [] then g.vmRoot else wd
    match if o.realpathInit then w.realpath root else none with
    | none => closed
    | some canon => { closed with root := stripSlashes canon }

def mainJail (launch : Launch) (o : Outcomes) (w : World) : Jail :=
  fsJailInit o w (vmConfigureRootFromCwd o w (mainGlobals launch o w)).2

/-- What is there, or what a call that creates would make; a link that leads nowhere stands for what it names. -/
def RealLocation (w : World) (path : Text) (l : Loc) : Prop :=
  (∃ k, w.lookup path = .reached l k) ∨ (∃ d n, w.lookup path = .missing d n ∧ l = n :: d) ∨ w.MakesAt path l

def FailClosed (j : Jail) (w : World) (c : Loc) : Prop :=
  ∀ path ab l, j.absolute path = some ab → RealLocation w ab l → ¬ c <:+ l → j.checkPath w path ≠ 0

def rootText (launch : Launch) (o : Outcomes) (c : Loc) : Text :=
  match launch with
  | .command tmpl => tmpl.take (cwdMax - 1)
  | .embedded => if o.getcwdConfigure then (render c).take (cwdMax - 1) else render c

/-- The calls of `fs_jail_init` succeed, and what it resolves lies at or below the directory meant. -/
def RootStands (launch : Launch) (o : Outcomes) (w : World) (c R : Loc) : Prop :=
  o.getcwdInit ∧ (render c).length < Jail.jailRootMax ∧ o.realpathInit ∧
    (∃ k, w.within.lookup (rootText launch o c) = .reached R k) ∧ c <:+ R

/-- The path ends in a link to a missing place outside, or passes a place that has too long a name for `realpath` on
its way outside. -/
def Veiled (w : World) (c : Loc) (ab : Text) : Prop :=
  LinkOut w c ab ∨ (∃ e, w.Shows ab e ∧ ¬ w.within.Shows ab e) ∧ ∃ l, RealLocation w ab l ∧ ¬ c <:+ l

theorem stripSlashes_render (l : Loc) : stripSlashes (render l) = render l := by
  have kept : ((render l).drop 1).rdropWhile (· = '/') = (render l).drop 1 := by
    rw [rdropWhile_eq_self_iff]
    intro long slash
    cases l with
    | nil => exact long rfl
    | cons n d =>
      refine World.render_getLast (n := n) (d := d) ?_
      rw [← take_append_drop 1 (render (n :: d)), getLast?_append_of_ne_nil _ long,
        getLast?_eq_some_getLast long, of_decide_eq_true slash]
  rw [stripSlashes, kept, take_append_drop]

section Setup
variable {launch : Launch} {o : Outcomes} {w : World} {c : Loc}

theorem getcwd_eq (cwd : w.cwd = some c) (granted : Bool) (size : Nat) :
    getcwd w granted size = if granted ∧ (render c).length < size then some (render c) else none := by
  unfold getcwd
  rw [cwd, map_some, filter_some]
  cases granted with
  | false => simp
  | true => by_cases short : (render c).length < size <;> simp

theorem render_ne_nil (l : Loc) : render l ≠ [] := by
  intro empty
  have head := World.render_head l
  rw [empty] at head
  cases head

theorem configured_root (cwd : w.cwd = some c) (made : ∀ tmpl, launch = .command tmpl → tmpl ≠ [])
    (short : (render c).length < Jail.jailRootMax) :
    (if (vmConfigureRootFromCwd o w (mainGlobals launch o w)).2.vmRoot ≠ [] then
        (vmConfigureRootFromCwd o w (mainGlobals launch o w)).2.vmRoot else render c) =
      rootText launch o c := by
  have cut : ∀ text : Text, text ≠ [] → text.take (cwdMax - 1) ≠ [] := by
    intro text nonempty empty
    rw [take_eq_nil_iff] at empty
    exact empty.elim (by decide) nonempty
  cases launch with
  | command tmpl =>
    have root := cut tmpl (made tmpl rfl)
    simp [mainGlobals, vmConfigureRootFromCwd, root, rootText]
  | embedded =>
    have root := cut _ (render_ne_nil c)
    unfold vmConfigureRootFromCwd mainGlobals rootText
    rw [getcwd_eq cwd o.getcwdConfigure]
    cases o.getcwdConfigure with
    | false => simp
    | true => simp [short, root]

theorem mainJail_root (cwd : w.cwd = some c) (made : ∀ tmpl, launch = .command tmpl → tmpl ≠ []) :
    (mainJail launch o w).root = if o.getcwdInit ∧ (render c).length < Jail.jailRootMax ∧ o.realpathInit then
        (w.realpath (rootText launch o c)).getD []
      else [] := by
  unfold mainJail fsJailInit
  rw [getcwd_eq cwd]
  by_cases ready : o.getcwdInit ∧ (render c).length < Jail.jailRootMax
  · rw [if_pos ready]
    dsimp only
    rw [configured_root cwd made ready.2]
    cases realpath : o.realpathInit with
    | false => simp
    | true =>
      simp only [if_true, ready, and_self]
      cases real : w.realpath (rootText launch o c) with
      | none => rfl
      | some canon =>
        obtain ⟨l, k, _, rfl⟩ := Jail.realpath_eq_some.mp real
        exact stripSlashes_render l
  · rw [if_neg ready, if_neg fun all => ready ⟨all.1, all.2.1⟩]

theorem mainJail_active (launch : Launch) (o : Outcomes) (w : World) :
    (mainJail launch o w).isActive ↔ (mainJail launch o w).root ≠ [] := by
  have mode : (mainJail launch o w).vmMode = true := by
    unfold mainJail fsJailInit
    dsimp only
    split
    · rfl
    · split <;> rfl
  rw [Jail.isActive, mode, Bool.true_and, decide_eq_true_eq]

theorem checkPath_inactive {j : Jail} (inactive : ¬ j.isActive) (path : Text) : j.checkPath w path = 0 := by
  rw [Jail.checkPath, if_pos (by simpa using inactive)]

theorem checkPath_root {j : Jail} {R : Loc} {text : Text} {k : Nat} (root : j.root = render R)
    (found : w.within.lookup text = .reached R k) :
    j.absolute (render R) = some (render R) ∧ RealLocation w (render R) R ∧ j.checkPath w (render R) = 0 := by
  obtain ⟨there, plain⟩ := World.lookup_reached found
  have canonical := World.lookup_render there plain
  have short : (spell R).length < pathMax := by
    by_contra long
    rw [World.within, Tree.node_within, if_neg long] at there
    cases there
  have node : w.within.tree.node R = w.tree.node R := by rw [World.within, Tree.node_within, if_pos short]
  rw [node] at there plain
  have fits : j.absolute (render R) = some (render R) := by
    have small : (render R).length < pathMax := by
      rw [render]
      split_ifs
      · decide
      · exact short
    unfold Jail.absolute
    rw [if_pos (World.render_head R), if_neg (by unfold pathMax at small; unfold Jail.jailRootMax; omega)]
  refine ⟨fits, Or.inl ⟨_, World.lookup_render there plain⟩, ?_⟩
  by_cases active : j.isActive
  · refine (Jail.checkPath_iff active root).mpr ⟨render_ne_nil R, _, fits, R, .inl ⟨_, canonical⟩, ?_⟩
    split_ifs with top
    · exact top
    · exact suffix_rfl
  · exact checkPath_inactive active _

theorem realLocation_shows {path : Text} {l : Loc} (place : RealLocation w path l) :
    ∃ e, w.Shows path e ∧ ∀ c, c <:+ e → ¬ LinkOut w c path → c <:+ l := by
  rcases place with ⟨k, found⟩ | ⟨d, n, found, rfl⟩ | ⟨d, n, entry, _, free, rfl⟩
  · exact ⟨l, World.shows_of_reached found, fun c inside _ => inside⟩
  · obtain ⟨e, m, entry, shows, ⟨rfl, rfl⟩ | ⟨target, linked⟩⟩ := missing_entry found
    · exact ⟨d, shows, fun c inside _ => suffix_cons inside⟩
    · refine ⟨e, shows, fun c inside straight => ?_⟩
      by_contra outside
      exact straight ⟨e, m, target, d, n, entry, linked, inside, found, outside⟩
  · exact ⟨d, World.shows_entry_of_none entry free, fun c inside _ => suffix_cons inside⟩

theorem RootStands.checkPath_iff {R : Loc} (stands : RootStands launch o w c R) (cwd : w.cwd = some c)
    (made : ∀ tmpl, launch = .command tmpl → tmpl ≠ []) (inner : c ≠ []) {path ab : Text}
    (form : (mainJail launch o w).absolute path = some ab) :
    (mainJail launch o w).checkPath w path = 0 ↔ path ≠ [] ∧ ∃ e, Located w.within ab e ∧ R <:+ e := by
  obtain ⟨granted, short, resolved, ⟨k, found⟩, inside⟩ := stands
  have proper : R ≠ [] := fun top => inner (suffix_nil.mp (top ▸ inside))
  have root := mainJail_root (o := o) cwd made
  rw [if_pos ⟨granted, short, resolved⟩, Jail.realpath_eq_some.mpr ⟨R, k, found, rfl⟩, getD_some] at root
  have active := (mainJail_active launch o w).mpr (by rw [root]; exact render_ne_nil R)
  rw [Jail.checkPath_iff active root, form]
  simp [proper]

end Setup

def outerName : Name := ⟨List.replicate 200 'a', by decide⟩
def innerName : Name := ⟨List.replicate 100 'b', by decide⟩

def launchTree : Tree :=
  (Tree.bare.put [] outerName .dir Tree.bare.root (by decide +kernel)).put [outerName] innerName
    .dir (by decide +kernel) (by decide +kernel)

def launchedIn (c : Loc) (dir : launchTree.node c = some .dir) : World where
  tree := launchTree
  cwd := some c
  maxLinks := 40
  touched := []
  cwd_dir l here := by rw [← some.inj here, dir]

def allGranted : Outcomes where
  getcwdMain := true
  getcwdConfigure := true
  getcwdInit := true
  realpathInit := true

theorem launchTree_places {l : Loc} (there : (launchTree.node l).isSome) :
    (spell l).length < pathMax ∧ launchTree.node l = some .dir := by
  rw [← launchTree.mem_paths] at there
  simp only [launchTree, Tree.put, Tree.bare, Finset.mem_insert, Finset.mem_singleton] at there
  rcases there with rfl | rfl | rfl
  all_goals decide +kernel

end Flinstone.Fs
