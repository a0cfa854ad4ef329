import Flinstone.Lib.Posix

/-! # File systems without links -/

namespace Flinstone.Lib
open List

def Tree.Linkless (t : Tree) : Prop := ∀ l target, t.node l ≠ some (.link target)

def locate (l : Loc) (cs : List Comp) : Loc :=
  cs.foldl (fun l c => match c with
    | .here => l
    | .up => l.tail
    | .name n => n :: l) l

@[simp] theorem locate_here (l : Loc) (cs : List Comp) : locate l (.here :: cs) = locate l cs := rfl

@[simp] theorem locate_up (l : Loc) (cs : List Comp) : locate l (.up :: cs) = locate l.tail cs := rfl

@[simp] theorem locate_name (l : Loc) (n : Name) (cs : List Comp) : locate l (.name n :: cs) = locate (n :: l) cs := rfl

@[simp] theorem locate_names (l m : Loc) : locate l (m.reverse.map .name) = m ++ l := by
  induction m with
  | nil => rfl
  | cons n m ih =>
    rw [reverse_cons, map_append, locate, foldl_append]
    rw [locate] at ih
    rw [ih]
    rfl

theorem locate_append (l : Loc) (xs ys : List Comp) : locate l (xs ++ ys) = locate (locate l xs) ys := foldl_append ..

theorem walk_locate {t : Tree} (linkless : t.Linkless) {left : Nat} {l : Loc} {cs : List Comp} :
    (∀ e k, walk t left l cs = .reached e k → e = locate l cs) ∧
      ∀ d n, walk t left l cs = .missing d n → n :: d = locate l cs := by
  induction left, l, cs using walk_induction (t := t) with
  | nil left l => rw [walk_nil]; simp [locate]
  | notDir left l c cs other => rw [walk_not_dir other]; simp
  | here left l cs dir ih => rw [walk_here dir]; exact ih
  | up left l cs dir ih => rw [walk_up dir]; exact ih
  | absent left l m cs dir gone =>
    rw [walk_none dir gone]
    split_ifs with last
    · simp [last, locate]
    · simp
  | link left l m target cs linked ih => exact absurd linked (linkless _ target)
  | plain left l m x cs present plain ih => rw [walk_name present plain]; exact ih

namespace Tree
variable {t : Tree}
variable {d : Loc} {n : Name}

theorem Linkless.put (linkless : t.Linkless) {x : Node}
    (home : t.node d = some .dir) (flat : t.node (n :: d) ≠ some .dir)
    (plain : ∀ target, x ≠ .link target) : (t.put d n x home flat).Linkless := by
  intro l target
  rw [node_put]
  split_ifs
  · exact fun linked => plain target (Option.some.inj linked)
  · exact linkless l target

theorem Linkless.remove (linkless : t.Linkless) (leaf : t.Leaf (n :: d)) : (t.remove n d leaf).Linkless := by
  intro l target
  rw [node_remove]
  split_ifs
  · simp
  · exact linkless l target

theorem Linkless.move (linkless : t.Linkless) {src : Loc} (inner : src ≠ [])
    (home : t.node d = some .dir) (apart : ¬ src <:+ n :: d) :
    (t.move src n d inner home apart).Linkless := by
  intro l target
  by_cases below : n :: d <:+ l
  · obtain ⟨front, rfl⟩ := below
    rw [node_move_below]
    exact linkless _ target
  · by_cases gone : src <:+ l
    · rw [node_move_gone _ _ _ gone below]
      simp
    · rw [node_move_other _ _ _ gone below]
      exact linkless l target

end Tree

namespace World
variable {w : World} {n : Name} {d : Loc}

def leadsTo (w : World) (path : Text) : Option Loc := (w.start path).map (locate · (comps path))

variable {path : Text} {l : Loc} {w' : World}

theorem walkFrom_locate (linkless : w.tree.Linkless) {s : Loc} (begins : w.start path = some s)
    {cs : List Comp} {k : Nat} (walked : w.walkFrom path cs = .reached l k) : l = locate s cs := by
  rw [walkFrom, begins] at walked
  exact (walk_locate linkless).1 l k walked

theorem leadsTo_of_entry (linkless : w.tree.Linkless)
    (found : w.entry path = some (d, n)) : w.leadsTo path = some (n :: d) := by
  obtain ⟨front, k, split, walked⟩ := entry_some found
  obtain ⟨base, begins⟩ := walkFrom_start (by rw [walked]; simp)
  rw [leadsTo, begins, Option.map_some, split, locate_append, ← walkFrom_locate linkless begins walked]
  rfl

theorem leadsTo_of_opensAt (linkless : w.tree.Linkless) (opens : w.OpensAt path l) : w.leadsTo path = some l := by
  have steps_comps : ∀ base, locate base (steps path) = locate base (comps path) := by
    intro base
    rcases steps_eq path with plain | slash
    · rw [plain]
    · rw [slash, locate_append]
      rfl
  unfold OpensAt lookup walkFrom at opens
  cases begin' : w.start path with
  | none =>
    rw [begin'] at opens
    rcases opens with ⟨_, _, found, _⟩ | ⟨_, _, found, _⟩ <;> cases found
  | some base =>
    rw [begin'] at opens
    rw [leadsTo, begin', Option.map_some, ← steps_comps]
    rcases opens with ⟨d, n, found, rfl⟩ | ⟨k, bytes, found, _⟩
    · rw [(walk_locate linkless).2 d n found]
    · rw [(walk_locate linkless).1 l k found]

theorem leadsTo_of_makesAt (linkless : w.tree.Linkless) (makes : w.MakesAt path l) : w.leadsTo path = some l := by
  obtain ⟨d, n, found, _, _, rfl⟩ := makes
  exact leadsTo_of_entry linkless found

theorem writeFile_entry (linkless : w.tree.Linkless) (found : w.entry path = some (d, n))
    (plain : path.getLast? ≠ some '/') (home : w.tree.node d = some .dir) (flat : w.tree.node (n :: d) ≠ some .dir)
    (bytes : Text) : w.writeFile path bytes = some (w.put d n (.file bytes) home flat) := by
  cases node : w.tree.node (n :: d) with
  | none =>
    obtain ⟨k, front, rest, _, _, walked, last⟩ := lookup_entry found
    have nothing := last.resolve_right fun slash => plain slash.2
    rw [nothing, walk_none home node, if_pos rfl] at walked
    rw [writeFile, walked]
    exact dif_pos ⟨home, flat⟩
  | some x =>
    obtain ⟨k, reached⟩ := lookup_plain found node
      (fun target linked => linkless _ target (linked ▸ node)) (Or.inr plain)
    exact writeFile_reached reached home flat bytes

section Calls
variable {w' : World} {path : Text} (linkless : w.tree.Linkless)
include linkless

theorem mkdir_linkless (made : w.mkdir path = some w') : w'.tree.Linkless := by
  obtain ⟨d, n, home, free, _, rfl⟩ := mkdir_some made
  exact linkless.put home (by simp [free]) (by simp)

theorem writeFile_linkless {bytes : Text} (written : w.writeFile path bytes = some w') : w'.tree.Linkless := by
  obtain ⟨d, n, home, flat, _, rfl⟩ := writeFile_some written
  exact linkless.put home flat (by simp)

theorem unlink_linkless (removed : w.unlink path = some w') : w'.tree.Linkless := by
  obtain ⟨d, n, leaf, _, _, _, _, rfl⟩ := unlink_some removed
  exact linkless.remove leaf

theorem rmdir_linkless (removed : w.rmdir path = some w') : w'.tree.Linkless := by
  obtain ⟨d, n, leaf, _, _, rfl⟩ := rmdir_some removed
  exact linkless.remove leaf

theorem rename_linkless {new : Text} (renamed : w.rename path new = some w') : w'.tree.Linkless := by
  obtain ⟨d, n, e, m, x, _, _, _, _, moved⟩ := rename_some renamed
  split_ifs at moved with same
  · rwa [moved]
  · obtain ⟨_, inner, home, apart, leaf, rfl⟩ := moved
    exact linkless.move inner home apart

end Calls

theorem walkFrom_render (w : World) (l : Loc) (cs : List Comp) :
    w.walkFrom (render l) cs = walk w.tree w.maxLinks [] cs := w.walkFrom_absolute (render_head l) cs

theorem entry_render (dir : w.tree.node d = some .dir) : w.entry (render (n :: d)) = some (d, n) := by
  have split : comps (render (n :: d)) = d.reverse.map .name ++ [.name n] := by
    rw [comps_render, reverse_cons, map_append, map_singleton]
  refine entry_of_walk split (k := w.maxLinks) ?_
  rw [walkFrom_render, walk_names_dir _ dir]

theorem entry_render_some (linkless : w.tree.Linkless) (found : w.entry (render l) = some (d, n)) : l = n :: d := by
  obtain ⟨front, k, split, walked⟩ := entry_some found
  rw [comps_render] at split
  cases l with
  | nil => simp at split
  | cons m e =>
    rw [reverse_cons, map_append, map_singleton] at split
    obtain ⟨rfl, last⟩ := append_inj' split rfl
    obtain rfl := Comp.name.inj (singleton_inj.mp last)
    rw [walkFrom_render] at walked
    rw [(walk_locate linkless).1 d k walked, locate_names, append_nil]

theorem lookup_render_none (dir : w.tree.node d = some .dir) (free : w.tree.node (n :: d) = none) :
    w.lookup (render (n :: d)) = .missing d n := by
  rw [lookup, steps_render, if_neg (by simp), append_nil, walkFrom_render, reverse_cons,
    map_append, walk_append, walk_names_dir _ dir, Walk.andThen,
    map_singleton, walk_none dir free, if_pos rfl]

theorem stat_render (linkless : w.tree.Linkless) {x : Node}
    (present : w.tree.node l = some x) : w.stat (render l) = some x := by
  rw [stat_of_reached (lookup_render (by rw [present]; rfl) (linkless l)), present]

theorem writeFile_render (linkless : w.tree.Linkless) (home : w.tree.node d = some .dir)
    (flat : w.tree.node (n :: d) ≠ some .dir) (bytes : Text) :
    w.writeFile (render (n :: d)) bytes = some (w.put d n (.file bytes) home flat) :=
  writeFile_entry linkless (entry_render home) render_getLast home flat bytes

theorem mkdir_render (home : w.tree.node d = some .dir) (free : w.tree.node (n :: d) = none) :
    w.mkdir (render (n :: d)) = some (w.put d n .dir home (by simp [free])) := by
  unfold mkdir
  rw [entry_render home]
  dsimp only
  rw [dif_pos ⟨home, free⟩]

theorem rename_render_some (linkless : w.tree.Linkless) {src : Loc} {m : Name} {e : Loc}
    (free : w.tree.node (m :: e) = none)
    (renamed : w.rename (render src) (render (m :: e)) = some w') :
    (w.tree.node src).isSome ∧ ∃ inner home apart leaf, w' = w.shift src m e inner home apart leaf := by
  obtain ⟨d, n, e', m', x, found, found', present, _, moved⟩ := rename_some renamed
  obtain rfl := entry_render_some linkless found
  obtain ⟨rfl, rfl⟩ := cons.inj (entry_render_some linkless found')
  refine ⟨by rw [present]; rfl, ?_⟩
  have other : n :: d ≠ m :: e := by
    intro same
    rw [same, free] at present
    cases present
  rw [if_neg other] at moved
  exact moved.2

end World

end Flinstone.Lib
