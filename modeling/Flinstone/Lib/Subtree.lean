import Flinstone.Lib.Frame

/-! # Emptying a directory -/

namespace Flinstone.Lib
open List Option

def Below (D l : Loc) : Prop := D <:+ l ∧ l ≠ D

instance (D l : Loc) : Decidable (Below D l) := inferInstanceAs (Decidable (_ ∧ _))

section Below
variable {D l : Loc} {n : Name}

theorem below_iff : Below D l ↔ ∃ rel, rel ≠ [] ∧ l = rel ++ D := by
  constructor
  · rintro ⟨⟨rel, rfl⟩, other⟩
    exact ⟨rel, fun empty => other (by rw [empty]; rfl), rfl⟩
  · rintro ⟨rel, inner, rfl⟩
    exact ⟨suffix_append rel D, by simpa using inner⟩

theorem below_append {rel : Loc} (inner : rel ≠ []) : Below D (rel ++ D) := below_iff.mpr ⟨rel, inner, rfl⟩

theorem Below.cons (below : Below D l) : Below D (n :: l) := by
  obtain ⟨rel, _, rfl⟩ := below_iff.mp below
  exact below_append (cons_ne_nil n rel)

theorem not_below_nil : ¬ Below D [] := by
  rintro ⟨above, other⟩
  exact other (suffix_nil.mp above).symm

end Below

namespace Tree

def emptied (t : Tree) (D : Loc) : Tree where
  node l := if Below D l then none else t.node l
  paths := t.paths.filter fun l => ¬ Below D l
  mem_paths l := by
    by_cases below : Below D l <;> simp [below, t.mem_paths]
  root := by rw [if_neg not_below_nil, t.root]
  parent n l present := by
    have inner : ¬ Below D (n :: l) := by
      intro below
      rw [if_pos below] at present
      cases present
    have outer : ¬ Below D l := fun below => inner below.cons
    rw [if_neg inner] at present
    rw [if_neg outer]
    exact t.parent n l present

theorem node_emptied (t : Tree) (D l : Loc) : (t.emptied D).node l = if Below D l then none else t.node l := rfl

end Tree

namespace World

def emptied (w : World) (D : Loc) : World where
  tree := w.tree.emptied D
  cwd := w.cwd.filter fun l => ¬ Below D l
  maxLinks := w.maxLinks
  touched := w.touched
  cwd_dir l here := by
    obtain ⟨was, outer⟩ := filter_eq_some_iff.mp here
    rw [Tree.node_emptied, if_neg (of_decide_eq_true outer), w.cwd_dir l was]

def At (w : World) (path : Text) (l : Loc) : Prop := ∃ d n, w.entry path = some (d, n) ∧ l = n :: d

structure Emptying (D : Loc) (w v : World) : Prop where
  above : w.Shrinks v
  rest : v.Shrinks (w.emptied D)

section Emptying
variable {D : Loc} {w v : World} {path : Text} {l : Loc} {k : Nat}

theorem Shrinks.at (shrinks : w.Shrinks v) (found : v.At path l) : w.At path l := by
  obtain ⟨d, n, entry, rfl⟩ := found
  exact ⟨d, n, shrinks.entry entry, rfl⟩

theorem At.unique {m : Loc} (first : w.At path l) (second : w.At path m) : l = m := by
  obtain ⟨d, n, entry, rfl⟩ := first
  obtain ⟨e, o, entry', rfl⟩ := second
  obtain ⟨rfl, rfl⟩ := Prod.mk.inj (some.inj (entry.symm.trans entry'))
  rfl

theorem Emptying.refl (D : Loc) (w : World) : Emptying D w w where
  above := .refl w
  rest :=
    { sub := by
        intro l x present
        change (w.tree.emptied D).node l = some x at present
        rw [Tree.node_emptied] at present
        split_ifs at present
        exact present
      cwd := fun l here => (filter_eq_some_iff.mp here).1
      maxLinks := rfl }

theorem Emptying.node (emptying : Emptying D w v) (outer : ¬ Below D l) : v.tree.node l = w.tree.node l := by
  cases was : w.tree.node l with
  | some x =>
    have kept : (w.emptied D).tree.node l = some x := by
      change (w.tree.emptied D).node l = some x
      rw [Tree.node_emptied, if_neg outer, was]
    exact emptying.rest.sub l x kept
  | none =>
    by_contra present
    obtain ⟨x, present⟩ := ne_none_iff_exists'.mp present
    rw [emptying.above.sub l x present] at was
    cases was

theorem Emptying.take (emptying : Emptying D w v) {n : Name} {d : Loc} (leaf : v.tree.Leaf (n :: d))
    (below : Below D (n :: d)) : Emptying D w (v.take n d leaf) where
  above := emptying.above.take leaf
  rest :=
    { sub := by
        intro l x present
        have other : l ≠ n :: d := by
          rintro rfl
          change (w.tree.emptied D).node (n :: d) = some x at present
          rw [Tree.node_emptied, if_pos below] at present
          cases present
        rw [World.take, Tree.node_remove, if_neg other]
        exact emptying.rest.sub l x present
      cwd := by
        intro l here
        have stays := emptying.rest.cwd l here
        have outer := of_decide_eq_true (filter_eq_some_iff.mp here).2
        have other : v.cwd ≠ some (n :: d) := by
          intro same
          obtain rfl := some.inj (stays.symm.trans same)
          exact outer below
        exact (if_neg other).trans stays
      maxLinks := emptying.rest.maxLinks }

theorem Shrinks.emptied (shrinks : w.Shrinks v) (leaf : v.tree.Leaf D) : (w.emptied D).Shrinks v := by
  have outer {l : Loc} (present : (v.tree.node l).isSome) : ¬ Below D l :=
    fun below => below.2 (leaf.eq_of_suffix present below.1)
  refine ⟨fun l x present => ?_, fun l here => ?_, shrinks.maxLinks⟩
  · change (w.tree.emptied D).node l = some x
    rw [Tree.node_emptied, if_neg (outer (by rw [present]; rfl)), shrinks.sub l x present]
  · have stands := outer (by rw [v.cwd_dir l here]; rfl)
    exact filter_eq_some_iff.mpr ⟨shrinks.cwd l here, decide_eq_true stands⟩

end Emptying

section Onward
variable {w : World} {path : Text} {D rel : Loc} {k : Nat}

theorem At.walkFrom (found : w.At path D) (dir : w.tree.node D = some .dir) :
    ∃ k, w.walkFrom path (comps path) = .reached D k := by
  obtain ⟨d, n, entry, rfl⟩ := found
  obtain ⟨front, k, split, walked⟩ := entry_some entry
  exact ⟨k, by rw [split, walkFrom_append, walked, Walk.andThen, walk_name dir (by simp), walk_nil]⟩

theorem walkFrom_ne_nil {l : Loc} {cs : List Comp} (walked : w.walkFrom path cs = .reached l k) : path ≠ [] := by
  rintro rfl
  cases walked

theorem at_onward (leads : w.walkFrom path (comps path) = .reached D k) (inner : rel ≠ [])
    (there : (w.tree.node (rel ++ D)).isSome) : w.At (path ++ spell rel) (rel ++ D) := by
  cases rel with
  | nil => exact absurd rfl inner
  | cons n rel =>
    have dir : w.tree.node (rel ++ D) = some .dir := w.tree.parent n _ there
    have split : comps (path ++ spell (n :: rel)) = comps path ++ rel.reverse.map .name ++ [.name n] := by
      rw [comps_below, reverse_cons, map_append, append_assoc]
      rfl
    have walked := walk_down k (by rw [dir]; rfl) (by rw [dir]; simp)
    refine ⟨rel ++ D, n, entry_of_walk (k := k) split ?_, rfl⟩
    rw [w.walkFrom_onward (walkFrom_ne_nil leads), walkFrom_append, leads, Walk.andThen, walked]

theorem getLast_onward (inner : rel ≠ []) : (path ++ spell rel).getLast? ≠ some '/' := by
  cases rel with
  | nil => exact absurd rfl inner
  | cons n rel =>
    have named : spell (n :: rel) = render (n :: rel) := (if_neg (cons_ne_nil n rel)).symm
    rw [getLast?_append_of_ne_nil _ (by simp [spell]), named]
    exact render_getLast

theorem lookup_onward (leads : w.walkFrom path (comps path) = .reached D k) (inner : rel ≠ [])
    (there : (w.tree.node (rel ++ D)).isSome) (plain : ∀ target, w.tree.node (rel ++ D) ≠ some (.link target)) :
    w.lookup (path ++ spell rel) = .reached (rel ++ D) k := by
  rw [lookup, steps, if_neg (getLast_onward inner), append_nil, comps_below,
    w.walkFrom_onward (walkFrom_ne_nil leads), walkFrom_append, leads, Walk.andThen, walk_down k there plain]

theorem Emptying.at_onward {v : World} (emptying : Emptying D w v) (given : (w.emptied D).At path D)
    (dir : w.tree.node D = some .dir) (inner : rel ≠ []) (there : (v.tree.node (rel ++ D)).isSome) :
    v.At (path ++ spell rel) (rel ++ D) := by
  have stays : (w.emptied D).tree.node D = some .dir := by
    change (w.tree.emptied D).node D = some .dir
    rw [Tree.node_emptied, if_neg fun below => below.2 rfl, dir]
  obtain ⟨k, leads⟩ := given.walkFrom stays
  exact World.at_onward (emptying.rest.walkFrom leads) inner there

end Onward

end World

end Flinstone.Lib
