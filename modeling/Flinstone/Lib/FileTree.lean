import Flinstone.Lib.Text
import Mathlib.Data.Finset.Image
import Mathlib.Data.Finset.Insert
import Mathlib.Data.Finset.Max

/-! # Trees of directories, files and links -/

namespace Flinstone.Lib
open List

def Name : Type := {s : Text // s ≠ [] ∧ '/' ∉ s ∧ s ≠ ['.'] ∧ s ≠ ['.', '.']}

instance : DecidableEq Name := inferInstanceAs (DecidableEq (Subtype _))

abbrev Loc := List Name

inductive Node
  | file (bytes : Text)
  | dir
  | link (target : Text)
deriving DecidableEq

structure Tree where
  node : Loc → Option Node
  paths : Finset Loc
  mem_paths : ∀ l, l ∈ paths ↔ (node l).isSome
  root : node [] = some .dir
  parent : ∀ n l, (node (n :: l)).isSome → node l = some .dir

namespace Tree

@[ext (iff := false)] theorem ext {t u : Tree} (same : ∀ l, t.node l = u.node l) : t = u := by
  have nodes : t.node = u.node := funext same
  have paths : t.paths = u.paths := by
    ext l
    rw [t.mem_paths, u.mem_paths, nodes]
  cases t
  cases u
  subst nodes paths
  rfl

def Leaf (t : Tree) (l : Loc) : Prop := ∀ n, t.node (n :: l) = none

theorem leaf_iff (t : Tree) (l : Loc) : t.Leaf l ↔ ∀ p ∈ t.paths, p ≠ [] → p.tail ≠ l := by
  constructor
  · intro leaf p member nonempty
    cases p with
    | nil => exact absurd rfl nonempty
    | cons n above =>
      rintro rfl
      have present := (t.mem_paths _).mp member
      rw [tail_cons] at leaf
      rw [leaf n] at present
      cases present
  · intro leaf n
    by_contra present
    have member := (t.mem_paths (n :: l)).mpr (Option.isSome_iff_ne_none.mpr present)
    exact leaf _ member (cons_ne_nil n l) rfl

instance (t : Tree) (l : Loc) : Decidable (t.Leaf l) := decidable_of_iff _ (t.leaf_iff l).symm

variable {t : Tree} {l d e : Loc} {n m : Name}

theorem leaf_of_ne_dir (other : t.node l ≠ some .dir) : t.Leaf l := by
  intro n
  by_contra present
  exact other (t.parent n l (Option.isSome_iff_ne_none.mpr present))

theorem dir_of_isSome {above : Loc} (present : (t.node l).isSome)
    (below : n :: above <:+ l) : t.node above = some .dir := by
  obtain ⟨front, rfl⟩ := below
  induction front with
  | nil => exact t.parent n above present
  | cons m front ih =>
    have higher : t.node (front ++ n :: above) = some .dir := t.parent m _ present
    exact ih (by rw [higher]; rfl)

theorem Leaf.eq_of_suffix {m : Loc} (leaf : t.Leaf l) (present : (t.node m).isSome) (below : l <:+ m) : m = l := by
  obtain ⟨front, rfl⟩ := below
  rcases eq_nil_or_concat front with rfl | ⟨rest, n, rfl⟩
  · rfl
  · have dir : (t.node (n :: l)).isSome := by
      rcases eq_nil_or_concat rest with rfl | ⟨more, m, rfl⟩
      · simpa using present
      · have above : t.node (n :: l) = some .dir := dir_of_isSome (n := m) present (by simp)
        rw [above]
        rfl
    rw [leaf n] at dir
    cases dir

def bare : Tree where
  node l := if l = [] then some .dir else none
  paths := {[]}
  mem_paths l := by
    by_cases here : l = [] <;> simp [here]
  root := rfl
  parent n l present := by simp at present

theorem bare_cwd (l : Loc) (here : some [] = some l) : bare.node l = some .dir := by
  rw [← Option.some.inj here, bare.root]

def put (t : Tree) (d : Loc) (n : Name) (x : Node) (home : t.node d = some .dir)
    (flat : t.node (n :: d) ≠ some .dir) : Tree where
  node l := if l = n :: d then some x else t.node l
  paths := insert (n :: d) t.paths
  mem_paths l := by
    by_cases here : l = n :: d
    · simp [here]
    · simp [here, t.mem_paths]
  root := by simp [t.root]
  parent m l present := by
    have apart : d ≠ n :: d := by simp
    by_cases here : m :: l = n :: d
    · obtain ⟨rfl, rfl⟩ := List.cons.inj here
      rw [if_neg apart, home]
    · rw [if_neg here] at present
      have above := t.parent m l present
      by_cases inner : l = n :: d
      · exact absurd (inner ▸ above) flat
      · rw [if_neg inner, above]

theorem node_put {x : Node} (home : t.node d = some .dir) (flat : t.node (n :: d) ≠ some .dir) (l : Loc) :
    (t.put d n x home flat).node l = if l = n :: d then some x else t.node l := rfl

def remove (t : Tree) (n : Name) (d : Loc) (leaf : t.Leaf (n :: d)) : Tree where
  node l := if l = n :: d then none else t.node l
  paths := t.paths.erase (n :: d)
  mem_paths l := by
    by_cases here : l = n :: d
    · simp [here]
    · simp [here, t.mem_paths]
  root := by simp [t.root]
  parent m l present := by
    by_cases here : m :: l = n :: d
    · rw [if_pos here] at present
      cases present
    · rw [if_neg here] at present
      by_cases inner : l = n :: d
      · subst inner
        rw [leaf m] at present
        cases present
      · rw [if_neg inner, t.parent m l present]

theorem node_remove (leaf : t.Leaf (n :: d)) (l : Loc) :
    (t.remove n d leaf).node l = if l = n :: d then none else t.node l := rfl

def rebase (src dst l : Loc) : Loc := l.take (l.length - src.length) ++ dst

@[simp] theorem rebase_append (src dst front : Loc) : rebase src dst (front ++ src) = front ++ dst := by
  simp [rebase]

def move (t : Tree) (src : Loc) (n : Name) (d : Loc) (inner : src ≠ [])
    (home : t.node d = some .dir) (apart : ¬ src <:+ n :: d) : Tree where
  node l :=
    if n :: d <:+ l then t.node (rebase (n :: d) src l)
    else if src <:+ l then none
    else t.node l
  paths := t.paths.filter (fun l => ¬ n :: d <:+ l ∧ ¬ src <:+ l) ∪
    (t.paths.filter (src <:+ ·)).image (rebase src (n :: d))
  mem_paths l := by
    rw [Finset.mem_union, Finset.mem_filter, Finset.mem_image]
    by_cases below : n :: d <:+ l
    · obtain ⟨front, rfl⟩ := below
      have arrives : n :: d <:+ front ++ n :: d := suffix_append _ _
      rw [if_pos arrives, rebase_append, ← t.mem_paths]
      constructor
      · rintro (⟨_, outside, _⟩ | ⟨p, member, same⟩)
        · exact absurd arrives outside
        · obtain ⟨present, back, rfl⟩ := Finset.mem_filter.mp member
          rw [rebase_append] at same
          rwa [← append_cancel_right same]
      · intro member
        exact Or.inr ⟨front ++ src, Finset.mem_filter.mpr ⟨member, suffix_append _ _⟩, rebase_append _ _ _⟩
    · rw [if_neg below]
      have arrived : ¬ ∃ p, p ∈ t.paths.filter (src <:+ ·) ∧ rebase src (n :: d) p = l := by
        rintro ⟨p, member, rfl⟩
        exact below (suffix_append _ _)
      rw [or_iff_left arrived]
      by_cases gone : src <:+ l
      · simp [gone]
      · simp [gone, below, t.mem_paths]
  root := by
    have first : ¬ n :: d <:+ [] := by simp
    have second : ¬ src <:+ [] := by simpa using inner
    rw [if_neg first, if_neg second, t.root]
  parent m l present := by
    by_cases below : n :: d <:+ l
    · obtain ⟨front, rfl⟩ := below
      have deeper : n :: d <:+ m :: (front ++ n :: d) := ⟨m :: front, rfl⟩
      rw [if_pos deeper, ← cons_append, rebase_append] at present
      rw [if_pos (suffix_append _ _), rebase_append]
      exact t.parent m _ present
    · rw [if_neg below]
      by_cases here : n :: d <:+ m :: l
      · have same : n :: d = m :: l := (suffix_cons_iff.mp here).resolve_right below
        obtain ⟨rfl, rfl⟩ := List.cons.inj same
        rw [if_neg fun above => apart (above.trans (suffix_cons _ _)), home]
      · rw [if_neg here] at present
        by_cases gone : src <:+ l
        · rw [if_pos (gone.trans (suffix_cons _ _))] at present
          cases present
        · rw [if_neg gone]
          by_cases moved : src <:+ m :: l
          · rw [if_pos moved] at present
            cases present
          · rw [if_neg moved] at present
            exact t.parent m l present

section Move
variable {t : Tree} {src : Loc} {n : Name} {d : Loc} (inner : src ≠ [])
  (home : t.node d = some .dir) (apart : ¬ src <:+ n :: d)

theorem node_move_below (front : Loc) :
    (t.move src n d inner home apart).node (front ++ n :: d) = t.node (front ++ src) := by
  show (if n :: d <:+ front ++ n :: d then _ else _) = _
  rw [if_pos (suffix_append _ _), rebase_append]

theorem node_move_gone {l : Loc} (gone : src <:+ l) (outside : ¬ n :: d <:+ l) :
    (t.move src n d inner home apart).node l = none := by
  show (if n :: d <:+ l then _ else _) = _
  rw [if_neg outside, if_pos gone]

theorem node_move_other {l : Loc} (stays : ¬ src <:+ l) (outside : ¬ n :: d <:+ l) :
    (t.move src n d inner home apart).node l = t.node l := by
  show (if n :: d <:+ l then _ else _) = _
  rw [if_neg outside, if_neg stays]

end Move

theorem move_free (present : (t.node (m :: e)).isSome)
    (inner : m :: e ≠ []) (home : t.node d = some .dir) (apart : ¬ m :: e <:+ n :: d)
    (free : t.node (n :: d) = none) :
    (t.move (m :: e) n d inner home apart).node e = some .dir ∧
      (t.move (m :: e) n d inner home apart).node (m :: e) = none ∧ ¬ n :: d <:+ m :: e := by
  have leaf : t.Leaf (n :: d) := leaf_of_ne_dir (by simp [free])
  have outside : ∀ l, (t.node l).isSome → ¬ n :: d <:+ l := by
    intro l there below
    rw [leaf.eq_of_suffix there below, free] at there
    cases there
  have dir := t.parent m e present
  refine ⟨?_, node_move_gone _ _ _ suffix_rfl (outside _ present), outside _ present⟩
  rw [node_move_other _ _ _ _ (outside e (by rw [dir]; rfl)), dir]
  exact fun long => absurd long.length_le (by simp)

theorem move_move (free : t.node (n :: d) = none)
    {inner : m :: e ≠ []} {home : t.node d = some .dir} {apart : ¬ m :: e <:+ n :: d} (other : n :: d ≠ [])
    (home' : (t.move (m :: e) n d inner home apart).node e = some .dir) (apart' : ¬ n :: d <:+ m :: e) :
    (t.move (m :: e) n d inner home apart).move (n :: d) m e other home' apart' = t := by
  have leaf : t.Leaf (n :: d) := leaf_of_ne_dir (by simp [free])
  have empty : ∀ l, n :: d <:+ l → t.node l = none := by
    intro l below
    by_contra there
    rw [leaf.eq_of_suffix (Option.isSome_iff_ne_none.mpr there) below] at there
    exact there free
  ext l
  by_cases source : m :: e <:+ l
  · obtain ⟨front, rfl⟩ := source
    rw [node_move_below, node_move_below]
  · by_cases target : n :: d <:+ l
    · rw [node_move_gone _ _ _ target source, empty l target]
    · rw [node_move_other _ _ _ target source, node_move_other _ _ _ source target]

end Tree

end Flinstone.Lib
