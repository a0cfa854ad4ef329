import Flinstone.Lib.Posix

/-! # What calls leave as it was -/

namespace Flinstone.Lib.World
open List

structure Keeps (S : Loc → Prop) (w w' : World) : Prop where
  touched : ∃ more, w'.touched = more ++ w.touched ∧ ∀ l ∈ more, ¬ S l
  node : ∀ l, S l → w'.tree.node l = w.tree.node l

section Keeps
variable {S : Loc → Prop} {w w' w'' : World} {path : Text}

theorem Keeps.refl (S : Loc → Prop) (w : World) : Keeps S w w where
  touched := ⟨[], rfl, by simp⟩
  node _ _ := rfl

theorem Keeps.trans (first : Keeps S w w') (second : Keeps S w' w'') : Keeps S w w'' where
  touched := by
    obtain ⟨early, log, apart⟩ := first.touched
    obtain ⟨late, log', apart'⟩ := second.touched
    refine ⟨late ++ early, by rw [log', log, append_assoc], fun l member => ?_⟩
    rcases mem_append.mp member with new | old
    · exact apart' l new
    · exact apart l old
  node l inside := (second.node l inside).trans (first.node l inside)

variable {d : Loc} {n : Name} {home : w.tree.node d = some .dir}

theorem keeps_put {x : Node} {flat : w.tree.node (n :: d) ≠ some .dir} (outside : ¬ S (n :: d)) :
    Keeps S w (w.put d n x home flat) where
  touched := ⟨[n :: d], rfl, by simpa using outside⟩
  node l inside := by
    have other : l ≠ n :: d := fun same => outside (same ▸ inside)
    rw [put, Tree.node_put, if_neg other]

theorem keeps_take {leaf : w.tree.Leaf (n :: d)} (outside : ¬ S (n :: d)) : Keeps S w (w.take n d leaf) where
  touched := ⟨[n :: d], rfl, by simpa using outside⟩
  node l inside := by
    have other : l ≠ n :: d := fun same => outside (same ▸ inside)
    rw [take, Tree.node_remove, if_neg other]

theorem keeps_shift {src : Loc} {inner : src ≠ []} {apart : ¬ src <:+ n :: d} {flat : w.tree.Leaf (n :: d)}
    (outside : ¬ S src) (outside' : ¬ S (n :: d))
    (leaves : ∀ front, S (front ++ src) → w.tree.node (front ++ src) = none)
    (arrives : ∀ front, S (front ++ n :: d) → w.tree.node (front ++ src) = none) :
    Keeps S w (w.shift src n d inner home apart flat) where
  touched := ⟨[src, n :: d], rfl, by simpa using ⟨outside, outside'⟩⟩
  node l inside := by
    by_cases below : n :: d <:+ l
    · have empty : w.tree.node l = none := by
        by_contra present
        have same := flat.eq_of_suffix (Option.isSome_iff_ne_none.mpr present) below
        exact outside' (same ▸ inside)
      obtain ⟨front, rfl⟩ := below
      rw [shift, Tree.node_move_below, arrives front inside, empty]
    · by_cases gone : src <:+ l
      · rw [shift, Tree.node_move_gone _ _ _ gone below]
        obtain ⟨front, rfl⟩ := gone
        exact (leaves front inside).symm
      · rw [shift, Tree.node_move_other _ _ _ gone below]

theorem keeps_mkdir (made : w.mkdir path = some w') (outside : ∀ l, w.MakesAt path l → ¬ S l) : Keeps S w w' := by
  obtain ⟨d, n, home, free, found, rfl⟩ := mkdir_some made
  exact keeps_put (outside (n :: d) ⟨d, n, found, home, free, rfl⟩)

theorem keeps_writeFile {bytes : Text} (written : w.writeFile path bytes = some w')
    (outside : ∀ l, w.OpensAt path l → ¬ S l) : Keeps S w w' := by
  obtain ⟨d, n, home, flat, opens, rfl⟩ := writeFile_some written
  exact keeps_put (outside (n :: d) opens)

theorem keeps_unlink (removed : w.unlink path = some w')
    (outside : ∀ d n, w.entry path = some (d, n) → ¬ S (n :: d)) : Keeps S w w' := by
  obtain ⟨d, n, leaf, found, _, _, _, rfl⟩ := unlink_some removed
  exact keeps_take (outside d n found)

theorem keeps_rmdir (removed : w.rmdir path = some w')
    (outside : ∀ d n, w.entry path = some (d, n) → ¬ S (n :: d)) : Keeps S w w' := by
  obtain ⟨d, n, leaf, found, _, rfl⟩ := rmdir_some removed
  exact keeps_take (outside d n found)

end Keeps

structure Shrinks (w w' : World) : Prop where
  sub : w'.tree.Sub w.tree
  cwd : ∀ l, w'.cwd = some l → w.cwd = some l
  maxLinks : w'.maxLinks = w.maxLinks

section Shrinks
variable {w w' w'' : World} {path : Text}

theorem Shrinks.refl (w : World) : Shrinks w w := ⟨fun _ _ present => present, fun _ here => here, rfl⟩

variable {n : Name} {d l : Loc} {k : Nat}

theorem Shrinks.take (shrinks : Shrinks w w') (leaf : w'.tree.Leaf (n :: d)) : Shrinks w (w'.take n d leaf) where
  sub l x present := by
    rw [World.take, Tree.node_remove] at present
    split_ifs at present
    exact shrinks.sub l x present
  cwd l here := by
    rw [World.take] at here
    split_ifs at here
    exact shrinks.cwd l here
  maxLinks := shrinks.maxLinks

theorem Shrinks.walkFrom (shrinks : Shrinks w w') {cs : List Comp}
    (walked : w'.walkFrom path cs = .reached l k) : w.walkFrom path cs = .reached l k := by
  have starts : ∀ base, w'.start path = some base → w.start path = some base := by
    intro base begin'
    unfold start at begin' ⊢
    split_ifs at begin' ⊢
    · exact begin'
    · exact shrinks.cwd base begin'
  unfold World.walkFrom at walked ⊢
  cases begin' : w'.start path with
  | none => rw [begin'] at walked; cases walked
  | some base =>
    rw [begin', shrinks.maxLinks] at walked
    rw [starts base begin']
    exact walk_mono shrinks.sub walked

theorem Shrinks.entry (shrinks : Shrinks w w') (found : w'.entry path = some (d, n)) : w.entry path = some (d, n) := by
  obtain ⟨front, k, split, walked⟩ := entry_some found
  exact entry_of_walk split (shrinks.walkFrom walked)

theorem Shrinks.isSome (shrinks : Shrinks w w') (present : (w'.tree.node l).isSome) : (w.tree.node l).isSome := by
  obtain ⟨x, present⟩ := Option.isSome_iff_exists.mp present
  rw [shrinks.sub l x present]
  rfl

theorem opendir_some (opened : w.opendir path = some l) :
    (∃ k, w.lookup path = .reached l k) ∧ w.tree.node l = some .dir := by
  unfold opendir at opened
  cases found : w.lookup path with
  | missing d n => rw [found] at opened; cases opened
  | failed => rw [found] at opened; cases opened
  | reached e k =>
    rw [found] at opened
    dsimp only at opened
    split_ifs at opened with dir
    obtain rfl := Option.some.inj opened
    exact ⟨⟨k, rfl⟩, dir⟩

theorem opendir_of_lookup (found : w.lookup path = .reached l k)
    (dir : w.tree.node l = some .dir) : w.opendir path = some l := by
  unfold opendir
  rw [found]
  exact if_pos dir

theorem Shrinks.opendir (shrinks : Shrinks w w') (opened : w'.opendir path = some l) : w.opendir path = some l := by
  obtain ⟨⟨k, found⟩, dir⟩ := opendir_some opened
  exact opendir_of_lookup (shrinks.walkFrom found) (shrinks.sub l _ dir)

theorem Shrinks.stat_dir (shrinks : Shrinks w w') (dir : w'.stat path = some .dir) : w.stat path = some .dir := by
  unfold stat at dir
  cases found : w'.lookup path with
  | missing d n => rw [found] at dir; cases dir
  | failed => rw [found] at dir; cases dir
  | reached l k =>
    rw [found] at dir
    rw [stat_of_reached (shrinks.walkFrom found), shrinks.sub l _ dir]

end Shrinks

end Flinstone.Lib.World
