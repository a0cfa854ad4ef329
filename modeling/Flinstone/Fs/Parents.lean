import Flinstone.Fs.Provider

/-! # What `mkdir_parents` makes -/

namespace Flinstone.Fs
open Flinstone.Lib List

inductive Chain (w : World) (e : Loc) : Loc → World → Prop
  | base : Chain w e [] w
  | deeper {new : Loc} {w' : World} (n : Name) (chain : Chain w e new w')
      (home : w'.tree.node (new ++ e) = some .dir) (free : w'.tree.node (n :: (new ++ e)) = none) :
      Chain w e (n :: new) (w'.put (new ++ e) n .dir home (by simp [free]))

namespace Chain
variable {w w' : World} {e new : Loc}

theorem sub (chain : Chain w e new w') : w.tree.Sub w'.tree := by
  induction chain with
  | base => exact fun _ _ present => present
  | deeper n chain home free ih =>
    exact fun l x present => World.put_sub home free l x (ih l x present)

theorem start (chain : Chain w e new w') (path : Text) : w'.start path = w.start path ∧ w'.maxLinks = w.maxLinks := by
  induction chain with
  | base => exact ⟨rfl, rfl⟩
  | deeper n chain home free ih => exact ih

theorem touched (chain : Chain w e new w') : ∃ more, w'.touched = more ++ w.touched ∧ ∀ l ∈ more, e <:+ l := by
  induction chain with
  | base => exact ⟨[], rfl, by simp⟩
  | @deeper new w' n chain home free ih =>
    obtain ⟨more, log, below⟩ := ih
    refine ⟨(n :: (new ++ e)) :: more, by rw [World.put, log, cons_append], ?_⟩
    intro l member
    rcases mem_cons.mp member with rfl | earlier
    · exact ⟨n :: new, rfl⟩
    · exact below l earlier

variable {n : Name} {inner l : Loc}

theorem first (chain : Chain w e new w') (order : new = inner ++ [n]) :
    w.tree.node e = some .dir ∧ w.tree.node (n :: e) = none := by
  induction chain generalizing inner with
  | base => simp at order
  | @deeper new w' m chain home free ih =>
    cases inner with
    | nil =>
      obtain ⟨rfl, rfl⟩ := cons.inj order
      cases chain
      exact ⟨home, free⟩
    | cons k inner => exact ih (cons.inj order).2

theorem first_made (chain : Chain w e new w') (order : new = inner ++ [n]) : w'.tree.node (n :: e) = some .dir := by
  induction chain generalizing inner with
  | base => simp at order
  | @deeper new w' m chain home free ih =>
    cases inner with
    | nil =>
      obtain ⟨rfl, rfl⟩ := cons.inj order
      exact if_pos rfl
    | cons k inner => exact World.put_sub home free _ _ (ih (cons.inj order).2)

theorem walk_new (chain : Chain w e new w') (left : Nat) :
    walk w'.tree left e (new.reverse.map .name) = .reached (new ++ e) left := by
  induction chain with
  | base => exact walk_nil ..
  | @deeper new w' n chain home free ih =>
    have made : (w'.put (new ++ e) n .dir home (by simp [free])).tree.node (n :: (new ++ e)) =
        some .dir := by rw [World.put, Tree.node_put, if_pos rfl]
    rw [reverse_cons, map_append, walk_append, walk_mono (World.put_sub home free) ih,
      Walk.andThen, map_singleton, walk_name made (by simp), walk_nil]
    rfl

theorem walkFrom (chain : Chain w e new w') {path : Text} {cs : List Comp} {k : Nat}
    (walked : w.walkFrom path cs = .reached l k) : w'.walkFrom path cs = .reached l k := by
  obtain ⟨start, maxLinks⟩ := chain.start path
  unfold World.walkFrom at walked ⊢
  rw [start, maxLinks]
  cases from' : w.start path with
  | none => rw [from'] at walked; cases walked
  | some s =>
    rw [from'] at walked
    exact walk_mono chain.sub walked

end Chain

/-- Nothing is new, or a chain below the place `e` is, which after a success reaches to the last cut of the path. -/
def Made (w : World) (path : Text) (made : Int × World) : Prop :=
  made.2 = w ∨ ∃ front n inner e k rest, w.walkFrom path front = .reached e k ∧
    comps path = front ++ .name n :: rest ∧ Chain w e (inner ++ [n]) made.2 ∧
    (made.1 = 0 → ∃ tmp, cutLast '/' (path.take (fsPathMax - 1)) = some tmp ∧
      comps tmp = front ++ (inner ++ [n]).reverse.map .name)

variable {w : World} {tmp path : Text} {made : Int × World}

theorem Made.of_front {rest : Text} (nonempty : tmp ≠ [])
    (front : Made w tmp made) : Made w (tmp ++ '/' :: rest) (-1, made.2) := by
  rcases front with same | ⟨front, n, inner, e, k, more, walked, split, chain, _⟩
  · exact Or.inl same
  · refine Or.inr ⟨front, n, inner, e, k, more ++ comps rest, ?_, ?_, chain, ?_⟩
    · rw [w.walkFrom_slash nonempty, walked]
    · rw [comps_slash, split, append_assoc, cons_append]
    · intro success
      cases success

theorem Made.deeper {w' : World} (cut : cutLast '/' (path.take (fsPathMax - 1)) = some tmp) (nonempty : tmp ≠ [])
    (front : Made w tmp made) (success : made.1 = 0) (step : made.2.mkdir tmp = some w') :
    Made w path (0, w') := by
  obtain ⟨⟨more, rfl⟩, short⟩ := cutLast_take cut
  obtain ⟨d, n, home, free, found, rfl⟩ := World.mkdir_some step
  obtain ⟨before, k, split, walked⟩ := World.entry_some found
  rcases front with same | ⟨front, m, inner, e, i, rest, start, parts, chain, whole⟩
  · obtain ⟨result, made⟩ := made
    subst same
    refine Or.inr ⟨before, n, [], d, k, comps more, by rw [made.walkFrom_slash nonempty, walked], ?_,
      Chain.base.deeper n home free, fun _ => ⟨tmp, cut, split⟩⟩
    rw [comps_slash, split, ← append_cons]
  · obtain ⟨tmp', cut', names⟩ := whole success
    rw [take_of_length_le (by omega)] at cut'
    obtain ⟨last, rfl, plain⟩ := cutLast_some cut'
    have arrives : made.2.walkFrom (tmp' ++ '/' :: last) (comps tmp') = .reached (inner ++ [m] ++ e) i := by
      rw [names, World.walkFrom_append, chain.walkFrom start, Walk.andThen, chain.walk_new]
    rw [comps_slash, comps_plain plain] at split
    cases one : comp last with
    | none =>
      -- a doubled slash: the directory has just been made
      rw [one, Option.toList_none, append_nil] at split
      rw [split, World.walkFrom_append, walked, Walk.andThen, walk_none home free, if_pos rfl] at arrives
      cases arrives
    | some c =>
      rw [one, Option.toList_some] at split
      obtain ⟨rfl, same⟩ := append_inj' split rfl
      obtain rfl := singleton_inj.mp same
      obtain ⟨rfl, rfl⟩ := Walk.reached.inj (arrives.symm.trans walked)
      refine Or.inr ⟨front, m, n :: inner, e, i, rest ++ comps more, ?_, ?_, chain.deeper n home free,
        fun _ => ⟨_, cut, ?_⟩⟩
      · rw [w.walkFrom_slash nonempty, start]
      · rw [comps_slash, parts, append_assoc, cons_append]
      · rw [comps_slash, comps_plain plain, one, names]
        simp

theorem mkdirParents_made (fuel : Nat) (path : Text) (w : World) : Made w path (mkdirParents fuel path w) := by
  induction fuel generalizing path with
  | zero => exact Or.inl rfl
  | succ fuel ih =>
    rw [mkdirParents]
    cases cut : cutLast '/' (path.take (fsPathMax - 1)) with
    | none => exact Or.inl rfl
    | some tmp =>
      cases tmp with
      | nil => exact Or.inl rfl
      | cons x tmp =>
        have nonempty : x :: tmp ≠ [] := by simp
        have front := ih (x :: tmp)
        obtain ⟨⟨rest, parts⟩, _⟩ := cutLast_take cut
        dsimp only
        split_ifs with there failed
        · exact Or.inl rfl
        · rw [parts]
          exact front.of_front nonempty
        · cases step : (mkdirParents fuel (x :: tmp) w).2.mkdir (x :: tmp) with
          | none =>
            rw [parts]
            exact front.of_front nonempty
          | some w' => exact front.deeper cut nonempty (not_not.mp failed) step

theorem mkdirParents_idle (found : w.lookup path ≠ .failed) (fuel : Nat) : mkdirParents fuel path w = (0, w) := by
  cases fuel with
  | zero => rfl
  | succ fuel =>
    rw [mkdirParents]
    cases cut : cutLast '/' (path.take (fsPathMax - 1)) with
    | none => rfl
    | some tmp =>
      cases tmp with
      | nil => rfl
      | cons x tmp =>
        obtain ⟨⟨rest, rfl⟩, _⟩ := cutLast_take cut
        obtain ⟨c, cs, split⟩ := steps_front (x :: tmp) rest
        rw [World.lookup, split] at found
        obtain ⟨d, k, walked, dir⟩ := World.walkFrom_dir_of_append found
        dsimp only
        rw [if_pos (World.stat_dir walked dir)]

/-! ## When it makes nothing -/

/-- A text in front of one of the slashes names a free place in a directory that is there. -/
def LacksFront (w : World) (path : Text) : Prop := ∃ front rest l, path = front ++ '/' :: rest ∧ w.MakesAt front l

section Idle
variable {front last : Text} {l : Loc}

theorem ne_nil_of_makesAt (makes : w.MakesAt path l) : path ≠ [] := by
  rintro rfl
  obtain ⟨d, n, found, _⟩ := makes
  cases found

theorem lacksFront_slash (free : '/' ∉ last) :
    LacksFront w (front ++ '/' :: last) ↔ (∃ l, w.MakesAt front l) ∨ LacksFront w front := by
  constructor
  · rintro ⟨shorter, rest, l, same, makes⟩
    rcases ancestor_cut free same with rfl | ⟨rest', above⟩
    · exact .inl ⟨l, makes⟩
    · exact .inr ⟨shorter, rest', l, above, makes⟩
  · rintro (⟨l, makes⟩ | ⟨shorter, rest, l, rfl, makes⟩)
    · exact ⟨front, last, l, rfl, makes⟩
    · exact ⟨shorter, rest ++ '/' :: last, l, by simp, makes⟩

theorem not_lacksFront (found : w.lookup path ≠ .failed) : ¬ LacksFront w path := by
  rintro ⟨front, rest, l, rfl, makes⟩
  obtain ⟨c, cs, split⟩ := steps_front front rest
  rw [World.lookup, split] at found
  obtain ⟨e, k, walked, _⟩ := World.walkFrom_dir_of_append found
  rw [w.walkFrom_slash (ne_nil_of_makesAt makes)] at walked
  obtain ⟨d, n, entry, home, free, _⟩ := makes
  obtain ⟨before, m, parts, start⟩ := World.entry_some entry
  rw [parts, World.walkFrom_append, start, Walk.andThen, walk_none home free, if_pos rfl] at walked
  cases walked

/-- With a slash at the end the text in front of it names the same place. -/
theorem lookup_of_makesAt {d : Loc} {n : Name} (makes : w.MakesAt path (n :: d)) (whole : ¬ LacksFront w path) :
    w.lookup path = .missing d n := by
  obtain ⟨d, n, found, home, free, same⟩ := makes
  obtain ⟨rfl, rfl⟩ := cons.inj same
  obtain ⟨k, front, rest, _, _, walked, rfl | ⟨rfl, slash⟩⟩ := World.lookup_entry found
  · rw [walked, walk_none home free, if_pos rfl]
  · obtain ⟨shorter, rfl⟩ : ∃ shorter, path = shorter ++ ['/'] := getLast?_eq_some_iff.mp slash
    refine absurd ⟨shorter, [], _, rfl, _, _, ?_, home, free, rfl⟩ whole
    obtain ⟨before, m, parts, start⟩ := World.entry_some found
    rw [comps_slash, comps_nil, append_nil] at parts
    have named : shorter ≠ [] := by
      rintro rfl
      simp at parts
    exact World.entry_of_walk parts ((w.walkFrom_slash named [] before).symm.trans start)

theorem mkdirParents_longer (fuel : Nat) (path : Text) (w : World) :
    w.touched.length ≤ (mkdirParents fuel path w).2.touched.length := by
  rcases mkdirParents_made fuel path w with same | ⟨_, _, _, _, _, _, _, _, chain, _⟩
  · rw [same]
  · obtain ⟨more, log, _⟩ := chain.touched
    rw [log, length_append]
    omega

theorem mkdirParents_idle_iff {fuel : Nat} (short : path.length < fsPathMax) (enough : path.length < fuel) :
    (mkdirParents fuel path w).2 = w ↔ ¬ LacksFront w path := by
  induction fuel generalizing path with
  | zero => omega
  | succ fuel ih =>
    rw [mkdirParents, take_of_length_le (Nat.le_sub_one_of_lt short)]
    cases cut : cutLast '/' path with
    | none =>
      refine iff_of_true rfl ?_
      rintro ⟨front, rest, l, rfl, _⟩
      exact cutLast_eq_none.mp cut (by simp)
    | some tmp =>
      obtain ⟨last, rfl, free⟩ := cutLast_some cut
      rw [length_append, length_cons] at short enough
      have front := @ih tmp (by omega) (by omega)
      rw [lacksFront_slash free, not_or]
      cases tmp with
      | nil =>
        refine iff_of_true rfl ⟨fun ⟨l, makes⟩ => ne_nil_of_makesAt makes rfl, ?_⟩
        rintro ⟨front, rest, l, same, _⟩
        simp at same
      | cons x tmp =>
        dsimp only
        split_ifs with there failed
        · have found : w.lookup (x :: tmp) ≠ .failed := by
            intro lost
            rw [World.stat, lost] at there
            cases there
          refine iff_of_true rfl ⟨?_, not_lacksFront found⟩
          rintro ⟨l, d, n, entry, _, gone, _⟩
          rw [World.stat_entry_none entry gone] at there
          cases there
        · -- the shortest missing front is never the one that fails here
          refine front.trans (and_iff_right_of_imp ?_).symm
          rintro whole ⟨l, d, n, found, home, gone, rfl⟩
          have missing := lookup_of_makesAt ⟨d, n, found, home, gone, rfl⟩ whole
          exact failed (by rw [mkdirParents_idle (by rw [missing]; simp)])
        · cases step : (mkdirParents fuel (x :: tmp) w).2.mkdir (x :: tmp) with
          | none =>
            refine front.trans (and_iff_right_of_imp ?_).symm
            rintro whole ⟨l, makes⟩
            obtain ⟨w', made, _⟩ := makes.mkdir
            rw [front.mpr whole, made] at step
            cases step
          | some w' =>
            obtain ⟨l, makes, log⟩ := World.mkdir_touches step
            refine iff_of_false (fun same => ?_) ?_
            · have longer := mkdirParents_longer fuel (x :: tmp) w
              rw [show w' = w from same] at log
              rw [log, length_cons] at longer
              omega
            · rintro ⟨fixed, whole⟩
              rw [front.mpr whole] at makes
              exact fixed ⟨l, makes⟩

end Idle

end Flinstone.Fs
