import Flinstone.Lib.Posix

/-!
# The jail of the virtual machine mode

`fs_jail.c`.
-/

namespace Flinstone.Fs
open Flinstone.Lib List Option

/-- The globals the check reads; `g_fs_jail_len` is the length of `root`. -/
structure Jail where
  vmMode : Bool
  root : Text
  cwd : Text

/-- No root is set: the jail is not active. -/
def Jail.off : Jail where
  vmMode := false
  root := []
  cwd := "/".toList

/-- The longest text in front of a slash that leads somewhere. -/
def Ancestor (w : World) (ab front : Text) (e : Loc) : Prop :=
  ∃ rest k, ab = front ++ '/' :: rest ∧ w.lookup front = .reached e k ∧
    ∀ longer rest', ab = longer ++ '/' :: rest' → front.length < longer.length → ∀ l k, w.lookup longer ≠ .reached l k

/-- Where a path leads, or else its longest part that leads somewhere. -/
def Located (w : World) (ab : Text) (e : Loc) : Prop :=
  (∃ k, w.lookup ab = .reached e k) ∨ (∀ l k, w.lookup ab ≠ .reached l k) ∧ ∃ front, Ancestor w ab front e

section Ancestors
variable {w : World} {front last longer rest text : Text} {e l : Loc} {k : Nat}

theorem ancestor_cut (free : '/' ∉ last) (same : front ++ '/' :: last = longer ++ '/' :: rest) :
    longer = front ∨ ∃ rest', front = longer ++ '/' :: rest' := by
  rcases append_eq_append_iff.mp same with ⟨more, rfl, tail⟩ | ⟨more, rfl, tail⟩
  · cases more with
    | nil => exact .inl (append_nil _)
    | cons c more =>
      obtain ⟨rfl, inside⟩ := cons.inj tail
      have found : '/' ∈ last := by
        rw [inside]
        exact mem_append_right more (mem_cons_self ..)
      exact absurd found free
  · cases more with
    | nil => exact .inl (append_nil _).symm
    | cons c more =>
      obtain ⟨rfl, _⟩ := cons.inj tail
      exact .inr ⟨more, rfl⟩

theorem ancestor_here (free : '/' ∉ last) (found : w.lookup front = .reached e k) :
    Ancestor w (front ++ '/' :: last) text l ↔ text = front ∧ l = e := by
  constructor
  · rintro ⟨rest, m, same, reached, longest⟩
    rcases ancestor_cut free same with rfl | ⟨rest', above⟩
    · exact ⟨rfl, (Walk.reached.inj (reached.symm.trans found)).1⟩
    · exact absurd found (longest front last rfl (by rw [above]; simp) e k)
  · rintro ⟨rfl, rfl⟩
    refine ⟨last, k, rfl, found, fun longer rest' same more => ?_⟩
    rcases ancestor_cut free same with rfl | ⟨rest'', above⟩
    · exact absurd more (lt_irrefl _)
    · rw [above, length_append] at more
      omega

theorem ancestor_front (free : '/' ∉ last) (gone : ∀ l k, w.lookup front ≠ .reached l k) :
    Ancestor w (front ++ '/' :: last) text l ↔ Ancestor w front text l := by
  constructor
  · rintro ⟨rest, m, same, reached, longest⟩
    rcases ancestor_cut free same with rfl | ⟨rest', above⟩
    · exact absurd reached (gone l m)
    · refine ⟨rest', m, above, reached, fun longer rest'' higher more => ?_⟩
      exact longest longer (rest'' ++ '/' :: last) (by rw [higher]; simp) more
  · rintro ⟨rest, m, rfl, reached, longest⟩
    refine ⟨rest ++ '/' :: last, m, by simp, reached, fun longer rest' same more => ?_⟩
    rcases ancestor_cut free same with rfl | ⟨rest'', above⟩
    · exact gone
    · exact longest longer rest'' above more

theorem Ancestor.unique {front' : Text} (first : Ancestor w text front e) (second : Ancestor w text front' l) :
    e = l := by
  obtain ⟨rest, k, same, reached, longest⟩ := first
  obtain ⟨rest', k', same', reached', longest'⟩ := second
  rcases lt_trichotomy front.length front'.length with less | equal | more
  · exact absurd reached' (longest front' rest' same' less l k')
  · obtain ⟨rfl, _⟩ := append_inj (same.symm.trans same') equal
    exact (Walk.reached.inj (reached.symm.trans reached')).1
  · exact absurd reached (longest' front rest same more e k)

theorem Located.unique (first : Located w text e) (second : Located w text l) : e = l := by
  rcases first with ⟨k, reached⟩ | ⟨gone, _, above⟩
  · rcases second with ⟨k', reached'⟩ | ⟨gone', _⟩
    · exact (Walk.reached.inj (reached.symm.trans reached')).1
    · exact absurd reached (gone' e k)
  · rcases second with ⟨k', reached'⟩ | ⟨_, _, above'⟩
    · exact absurd reached' (gone l k')
    · exact above.unique above'

end Ancestors

namespace Jail

def jailRootMax : Nat := 4096

def isActive (j : Jail) : Bool := j.vmMode && j.root ≠ []

def underJail (j : Jail) (canon : Text) : Bool :=
  j.root.isPrefixOf canon &&
    ((canon.drop j.root.length).head? = none || (canon.drop j.root.length).head? = some '/')

def absolute (j : Jail) (path : Text) : Option Text :=
  let ab := if path.head? = some '/' then path else j.cwd ++ '/' :: path
  if ab.length ≥ jailRootMax * 2 then none else some ab

/-- The loop behind the first `realpath`, `none` while it still runs after so many rounds. -/
def frontRounds (w : World) : Nat → Text → Option (Option Text)
  | 0, _ => none
  | rounds + 1, pcopy =>
    match cutLast '/' pcopy with
    | none | some [] => some none
    | some front =>
      match w.realpath front with
      | some dcan => some (some dcan)
      | none => frontRounds w rounds front

def existingFront (w : World) (rounds : Nat) (pcopy : Text) : Option Text := (frontRounds w rounds pcopy).join

def checkPath (j : Jail) (w : World) (path : Text) : Int :=
  if !j.isActive then 0
  else if path = [] then -1
  else match j.absolute path with
    | none => -1
    | some ab =>
      match w.realpath ab with
      | some canon => if j.underJail canon then 0 else -1
      | none =>
        match existingFront w (ab.length + 1) ab with
        | some dcan => if j.underJail dcan then 0 else -1
        | none => -1

theorem checkPath_congr {w w' : World} (same : ∀ path, w'.within.lookup path = w.within.lookup path) (j : Jail)
    (path : Text) : j.checkPath w' path = j.checkPath w path := by
  have real : w'.realpath = w.realpath := by
    funext p
    rw [World.realpath, World.realpath, same]
  have front : ∀ rounds p, frontRounds w' rounds p = frontRounds w rounds p := by
    intro rounds
    induction rounds with
    | zero => exact fun p => rfl
    | succ rounds ih =>
      intro p
      simp only [frontRounds, real, ih]
  simp only [checkPath, existingFront, real, front]

section Root
variable {j : Jail} {R l : Loc}

theorem underJail_inside (root : j.root = render R) (under : j.underJail (render l)) : R <:+ l := by
  by_cases whole : R = []
  · rw [whole]
    exact nil_suffix
  rw [underJail, root, Bool.and_eq_true] at under
  obtain ⟨rest, same⟩ := isPrefixOf_iff_prefix.mp under.1
  have border := under.2
  rw [← same, drop_left, Bool.or_eq_true, decide_eq_true_eq, decide_eq_true_eq, head?_eq_none_iff] at border
  have inner : l ≠ [] := by
    rintro rfl
    rw [render, if_neg whole, render, if_pos rfl] at same
    have long := congrArg length same
    cases R with
    | nil => exact whole rfl
    | cons n above =>
      have named := length_pos_iff.mpr n.property.1
      simp only [spell, length_append, length_cons, length_nil] at long
      omega
  rw [render, if_neg whole, render, if_neg inner] at same
  exact suffix_of_spell same.symm border

theorem underJail_of_inside (root : j.root = render R) (proper : R ≠ []) (inside : R <:+ l) :
    j.underJail (render l) := by
  obtain ⟨front, rfl⟩ := inside
  have inner : front ++ R ≠ [] := by simp [proper]
  rw [underJail, root, render, if_neg proper, render, if_neg inner, spell_append, drop_left, Bool.and_eq_true]
  refine ⟨List.isPrefixOf_iff_prefix.mpr (prefix_append _ _), ?_⟩
  cases front with
  | nil => rfl
  | cons n front => rw [spell_head (cons_ne_nil n front)]; rfl

theorem underJail_iff (root : j.root = render R) :
    j.underJail (render l) ↔ if R = [] then l = [] else R <:+ l := by
  split_ifs with whole
  · subst whole
    constructor
    · intro under
      rcases eq_nil_or_concat l with top | ⟨inner, n, rfl⟩
      · exact top
      -- behind the first slash stands a name
      · obtain ⟨c, rest, named⟩ := exists_cons_of_ne_nil n.property.1
        have letter : c ≠ '/' := fun slash => n.property.2.1 (by simp [named, slash])
        have text : render (inner ++ [n]) = '/' :: c :: (rest ++ spell inner) := by
          rw [render, if_neg (by simp), spell_append, spell, spell, named]
          rfl
        rw [concat_eq_append, text, underJail, root] at under
        simp [render, letter] at under
    · rintro rfl
      simp [underJail, root]
  · exact ⟨underJail_inside root, underJail_of_inside root whole⟩

end Root

/-! ## The part of a path that exists -/

section Front
variable {w : World}
variable {path canon text : Text} {rounds : Nat}

theorem realpath_eq_some :
    w.realpath path = some canon ↔ ∃ e k, w.within.lookup path = .reached e k ∧ canon = render e := by
  unfold World.realpath
  cases w.within.lookup path with
  | reached l left => simp [eq_comm]
  | missing d n => simp
  | failed => simp

theorem realpath_eq_none : w.realpath path = none ↔ ∀ e k, w.within.lookup path ≠ .reached e k := by
  unfold World.realpath
  cases w.within.lookup path with
  | reached l left => simp
  | missing d n => simp
  | failed => simp

theorem frontRounds_some (enough : text.length < rounds) :
    ∃ found, frontRounds w rounds text = some found ∧
      ∀ canon, found = some canon ↔ ∃ front e, Ancestor w.within text front e ∧ canon = render e := by
  induction rounds generalizing text with
  | zero => omega
  | succ rounds ih =>
    rw [frontRounds]
    cases cut : cutLast '/' text with
    | none =>
      refine ⟨none, rfl, fun canon => iff_of_false (by simp) ?_⟩
      rintro ⟨front, e, ⟨rest, _, rfl, _⟩, _⟩
      exact cutLast_eq_none.mp cut (by simp)
    | some front =>
      obtain ⟨last, rfl, free⟩ := cutLast_some cut
      cases front with
      | nil =>
        refine ⟨none, rfl, fun canon => iff_of_false (by simp) ?_⟩
        rintro ⟨front, e, ⟨rest, k, same, reached, _⟩, _⟩
        rcases ancestor_cut free same with rfl | ⟨rest', above⟩
        · cases reached
        · simp at above
      | cons x front =>
        dsimp only
        cases real : w.realpath (x :: front) with
        | some dcan =>
          obtain ⟨e, k, reached, rfl⟩ := realpath_eq_some.mp real
          refine ⟨_, rfl, fun canon => ?_⟩
          simp only [ancestor_here free reached]
          simp [eq_comm]
        | none =>
          simp only [ancestor_front free (realpath_eq_none.mp real)]
          refine ih ?_
          simp only [length_append, length_cons] at enough ⊢
          omega

theorem existingFront_eq_some : existingFront w (text.length + 1) text = some canon ↔
    ∃ front e, Ancestor w.within text front e ∧ canon = render e := by
  obtain ⟨found, ended, value⟩ := frontRounds_some (w := w) (Nat.lt_succ_self text.length)
  rw [existingFront, ended]
  exact value canon

theorem or_existingFront_eq_some :
    (w.realpath path).or (existingFront w (path.length + 1) path) = some canon ↔
      ∃ e, Located w.within path e ∧ canon = render e := by
  cases real : w.realpath path with
  | some dcan =>
    obtain ⟨e, k, reached, rfl⟩ := realpath_eq_some.mp real
    rw [some_or, some.injEq]
    have here : Located w.within path e := .inl ⟨k, reached⟩
    exact ⟨fun same => ⟨e, here, same.symm⟩, fun ⟨l, there, same⟩ => by rw [same, here.unique there]⟩
  | none =>
    have gone := realpath_eq_none.mp real
    rw [none_or, existingFront_eq_some]
    constructor
    · rintro ⟨front, e, above, rfl⟩
      exact ⟨e, .inr ⟨gone, front, above⟩, rfl⟩
    · rintro ⟨e, ⟨k, reached⟩ | ⟨_, front, above⟩, rfl⟩
      · exact absurd reached (gone e k)
      · exact ⟨front, e, above, rfl⟩

theorem checkPath_eq {j : Jail} {ab : Text} (active : j.isActive) (nonempty : path ≠ [])
    (made : j.absolute path = some ab) :
    j.checkPath w path = ((w.realpath ab).or (existingFront w (ab.length + 1) ab)).elim (-1)
      fun canon => if j.underJail canon then 0 else -1 := by
  rw [checkPath, if_neg (by simp [active]), if_neg nonempty, made]
  dsimp only
  cases w.realpath ab with
  | some canon => rfl
  | none => cases existingFront w (ab.length + 1) ab <;> rfl

theorem checkPath_iff {j : Jail} {R : Loc} (active : j.isActive) (root : j.root = render R) :
    j.checkPath w path = 0 ↔ path ≠ [] ∧ ∃ ab ∈ j.absolute path, ∃ e, Located w.within ab e ∧
      if R = [] then e = [] else R <:+ e := by
  by_cases empty : path = []
  · simp [checkPath, active, empty]
  rw [and_iff_right empty]
  cases made : j.absolute path with
  | none => simp [checkPath, active, empty, made]
  | some ab =>
    rw [checkPath_eq active empty made]
    simp only [mem_some_iff, exists_eq_left']
    cases seen : (w.realpath ab).or (existingFront w (ab.length + 1) ab) with
    | none =>
      refine iff_of_false (by simp) ?_
      rintro ⟨e, here, _⟩
      cases seen.symm.trans (or_existingFront_eq_some.mpr ⟨e, here, rfl⟩)
    | some canon =>
      obtain ⟨e, here, rfl⟩ := or_existingFront_eq_some.mp seen
      have verdict : (if j.underJail (render e) then 0 else -1 : Int) = 0 ↔ j.underJail (render e) := by
        by_cases under : j.underJail (render e) <;> simp [under]
      rw [elim_some, verdict, underJail_iff root]
      refine ⟨fun inside => ⟨e, here, inside⟩, ?_⟩
      rintro ⟨l, there, inside⟩
      rwa [here.unique there]

end Front

end Jail

/-! ## Paths as the host takes them -/

section Shows
variable {w : World} {path front last : Text} {e l : Loc} {k : Nat}

theorem shows_of_front (nonempty : front ≠ []) (free : '/' ∉ last) (found : w.lookup front = .reached e k)
    (missing : ∀ l m, w.lookup (front ++ '/' :: last) ≠ .reached l m) :
    w.Shows (front ++ '/' :: last) e := by
  refine ⟨comps front, [lastComp last], k, steps_slash _ free, ?_, ?_⟩
  · rw [w.walkFrom_slash nonempty]
    exact World.lookup_front found
  · rintro c ⟨⟩
    rw [← steps_slash _ free]
    exact missing

theorem shows_front (nonempty : front ≠ []) (free : '/' ∉ last)
    (missing : ∀ l m, w.lookup front ≠ .reached l m) (shows : w.Shows front e) :
    w.Shows (front ++ '/' :: last) e := by
  have same := w.walkFrom_slash nonempty last
  obtain ⟨before, rest, k, split, walked, stuck⟩ := shows
  cases rest with
  | nil =>
    rw [World.lookup, split, append_nil] at missing
    exact absurd walked (missing e k)
  | cons c rest =>
    have stops := stuck c rfl
    rcases steps_eq front with plain | slash
    · refine ⟨before, c :: rest ++ [lastComp last], k, ?_, by rw [same, walked], ?_⟩
      · rw [steps_slash _ free, ← plain, split, append_assoc]
      · rintro d ⟨⟩
        rw [same]
        exact stops
    · rw [slash] at split
      rcases eq_nil_or_concat rest with rfl | ⟨more, x, rfl⟩
      · -- the place that exists is no directory, so nothing follows it
        obtain ⟨rfl, last'⟩ := append_inj' split rfl
        obtain rfl := singleton_inj.mp last'
        have file : w.tree.node e ≠ some .dir := by
          intro dir
          refine stops e k ?_
          rw [w.walkFrom_append, walked, Walk.andThen, walk_here dir, walk_nil]
        refine ⟨comps front, [lastComp last], k, steps_slash _ free, by rw [same, walked], ?_⟩
        rintro d ⟨⟩ l m
        rw [same, w.walkFrom_append, walked, Walk.andThen, walk_not_dir file]
        exact Walk.noConfusion
      · have whole : comps front = before ++ c :: more := by
          rw [concat_eq_append, ← cons_append, ← append_assoc] at split
          exact (append_inj' split rfl).1
        refine ⟨before, c :: (more ++ [lastComp last]), k, ?_, by rw [same, walked], ?_⟩
        · rw [steps_slash _ free, whole, append_assoc, cons_append]
        · rintro d ⟨⟩
          rw [same]
          exact stops

theorem Located.shows (here : Located w path e) : w.Shows path e := by
  rcases here with ⟨k, reached⟩ | ⟨gone, front, above⟩
  · exact World.shows_of_reached reached
  -- one slash after the other, from the end
  obtain ⟨count, size⟩ : ∃ count, path.length = count := ⟨_, rfl⟩
  induction count using Nat.strong_induction_on generalizing path with
  | _ count ih =>
    obtain ⟨rest, k, same, reached, longest⟩ := id above
    cases cut : cutLast '/' path with
    | none => exact absurd (by simp [same]) (cutLast_eq_none.mp cut)
    | some mid =>
      obtain ⟨last, rfl, free⟩ := cutLast_some cut
      rcases ancestor_cut free same with rfl | ⟨rest', rfl⟩
      · refine shows_of_front ?_ free reached gone
        rintro rfl
        cases reached
      · have lost := longest (front ++ '/' :: rest') last rfl (by simp)
        have shorter : (front ++ '/' :: rest').length < count := by
          rw [← size]
          simp
        exact shows_front (by simp) free lost (ih _ shorter lost ((ancestor_front free lost).mp above) rfl)

end Shows

def LinkOut (w : World) (R : Loc) (path : Text) : Prop :=
  ∃ d m target e n, w.entry path = some (d, m) ∧ w.tree.node (m :: d) = some (.link target) ∧
    R <:+ d ∧ w.lookup path = .missing e n ∧ ¬ R <:+ n :: e

section Links
variable {w : World} {R e d : Loc} {path : Text} {n : Name}

theorem suffix_cons (inside : R <:+ d) : R <:+ n :: d := inside.trans (List.suffix_cons n d)

theorem missing_entry (found : w.lookup path = .missing e n) : ∃ d m, w.entry path = some (d, m) ∧ w.Shows path d ∧
      (e = d ∧ n = m ∨ ∃ target, w.tree.node (m :: d) = some (.link target)) := by
  have plain : steps path = comps path := by
    rcases steps_eq path with plain | slash
    · exact plain
    · rw [World.lookup, slash] at found
      obtain ⟨d, k, walked, dir⟩ := World.walkFrom_dir_of_append (by rw [found]; simp)
      rw [World.walkFrom_append, walked, Walk.andThen, walk_here dir, walk_nil] at found
      cases found
  rw [World.lookup, plain] at found
  rcases eq_nil_or_concat (comps path) with empty | ⟨front, c, split⟩
  · rw [empty, World.walkFrom] at found
    cases start : w.start path with
    | none => rw [start] at found; cases found
    | some s =>
      rw [start] at found
      change walk w.tree w.maxLinks s [] = _ at found
      rw [walk_nil] at found
      cases found
  · rw [concat_eq_append] at split
    have lost : ∀ l m, w.walkFrom path (comps path) ≠ .reached l m := by
      rw [found]
      simp
    rw [split] at found
    obtain ⟨d, k, walked, dir⟩ := World.walkFrom_dir_of_append (by rw [found]; simp)
    rw [World.walkFrom_append, walked, Walk.andThen] at found
    cases c with
    | here => rw [walk_here dir, walk_nil] at found; cases found
    | up => rw [walk_up dir, walk_nil] at found; cases found
    | name m =>
      have entry := World.entry_of_walk split walked
      refine ⟨d, m, entry, World.shows_entry entry lost, ?_⟩
      cases node : w.tree.node (m :: d) with
      | none =>
        rw [walk_none dir node, if_pos rfl] at found
        obtain ⟨rfl, rfl⟩ := Walk.missing.inj found
        exact Or.inl ⟨rfl, rfl⟩
      | some x =>
        cases x with
        | link target => exact Or.inr ⟨target, rfl⟩
        | file bytes => rw [walk_name node (by simp), walk_nil] at found; cases found
        | dir => rw [walk_name node (by simp), walk_nil] at found; cases found

end Links

end Flinstone.Fs
