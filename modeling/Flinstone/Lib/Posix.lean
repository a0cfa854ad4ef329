import Flinstone.Lib.Resolve

/-! # Calls on the file system -/

namespace Flinstone.Lib
open List Option

def pathMax : Nat := 4096

/-- The places whose names are shorter than `pathMax`. -/
def Tree.within (t : Tree) : Tree where
  node l := if (spell l).length < pathMax then t.node l else none
  paths := t.paths.filter fun l => (spell l).length < pathMax
  mem_paths l := by
    rw [Finset.mem_filter, t.mem_paths]
    split_ifs with short
    · simp [short]
    · simp [short]
  root := by rw [if_pos (by decide), t.root]
  parent n l there := by
    split_ifs at there with short
    · rw [spell, length_append] at short
      rw [if_pos (lt_of_le_of_lt (Nat.le_add_right ..) short), t.parent n l there]
    · cases there

theorem Tree.node_within (t : Tree) (l : Loc) :
    t.within.node l = if (spell l).length < pathMax then t.node l else none := rfl

structure World where
  tree : Tree
  /-- `none` after the working directory has been removed. -/
  cwd : Option Loc
  maxLinks : Nat
  touched : List Loc
  cwd_dir : ∀ l, cwd = some l → tree.node l = some .dir

namespace World

def start (w : World) (path : Text) : Option Loc :=
  if path = [] then none else if path.head? = some '/' then some [] else w.cwd

def walkFrom (w : World) (path : Text) (cs : List Comp) : Walk :=
  match w.start path with
  | none => .failed
  | some l => walk w.tree w.maxLinks l cs

def lookup (w : World) (path : Text) : Walk := w.walkFrom path (steps path)

def entry (w : World) (path : Text) : Option (Loc × Name) :=
  match (comps path).getLast? with
  | some (.name n) =>
    match w.walkFrom path (comps path).dropLast with
    | .reached d _ => some (d, n)
    | _ => none
  | _ => none

/-- What `realpath` can see: it asks for each place by its name. -/
def within (w : World) : World where
  tree := w.tree.within
  cwd := w.cwd.filter fun l => (spell l).length < pathMax
  maxLinks := w.maxLinks
  touched := w.touched
  cwd_dir l here := by
    obtain ⟨was, short⟩ := filter_eq_some_iff.mp here
    rw [Tree.node_within, if_pos (of_decide_eq_true short), w.cwd_dir l was]

def realpath (w : World) (path : Text) : Option Text :=
  match w.within.lookup path with
  | .reached l _ => some (render l)
  | _ => none

def stat (w : World) (path : Text) : Option Node :=
  match w.lookup path with
  | .reached l _ => w.tree.node l
  | _ => none

/-- What `fopen(path, "r")` and `fread` give; a directory can be opened but not read. -/
def readFile (w : World) (path : Text) : Option Text :=
  match w.stat path with
  | some (.file bytes) => some bytes
  | some _ => some []
  | none => none

def put (w : World) (d : Loc) (n : Name) (x : Node) (home : w.tree.node d = some .dir)
    (flat : w.tree.node (n :: d) ≠ some .dir) : World where
  tree := w.tree.put d n x home flat
  cwd := w.cwd
  maxLinks := w.maxLinks
  touched := (n :: d) :: w.touched
  cwd_dir l here := by
    have dir := w.cwd_dir l here
    have other : l ≠ n :: d := fun same => flat (same ▸ dir)
    rw [Tree.node_put, if_neg other, dir]

variable {w : World} {d l : Loc} {n : Name} {x : Node} {t : Tree}

theorem put_sub (home : w.tree.node d = some .dir) (free : w.tree.node (n :: d) = none) :
    w.tree.Sub (w.put d n x home (by simp [free])).tree := by
  intro l y present
  have other : l ≠ n :: d := by
    rintro rfl
    rw [free] at present
    cases present
  rw [put, Tree.node_put, if_neg other, present]

theorem put_alike {old : Text}
    (file : w.tree.node (n :: d) = some (.file old)) (new : Text) (home : w.tree.node d = some .dir)
    (flat : w.tree.node (n :: d) ≠ some .dir) :
    w.tree.Alike (w.put d n (.file new) home flat).tree := by
  intro l
  rw [put, Tree.node_put]
  split_ifs with here
  · exact Or.inr ⟨old, new, by rw [here, file], rfl⟩
  · exact Or.inl rfl

def take (w : World) (n : Name) (d : Loc) (leaf : w.tree.Leaf (n :: d)) : World where
  tree := w.tree.remove n d leaf
  cwd := if w.cwd = some (n :: d) then none else w.cwd
  maxLinks := w.maxLinks
  touched := (n :: d) :: w.touched
  cwd_dir l here := by
    split_ifs at here with gone
    have other : l ≠ n :: d := fun same => gone (same ▸ here)
    rw [Tree.node_remove, if_neg other, w.cwd_dir l here]

def shift (w : World) (src : Loc) (n : Name) (d : Loc) (inner : src ≠ [])
    (home : w.tree.node d = some .dir) (apart : ¬ src <:+ n :: d)
    (flat : w.tree.Leaf (n :: d)) : World where
  tree := w.tree.move src n d inner home apart
  -- a process stays in its directory when that is renamed
  cwd := (w.cwd.filter (· ≠ n :: d)).map fun l => if src <:+ l then Tree.rebase src (n :: d) l else l
  maxLinks := w.maxLinks
  touched := src :: (n :: d) :: w.touched
  cwd_dir l here := by
    obtain ⟨old, kept, rfl⟩ := map_eq_some_iff.mp here
    obtain ⟨was, other⟩ := filter_eq_some_iff.mp kept
    have dir := w.cwd_dir old was
    by_cases below : src <:+ old
    · rw [if_pos below]
      obtain ⟨front, rfl⟩ := below
      rw [Tree.rebase_append, Tree.node_move_below, dir]
    · have outside : ¬ n :: d <:+ old := fun arrives =>
        of_decide_eq_true other (flat.eq_of_suffix (by rw [dir]; rfl) arrives)
      rw [if_neg below, Tree.node_move_other _ _ _ below outside, dir]

def mkdir (w : World) (path : Text) : Option World :=
  match w.entry path with
  | none => none
  | some (d, n) =>
    if free : w.tree.node d = some .dir ∧ w.tree.node (n :: d) = none then
      some (w.put d n .dir free.1 (by simp [free.2]))
    else none

def writeFile (w : World) (path : Text) (bytes : Text) : Option World :=
  match w.lookup path with
  | .reached (n :: d) _ | .missing d n =>
    if ready : w.tree.node d = some .dir ∧ w.tree.node (n :: d) ≠ some .dir then
      some (w.put d n (.file bytes) ready.1 ready.2)
    else none
  | _ => none

def truncate (w : World) : Loc → Option World
  | [] => none
  | n :: d =>
    if ready : w.tree.node d = some .dir ∧ w.tree.node (n :: d) ≠ some .dir then
      some (w.put d n (.file []) ready.1 ready.2)
    else none

def appendFile (w : World) (path : Text) (bytes : Text) : Option World :=
  w.writeFile path ((w.readFile path).getD [] ++ bytes)

def unlink (w : World) (path : Text) : Option World :=
  match w.entry path with
  | none => none
  | some (d, n) =>
    if ready : path.getLast? ≠ some '/' ∧ (w.tree.node (n :: d)).isSome ∧ w.tree.node (n :: d) ≠ some .dir then
      some (w.take n d (Tree.leaf_of_ne_dir ready.2.2))
    else none

def rmdir (w : World) (path : Text) : Option World :=
  match w.entry path with
  | none => none
  | some (d, n) =>
    if ready : w.tree.node (n :: d) = some .dir ∧ w.tree.Leaf (n :: d) then
      some (w.take n d ready.2)
    else none

def remove (w : World) (path : Text) : Option World := (w.unlink path).or (w.rmdir path)

def opendir (w : World) (path : Text) : Option Loc :=
  match w.lookup path with
  | .reached l _ => if w.tree.node l = some .dir then some l else none
  | _ => none

def chdir (w : World) (path : Text) : Option World :=
  match w.lookup path with
  | .reached l _ =>
    if dir : w.tree.node l = some .dir then
      some { w with cwd := some l, cwd_dir := fun _ here => some.inj here ▸ dir }
    else none
  | _ => none

def Replaceable (w : World) (x : Node) (dst : Loc) : Prop :=
  match w.tree.node dst with
  | none => True
  | some .dir => x = .dir ∧ w.tree.Leaf dst
  | some _ => x ≠ .dir

instance (w : World) (x : Node) (dst : Loc) : Decidable (w.Replaceable x dst) := by
  unfold Replaceable
  split <;> infer_instance

theorem Replaceable.leaf {dst : Loc} (ready : w.Replaceable x dst) : w.tree.Leaf dst := by
  by_cases dir : w.tree.node dst = some .dir
  · unfold Replaceable at ready
    rw [dir] at ready
    exact ready.2
  · exact Tree.leaf_of_ne_dir dir

def rename (w : World) (old new : Text) : Option World :=
  match w.entry old, w.entry new with
  | some (d, n), some (e, m) =>
    match w.tree.node (n :: d) with
    | none => none
    | some x =>
      if x ≠ .dir ∧ (old.getLast? = some '/' ∨ new.getLast? = some '/') then none
      else if n :: d = m :: e then some w
      else if ready : w.tree.node e = some .dir ∧ ¬ n :: d <:+ m :: e ∧ w.Replaceable x (m :: e) then
        some (w.shift (n :: d) m e (by simp) ready.1 ready.2.1 ready.2.2.leaf)
      else none
  | _, _ => none

/-! ## Walks along a part of a pathname -/

section Walks
variable {w : World} {path : Text}

theorem walkFrom_append (w : World) (path : Text) (xs ys : List Comp) :
    w.walkFrom path (xs ++ ys) = (w.walkFrom path xs).andThen w.tree ys := by
  unfold walkFrom
  cases w.start path with
  | none => rfl
  | some l => exact walk_append ..

variable {front : Text} {xs ys : List Comp} {e l d : Loc} {k : Nat}

theorem walkFrom_onward (w : World) (nonempty : front ≠ []) (more : Text) (cs : List Comp) :
    w.walkFrom (front ++ more) cs = w.walkFrom front cs := by
  have same : w.start (front ++ more) = w.start front := by
    cases front with
    | nil => exact absurd rfl nonempty
    | cons c front => rfl
  rw [walkFrom, same, walkFrom]

theorem walkFrom_absolute (w : World) (absolute : path.head? = some '/') (cs : List Comp) :
    w.walkFrom path cs = walk w.tree w.maxLinks [] cs := by
  have nonempty : path ≠ [] := by
    rintro rfl
    cases absolute
  rw [walkFrom, start, if_neg nonempty, if_pos absolute]

theorem walkFrom_slash (w : World) (nonempty : front ≠ []) (last : Text)
    (cs : List Comp) : w.walkFrom (front ++ '/' :: last) cs = w.walkFrom front cs :=
  w.walkFrom_onward nonempty _ cs

theorem walkFrom_reached_of_append (walked : w.walkFrom path (xs ++ ys) = .reached e k) :
    ∃ d m, w.walkFrom path xs = .reached d m ∧ walk w.tree m d ys = .reached e k := by
  rw [walkFrom_append] at walked
  cases found : w.walkFrom path xs with
  | reached d m =>
    rw [found] at walked
    exact ⟨d, m, rfl, walked⟩
  | missing d n =>
    rw [found, Walk.andThen] at walked
    split_ifs at walked
  | failed =>
    rw [found] at walked
    cases walked

theorem walkFrom_dir_of_append {c : Comp} (walked : w.walkFrom path (xs ++ c :: ys) ≠ .failed) :
    ∃ d k, w.walkFrom path xs = .reached d k ∧ w.tree.node d = some .dir := by
  rw [walkFrom_append] at walked
  cases found : w.walkFrom path xs with
  | reached d k =>
    refine ⟨d, k, rfl, ?_⟩
    by_contra other
    rw [found, Walk.andThen, walk_not_dir other] at walked
    exact walked rfl
  | missing d n =>
    rw [found, Walk.andThen, if_neg (by simp)] at walked
    exact absurd rfl walked
  | failed =>
    rw [found] at walked
    exact absurd rfl walked

theorem stat_of_reached (found : w.lookup path = .reached l k) : w.stat path = w.tree.node l := by
  rw [stat, found]

theorem lookup_dir (walked : w.walkFrom front (comps front) = .reached d k) (dir : w.tree.node d = some .dir) :
    w.lookup front = .reached d k := by
  rw [lookup]
  rcases steps_eq front with plain | slash
  · rw [plain, walked]
  · rw [slash, walkFrom_append, walked, Walk.andThen, walk_here dir, walk_nil]

theorem stat_dir (walked : w.walkFrom front (comps front) = .reached d k) (dir : w.tree.node d = some .dir) :
    w.stat front = some .dir := by
  rw [stat_of_reached (lookup_dir walked dir), dir]

theorem start_dir {s : Loc} (begins : w.start path = some s) : w.tree.node s = some .dir := by
  unfold start at begins
  split_ifs at begins
  · rw [← some.inj begins, w.tree.root]
  · exact w.cwd_dir s begins

theorem walkFrom_start {cs : List Comp} (walked : w.walkFrom path cs ≠ .failed) : ∃ s, w.start path = some s := by
  cases begins : w.start path with
  | none => rw [walkFrom, begins] at walked; exact absurd rfl walked
  | some s => exact ⟨s, rfl⟩

theorem walkFrom_reached {cs : List Comp} (walked : w.walkFrom path cs = .reached l k) :
    (w.tree.node l).isSome ∧ ∀ target, w.tree.node l ≠ some (.link target) := by
  obtain ⟨s, begins⟩ := walkFrom_start (by rw [walked]; simp)
  rw [walkFrom, begins] at walked
  refine walk_reached ?_ walked
  rw [start_dir begins]
  exact ⟨rfl, by simp⟩

theorem lookup_reached (found : w.lookup path = .reached l k) :
    (w.tree.node l).isSome ∧ ∀ target, w.tree.node l ≠ some (.link target) := walkFrom_reached found

theorem lookup_front (found : w.lookup front = .reached e k) : w.walkFrom front (comps front) = .reached e k := by
  rcases steps_eq front with plain | slash
  · rwa [lookup, plain] at found
  · rw [lookup, slash] at found
    obtain ⟨d, m, walked, last⟩ := walkFrom_reached_of_append found
    by_cases dir : w.tree.node d = some .dir
    · rw [walk_here dir, walk_nil] at last
      rw [walked, last]
    · rw [walk_not_dir dir] at last
      cases last

theorem lookup_missing {n : Name} (found : w.lookup path = .missing d n) :
    w.tree.node d = some .dir ∧ w.tree.node (n :: d) = none := by
  rw [lookup, walkFrom] at found
  cases begin' : w.start path with
  | none => rw [begin'] at found; cases found
  | some s =>
    rw [begin'] at found
    exact walk_missing found

theorem within_eq (short : ∀ l, (w.tree.node l).isSome → (spell l).length < pathMax) : w.within = w := by
  obtain ⟨tree, cwd, maxLinks, touched, cwd_dir⟩ := w
  rw [within, mk.injEq]
  refine ⟨Tree.ext fun l => ?_, ?_, rfl, rfl⟩
  · rw [Tree.node_within]
    split_ifs with fits
    · rfl
    · by_contra there
      exact fits (short l (isSome_iff_ne_none.mpr fun gone => there gone.symm))
  · cases cwd with
    | none => rfl
    | some l => rw [filter_some, if_pos (decide_eq_true (short l (by rw [cwd_dir l rfl]; rfl)))]

theorem lookup_alike {w' : World} (alike : w.tree.Alike w'.tree) (cwd : w'.cwd = w.cwd)
    (links : w'.maxLinks = w.maxLinks) (path : Text) : w'.lookup path = w.lookup path := by
  have same : w'.start path = w.start path := by rw [start, start, cwd]
  unfold lookup walkFrom
  rw [same, links]
  cases w.start path with
  | none => rfl
  | some l => exact walk_alike alike ..

theorem within_lookup_alike {w' : World} (alike : w.tree.Alike w'.tree) (cwd : w'.cwd = w.cwd)
    (links : w'.maxLinks = w.maxLinks) (path : Text) : w'.within.lookup path = w.within.lookup path := by
  have nearby : w'.within.cwd = w.within.cwd := by
    show w'.cwd.filter _ = w.cwd.filter _
    rw [cwd]
  refine lookup_alike (fun l => ?_) nearby links path
  show w'.tree.within.node l = w.tree.within.node l ∨ ∃ old new, w.tree.within.node l = _ ∧ w'.tree.within.node l = _
  rw [Tree.node_within, Tree.node_within]
  split_ifs
  · exact alike l
  · exact .inl rfl

def Shows (w : World) (path : Text) (e : Loc) : Prop :=
  ∃ front rest k, steps path = front ++ rest ∧ w.walkFrom path front = .reached e k ∧
    ∀ c ∈ rest.head?, ∀ l m, w.walkFrom path (front ++ [c]) ≠ .reached l m

theorem shows_of_reached (found : w.lookup path = .reached e k) : w.Shows path e :=
  ⟨steps path, [], k, by simp, found, by simp⟩

theorem Shows.unique (first : w.Shows path e) (second : w.Shows path l) : e = l := by
  -- the shorter of the two parts cannot be continued, so neither is shorter
  have longer : ∀ {f r g : List Comp} {e l : Loc} {k m : Nat}, w.walkFrom path f = .reached e k →
      w.walkFrom path (f ++ g) = .reached l m →
      (∀ c ∈ (g ++ r).head?, ∀ l m, w.walkFrom path (f ++ [c]) ≠ .reached l m) → e = l := by
    intro f r g e l k m walked further stuck
    cases g with
    | nil =>
      rw [append_nil, walked] at further
      exact (Walk.reached.inj further).1
    | cons c g =>
      rw [← singleton_append, ← append_assoc] at further
      obtain ⟨d, m, reached, _⟩ := walkFrom_reached_of_append further
      exact absurd reached (stuck c rfl d m)
  obtain ⟨f, r, k, split, walked, stuck⟩ := first
  obtain ⟨f', r', k', split', walked', stuck'⟩ := second
  rcases append_eq_append_iff.mp (split.symm.trans split') with ⟨g, rfl, rfl⟩ | ⟨g, rfl, rfl⟩
  · exact longer walked walked' stuck
  · exact (longer walked' walked stuck').symm

end Walks

/-! ## Canonical names -/

theorem walk_down (left : Nat) {base rel : Loc} (there : (t.node (rel ++ base)).isSome)
    (plain : ∀ target, t.node (rel ++ base) ≠ some (.link target)) :
    walk t left base (rel.reverse.map .name) = .reached (rel ++ base) left := by
  induction rel with
  | nil => exact walk_nil ..
  | cons n rel ih =>
    have dir : t.node (rel ++ base) = some .dir := t.parent n _ there
    rw [cons_append] at there plain ⊢
    obtain ⟨x, present⟩ := isSome_iff_exists.mp there
    rw [reverse_cons, map_append, walk_append, ih (by rw [dir]; rfl) (by rw [dir]; simp),
      Walk.andThen, map_singleton, walk_name present, walk_nil]
    rintro target rfl
    exact plain target present

theorem walk_names (left : Nat) (there : (t.node l).isSome) (plain : ∀ target, t.node l ≠ some (.link target)) :
    walk t left [] (l.reverse.map .name) = .reached l left := by
  rw [← append_nil l] at there plain
  rw [walk_down left there plain, append_nil]

theorem walk_names_dir (left : Nat) (dir : t.node l = some .dir) :
    walk t left [] (l.reverse.map .name) = .reached l left :=
  walk_names left (by rw [dir]; rfl) (by rw [dir]; simp)

theorem render_getLast : (render (n :: d)).getLast? ≠ some '/' := by
  rw [render, if_neg (by simp), spell, getLast?_append_of_ne_nil _ (by simp)]
  intro slash
  obtain ⟨c, rest, named⟩ := exists_cons_of_ne_nil n.property.1
  rw [named, getLast?_cons_cons, ← named] at slash
  exact n.property.2.1 (mem_of_getLast? slash)

theorem render_head (l : Loc) : (render l).head? = some '/' := by
  cases l with
  | nil => rfl
  | cons n d => rw [render, if_neg (by simp), spell_head (by simp)]

theorem steps_render (l : Loc) : steps (render l) = l.reverse.map .name ++ if l = [] then [.here] else [] := by
  rw [steps, comps_render]
  cases l with
  | nil => rfl
  | cons n d => rw [if_neg render_getLast, if_neg (by simp)]

theorem lookup_render (there : (w.tree.node l).isSome) (plain : ∀ target, w.tree.node l ≠ some (.link target)) :
    w.lookup (render l) = .reached l w.maxLinks := by
  rw [lookup, w.walkFrom_absolute (render_head l), steps_render, walk_append, walk_names _ there plain, Walk.andThen]
  split_ifs with root
  · subst root
    rw [walk_here w.tree.root, walk_nil]
  · exact walk_nil ..

/-! ## What the calls touch -/

section Calls
variable {w w' : World} {path : Text}
variable {d l : Loc} {n : Name} {k : Nat} {x : Node} {bytes : Text}

theorem entry_some (found : w.entry path = some (d, n)) :
    ∃ front k, comps path = front ++ [.name n] ∧ w.walkFrom path front = .reached d k := by
  unfold entry at found
  cases last : (comps path).getLast? with
  | none => rw [last] at found; cases found
  | some c =>
    rw [last] at found
    cases c with
    | here => cases found
    | up => cases found
    | name m =>
      cases walked : w.walkFrom path (comps path).dropLast with
      | missing d n => rw [walked] at found; cases found
      | failed => rw [walked] at found; cases found
      | reached e k =>
        rw [walked] at found
        obtain ⟨rfl, rfl⟩ := Prod.mk.inj (some.inj found)
        exact ⟨(comps path).dropLast, k, (dropLast_append_getLast? _ last).symm, walked⟩

theorem entry_of_walk {front : List Comp}
    (split : comps path = front ++ [.name n]) (walked : w.walkFrom path front = .reached d k) :
    w.entry path = some (d, n) := by
  unfold entry
  rw [split, getLast?_concat, dropLast_concat, walked]

theorem lookup_entry (found : w.entry path = some (d, n)) :
    ∃ k front rest, steps path = front ++ .name n :: rest ∧ w.walkFrom path front = .reached d k ∧
      w.lookup path = walk w.tree k d (.name n :: rest) ∧
      (rest = [] ∨ rest = [.here] ∧ path.getLast? = some '/') := by
  obtain ⟨front, k, split, walked⟩ := entry_some found
  have form : ∃ rest, steps path = front ++ .name n :: rest ∧
      (rest = [] ∨ rest = [.here] ∧ path.getLast? = some '/') := by
    unfold steps
    split_ifs with slash
    · exact ⟨[.here], by rw [split, ← append_cons], Or.inr ⟨rfl, slash⟩⟩
    · exact ⟨[], by rw [split, append_nil], Or.inl rfl⟩
  obtain ⟨rest, parts, last⟩ := form
  refine ⟨k, front, rest, parts, walked, ?_, last⟩
  rw [lookup, parts, walkFrom_append, walked, Walk.andThen]

theorem lookup_plain (found : w.entry path = some (d, n))
    (node : w.tree.node (n :: d) = some x) (plain : ∀ target, x ≠ .link target)
    (slash : x = .dir ∨ path.getLast? ≠ some '/') : ∃ k, w.lookup path = .reached (n :: d) k := by
  obtain ⟨k, front, rest, _, _, walked, last⟩ := lookup_entry found
  refine ⟨k, ?_⟩
  rw [walked, walk_name node plain]
  rcases last with rfl | ⟨rfl, ends⟩
  · exact walk_nil ..
  · have dir := slash.resolve_right (not_not.mpr ends)
    rw [walk_here (by rw [node, dir]), walk_nil]

theorem stat_entry_none (found : w.entry path = some (d, n))
    (free : w.tree.node (n :: d) = none) : w.stat path = none := by
  obtain ⟨k, front, rest, _, _, walked, _⟩ := lookup_entry found
  rw [stat, walked]
  by_cases dir : w.tree.node d = some .dir
  · rw [walk_none dir free]
    split_ifs <;> rfl
  · rw [walk_not_dir dir]

theorem shows_entry (found : w.entry path = some (d, n))
    (lost : ∀ l m, w.walkFrom path (comps path) ≠ .reached l m) : w.Shows path d := by
  obtain ⟨front, k, split, walked⟩ := entry_some found
  refine ⟨front, .name n :: (if path.getLast? = some '/' then [.here] else []), k, ?_, walked, ?_⟩
  · rw [steps, split, ← append_cons]
  · rintro c ⟨⟩
    rw [← split]
    exact lost

theorem shows_entry_of_none (found : w.entry path = some (d, n))
    (free : w.tree.node (n :: d) = none) : w.Shows path d := by
  refine shows_entry found fun l m reached => ?_
  obtain ⟨front, k, split, walked⟩ := entry_some found
  rw [split, walkFrom_append, walked, Walk.andThen] at reached
  by_cases dir : w.tree.node d = some .dir
  · rw [walk_none dir free, if_pos rfl] at reached
    cases reached
  · rw [walk_not_dir dir] at reached
    cases reached

theorem mkdir_some (made : w.mkdir path = some w') :
    ∃ (d : Loc) (n : Name) (home : w.tree.node d = some .dir) (free : w.tree.node (n :: d) = none),
      w.entry path = some (d, n) ∧ w' = w.put d n .dir home (by simp [free]) := by
  unfold mkdir at made
  cases found : w.entry path with
  | none => rw [found] at made; cases made
  | some place =>
    rw [found] at made
    dsimp only at made
    split_ifs at made with free
    exact ⟨place.1, place.2, free.1, free.2, rfl, (some.inj made).symm⟩

def MakesAt (w : World) (path : Text) (l : Loc) : Prop :=
  ∃ d n, w.entry path = some (d, n) ∧ w.tree.node d = some .dir ∧ w.tree.node (n :: d) = none ∧ l = n :: d

theorem mkdir_touches (made : w.mkdir path = some w') : ∃ l, w.MakesAt path l ∧ w'.touched = l :: w.touched := by
  obtain ⟨d, n, home, free, found, rfl⟩ := mkdir_some made
  exact ⟨n :: d, ⟨d, n, found, home, free, rfl⟩, rfl⟩

theorem MakesAt.mkdir (makes : w.MakesAt path l) : ∃ w', w.mkdir path = some w' ∧ w'.touched = l :: w.touched := by
  obtain ⟨d, n, found, home, free, rfl⟩ := makes
  unfold mkdir
  rw [found]
  dsimp only
  rw [dif_pos ⟨home, free⟩]
  exact ⟨_, rfl, rfl⟩

def OpensAt (w : World) (path : Text) (l : Loc) : Prop :=
  (∃ d n, w.lookup path = .missing d n ∧ l = n :: d) ∨
    ∃ k bytes, w.lookup path = .reached l k ∧ w.tree.node l = some (.file bytes)

theorem writeFile_some (written : w.writeFile path bytes = some w') :
    ∃ d n home flat, w.OpensAt path (n :: d) ∧ w' = w.put d n (.file bytes) home flat := by
  unfold writeFile at written
  cases found : w.lookup path with
  | failed => rw [found] at written; cases written
  | missing d n =>
    rw [found] at written
    dsimp only at written
    split_ifs at written with ready
    exact ⟨d, n, ready.1, ready.2, Or.inl ⟨d, n, found, rfl⟩, (some.inj written).symm⟩
  | reached l k =>
    rw [found] at written
    cases l with
    | nil => cases written
    | cons n d =>
      dsimp only at written
      split_ifs at written with ready
      obtain ⟨there, plain⟩ := lookup_reached found
      refine ⟨d, n, ready.1, ready.2, Or.inr ⟨k, ?_⟩, (some.inj written).symm⟩
      cases node : w.tree.node (n :: d) with
      | none => rw [node] at there; cases there
      | some x =>
        cases x with
        | file bytes => exact ⟨bytes, found, rfl⟩
        | dir => exact absurd node ready.2
        | link target => exact absurd node (plain target)

theorem writeFile_reached (found : w.lookup path = .reached (n :: d) k)
    (home : w.tree.node d = some .dir) (flat : w.tree.node (n :: d) ≠ some .dir) (bytes : Text) :
    w.writeFile path bytes = some (w.put d n (.file bytes) home flat) := by
  rw [writeFile, found]
  exact dif_pos ⟨home, flat⟩

theorem writeFile_opens (opens : w.OpensAt path (n :: d)) (home : w.tree.node d = some .dir)
    (flat : w.tree.node (n :: d) ≠ some .dir) (bytes : Text) :
    w.writeFile path bytes = some (w.put d n (.file bytes) home flat) := by
  rcases opens with ⟨e, m, found, same⟩ | ⟨k, old, found, -⟩
  · obtain ⟨rfl, rfl⟩ := cons.inj same
    rw [writeFile, found]
    exact dif_pos ⟨home, flat⟩
  · exact writeFile_reached found home flat bytes

theorem OpensAt.lookup_put (opens : w.OpensAt path (n :: d)) (home : w.tree.node d = some .dir)
    (flat : w.tree.node (n :: d) ≠ some .dir) (bytes : Text) :
    ∃ k, (w.put d n (.file bytes) home flat).lookup path = .reached (n :: d) k := by
  rcases opens with ⟨e, m, found, same⟩ | ⟨k, old, found, file⟩
  · obtain ⟨rfl, rfl⟩ := cons.inj same
    have free := (lookup_missing found).2
    rw [lookup, walkFrom] at found ⊢
    rw [show (w.put d n (.file bytes) home flat).start path = w.start path from rfl]
    cases begins : w.start path with
    | none => rw [begins] at found; cases found
    | some s =>
      rw [begins] at found
      exact walk_filled (put_sub home free) (x := .file bytes) (by rw [put, Tree.node_put, if_pos rfl]) (by simp) found
  · exact ⟨k, (lookup_alike (put_alike file bytes home flat) rfl rfl path).trans found⟩

theorem readFile_writeFile (written : w.writeFile path bytes = some w') : w'.readFile path = some bytes := by
  obtain ⟨d, n, home, flat, opens, rfl⟩ := writeFile_some written
  obtain ⟨k, found⟩ := opens.lookup_put home flat bytes
  rw [readFile, stat, found]
  simp only [put, Tree.node_put, if_true]

theorem writeFile_eq_none (refused : w.writeFile path bytes = none) (more : Text) : w.writeFile path more = none := by
  rw [eq_none_iff_forall_ne_some]
  intro w' written
  obtain ⟨d, n, home, flat, opens, -⟩ := writeFile_some written
  rw [writeFile_opens opens home flat] at refused
  cases refused

/-- Only the last text stays. -/
theorem writeFile_writeFile (written : w.writeFile path bytes = some w') (more : Text) :
    ∃ w₁ w₂, w.writeFile path more = some w₁ ∧ w'.writeFile path more = some w₂ ∧ w₂.tree = w₁.tree := by
  obtain ⟨d, n, home, flat, opens, rfl⟩ := writeFile_some written
  obtain ⟨k, found⟩ := opens.lookup_put home flat bytes
  have home' : (w.put d n (.file bytes) home flat).tree.node d = some .dir := by
    rw [put, Tree.node_put, if_neg (by simp), home]
  have flat' : (w.put d n (.file bytes) home flat).tree.node (n :: d) ≠ some .dir := by
    rw [put, Tree.node_put, if_pos rfl]
    simp
  refine ⟨_, _, writeFile_opens opens home flat more, writeFile_reached found home' flat' more, ?_⟩
  ext l
  simp only [put, Tree.node_put]
  split_ifs <;> rfl

theorem appendFile_stat {old : Text} (file : w.stat path = some (.file old)) (bytes : Text) :
    ∃ w', w.appendFile path bytes = some w' ∧ w'.stat path = some (.file (old ++ bytes)) := by
  have content : w.readFile path = some old := by rw [readFile, file]
  unfold stat at file
  cases found : w.lookup path with
  | failed => rw [found] at file; cases file
  | missing d n => rw [found] at file; cases file
  | reached l k =>
    rw [found] at file
    dsimp only at file
    cases l with
    | nil => rw [w.tree.root] at file; cases file
    | cons n d =>
      have home : w.tree.node d = some .dir := w.tree.parent n d (by rw [file]; rfl)
      have flat : w.tree.node (n :: d) ≠ some .dir := by rw [file]; simp
      rw [appendFile, content, getD_some]
      refine ⟨_, writeFile_reached found home flat _, ?_⟩
      rw [stat, lookup_alike (put_alike file _ home flat) rfl rfl, found]
      dsimp only
      rw [put, Tree.node_put, if_pos rfl]

theorem OpensAt.writeFile (opens : w.OpensAt path l) (bytes : Text) :
    ∃ w', w.writeFile path bytes = some w' ∧ w'.touched = l :: w.touched := by
  obtain ⟨n, d, rfl, home, flat⟩ : ∃ n d, l = n :: d ∧ w.tree.node d = some .dir ∧ w.tree.node l ≠ some .dir := by
    rcases opens with ⟨d, n, found, rfl⟩ | ⟨k, old, found, node⟩
    · obtain ⟨home, free⟩ := lookup_missing found
      exact ⟨n, d, rfl, home, by simp [free]⟩
    · cases l with
      | nil => rw [w.tree.root] at node; cases node
      | cons n d => exact ⟨n, d, rfl, w.tree.parent n d (by rw [node]; rfl), by simp [node]⟩
  exact ⟨_, writeFile_opens opens home flat bytes, rfl⟩

theorem unlink_some (removed : w.unlink path = some w') :
    ∃ d n leaf, w.entry path = some (d, n) ∧ (w.tree.node (n :: d)).isSome ∧
      w.tree.node (n :: d) ≠ some .dir ∧ path.getLast? ≠ some '/' ∧ w' = w.take n d leaf := by
  unfold unlink at removed
  cases found : w.entry path with
  | none => rw [found] at removed; cases removed
  | some place =>
    rw [found] at removed
    dsimp only at removed
    split_ifs at removed with ready
    exact ⟨place.1, place.2, Tree.leaf_of_ne_dir ready.2.2, rfl, ready.2.1, ready.2.2, ready.1,
      (some.inj removed).symm⟩

theorem unlink_entry (found : w.entry path = some (d, n))
    (node : w.tree.node (n :: d) = some x) (other : x ≠ .dir) (plain : path.getLast? ≠ some '/')
    (leaf : w.tree.Leaf (n :: d)) : w.unlink path = some (w.take n d leaf) := by
  rw [unlink, found]
  exact dif_pos ⟨plain, by rw [node]; rfl, by simpa [node] using other⟩

theorem rmdir_entry (found : w.entry path = some (d, n))
    (node : w.tree.node (n :: d) = some .dir) (leaf : w.tree.Leaf (n :: d)) :
    w.rmdir path = some (w.take n d leaf) := by
  rw [rmdir, found]
  exact dif_pos ⟨node, leaf⟩

theorem rmdir_some (removed : w.rmdir path = some w') :
    ∃ d n leaf, w.entry path = some (d, n) ∧ w.tree.node (n :: d) = some .dir ∧ w' = w.take n d leaf := by
  unfold rmdir at removed
  cases found : w.entry path with
  | none => rw [found] at removed; cases removed
  | some place =>
    rw [found] at removed
    dsimp only at removed
    split_ifs at removed with ready
    exact ⟨place.1, place.2, ready.2, rfl, ready.1, (some.inj removed).symm⟩

section Rename
variable {new : Text} {d e : Loc} {n m : Name} {x : Node} (found : w.entry path = some (d, n))
  (node : w.tree.node (n :: d) = some x)
  (plain : x ≠ .dir → path.getLast? ≠ some '/' ∧ new.getLast? ≠ some '/')
include found node plain

theorem rename_onto (found' : w.entry new = some (e, m)) (home : w.tree.node e = some .dir)
    (ready : w.Replaceable x (m :: e)) (apart : ¬ n :: d <:+ m :: e) :
    ∃ inner leaf, w.rename path new = some (w.shift (n :: d) m e inner home apart leaf) := by
  have other : n :: d ≠ m :: e := fun same => apart (same ▸ suffix_rfl)
  refine ⟨by simp, ready.leaf, ?_⟩
  rw [rename, found, found']
  dsimp only
  rw [node]
  dsimp only
  rw [if_neg fun slash => slash.2.elim (plain slash.1).1 (plain slash.1).2, if_neg other, dif_pos ⟨home, apart, ready⟩]

theorem rename_free (found' : w.entry new = some (e, m)) (home : w.tree.node e = some .dir)
    (free : w.tree.node (m :: e) = none) (apart : ¬ n :: d <:+ m :: e) :
    ∃ inner leaf, w.rename path new = some (w.shift (n :: d) m e inner home apart leaf) := by
  have ready : w.Replaceable x (m :: e) := by
    unfold Replaceable
    rw [free]
    trivial
  exact rename_onto found node plain found' home ready apart

end Rename

theorem rename_some {new : Text} (renamed : w.rename path new = some w') :
    ∃ d n e m x, w.entry path = some (d, n) ∧ w.entry new = some (e, m) ∧ w.tree.node (n :: d) = some x ∧
      (x ≠ .dir → path.getLast? ≠ some '/' ∧ new.getLast? ≠ some '/') ∧
      if n :: d = m :: e then w' = w
      else w.Replaceable x (m :: e) ∧ ∃ inner home apart leaf, w' = w.shift (n :: d) m e inner home apart leaf := by
  unfold rename at renamed
  cases found : w.entry path with
  | none => rw [found] at renamed; cases renamed
  | some place =>
    cases found' : w.entry new with
    | none => rw [found, found'] at renamed; cases renamed
    | some place' =>
      rw [found, found'] at renamed
      dsimp only at renamed
      cases node : w.tree.node (place.2 :: place.1) with
      | none => rw [node] at renamed; cases renamed
      | some x =>
        rw [node] at renamed
        dsimp only at renamed
        refine ⟨place.1, place.2, place'.1, place'.2, x, rfl, rfl, node, ?_⟩
        split_ifs at renamed with slash same ready
        · rw [not_and, not_or] at slash
          refine ⟨slash, ?_⟩
          rw [if_pos same]
          exact (some.inj renamed).symm
        · rw [not_and, not_or] at slash
          refine ⟨slash, ?_⟩
          rw [if_neg same]
          exact ⟨ready.2.2, by simp, ready.1, ready.2.1, ready.2.2.leaf, (some.inj renamed).symm⟩

end Calls

end World

end Flinstone.Lib
