import Flinstone.Lib.Path

/-! # Pathname resolution -/

namespace Flinstone.Lib
open List

/-- At a node, with the links it may still follow; at an entry that `d` does not have; or with an error. -/
inductive Walk
  | reached (l : Loc) (left : Nat)
  | missing (d : Loc) (n : Name)
  | failed
deriving DecidableEq

def origin (target : Text) (l : Loc) : Loc := if target.head? = some '/' then [] else l

def walkWith (t : Tree) (left : Nat) (jump : Loc → Text → List Comp → Walk) : Loc → List Comp → Walk
  | l, [] => .reached l left
  | l, c :: cs =>
    if t.node l ≠ some .dir then .failed
    else match c with
      | .here => walkWith t left jump l cs
      | .up => walkWith t left jump l.tail cs
      | .name n =>
        match t.node (n :: l) with
        | none => if cs = [] then .missing l n else .failed
        | some (.link target) => jump l target cs
        | some _ => walkWith t left jump (n :: l) cs

def walk (t : Tree) : Nat → Loc → List Comp → Walk
  | 0 => walkWith t 0 fun _ _ _ => .failed
  | left + 1 => walkWith t (left + 1) fun l target cs => walk t left (origin target l) (steps target ++ cs)

def Walk.andThen (t : Tree) (cs : List Comp) : Walk → Walk
  | .reached l left => walk t left l cs
  | .missing d n => if cs = [] then .missing d n else .failed
  | .failed => .failed

def follow (t : Tree) (left : Nat) (l : Loc) (target : Text) (cs : List Comp) : Walk :=
  match left with
  | 0 => .failed
  | left + 1 => walk t left (origin target l) (steps target ++ cs)

section Steps
variable {t : Tree} {left : Nat} {l : Loc} {cs : List Comp}

@[simp] theorem walk_nil (t : Tree) (left : Nat) (l : Loc) : walk t left l [] = .reached l left := by
  cases left <;> rfl

theorem walk_not_dir {c : Comp} (other : t.node l ≠ some .dir) : walk t left l (c :: cs) = .failed := by
  cases left <;> simp [walk, walkWith, other]

theorem walk_here (dir : t.node l = some .dir) : walk t left l (.here :: cs) = walk t left l cs := by
  cases left <;> simp [walk, walkWith, dir]

theorem walk_up (dir : t.node l = some .dir) : walk t left l (.up :: cs) = walk t left l.tail cs := by
  cases left <;> simp [walk, walkWith, dir]

theorem walk_none {n : Name} (dir : t.node l = some .dir) (absent : t.node (n :: l) = none) :
    walk t left l (.name n :: cs) = if cs = [] then .missing l n else .failed := by
  cases left <;> simp [walk, walkWith, dir, absent]

theorem walk_link {n : Name} {target : Text} (linked : t.node (n :: l) = some (.link target)) :
    walk t left l (.name n :: cs) = follow t left l target cs := by
  have dir := t.parent n l (by rw [linked]; rfl)
  cases left <;> simp [walk, walkWith, dir, linked, follow]

theorem walk_name {n : Name} {x : Node} (present : t.node (n :: l) = some x)
    (plain : ∀ target, x ≠ .link target) : walk t left l (.name n :: cs) = walk t left (n :: l) cs := by
  have dir := t.parent n l (by rw [present]; rfl)
  cases x with
  | link target => exact absurd rfl (plain target)
  | file bytes => cases left <;> simp [walk, walkWith, dir, present]
  | dir => cases left <;> simp [walk, walkWith, dir, present]

end Steps

variable {t u : Tree} {left rest : Nat} {l d e : Loc} {n : Name} {cs : List Comp}

/-- Induction along a walk: one case for each thing a component can do. -/
theorem walk_induction {P : Nat → Loc → List Comp → Prop} (nil : ∀ left l, P left l [])
    (notDir : ∀ left l c cs, t.node l ≠ some .dir → P left l (c :: cs))
    (here : ∀ left l cs, t.node l = some .dir → P left l cs → P left l (.here :: cs))
    (up : ∀ left l cs, t.node l = some .dir → P left l.tail cs → P left l (.up :: cs))
    (absent : ∀ left l n cs, t.node l = some .dir → t.node (n :: l) = none → P left l (.name n :: cs))
    (link : ∀ left l n target cs, t.node (n :: l) = some (.link target) →
      (∀ fewer, left = fewer + 1 → P fewer (origin target l) (steps target ++ cs)) →
      P left l (.name n :: cs))
    (plain : ∀ left l n x cs, t.node (n :: l) = some x → (∀ target, x ≠ .link target) →
      P left (n :: l) cs → P left l (.name n :: cs)) (left : Nat) (l : Loc) (cs : List Comp) :
    P left l cs := by
  induction left using Nat.strong_induction_on generalizing l cs with
  | _ left fewer =>
    induction cs generalizing l with
    | nil => exact nil left l
    | cons c cs ih =>
      by_cases dir : t.node l = some .dir
      · cases c with
        | here => exact here left l cs dir (ih l)
        | up => exact up left l cs dir (ih l.tail)
        | name n =>
          cases found : t.node (n :: l) with
          | none => exact absent left l n cs dir found
          | some x =>
            cases x with
            | link target =>
              refine link left l n target cs found fun less same => ?_
              exact fewer less (by omega) _ _
            | file bytes => exact plain left l n _ cs found (by simp) (ih _)
            | dir => exact plain left l n _ cs found (by simp) (ih _)
      · exact notDir left l c cs dir

theorem walk_append (t : Tree) (left : Nat) (l : Loc) (xs ys : List Comp) :
    walk t left l (xs ++ ys) = (walk t left l xs).andThen t ys := by
  induction left, l, xs using walk_induction (t := t) with
  | nil left l => rw [walk_nil, nil_append, Walk.andThen]
  | notDir left l c cs other => rw [cons_append, walk_not_dir other, walk_not_dir other, Walk.andThen]
  | here left l cs dir ih => rw [cons_append, walk_here dir, walk_here dir, ih]
  | up left l cs dir ih => rw [cons_append, walk_up dir, walk_up dir, ih]
  | absent left l n cs dir gone =>
    rw [cons_append, walk_none dir gone, walk_none dir gone]
    cases cs with
    | nil => rw [nil_append, if_pos rfl, Walk.andThen]
    | cons c cs => rfl
  | link left l n target cs linked ih =>
    rw [cons_append, walk_link linked, walk_link linked]
    cases left with
    | zero => rfl
    | succ fewer =>
      rw [follow, follow, ← ih fewer rfl, append_assoc]
  | plain left l n x cs present plain ih =>
    rw [cons_append, walk_name present plain, walk_name present plain, ih]

theorem walk_missing (walked : walk t left l cs = .missing d n) : t.node d = some .dir ∧ t.node (n :: d) = none := by
  induction left, l, cs using walk_induction (t := t) with
  | nil left l => rw [walk_nil] at walked; cases walked
  | notDir left l c cs other => rw [walk_not_dir other] at walked; cases walked
  | here left l cs dir ih => rw [walk_here dir] at walked; exact ih walked
  | up left l cs dir ih => rw [walk_up dir] at walked; exact ih walked
  | absent left l m cs dir gone =>
    rw [walk_none dir gone] at walked
    split_ifs at walked
    obtain ⟨rfl, rfl⟩ := Walk.missing.inj walked
    exact ⟨dir, gone⟩
  | link left l m target cs linked ih =>
    rw [walk_link linked] at walked
    cases left with
    | zero => cases walked
    | succ fewer => exact ih fewer rfl walked
  | plain left l m x cs present plain ih => rw [walk_name present plain] at walked; exact ih walked

theorem walk_reached (there : (t.node l).isSome ∧ ∀ target, t.node l ≠ some (.link target))
    (walked : walk t left l cs = .reached e rest) :
    (t.node e).isSome ∧ ∀ target, t.node e ≠ some (.link target) := by
  have root : (t.node []).isSome ∧ ∀ target, t.node [] ≠ some (.link target) := by
    rw [t.root]
    exact ⟨rfl, by simp⟩
  induction left, l, cs using walk_induction (t := t) with
  | nil left l =>
    rw [walk_nil] at walked
    obtain ⟨rfl, rfl⟩ := Walk.reached.inj walked
    exact there
  | notDir left l c cs other => rw [walk_not_dir other] at walked; cases walked
  | here left l cs dir ih => rw [walk_here dir] at walked; exact ih there walked
  | up left l cs dir ih =>
    rw [walk_up dir] at walked
    refine ih ?_ walked
    cases l with
    | nil => exact root
    | cons n above =>
      rw [tail_cons, t.parent n above there.1]
      exact ⟨rfl, by simp⟩
  | absent left l m cs dir gone =>
    rw [walk_none dir gone] at walked
    split_ifs at walked
  | link left l m target cs linked ih =>
    rw [walk_link linked] at walked
    cases left with
    | zero => cases walked
    | succ fewer =>
      refine ih fewer rfl ?_ walked
      unfold origin
      split_ifs
      · exact root
      · rw [t.parent m l (by rw [linked]; rfl)]
        exact ⟨rfl, by simp⟩
  | plain left l m x cs present plain ih =>
    rw [walk_name present plain] at walked
    refine ih ⟨by rw [present]; rfl, fun target linked => ?_⟩ walked
    exact plain target (Option.some.inj (present.symm.trans linked))

def Tree.Sub (t u : Tree) : Prop := ∀ l x, t.node l = some x → u.node l = some x

theorem walk_mono (sub : t.Sub u)
    (walked : walk t left l cs = .reached e rest) : walk u left l cs = .reached e rest := by
  induction left, l, cs using walk_induction (t := t) with
  | nil left l => rwa [walk_nil] at walked ⊢
  | notDir left l c cs other => rw [walk_not_dir other] at walked; cases walked
  | here left l cs dir ih =>
    rw [walk_here dir] at walked
    rw [walk_here (sub _ _ dir), ih walked]
  | up left l cs dir ih =>
    rw [walk_up dir] at walked
    rw [walk_up (sub _ _ dir), ih walked]
  | absent left l m cs dir gone =>
    rw [walk_none dir gone] at walked
    split_ifs at walked
  | link left l m target cs linked ih =>
    rw [walk_link linked] at walked
    rw [walk_link (sub _ _ linked)]
    cases left with
    | zero => cases walked
    | succ fewer => exact ih fewer rfl walked
  | plain left l m x cs present plain ih =>
    rw [walk_name present plain] at walked
    rw [walk_name (sub _ _ present) plain, ih walked]

theorem walk_filled (sub : t.Sub u) {x : Node} (filled : u.node (n :: d) = some x) (plain : ∀ target, x ≠ .link target)
    (walked : walk t left l cs = .missing d n) : ∃ k, walk u left l cs = .reached (n :: d) k := by
  induction left, l, cs using walk_induction (t := t) with
  | nil left l => rw [walk_nil] at walked; cases walked
  | notDir left l c cs other => rw [walk_not_dir other] at walked; cases walked
  | here left l cs dir ih =>
    rw [walk_here dir] at walked
    rw [walk_here (sub _ _ dir)]
    exact ih walked
  | up left l cs dir ih =>
    rw [walk_up dir] at walked
    rw [walk_up (sub _ _ dir)]
    exact ih walked
  | absent left l m cs dir gone =>
    rw [walk_none dir gone] at walked
    split_ifs at walked with last
    obtain ⟨rfl, rfl⟩ := Walk.missing.inj walked
    exact ⟨left, by rw [walk_name filled plain, last, walk_nil]⟩
  | link left l m target cs linked ih =>
    rw [walk_link linked] at walked
    rw [walk_link (sub _ _ linked)]
    cases left with
    | zero => cases walked
    | succ fewer => exact ih fewer rfl walked
  | plain left l m y cs present other ih =>
    rw [walk_name present other] at walked
    rw [walk_name (sub _ _ present) other]
    exact ih walked

def Tree.Alike (t u : Tree) : Prop :=
  ∀ l, u.node l = t.node l ∨ ∃ old new, t.node l = some (.file old) ∧ u.node l = some (.file new)

theorem Tree.Alike.node (alike : t.Alike u) (other : ∀ bytes, t.node l ≠ some (.file bytes)) : u.node l = t.node l := by
  rcases alike l with same | ⟨old, new, file, _⟩
  · exact same
  · exact absurd file (other old)

theorem walk_alike (alike : t.Alike u) (left : Nat) (l : Loc) (cs : List Comp) :
    walk u left l cs = walk t left l cs := by
  induction left, l, cs using walk_induction (t := t) with
  | nil left l => rw [walk_nil, walk_nil]
  | notDir left l c cs other =>
    have other' : u.node l ≠ some .dir := by
      rcases alike l with same | ⟨old, new, _, file⟩
      · rwa [same]
      · rw [file]; simp
    rw [walk_not_dir other, walk_not_dir other']
  | here left l cs dir ih =>
    rw [walk_here dir, walk_here ((alike.node (by simp [dir])).trans dir), ih]
  | up left l cs dir ih =>
    rw [walk_up dir, walk_up ((alike.node (by simp [dir])).trans dir), ih]
  | absent left l m cs dir gone =>
    rw [walk_none dir gone, walk_none ((alike.node (by simp [dir])).trans dir)
      ((alike.node (by simp [gone])).trans gone)]
  | link left l m target cs linked ih =>
    rw [walk_link linked, walk_link ((alike.node (by simp [linked])).trans linked)]
    cases left with
    | zero => rfl
    | succ fewer => exact ih fewer rfl
  | plain left l m x cs present plain ih =>
    rw [walk_name present plain, ← ih]
    rcases alike (m :: l) with same | ⟨old, new, _, file⟩
    · exact walk_name (same.trans present) plain
    · exact walk_name file (by simp)

end Flinstone.Lib
