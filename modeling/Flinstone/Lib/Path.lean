import Flinstone.Lib.FileTree

/-! # Pathnames -/

namespace Flinstone.Lib
open List Option

inductive Comp
  | here
  | up
  | name (n : Name)
deriving DecidableEq

def comp (s : Text) : Option Comp :=
  if here : s = ['.'] then some .here
  else if up : s = ['.', '.'] then some .up
  else if plain : s ≠ [] ∧ '/' ∉ s then some (.name ⟨s, plain.1, plain.2, here, up⟩)
  else none

def comps (path : Text) : List Comp := (path.splitOnP (· = '/')).filterMap comp

def steps (path : Text) : List Comp := comps path ++ if path.getLast? = some '/' then [.here] else []

def cutLast (c : Char) : Text → Option Text
  | [] => none
  | x :: s =>
    match cutLast c s with
    | some front => some (x :: front)
    | none => if x = c then some [] else none

def spell : Loc → Text
  | [] => []
  | n :: l => spell l ++ '/' :: n.val

def render (l : Loc) : Text := if l = [] then ['/'] else spell l

variable {c : Char} {s front path rest : Text} {l : Loc}

theorem cutLast_eq_none : cutLast c s = none ↔ c ∉ s := by
  induction s with
  | nil => simp [cutLast]
  | cons x s ih =>
    rw [cutLast, mem_cons, not_or, ← ih]
    cases cutLast c s with
    | some front => simp
    | none => simp [eq_comm]

theorem cutLast_some (cut : cutLast c s = some front) : ∃ last, s = front ++ c :: last ∧ c ∉ last := by
  induction s generalizing front with
  | nil => cases cut
  | cons x s ih =>
    rw [cutLast] at cut
    cases below : cutLast c s with
    | some deeper =>
      rw [below] at cut
      obtain ⟨last, rfl, free⟩ := ih below
      exact ⟨last, by rw [← some.inj cut]; rfl, free⟩
    | none =>
      rw [below] at cut
      split_ifs at cut with here
      obtain rfl := some.inj cut
      exact ⟨s, by rw [here]; rfl, cutLast_eq_none.mp below⟩

theorem cutLast_take {m : Nat} (cut : cutLast c (s.take m) = some front) :
    (∃ rest, s = front ++ c :: rest) ∧ front.length < m := by
  obtain ⟨last, same, _⟩ := cutLast_some cut
  refine ⟨⟨last ++ s.drop m, ?_⟩, ?_⟩
  · rw [← cons_append, ← append_assoc, ← same, take_append_drop]
  · have size := congrArg length same
    rw [length_take, length_append, length_cons] at size
    omega

@[simp] theorem comp_nil : comp [] = none := rfl

theorem comp_name (n : Name) : comp n.val = some (.name n) := by
  obtain ⟨s, nonempty, free, here, up⟩ := n
  simp [comp, nonempty, free, here, up]

@[simp] theorem comps_nil : comps [] = [] := by simp [comps]

theorem comps_slash (front last : Text) : comps (front ++ '/' :: last) = comps front ++ comps last := by
  rw [comps, splitOnP_append_cons _ _ (by decide), filterMap_append]
  rfl

theorem comps_plain (free : '/' ∉ s) : comps s = (comp s).toList := by
  rw [comps, splitOnP_eq_singleton]
  · cases found : comp s <;> simp [found]
  · intro c member
    exact decide_eq_false fun same => free (same ▸ member)

theorem comp_isSome (free : '/' ∉ s) (nonempty : s ≠ []) : (comp s).isSome := by
  unfold comp
  split_ifs <;> simp_all

def lastComp (last : Text) : Comp := (comp last).getD .here

theorem steps_slash (front : Text) {last : Text} (free : '/' ∉ last) :
    steps (front ++ '/' :: last) = comps front ++ [lastComp last] := by
  rw [steps, comps_slash, comps_plain free, append_assoc, append_cancel_left_eq, lastComp]
  cases last with
  | nil => simp
  | cons c rest =>
    obtain ⟨single, found⟩ := isSome_iff_exists.mp (comp_isSome free (cons_ne_nil c rest))
    have plain : (front ++ '/' :: c :: rest).getLast? ≠ some '/' := by
      rw [getLast?_append_of_ne_nil _ (by simp), getLast?_cons_cons]
      exact fun slash => free (mem_of_getLast? slash)
    rw [if_neg plain, found]
    rfl

theorem steps_eq (path : Text) : steps path = comps path ∨ steps path = comps path ++ [.here] := by
  unfold steps
  split_ifs
  · exact Or.inr rfl
  · exact Or.inl (append_nil _)

theorem steps_join (front : Text) (nonempty : path ≠ []) :
    steps (front ++ '/' :: path) = comps front ++ steps path := by
  have last : (front ++ '/' :: path).getLast? = path.getLast? := by
    rw [getLast?_append_of_ne_nil _ (by simp)]
    cases path with
    | nil => exact absurd rfl nonempty
    | cons c rest => rw [getLast?_cons_cons]
  rw [steps, comps_slash, last, append_assoc]
  rfl

theorem steps_front (front rest : Text) : ∃ c cs, steps (front ++ '/' :: rest) = comps front ++ c :: cs := by
  cases cut : cutLast '/' rest with
  | none => exact ⟨_, [], steps_slash front (cutLast_eq_none.mp cut)⟩
  | some mid =>
    obtain ⟨last, rfl, free⟩ := cutLast_some cut
    have parts : steps (front ++ '/' :: (mid ++ '/' :: last)) = comps front ++ (comps mid ++ [lastComp last]) := by
      rw [← cons_append, ← append_assoc, steps_slash _ free, comps_slash, append_assoc]
    rw [parts]
    cases comps mid with
    | nil => exact ⟨_, _, rfl⟩
    | cons c cs => exact ⟨_, _, rfl⟩

theorem comps_below (front : Text) (l : Loc) : comps (front ++ spell l) = comps front ++ l.reverse.map .name := by
  induction l with
  | nil => simp [spell]
  | cons n l ih =>
    rw [spell, ← append_assoc, comps_slash, ih, comps_plain n.property.2.1, comp_name]
    simp

theorem comps_spell (l : Loc) : comps (spell l) = l.reverse.map .name := comps_below [] l

theorem names_injective : Function.Injective fun l : Loc => l.reverse.map Comp.name := by
  intro l m same
  exact reverse_injective ((map_injective_iff.mpr fun _ _ => Comp.name.inj) same)

theorem spell_injective : Function.Injective spell := by
  intro l m same
  apply names_injective
  dsimp only
  rw [← comps_spell, ← comps_spell, same]

@[simp] theorem comps_render (l : Loc) : comps (render l) = l.reverse.map .name := by
  unfold render
  split_ifs with root
  · subst root
    rfl
  · exact comps_spell l

theorem spell_append (front l : Loc) : spell (front ++ l) = spell l ++ spell front := by
  induction front with
  | nil => simp [spell]
  | cons n front ih => rw [cons_append, spell, ih, spell, append_assoc]

theorem spell_head (inner : l ≠ []) : (spell l).head? = some '/' := by
  induction l with
  | nil => exact absurd rfl inner
  | cons n l ih =>
    rw [spell, head?_append]
    cases l with
    | nil => rfl
    | cons m l => rw [ih (by simp)]; rfl

theorem suffix_of_spell {r : Loc} (same : spell l = spell r ++ rest)
    (border : rest = [] ∨ rest.head? = some '/') : r <:+ l := by
  have names : ∃ more, comps (spell l) = comps (spell r) ++ more := by
    rw [same]
    cases rest with
    | nil => exact ⟨[], by simp⟩
    | cons c rest =>
      have slash : c = '/' := by simpa using border
      exact ⟨comps rest, by rw [slash, comps_slash]⟩
  obtain ⟨more, names⟩ := names
  rw [comps_spell, comps_spell] at names
  have first : r.reverse.map Comp.name <+: l.reverse.map Comp.name := ⟨more, names.symm⟩
  rw [← reverse_prefix]
  exact (prefix_map_iff_of_injective fun _ _ => Comp.name.inj).mp first

theorem spell_cut (cut : spell l = front ++ rest)
    (border : rest = [] ∨ rest.head? = some '/') : ∃ r, front = spell r ∧ r <:+ l := by
  induction l generalizing rest with
  | nil =>
    have empty : front = [] := (append_eq_nil_iff.mp cut.symm).1
    exact ⟨[], empty, suffix_refl []⟩
  | cons n l ih =>
    rcases border with rfl | slash
    · exact ⟨n :: l, by rw [cut, append_nil], suffix_refl _⟩
    · rcases append_eq_append_iff.mp cut with ⟨more, longer, tail⟩ | ⟨more, shorter, rfl⟩
      · -- the slash that follows would be in the name
        cases more with
        | nil =>
          rw [append_nil] at longer
          exact ⟨l, longer, suffix_cons n l⟩
        | cons c more =>
          obtain ⟨rfl, inside⟩ := cons.inj tail
          have found : '/' ∈ n.val := by
            rw [inside]
            exact mem_append_right more (mem_of_head? slash)
          exact absurd found n.property.2.1
      · have border : more = [] ∨ more.head? = some '/' := by
          cases more with
          | nil => exact .inl rfl
          | cons c more => exact .inr slash
        obtain ⟨r, same, below⟩ := ih shorter border
        exact ⟨r, same, below.trans (suffix_cons n l)⟩

end Flinstone.Lib
