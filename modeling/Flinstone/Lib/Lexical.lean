import Flinstone.Lib.Linkless

/-! # Pathnames as text -/

namespace Flinstone.Lib
open List Option

def Comp.text : Comp → Text
  | .here => ['.']
  | .up => ['.', '.']
  | .name n => n.val

def texts (l : List Name) : List Text := l.map fun n => n.val

@[simp] theorem texts_nil : texts [] = [] := rfl

@[simp] theorem texts_cons (n : Name) (l : List Name) : texts (n :: l) = n.val :: texts l := rfl

@[simp] theorem length_texts (l : List Name) : (texts l).length = l.length := length_map _

variable {s : Text} {l : Loc}

theorem comp_text {c : Comp} (found : comp s = some c) : c.text = s := by
  unfold comp at found
  split_ifs at found with here up plain
  · rw [← some.inj found, here]
    rfl
  · rw [← some.inj found, up]
    rfl
  · rw [← some.inj found]
    rfl

theorem texts_plain (free : '/' ∉ s) : (s.splitOnP (· = '/')).filter (· ≠ []) = (comps s).map Comp.text := by
  have single : s.splitOnP (· = '/') = [s] := by
    apply splitOnP_eq_singleton
    intro c member
    exact decide_eq_false fun same => free (same ▸ member)
  rw [single, comps_plain free]
  by_cases empty : s = []
  · simp [empty]
  · obtain ⟨c, found⟩ := isSome_iff_exists.mp (comp_isSome free empty)
    simp [found, comp_text found, empty]

theorem comps_texts (s : Text) : (s.splitOnP (· = '/')).filter (· ≠ []) = (comps s).map Comp.text := by
  induction s using cut_induction (c := '/') with
  | plain s free => exact texts_plain free
  | line front rest free ih =>
    rw [splitOnP_append_cons _ _ (by decide), filter_append, texts_plain free, ih, comps_slash, map_append]

def Comp.size : Comp → Nat
  | .name n => n.val.length + 1
  | _ => 0

theorem comps_size (s : Text) : ((comps s).map Comp.size).sum ≤ s.length + 1 := by
  have plain {s : Text} (free : '/' ∉ s) : ((comps s).map Comp.size).sum ≤ s.length + 1 := by
    rw [comps_plain free]
    cases found : comp s with
    | none => simp
    | some c =>
      have text := comp_text found
      cases c with
      | here => simp [Comp.size]
      | up => simp [Comp.size]
      | name n => simp [Comp.size, ← text, Comp.text]
  induction s using cut_induction (c := '/') with
  | plain s free => exact plain free
  | line front rest free ih =>
    rw [comps_slash, map_append, sum_append, length_append, length_cons]
    have first := plain free
    omega

theorem spell_cons_length (n : Name) (l : Loc) : (spell (n :: l)).length = (spell l).length + (n.val.length + 1) := by
  rw [spell, length_append, length_cons]

theorem spell_length_mono {m : Loc} (below : l <:+ m) : (spell l).length ≤ (spell m).length := by
  obtain ⟨front, rfl⟩ := below
  rw [spell_append, length_append]
  exact Nat.le_add_right _ _

theorem locate_size (l : Loc) (cs : List Comp) :
    (spell (locate l cs)).length ≤ (spell l).length + (cs.map Comp.size).sum := by
  induction cs generalizing l with
  | nil => exact le_refl _
  | cons c cs ih =>
    rw [map_cons, sum_cons]
    cases c with
    | here =>
      have rest := ih l
      simp only [Comp.size, locate_here]
      omega
    | up =>
      have rest := ih l.tail
      have shorter := spell_length_mono (tail_suffix l)
      simp only [Comp.size, locate_up]
      omega
    | name n =>
      have rest := ih (n :: l)
      rw [spell_cons_length] at rest
      simp only [Comp.size, locate_name]
      omega

theorem render_locate_length (absolute : s.head? = some '/') : (render (locate [] (comps s))).length ≤ s.length := by
  cases s with
  | nil => cases absolute
  | cons c rest =>
    obtain rfl := some.inj absolute
    have size := locate_size [] (comps ('/' :: rest))
    rw [show comps ('/' :: rest) = comps rest from comps_slash [] rest] at size ⊢
    have text := comps_size rest
    unfold render
    split_ifs
    · simp
    · simp only [spell, length_nil] at size
      rw [length_cons]
      omega

theorem locate_length_le (l : Loc) (cs : List Comp) : (locate l cs).length ≤ l.length + cs.length := by
  induction cs generalizing l with
  | nil => exact le_refl _
  | cons c cs ih =>
    rw [length_cons]
    cases c with
    | here => exact (ih l).trans (by omega)
    | up => exact (ih l.tail).trans (by rw [length_tail]; omega)
    | name n => exact (ih (n :: l)).trans (by rw [length_cons]; omega)

theorem mem_locate {cs : List Comp} {n : Name} (member : n ∈ locate l cs) : n ∈ l ∨ Comp.name n ∈ cs := by
  induction cs generalizing l with
  | nil => exact .inl member
  | cons c cs ih =>
    rcases ih member with kept | later
    · cases c with
      | here => exact .inl kept
      | up => exact .inl (mem_of_mem_tail kept)
      | name m =>
        rcases mem_cons.mp kept with rfl | old
        · exact .inr (mem_cons_self ..)
        · exact .inl old
    · exact .inr (mem_cons_of_mem _ later)

theorem render_injective : Function.Injective render := by
  intro l m same
  apply names_injective
  dsimp only
  rw [← comps_render, ← comps_render, same]

theorem render_of_ne (inner : l ≠ []) : render l = spell l := if_neg inner

def SlashTooMany (s : Text) : Prop :=
  ∃ front rest, s = front ++ '/' :: rest ∧ (rest.head? = some '/' ∨ rest = [] ∧ front ≠ [])

theorem SlashTooMany.append (marred : SlashTooMany s) (more : Text) : SlashTooMany (s ++ '/' :: more) := by
  obtain ⟨front, rest, rfl, doubled⟩ := marred
  refine ⟨front, rest ++ '/' :: more, by simp, .inl ?_⟩
  rcases doubled with slash | ⟨rfl, _⟩
  · rw [head?_append, slash]
    rfl
  · rfl

theorem render_not_marred (l : Loc) : ¬SlashTooMany (render l) := by
  rintro ⟨front, rest, same, doubled⟩
  cases l with
  | nil =>
    cases front with
    | nil =>
      obtain ⟨_, rfl⟩ := cons.inj same
      rcases doubled with slash | ⟨_, none⟩
      · cases slash
      · exact none rfl
    | cons c front => simp [render] at same
  | cons n l =>
    rcases doubled with slash | ⟨rfl, _⟩
    · rw [render_of_ne (cons_ne_nil n l)] at same
      have cut : spell (n :: l) = (front ++ ['/']) ++ rest := by simpa using same
      obtain ⟨r, whole, _⟩ := spell_cut cut (.inr slash)
      cases r with
      | nil => simp [spell] at whole
      | cons m r =>
        rw [← render_of_ne (cons_ne_nil m r)] at whole
        apply World.render_getLast (n := m) (d := r)
        rw [← whole, getLast?_concat]
    · apply World.render_getLast (n := n) (d := l)
      rw [same, getLast?_concat]

end Flinstone.Lib
