import Flinstone.Lib.Lexical
import Flinstone.Shell.Words

/-! # Where a resolved path leads -/

namespace Flinstone.Shell
open Flinstone.Lib Flinstone.Fs List

/-! ## The normal form and what the buffers keep of it -/

def joined (cwd path : Text) : Text := if path.head? = some '/' then path else cwd ++ '/' :: path

def normalForm (cwd path : Text) : Loc := locate [] (comps (joined cwd path))

def cutName (n : Name) : Name :=
  ⟨n.val.take (segSize - 1), by
    have short {s : Text} (kept : n.val.take (segSize - 1) = s) (small : s.length < segSize - 1) : n.val = s := by
      rw [← kept, take_of_length_le]
      rw [← kept, length_take] at small
      omega
    refine ⟨fun none => ?_, fun slash => ?_, fun here => ?_, fun up => ?_⟩
    · exact n.property.1 (short none (by decide))
    · exact n.property.2.1 (mem_of_mem_take slash)
    · exact n.property.2.2.1 (short here (by decide))
    · exact n.property.2.2.2 (short up (by decide))⟩

def collectName (l : Loc) : Comp → Loc
  | .up => l.tail
  | .here => l
  | .name n => cutName n :: l

def collectNames : List Comp → Loc → Loc
  | [], l => l
  | c :: cs, l => if l.length ≥ segsMax then l else collectNames cs (collectName l c)

/-- The components that are read: of the first 511 characters, up to where `segsMax` names are held. -/
def readPart (text : Text) : List Comp :=
  let cs := comps (text.take (cwdMax + 256 - 1))
  (cs.inits.find? fun front => segsMax ≤ (locate [] front).length).getD cs

/-- The normal form of what is read, with each name cut to 255 characters. -/
def readPlace (c : Loc) (path : Text) : Loc :=
  if path = [] ∨ path = ['.'] then c else (locate [] (readPart (joined (render c) path))).map cutName

/-- No limit but that of the result cuts anything off. -/
structure Whole (text : Text) : Prop where
  fits : text.length < cwdMax + 256
  names : ∀ n, Comp.name n ∈ comps text → n.val.length < segSize
  live : ∀ front c rest, comps text = front ++ c :: rest → (locate [] front).length < segsMax

theorem collectSegs_texts (cs : List Comp) (l : Loc) :
    collectSegs (cs.map Comp.text) (texts l) = texts (collectNames cs l) := by
  induction cs generalizing l with
  | nil => rfl
  | cons c cs ih =>
    rw [map_cons, collectSegs, collectNames, length_texts]
    split_ifs with full up here
    · rfl
    · cases c with
      | here => cases up
      | up =>
        rw [show (texts l).tail = texts l.tail from map_tail.symm]
        exact ih l.tail
      | name n => exact absurd up n.property.2.2.2
    · cases c with
      | here => exact ih l
      | up => cases here
      | name n => exact absurd here n.property.2.2.1
    · cases c with
      | here => exact absurd rfl here
      | up => exact absurd rfl up
      | name n => exact ih (cutName n :: l)

theorem collectNames_eq (cs : List Comp) (l : Loc) : collectNames cs (l.map cutName) =
    (locate l ((cs.inits.find? fun front => segsMax ≤ (locate l front).length).getD cs)).map cutName := by
  induction cs generalizing l with
  | nil =>
    rw [show inits ([] : List Comp) = [[]] from rfl, find?_singleton]
    split_ifs <;> rfl
  | cons c cs ih =>
    rw [collectNames, length_map, inits_cons, find?_cons]
    by_cases full : segsMax ≤ l.length
    · rw [if_pos full, show decide (segsMax ≤ (locate l []).length) = true from decide_eq_true full]
      rfl
    · rw [if_neg full, show decide (segsMax ≤ (locate l []).length) = false from decide_eq_false full, find?_map]
      have step : ∀ l', collectName (l.map cutName) c = l'.map cutName →
          (∀ front, locate l (c :: front) = locate l' front) →
          collectNames cs (collectName (l.map cutName) c) = (locate l (((cs.inits.find? fun front =>
            segsMax ≤ (locate l (c :: front)).length).map (c :: ·)).getD (c :: cs))).map cutName := by
        intro l' named moved
        simp only [named, ih l', moved]
        cases cs.inits.find? fun front => segsMax ≤ (locate l' front).length <;> simp [moved]
      cases c with
      | here => exact step l rfl fun _ => rfl
      | up => exact step l.tail map_tail.symm fun _ => rfl
      | name n => exact step (n :: l) rfl fun _ => rfl

theorem collectNames_readPart (text : Text) :
    collectNames (comps (text.take (cwdMax + 256 - 1))) [] = (locate [] (readPart text)).map cutName :=
  collectNames_eq (comps (text.take (cwdMax + 256 - 1))) []

theorem cutName_eq {n : Name} (short : n.val.length < segSize) : cutName n = n :=
  Subtype.ext (take_of_length_le (Nat.le_sub_one_of_lt short))

variable {cs : List Comp} {path : Text} {c q : Loc} {outsize : Nat}

theorem collectNames_whole {l : Loc} (names : ∀ n, Comp.name n ∈ cs → n.val.length < segSize)
    (live : ∀ front c rest, cs = front ++ c :: rest → (locate l front).length < segsMax) :
    collectNames cs l = locate l cs := by
  induction cs generalizing l with
  | nil => rfl
  | cons c cs ih =>
    have room : ¬l.length ≥ segsMax := Nat.not_le_of_lt (live [] c cs rfl)
    have later (n : Name) (member : Comp.name n ∈ cs) := names n (mem_cons_of_mem c member)
    have next (front : List Comp) (d : Comp) (rest : List Comp) (split : cs = front ++ d :: rest) :
        (locate l (c :: front)).length < segsMax := live (c :: front) d rest (by rw [split]; rfl)
    rw [collectNames, if_neg room]
    cases c with
    | here => exact ih later next
    | up => exact ih later next
    | name n =>
      rw [collectName, cutName_eq (names n (mem_cons_self ..))]
      exact ih later next

theorem joined_absolute (c : Loc) (path : Text) : (joined (render c) path).head? = some '/' := by
  unfold joined
  split_ifs with absolute
  · exact absolute
  · rw [head?_append, World.render_head]
    rfl

theorem normalForm_special (c : Loc) (special : path = [] ∨ path = ['.']) : normalForm (render c) path = c := by
  rcases special with rfl | rfl
  · rw [normalForm, joined, if_neg (by simp), comps_slash, comps_render, comps_nil, append_nil,
      locate_names, append_nil]
  · rw [normalForm, joined, if_neg (by simp), comps_slash, comps_render, locate_append, locate_names, append_nil]
    rfl

theorem readPlace_whole (whole : Whole (joined (render c) path)) : readPlace c path = normalForm (render c) path := by
  unfold readPlace
  split_ifs with special
  · exact (normalForm_special c special).symm
  · rw [← collectNames_readPart, take_of_length_le (Nat.le_sub_one_of_lt whole.fits),
      collectNames_whole whole.names whole.live]
    rfl

/-! ## Writing the segments out -/

/-- All of `q` fits, or the result is full right behind it, or the only name does not fit. -/
def Shown (outsize : Nat) (l q : Loc) : Prop :=
  q <:+ l ∧ (render q).length < outsize ∧
    (q = l ∨ (render q).length = outsize - 1 ∨ q = [] ∧ l.length = 1 ∧ outsize ≤ (render l).length)

instance (outsize : Nat) (l q : Loc) : Decidable (Shown outsize l q) := inferInstanceAs (Decidable (_ ∧ _ ∧ _))

section Join
variable {outsize : Nat}
variable {out : Text} {r q front : Loc} {n : Name}

theorem joinSeg_full {first : Bool} (full : outsize - 1 ≤ out.length) (seg : Text) :
    joinSeg outsize first out seg = out := if_pos full

theorem joinSegs_full (full : outsize - 1 ≤ out.length) (segs : List Text) :
    segs.foldl (joinSeg outsize false) out = out := by
  induction segs with
  | nil => rfl
  | cons seg segs ih => rw [foldl_cons, joinSeg_full full, ih]

theorem joinSeg_next (room : out.length < outsize - 1) (nonempty : out ≠ []) (seg : Text) :
    joinSeg outsize false out seg = out ++ '/' :: if out.length + 1 + seg.length < outsize then seg else [] := by
  rw [joinSeg, if_neg (Nat.not_le_of_lt room)]
  simp only [Bool.not_false, Bool.true_and, decide_eq_true_eq, if_pos nonempty, length_append, length_singleton]
  split_ifs <;> simp

theorem joinSegs_marred (marred : SlashTooMany out) (segs : List Text) :
    SlashTooMany (segs.foldl (joinSeg outsize false) out) := by
  induction segs generalizing out with
  | nil => exact marred
  | cons seg segs ih =>
    apply ih
    by_cases full : outsize - 1 ≤ out.length
    · rwa [joinSeg_full full]
    · have nonempty : out ≠ [] := by
        rintro rfl
        obtain ⟨front, rest, same, _⟩ := marred
        simp at same
      rw [joinSeg_next (Nat.lt_of_not_le full) nonempty]
      exact marred.append _

theorem suffix_step {l : Loc} (start : r <:+ q) (below : q <:+ l) (way : n :: r <:+ l) : q = r ∨ n :: r <:+ q := by
  rcases suffix_or_suffix_of_suffix below way with short | long
  · rcases suffix_cons_iff.mp short with rfl | shorter
    · exact .inr (suffix_refl _)
    · exact .inl (shorter.eq_of_length_le start.length_le)
  · exact .inr long

theorem joinSegs_rest (inner : r ≠ []) (fits : (spell r).length < outsize) (ns : List Name) (q : Loc) :
    (texts ns).foldl (joinSeg outsize false) (spell r) = render q ↔
      r <:+ q ∧ q <:+ ns.reverse ++ r ∧ (spell q).length < outsize ∧
        (q = ns.reverse ++ r ∨ (spell q).length = outsize - 1) := by
  induction ns generalizing r with
  | nil =>
    rw [texts_nil, foldl_nil, ← render_of_ne inner, render_injective.eq_iff]
    constructor
    · rintro rfl
      exact ⟨suffix_refl _, suffix_refl _, fits, .inl rfl⟩
    · rintro ⟨start, below, _⟩
      exact start.eq_of_length_le below.length_le
  | cons n ns ih =>
    have way : n :: r <:+ (n :: ns).reverse ++ r := ⟨ns.reverse, by simp⟩
    have size := spell_cons_length n r
    have above (below : n :: r <:+ q) : (spell (n :: r)).length ≤ (spell q).length := spell_length_mono below
    rw [texts_cons, foldl_cons]
    by_cases full : outsize - 1 ≤ (spell r).length
    · -- nothing is added any more
      rw [joinSeg_full full, joinSegs_full full, ← render_of_ne inner, render_injective.eq_iff]
      constructor
      · rintro rfl
        exact ⟨suffix_refl _, suffix_append _ _, fits, .inr (by omega)⟩
      · rintro ⟨start, below, small, _⟩
        rcases suffix_step start below way with same | longer
        · exact same.symm
        · have := above longer
          omega
    · have nonempty : spell r ≠ [] := by
        rw [← render_of_ne inner]
        exact render_ne_nil r
      -- with room left, the loop does not end behind `r`
      have past (start : r <:+ q) (below : q <:+ (n :: ns).reverse ++ r)
          (ends : q = (n :: ns).reverse ++ r ∨ (spell q).length = outsize - 1) : n :: r <:+ q := by
        rcases suffix_step start below way with rfl | longer
        · rcases ends with whole | last
          · have lengths := congrArg length whole
            simp only [length_append, length_reverse, length_cons] at lengths
            omega
          · omega
        · exact longer
      rw [joinSeg_next (Nat.lt_of_not_le full) nonempty]
      by_cases more : (spell r).length + 1 + n.val.length < outsize
      · have next := ih (cons_ne_nil n r) (by omega : (spell (n :: r)).length < outsize)
        rw [if_pos more, ← spell, next, show ns.reverse ++ n :: r = (n :: ns).reverse ++ r by simp]
        constructor
        · rintro ⟨start, below⟩
          exact ⟨(suffix_cons n r).trans start, below⟩
        · rintro ⟨start, below, small, ends⟩
          exact ⟨past start below ends, below, small, ends⟩
      · -- the slash that was put stays, with nothing or another slash behind it
        rw [if_neg more]
        have marred : SlashTooMany (spell r ++ ['/']) := ⟨spell r, [], rfl, .inr ⟨rfl, nonempty⟩⟩
        constructor
        · intro same
          have spoilt : SlashTooMany ((texts ns).foldl (joinSeg outsize false) (spell r ++ ['/'])) :=
            joinSegs_marred marred (texts ns)
          rw [same] at spoilt
          exact absurd spoilt (render_not_marred q)
        · rintro ⟨start, below, small, ends⟩
          have longer := above (past start below ends)
          omega

theorem joinSeg_first (n : Name) :
    joinSeg outsize true ['/'] n.val = '/' :: if 1 + n.val.length < outsize then n.val else [] := by
  have long := length_pos_of_ne_nil n.property.1
  unfold joinSeg
  simp only [length_singleton, Bool.not_true, Bool.false_and, Bool.false_eq_true, if_false]
  by_cases fits : 1 + n.val.length < outsize
  · rw [if_neg (by omega), if_pos fits, if_pos fits]
    rfl
  · rw [if_neg fits, if_neg fits]
    exact ite_self _

theorem outermost_suffix (inner : q ≠ []) (below : q <:+ front ++ [n]) : [n] <:+ q :=
  suffix_of_suffix_length_le (suffix_append front [n]) below (length_pos_of_ne_nil inner)

theorem spell_single (n : Name) : (spell [n]).length = 1 + n.val.length := by simp [spell, add_comm]

theorem joinSegs_first_fits (room : 2 ≤ outsize) (fits : 1 + n.val.length < outsize) :
    (texts front.reverse).foldl (joinSeg outsize false) (spell [n]) = render q ↔ Shown outsize (front ++ [n]) q := by
  have single := spell_single n
  have start : (spell [n]).length < outsize := by omega
  rw [joinSegs_rest (cons_ne_nil n []) start front.reverse q, reverse_reverse]
  constructor
  · rintro ⟨start, below, small, ends⟩
    have inner : q ≠ [] := by
      rintro rfl
      exact absurd (suffix_nil.mp start) (cons_ne_nil n [])
    rw [Shown, render_of_ne inner]
    exact ⟨below, small, ends.imp_right .inl⟩
  · rintro ⟨below, small, ends⟩
    have inner : q ≠ [] := by
      rintro rfl
      rcases ends with whole | last | ⟨_, alone, large⟩
      · simp at whole
      · have long := length_pos_of_ne_nil n.property.1
        simp only [render, if_true, length_singleton] at last
        omega
      · have first : front = [] := by simpa using alone
        rw [first, nil_append, render_of_ne (cons_ne_nil n [])] at large
        omega
    rw [render_of_ne inner] at small ends
    refine ⟨outermost_suffix inner below, below, small, ?_⟩
    rcases ends with whole | last | ⟨root, _⟩
    · exact .inl whole
    · exact .inr last
    · exact absurd root inner

theorem Shown.root_only (lost : ¬1 + n.val.length < outsize) (shown : Shown outsize (front ++ [n]) q) : q = [] := by
  by_contra inner
  have single := spell_single n
  have above := spell_length_mono (outermost_suffix inner shown.1)
  have small := shown.2.1
  rw [render_of_ne inner] at small
  omega

theorem joinSegs_first_lost (room : 2 ≤ outsize) (lost : ¬1 + n.val.length < outsize) :
    (texts front.reverse).foldl (joinSeg outsize false) ['/'] = render q ↔ Shown outsize (front ++ [n]) q := by
  by_cases stops : outsize = 2 ∨ front = []
  · have same : (texts front.reverse).foldl (joinSeg outsize false) ['/'] = render [] := by
      rcases stops with two | none
      · exact joinSegs_full (by rw [two]; decide) _
      · rw [none]
        rfl
    rw [same, render_injective.eq_iff]
    constructor
    · rintro rfl
      refine ⟨nil_suffix, room, .inr ?_⟩
      rcases stops with two | none
      · exact .inl (by rw [two]; rfl)
      · have single := spell_single n
        rw [none, nil_append, render_of_ne (cons_ne_nil n [])]
        exact .inr ⟨rfl, rfl, by omega⟩
    · intro shown
      exact (shown.root_only lost).symm
  · obtain ⟨more, others⟩ := not_or.mp stops
    constructor
    · intro same
      have marred : SlashTooMany (render q) := by
        rw [← same]
        obtain ⟨m, ms, split⟩ := exists_cons_of_ne_nil (reverse_ne_nil_iff.mpr others)
        rw [split, texts_cons, foldl_cons, joinSeg_next (by rw [length_singleton]; omega) (cons_ne_nil '/' [])]
        apply joinSegs_marred
        exact ⟨[], _, rfl, .inl rfl⟩
      exact absurd marred (render_not_marred q)
    · intro shown
      obtain rfl := shown.root_only lost
      rcases shown.2.2 with whole | last | ⟨_, alone, _⟩
      · simp at whole
      · simp only [render, if_true, length_singleton] at last
        omega
      · exact absurd (by simpa using alone) others

theorem joinSegs_eq_render (room : 2 ≤ outsize) (l q : Loc) :
    joinSegs outsize ['/'] (texts l.reverse) = render q ↔ Shown outsize l q := by
  rcases eq_nil_or_concat' l with rfl | ⟨front, n, rfl⟩
  · have root : joinSegs outsize ['/'] (texts (reverse [])) = render [] := rfl
    rw [root, render_injective.eq_iff]
    constructor
    · rintro rfl
      exact ⟨suffix_refl [], room, .inl rfl⟩
    · rintro ⟨below, _⟩
      exact (suffix_nil.mp below).symm
  · rw [reverse_append, reverse_singleton, singleton_append, texts_cons, joinSegs, joinSeg_first]
    by_cases fits : 1 + n.val.length < outsize
    · rw [if_pos fits]
      exact joinSegs_first_fits room fits
    · rw [if_neg fits]
      exact joinSegs_first_lost room fits

theorem joinSeg_ne_nil (first : Bool) (nonempty : out ≠ []) (seg : Text) : joinSeg outsize first out seg ≠ [] := by
  unfold joinSeg
  dsimp only
  split_ifs <;> simp [nonempty]

theorem joinSegs_ne_nil (nonempty : out ≠ []) (segs : List Text) : joinSegs outsize out segs ≠ [] := by
  cases segs with
  | nil => exact nonempty
  | cons seg segs =>
    rw [joinSegs]
    have first : joinSeg outsize true out seg ≠ [] := joinSeg_ne_nil true nonempty seg
    generalize joinSeg outsize true out seg = out' at first
    induction segs generalizing out' with
    | nil => exact first
    | cons seg segs ih => exact ih _ (joinSeg_ne_nil false first seg)

end Join

theorem resolvePath_special (c : Loc) (special : path = [] ∨ path = ['.']) (outsize : Nat) :
    resolvePath (render c) path outsize = (render c).take (outsize - 1) := by
  rcases special with rfl | rfl <;> rfl

theorem resolvePath_joined (c : Loc) (other : ¬(path = [] ∨ path = ['.'])) (room : 2 ≤ outsize) :
    resolvePath (render c) path outsize = joinSegs outsize ['/'] (texts (readPlace c path).reverse) := by
  have full : resolvePath (render c) path outsize =
      normalisePath ((joined (render c) path).take (cwdMax + 256 - 1)) outsize := by
    unfold resolvePath joined
    split_ifs with absolute special
    · rfl
    · exact absurd (by simpa using special) other
    · rfl
  have absolute : ((joined (render c) path).take (cwdMax + 256 - 1)).head? = some '/' := by
    rw [head?_take, if_neg (by decide), joined_absolute]
  have segs (text : Text) : (collectSegs ((text.splitOnP (· = '/')).filter (· ≠ [])) []).reverse =
      texts (collectNames (comps text) []).reverse := by
    rw [comps_texts, ← texts_nil, collectSegs_texts, texts, texts, map_reverse]
  have start : (decide (((joined (render c) path).take (cwdMax + 256 - 1)).head? = some '/') &&
      decide (0 < outsize - 1)) = true := by
    simp only [absolute, decide_true, Bool.true_and, decide_eq_true_eq]
    omega
  rw [full, normalisePath, readPlace, if_neg other, ← collectNames_readPart, segs, if_pos start,
    if_neg (joinSegs_ne_nil (cons_ne_nil '/' []) _)]

theorem take_render (above : q <:+ c) : (render c).take (render q).length = render q := by
  by_cases root : q = []
  · subst root
    have head := World.render_head c
    cases text : render c with
    | nil => exact absurd text (render_ne_nil c)
    | cons x rest =>
      rw [text] at head
      rw [Option.some.inj head]
      rfl
  · obtain ⟨front, rfl⟩ := above
    rw [render_of_ne root, render_of_ne (append_ne_nil_of_right_ne_nil front root), spell_append, take_left]

theorem resolvePath_eq_render (c : Loc) (path : Text) (room : 2 ≤ outsize) (above : q <:+ normalForm (render c) path) :
    resolvePath (render c) path outsize = render q ↔ Shown outsize (readPlace c path) q ∧
      (path = [] ∨ path = ['.'] → q = c ∨ (render q).length = outsize - 1) := by
  by_cases special : path = [] ∨ path = ['.']
  · rw [normalForm_special c special] at above
    rw [resolvePath_special c special, readPlace, if_pos special, forall_prop_of_true special, Shown]
    constructor
    · intro cut
      have size := congrArg length cut
      rw [length_take] at size
      by_cases short : (render c).length ≤ outsize - 1
      · rw [take_of_length_le short] at cut
        obtain rfl := render_injective cut
        exact ⟨⟨above, by omega, .inl rfl⟩, .inl rfl⟩
      · have last : (render q).length = outsize - 1 := by omega
        exact ⟨⟨above, by omega, .inr (.inl last)⟩, .inr last⟩
    · rintro ⟨⟨_, small, _⟩, rfl | last⟩
      · exact take_of_length_le (by omega)
      · rw [← last]
        exact take_render above
  · rw [resolvePath_joined c special room, joinSegs_eq_render room, and_iff_left]
    exact fun is => absurd is special

theorem live_of_few (few : cs.length ≤ segsMax) (front : List Comp) (c : Comp) (rest : List Comp)
    (split : cs = front ++ c :: rest) : (locate [] front).length < segsMax := by
  have short := locate_length_le [] front
  rw [split, length_append, length_cons] at few
  rw [length_nil] at short
  omega

theorem whole_render {text : Text} (whole : Whole text) (absolute : text.head? = some '/') :
    Whole (render (locate [] (comps text))) := by
  have depth : (locate [] (comps text)).length ≤ segsMax := by
    rcases eq_nil_or_concat' (comps text) with none | ⟨front, c, split⟩
    · rw [none]
      exact Nat.zero_le _
    · rw [split, locate_append]
      exact (locate_length_le _ [c]).trans (whole.live front c [] split)
  constructor
  · exact (render_locate_length absolute).trans_lt whole.fits
  · intro n member
    rw [comps_render, mem_map] at member
    obtain ⟨m, listed, same⟩ := member
    obtain rfl := Comp.name.inj same
    rcases mem_locate (mem_reverse.mp listed) with none | named
    · exact absurd none not_mem_nil
    · exact whole.names m named
  · apply live_of_few
    rwa [comps_render, length_map, length_reverse]

theorem resolvePath_whole (whole : Whole (joined (render c) path))
    (fits : (render (normalForm (render c) path)).length < outsize) :
    resolvePath (render c) path outsize = render (normalForm (render c) path) := by
  have long := length_pos_of_ne_nil (render_ne_nil (normalForm (render c) path))
  rw [resolvePath_eq_render c path (by omega) (suffix_refl _), readPlace_whole whole]
  refine ⟨⟨suffix_refl _, fits, .inl rfl⟩, fun special => .inl ?_⟩
  exact normalForm_special c special

theorem joined_render (d l : Loc) : joined (render d) (render l) = render l := if_pos (World.render_head l)

/-- Where the size of the result does not limit it, the result is the normal form, which is resolved to itself. -/
theorem resolvePath_normal (c : Loc) (path : Text) (outsize : Nat) (whole : Whole (joined (render c) path))
    (fits : (render (normalForm (render c) path)).length < outsize) :
    resolvePath (render c) path outsize = render (normalForm (render c) path) ∧
      comps (resolvePath (render c) path outsize) = (normalForm (render c) path).reverse.map .name ∧
      ∀ d, resolvePath (render d) (resolvePath (render c) path outsize) outsize =
        resolvePath (render c) path outsize := by
  rw [resolvePath_whole whole fits]
  refine ⟨rfl, comps_render _, fun d => ?_⟩
  have same : normalForm (render d) (render (normalForm (render c) path)) = normalForm (render c) path := by
    rw [normalForm, joined_render, comps_render, locate_names, append_nil]
  have again := whole_render whole (joined_absolute c path)
  rw [← normalForm, ← joined_render d] at again
  rw [resolvePath_whole again (by rwa [same]), same]

theorem resolvePath_normal_short : resolvePath (render []) "a/../b/./c//".toList 256 = "/b/c".toList := by
  have whole : Whole (joined (render []) "a/../b/./c//".toList) := by
    have sizes : ∀ c ∈ comps (joined (render []) "a/../b/./c//".toList), c.size ≤ segSize := by decide
    constructor
    · decide
    · intro n member
      exact sizes (.name n) member
    · exact live_of_few (by decide)
  exact (resolvePath_normal [] "a/../b/./c//".toList 256 whole (by decide)).1

/-- All that was read fits, or there is room for the root only, or the room ends at a slash that the name of the place
that was meant has too. -/
def EndsOnTheWay (outsize : Nat) (kept meant : Loc) : Prop :=
  if (render kept).length < outsize then kept <:+ meant
  else outsize = 2 ∨ ((render kept).take outsize).getLast? = some '/' ∧
    (render kept).take outsize <+: render meant ++ ['/']

instance (outsize : Nat) (kept meant : Loc) : Decidable (EndsOnTheWay outsize kept meant) := by
  unfold EndsOnTheWay
  infer_instance

theorem eq_of_render_length {l : Loc} (above : q <:+ l) (long : (render l).length ≤ (render q).length) : q = l := by
  by_cases inner : l = []
  · rw [inner] at above ⊢
    exact suffix_nil.mp above
  · obtain ⟨front, rfl⟩ := above
    cases front with
    | nil => rfl
    | cons n front =>
      rw [render_of_ne inner, spell_append, length_append, spell_cons_length] at long
      by_cases top : q = []
      · have named := length_pos_of_ne_nil n.property.1
        simp only [top, render, if_true, spell, length_nil, length_singleton] at long
        omega
      · rw [render_of_ne top] at long
        omega

theorem take_render_slash {l : Loc} (above : q <:+ l) (inner : q ≠ []) :
    (render l ++ ['/']).take ((render q).length + 1) = render q ++ ['/'] := by
  obtain ⟨front, rfl⟩ := above
  rw [render_of_ne inner, render_of_ne (append_ne_nil_of_right_ne_nil front inner), spell_append, append_assoc,
    take_length_add_append]
  cases front with
  | nil => rfl
  | cons n front =>
    cases text : spell (n :: front) with
    | nil => simp [spell] at text
    | cons x rest =>
      have head := spell_head (cons_ne_nil n front)
      rw [text] at head
      rw [Option.some.inj head]
      rfl

theorem endsOnTheWay_of {l meant : Loc} (below : q <:+ l) (above : q <:+ meant)
    (ends : (render q).length = outsize - 1) (room : 2 ≤ outsize) : EndsOnTheWay outsize l meant := by
  unfold EndsOnTheWay
  split_ifs with fits
  · rwa [← eq_of_render_length below (by omega)]
  · by_cases top : q = []
    · left
      rw [top, render, if_pos rfl, length_singleton] at ends
      omega
    · right
      have size : (render q).length + 1 = outsize := by omega
      have cut : (render l).take outsize = render q ++ ['/'] := by
        rw [← take_render_slash below top, size, take_append_of_le_length (by omega)]
      rw [cut]
      refine ⟨getLast?_concat .., ?_⟩
      rw [← take_render_slash above top]
      exact take_prefix ..

theorem on_the_way {l meant : Loc} (long : ¬ (render l).length < outsize) (room : 2 ≤ outsize)
    (slash : ((render l).take outsize).getLast? = some '/') (way : (render l).take outsize <+: render meant ++ ['/']) :
    ∃ q, q <:+ meant ∧ q <:+ l ∧ (render q).length = outsize - 1 := by
  have inner : l ≠ [] := by
    rintro rfl
    exact long room
  obtain ⟨text, cut⟩ := getLast?_eq_some_iff.mp slash
  have size := congrArg length cut
  rw [length_take, length_append, length_singleton] at size
  have whole : spell l = text ++ '/' :: (render l).drop outsize := by
    rw [← render_of_ne inner, append_cons, ← cut, take_append_drop]
  obtain ⟨q, rfl, below⟩ := spell_cut whole (.inr rfl)
  have proper : q ≠ [] := by
    rintro rfl
    rw [spell, length_nil] at size
    omega
  refine ⟨q, ?_, below, by rw [render_of_ne proper]; omega⟩
  obtain ⟨rest, onward⟩ := way
  rw [cut, append_assoc, singleton_append] at onward
  have meant_inner : meant ≠ [] := by
    rintro rfl
    have lengths := congrArg length onward
    cases q with
    | nil => exact proper rfl
    | cons n q =>
      have named := length_pos_of_ne_nil n.property.1
      rw [length_append, spell_cons_length] at lengths
      simp [render] at lengths
      omega
  rw [render_of_ne meant_inner] at onward
  rcases eq_nil_or_concat' rest with rfl | ⟨rest, x, rfl⟩
  · have whole : spell meant = spell q ++ [] := by rw [append_nil, append_cancel_right onward]
    exact suffix_of_spell whole (.inl rfl)
  · rw [← cons_append, ← append_assoc] at onward
    exact suffix_of_spell (append_inj' onward rfl).1.symm (.inr rfl)

def longPath : Text := '/' :: List.replicate 200 'a' ++ '/' :: List.replicate 100 'b' ++ "/c".toList

end Flinstone.Shell
