import Mathlib.Data.List.Perm.Basic

/-! # Deleting from an unordered table -/

namespace Flinstone.Lib
open List

variable {α : Type*}

def lastFirst (l : List α) : List α :=
  match l.getLast? with
  | none => []
  | some last => last :: l.dropLast

theorem lastFirst_perm (l : List α) : (lastFirst l).Perm l := by
  unfold lastFirst
  cases last : l.getLast? with
  | none => rw [getLast?_eq_none_iff.mp last]
  | some x =>
    obtain ⟨init, rfl⟩ := getLast?_eq_some_iff.mp last
    simpa using (perm_append_singleton x init).symm

theorem length_lastFirst (l : List α) : (lastFirst l).length = l.length := (lastFirst_perm l).length_eq

def swapDelete (l : List α) (i : Nat) : List α :=
  match l.getLast? with
  | none => l
  | some last => (l.set i last).dropLast

theorem swapDelete_append (done : List α) (x : α) (rest : List α) :
    swapDelete (done ++ x :: rest) done.length = done ++ lastFirst rest := by
  unfold swapDelete lastFirst
  cases last : rest.getLast? with
  | none => simp [getLast?_eq_none_iff.mp last]
  | some y =>
    obtain ⟨init, rfl⟩ := getLast?_eq_some_iff.mp last
    have whole : (done ++ x :: (init ++ [y])).getLast? = some y := by
      rw [← cons_append, ← append_assoc, getLast?_concat]
    have cut : (y :: init ++ [y]).dropLast = y :: init := dropLast_concat
    rw [cons_append] at cut
    simp [whole, cut]

theorem length_swapDelete_lt {l : List α} {i : Nat} (inside : i < l.length) : (swapDelete l i).length < l.length := by
  have split := take_append_drop i l
  rw [drop_eq_getElem_cons inside] at split
  have shorter := swapDelete_append (l.take i) l[i] (l.drop (i + 1))
  rw [split, length_take_of_le (Nat.le_of_lt inside)] at shorter
  rw [shorter, length_append, length_lastFirst, length_take_of_le (Nat.le_of_lt inside), length_drop]
  omega

def sweep (p : α → Bool) (l : List α) (i : Nat) : List α :=
  if inside : i < l.length then
    if p l[i] then sweep p (swapDelete l i) i else sweep p l (i + 1)
  else l
termination_by l.length - i
decreasing_by
  · have := length_swapDelete_lt inside
    omega
  · omega

section
variable (p : α → Bool)

variable (done : List α)

theorem sweep_end : sweep p done done.length = done := by
  rw [sweep, dif_neg (Nat.lt_irrefl _)]

theorem sweep_delete {x : α} (rest : List α) (hit : p x) :
    sweep p (done ++ x :: rest) done.length = sweep p (done ++ lastFirst rest) done.length := by
  rw [sweep, dif_pos (by simp), if_pos (by simpa using hit), swapDelete_append]

theorem sweep_keep {x : α} (rest : List α) (miss : p x = false) :
    sweep p (done ++ x :: rest) done.length = sweep p ((done ++ [x]) ++ rest) (done ++ [x]).length := by
  rw [sweep, dif_pos (by simp), if_neg (by simpa using miss), length_append]
  simp

theorem sweep_perm (done todo : List α) :
    (sweep p (done ++ todo) done.length).Perm (done ++ todo.filter fun x => !p x) := by
  -- both branches leave one entry less to look at
  induction remaining : todo.length generalizing done todo with
  | zero =>
    obtain rfl := eq_nil_of_length_eq_zero remaining
    rw [append_nil, sweep_end]
    simp
  | succ n ih =>
    cases todo with
    | nil => cases remaining
    | cons x rest =>
      have shorter : rest.length = n := Nat.succ.inj remaining
      cases hit : p x with
      | true =>
        rw [sweep_delete p done rest hit]
        refine (ih done (lastFirst rest) ((length_lastFirst rest).trans shorter)).trans ?_
        simpa [hit] using ((lastFirst_perm rest).filter fun x => !p x).append_left done
      | false =>
        rw [sweep_keep p done rest hit]
        simpa [hit] using ih (done ++ [x]) rest shorter

theorem sweep_all {todo : List α} (all : ∀ x ∈ todo, p x) :
    sweep p (done ++ todo) done.length = done := by
  induction remaining : todo.length generalizing todo with
  | zero =>
    obtain rfl := eq_nil_of_length_eq_zero remaining
    rw [append_nil, sweep_end]
  | succ n ih =>
    cases todo with
    | nil => cases remaining
    | cons x rest =>
      rw [sweep_delete p done rest (all x mem_cons_self)]
      refine ih (fun y member => ?_) ((length_lastFirst rest).trans (Nat.succ.inj remaining))
      exact all y (mem_cons_of_mem x ((lastFirst_perm rest).mem_iff.mp member))

theorem sweep_suffix {old new : List α} (kept : ∀ x ∈ old, p x = false) (all : ∀ x ∈ new, p x) :
    sweep p (old ++ new) 0 = old := by
  suffices skip : ∀ done : List α, sweep p (done ++ (old ++ new)) done.length = done ++ old by simpa using skip []
  intro done
  induction old generalizing done with
  | nil => rw [nil_append, append_nil, sweep_all p done all]
  | cons x rest ih =>
    rw [cons_append, sweep_keep p done (rest ++ new) (kept x mem_cons_self),
      ih (fun y member => kept y (mem_cons_of_mem x member)), append_assoc, singleton_append]

end

end Flinstone.Lib
