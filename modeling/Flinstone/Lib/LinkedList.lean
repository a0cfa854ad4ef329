import Mathlib.Data.List.Nodup
import Mathlib.Logic.Function.Basic

/-! # Doubly linked lists threaded through two arrays -/

namespace Flinstone.Lib
open List Function

variable {ι β : Type*} [DecidableEq ι]

def assign (f : ι → β) (target : Option ι) (value : β) : ι → β :=
  match target with
  | some i => update f i value
  | none => f

@[simp] theorem assign_none (f : ι → β) (value : β) : assign f none value = f := rfl

@[simp] theorem assign_some (f : ι → β) (i : ι) (value : β) : assign f (some i) value = update f i value := rfl

theorem assign_of_ne {f : ι → β} {target : Option ι} {value : β} {j : ι}
    (other : target ≠ some j) : assign f target value j = f j := by
  cases target with
  | none => rfl
  | some i =>
    have distinct : j ≠ i := fun same => other (by rw [same])
    simp [distinct]

def Threaded (next prev : ι → Option ι) (cells : List ι) : Prop :=
  ∀ front cell back, cells = front ++ cell :: back →
    prev cell = front.getLast? ∧ next cell = back.head?

omit [DecidableEq ι] in
theorem threaded_nil (next prev : ι → Option ι) : Threaded next prev [] := by
  intro front cell back split
  simp at split

variable {next prev : ι → Option ι} {cells : List ι}

omit [DecidableEq ι] in
theorem Threaded.congr {next' prev' : ι → Option ι} (threaded : Threaded next prev cells)
    (sameNext : ∀ cell ∈ cells, next' cell = next cell)
    (samePrev : ∀ cell ∈ cells, prev' cell = prev cell) : Threaded next' prev' cells := by
  intro front cell back split
  have member : cell ∈ cells := by simp [split]
  rw [sameNext cell member, samePrev cell member]
  exact threaded front cell back split

theorem Threaded.append {fresh : ι}
    (threaded : Threaded next prev cells) (nodup : cells.Nodup) (absent : fresh ∉ cells) :
    Threaded (assign (update next fresh none) cells.getLast? (some fresh))
      (update prev fresh cells.getLast?) (cells ++ [fresh]) := by
  intro front cell back split
  rcases eq_nil_or_concat' back with rfl | ⟨back, last, rfl⟩
  · -- the cell is the fresh one
    obtain ⟨rfl, same⟩ := append_inj' split rfl
    obtain rfl : fresh = cell := by simpa using same
    have notLast : cells.getLast? ≠ some fresh := fun last =>
      absent (mem_of_getLast? last)
    simp [assign_of_ne notLast]
  · have split' : cells ++ [fresh] = (front ++ cell :: back) ++ [last] := by simp [split]
    obtain ⟨rfl, same⟩ := append_inj' split' rfl
    obtain rfl : fresh = last := by simpa using same
    obtain ⟨before, after⟩ := threaded front cell back rfl
    have distinct : cell ≠ fresh := fun same => absent (by simp [same])
    refine ⟨by simp [distinct, before], ?_⟩
    rcases eq_nil_or_concat' back with rfl | ⟨middle, final, rfl⟩
    · simp
    · -- only the last cell's forward pointer changes
      have other : (front ++ cell :: (middle ++ [final])).getLast? ≠ some cell := by
        simp only [nodup_append, nodup_cons] at nodup
        have : cell ≠ final := fun same => nodup.2.1.1 (by simp [same])
        simp [getLast?_cons, this.symm]
      rw [assign_of_ne other, update_of_ne distinct, after]
      cases middle <;> simp

theorem Threaded.unlink {front back : List ι} {gone : ι} (threaded : Threaded next prev (front ++ gone :: back))
    (nodup : (front ++ gone :: back).Nodup) :
    Threaded (assign next front.getLast? back.head?) (assign prev back.head? front.getLast?) (front ++ back) := by
  have disjoint : ∀ cell ∈ front, cell ∉ back := by
    intro cell inFront inBack
    exact (nodup_append.mp nodup).2.2 cell inFront cell (by simp [inBack]) rfl
  intro before cell after split
  rcases append_eq_append_iff.mp split with ⟨middle, rfl, rfl⟩ | ⟨middle, rfl, same⟩
  · -- the cell stands behind the gap
    have links := threaded (front ++ gone :: middle) cell after (by simp)
    have notFront : front.getLast? ≠ some cell := fun last =>
      disjoint cell (mem_of_getLast? last) (by simp)
    rw [assign_of_ne notFront, links.2]
    refine ⟨?_, rfl⟩
    cases middle with
    | nil => simp
    | cons first middle =>
      have distinct : first ≠ cell := by
        rintro rfl
        have := (nodup_append.mp nodup).2.1
        simp at this
      rw [assign_of_ne (by simpa using distinct), links.1]
      simp [getLast?_append, getLast?_cons]
  · cases middle with
    | nil =>
      obtain rfl : cell :: after = back := by simpa using same
      have links := threaded (before ++ [gone]) cell after (by simp)
      have notFront : (before ++ []).getLast? ≠ some cell := fun last =>
        disjoint cell (mem_of_getLast? last) (by simp)
      rw [assign_of_ne notFront, links.2]
      simp
    | cons first middle =>
      -- the cell stands before the gap
      obtain ⟨rfl, rfl⟩ : cell = first ∧ after = middle ++ back := by simpa using same
      have links := threaded before cell (middle ++ gone :: back) (by simp)
      have notBack : back.head? ≠ some cell := fun head =>
        disjoint cell (by simp) (mem_of_head? head)
      rw [assign_of_ne notBack, links.1]
      refine ⟨rfl, ?_⟩
      rcases eq_nil_or_concat' middle with rfl | ⟨middle, last, rfl⟩
      · simp
      · have distinct : last ≠ cell := by
          rintro rfl
          simp [nodup_append] at nodup
        have notLast : (before ++ cell :: (middle ++ [last])).getLast? ≠ some cell := by
          simp [getLast?_cons, distinct]
        rw [assign_of_ne notLast, links.2]
        cases middle <;> simp

end Flinstone.Lib
