import Flinstone.Sched.Refinement

/-! # Histories of calls -/

namespace Flinstone.Sched
open Flinstone.Lib

variable {F A : Type}

def track (state : PriorityQueue F A × Mlq F A) (call : PqCall F A) : PriorityQueue F A × Mlq F A :=
  let (reply, pq) := pqCall state.1 call
  (pq, state.2.apply call reply)

def history (raw : PriorityQueue F A) (calls : List (PqCall F A)) : PriorityQueue F A × Mlq F A :=
  calls.foldl track (pqInit raw, Mlq.empty)

theorem history_append (raw : PriorityQueue F A) (calls later : List (PqCall F A)) :
    history raw (calls ++ later) = later.foldl track (history raw calls) :=
  List.foldl_append

theorem popReply_ret_eq_error (result : Option (PqTask F A)) : (popReply result).ret = -1 ↔ result = none := by
  cases result <;> simp [popReply]

variable {pq : PriorityQueue F A} {m : Mlq F A}

theorem pqPush_spec (rep : Represents pq m) (priority : Int) (fn : F) (arg : Option A) :
    ((pqPush pq priority (some fn) arg).1 = -1 ↔ priorityValid priority = false ∨ m.entries.length = 128) ∧
      ((pqPush pq priority (some fn) arg).1 ≠ -1 →
        ∀ e ∈ m.entries, e.slot ≠ slotOf (pqPush pq priority (some fn) arg).1) ∧
      Represents (pqPush pq priority (some fn) arg).2 (if (pqPush pq priority (some fn) arg).1 = -1 then m
          else m.push (layerOf priority) (pqPush pq priority (some fn) arg).1 fn arg) ∧
      ((pqPush pq priority (some fn) arg).1 = -1 → (pqPush pq priority (some fn) arg).2 = pq) := by
  have room := rep.room
  by_cases refused : priorityValid priority = false ∨ pq.freeTop = 0
  · have result : pqPush pq priority (some fn) arg = (-1, pq) := by
      rcases refused with invalid | full <;> simp [pqPush, *]
    have reason : priorityValid priority = false ∨ m.entries.length = 128 := refused.imp id fun full => by omega
    rw [result]
    simpa [reason] using rep
  · simp only [not_or, Bool.not_eq_false] at refused
    obtain ⟨slot, handle, fresh, placed⟩ := rep.place refused.1 refused.2 fn arg
    have notError := pqMakeHandle_ne_error pq.nextGen slot
    rw [handle, if_neg notError, slotOf_make]
    refine ⟨?_, fun _ => fresh, placed, fun error => absurd error notError⟩
    simp only [notError, refused.1, false_iff]
    rintro (invalid | full)
    · cases invalid
    · omega

theorem pqCall_spec (rep : Represents pq m) (call : PqCall F A) :
    Represents (pqCall pq call).2 (m.apply call (pqCall pq call).1) ∧ m.Allows (pqCall pq call).1 call ∧
      ((pqCall pq call).1.ret = -1 → (pqCall pq call).2 = pq) := by
  cases call with
  | init => exact ⟨represents_init pq m, rfl, by simp [pqCall]⟩
  | push priority fn arg =>
    obtain ⟨error, fresh, placed, kept⟩ := pqPush_spec rep priority fn arg
    exact ⟨placed, ⟨rfl, error, fresh⟩, kept⟩
  | pop out =>
    obtain ⟨result, popped, kept⟩ := pqPop_spec rep out
    simp only [pqCall, Mlq.apply, Mlq.Allows, popReply_ret_eq_error]
    simp only [Option.isNone_iff_eq_none] at popped
    exact ⟨popped, by rw [result], kept⟩
  | popFromLayer layer out =>
    obtain ⟨result, popped, kept⟩ := pqPopFromLayer_spec rep layer out
    simp only [pqCall, Mlq.apply, Mlq.Allows, popReply_ret_eq_error]
    simp only [Option.isNone_iff_eq_none] at popped
    exact ⟨popped, by rw [result], kept⟩
  | update h newPriority =>
    obtain ⟨result, moved, kept⟩ := pqUpdate_spec rep h newPriority
    exact ⟨moved, by simp [pqCall, Mlq.Allows, result], kept⟩
  | remove h =>
    obtain ⟨result, removed, kept⟩ := pqRemove_spec rep h
    exact ⟨removed, by simp [pqCall, Mlq.Allows, result], kept⟩
  | setQuantum h quantum =>
    exact ⟨(pqSetQuantum_spec rep h quantum).1, rfl, by simp [pqCall]⟩

theorem track_represents (rep : Represents pq m) (calls : List (PqCall F A)) :
    Represents (calls.foldl track (pq, m)).1 (calls.foldl track (pq, m)).2 := by
  induction calls generalizing pq m with
  | nil => exact rep
  | cons call calls ih => exact ih (pqCall_spec rep call).1

theorem history_represents (raw : PriorityQueue F A) (calls : List (PqCall F A)) :
    Represents (history raw calls).1 (history raw calls).2 :=
  track_represents (represents_init raw Mlq.empty) calls

/-- After every history the memory represents four lists, and the next call does to them what they say. -/
theorem history_refines (raw : PriorityQueue F A) (calls : List (PqCall F A)) : let pq := (history raw calls).1
    let m := (history raw calls).2
    Represents pq m ∧ ∀ call, Represents (pqCall pq call).2 (m.apply call (pqCall pq call).1) ∧
        m.Allows (pqCall pq call).1 call ∧
        ((pqCall pq call).1.ret = -1 → (pqCall pq call).2 = pq) := by
  have rep := history_represents raw calls
  exact ⟨rep, fun call => pqCall_spec rep call⟩

theorem pqPop_fails_nonempty : let state := history (default : PriorityQueue Unit Unit) [.push 0 () none]
    (pqCall state.1 (.pop false)).1.ret = -1 ∧ ¬ ∀ layer, state.2.layers layer = [] := by
  refine ⟨rfl, fun empty => ?_⟩
  have occupied : ((history (default : PriorityQueue Unit Unit)
      [.push 0 () none]).2.layers 0).isEmpty = false := by decide
  rw [empty 0] at occupied
  cases occupied

theorem pqCountLayer_eq (rep : Represents pq m) {layer : Int} (valid : priorityValid layer = true) :
    pqCountLayer 128 pq layer = some (m.layers (layerOf layer)).length := by
  have count : ∀ fuel front back, front ++ back = m.slots (layerOf layer) → back.length ≤ fuel →
      countFrom pq.slotNext fuel back.head? = some back.length := by
    intro fuel
    induction fuel with
    | zero =>
      intro front back _ short
      obtain rfl : back = [] := List.length_eq_zero_iff.mp (Nat.le_zero.mp short)
      rfl
    | succ fuel ih =>
      intro front back split short
      cases back with
      | nil => rfl
      | cons cell back =>
        have next := (rep.linked.threaded (layerOf layer) front cell back split.symm).2
        have rest := ih (front ++ [cell]) back (by simpa using split) (by simpa using short)
        simp [countFrom, next, rest]
  have nodup := rep.distinct.nodup (layerOf layer)
  have bound : (m.slots (layerOf layer)).length ≤ 128 := by
    simpa using nodup.length_le_card
  have result := count 128 [] (m.slots (layerOf layer)) rfl bound
  simpa [pqCountLayer, valid, rep.linked.head, Mlq.slots] using result

theorem history_counts (raw : PriorityQueue F A) (calls : List (PqCall F A)) : let pq := (history raw calls).1
    let m := (history raw calls).2
    pqCount pq = m.entries.length ∧ (pqIsEmpty pq = true ↔ m.firstNonempty = none) ∧
      ∀ layer, pqCountLayer 128 pq layer =
        some (if priorityValid layer then (m.layers (layerOf layer)).length else 0) := by
  have rep := history_represents raw calls
  refine ⟨rep.size, ?_, fun layer => ?_⟩
  · rw [pqIsEmpty, beq_iff_eq, rep.size, Nat.cast_eq_zero, List.length_eq_zero_iff, Mlq.firstNonempty_eq_none]
    simp [Mlq.entries]
  · split
    · next valid => exact pqCountLayer_eq rep valid
    · next invalid => simp [pqCountLayer, invalid]

end Flinstone.Sched
