import Flinstone.Sched.Layers
import Mathlib.Tactic.FinCases

/-! # The link arrays under unlinking and appending -/

namespace Flinstone.Sched
open Flinstone.Lib List Function

variable {F A : Type}

theorem getLsbD_setLayerNonempty (mask : BitVec 64) (layer : Layer) (nonempty : Bool) (i : Nat) :
    (setLayerNonempty mask layer nonempty).getLsbD i = if i = layer.val then nonempty else mask.getLsbD i := by
  have small : layer.val < 64 := by omega
  unfold setLayerNonempty
  rw [← BitVec.twoPow_eq]
  by_cases inside : i < 64
  · cases nonempty <;> by_cases same : i = layer.val <;> simp [same, small, inside, symm]
  · have other : i ≠ layer.val := by omega
    simp [other, BitVec.getLsbD_of_ge _ _ (Nat.le_of_not_lt inside)]

def Distinct (lists : Layer → List Slot) : Prop := ((List.finRange 4).flatMap lists).Nodup

variable {lists : Layer → List Slot} {layer : Layer} {slot : Slot} {pq : PriorityQueue F A}

theorem Distinct.nodup (distinct : Distinct lists) (layer : Layer) : (lists layer).Nodup :=
  (nodup_flatMap.mp distinct).1 layer (mem_finRange layer)

theorem Distinct.apart (distinct : Distinct lists) {other : Layer}
    (different : layer ≠ other) (member : slot ∈ lists layer) :
    slot ∉ lists other := by
  have pairwise := pairwise_iff_getElem.mp (nodup_flatMap.mp distinct).2
  have disjoint : ∀ a b : Layer, a < b → Disjoint (lists a) (lists b) := by
    intro a b below
    simpa using pairwise a b (by simp) (by simp) below
  intro inOther
  rcases lt_or_gt_of_ne different with below | above
  · exact disjoint layer other below member inOther
  · exact disjoint other layer above inOther member

theorem mask_update {mask mask' : BitVec 64} {cells : List Slot}
    (exact : ∀ i, mask.getLsbD i = true ↔ ∃ l : Layer, l.val = i ∧ lists l ≠ [])
    (changed : ∀ i, mask'.getLsbD i = if i = layer.val then !cells.isEmpty else mask.getLsbD i) :
    ∀ i, mask'.getLsbD i = true ↔ ∃ l : Layer, l.val = i ∧ update lists layer cells l ≠ [] := by
  intro i
  rw [changed i]
  by_cases isLayer : i = layer.val
  · subst isLayer
    constructor
    · intro nonempty
      exact ⟨layer, rfl, by simpa using nonempty⟩
    · rintro ⟨l, same, nonempty⟩
      obtain rfl := Fin.ext same
      simpa using nonempty
  · rw [if_neg isLayer, exact i]
    refine exists_congr fun l => and_congr_right fun same => ?_
    rw [update_of_ne fun equal => isLayer (by rw [← same, equal])]

theorem Linked.unlink {front back : List Slot} (linked : Linked pq lists) (distinct : Distinct lists)
    (split : lists layer = front ++ slot :: back) (priority : (pq.slots slot).priority = layer) :
    Linked (unlinkSlot pq slot) (update lists layer (front ++ back)) := by
  have threaded := linked.threaded layer
  rw [split] at threaded
  obtain ⟨prev, next⟩ := threaded front slot back rfl
  have head : ∀ l, (unlinkSlot pq slot).layerHead l = (update lists layer (front ++ back) l).head? := by
    intro l
    simp only [unlinkSlot, prev, next, priority]
    by_cases same : l = layer
    · subst same
      rcases front with _ | ⟨first, front⟩
      · simp
      · simp [linked.head, split, getLast?_cons]
    · split <;> simp [same, linked.head]
  refine ⟨fun l => ?_, head, fun l => ?_, fun i => ?_⟩
  · by_cases same : l = layer
    · subst same
      have nodup := distinct.nodup l
      rw [split] at nodup
      simpa [unlinkSlot, prev, next] using threaded.unlink nodup
    · -- the two cells whose pointers change belong to `layer`
      have outside : ∀ cell ∈ lists l, cell ∉ front ∧ cell ∉ back := by
        intro cell member
        have absent := distinct.apart same member
        rw [split] at absent
        simp at absent
        exact ⟨absent.1, absent.2.2⟩
      rw [update_of_ne same]
      refine (linked.threaded l).congr (fun cell member => ?_) (fun cell member => ?_)
      · simp only [unlinkSlot, prev]
        exact assign_of_ne fun last => (outside cell member).1 (mem_of_getLast? last)
      · simp only [unlinkSlot, next]
        exact assign_of_ne fun first => (outside cell member).2 (mem_of_head? first)
  · simp only [unlinkSlot, prev, next, priority]
    by_cases same : l = layer
    · subst same
      rcases eq_nil_or_concat' back with rfl | ⟨back, last, rfl⟩
      · simp
      · simp [linked.tail, split, getLast?_cons]
    · split <;> simp [same, linked.tail]
  · refine mask_update linked.mask (fun i => ?_) i
    have before : pq.nonemptyMask.getLsbD layer.val = true := (linked.mask layer.val).mpr ⟨layer, rfl, by simp [split]⟩
    have mask : (unlinkSlot pq slot).nonemptyMask = if ((unlinkSlot pq slot).layerHead layer).isNone then
          setLayerNonempty pq.nonemptyMask layer false
        else pq.nonemptyMask := by simp [unlinkSlot, priority]
    rw [mask, head layer, update_self]
    rcases remaining : front ++ back with _ | ⟨first, rest⟩
    · simp [getLsbD_setLayerNonempty]
    · by_cases isLayer : i = layer.val <;> simp [isLayer, before]

theorem Linked.append (linked : Linked pq lists) (distinct : Distinct lists) (absent : ∀ l, slot ∉ lists l)
    (layer : Layer) :
    Linked (appendToLayer pq slot layer) (update lists layer (lists layer ++ [slot])) := by
  have tail := linked.tail layer
  refine ⟨fun l => ?_, fun l => ?_, fun l => ?_, fun i => ?_⟩
  · by_cases same : l = layer
    · subst same
      simpa [appendToLayer, tail] using (linked.threaded l).append (distinct.nodup l) (absent l)
    · rw [update_of_ne same]
      refine (linked.threaded l).congr (fun cell member => ?_) (fun cell member => ?_)
      · have notSlot : cell ≠ slot := fun equal => absent l (equal ▸ member)
        have notTail : (lists layer).getLast? ≠ some cell := fun last =>
          distinct.apart same member (mem_of_getLast? last)
        simp only [appendToLayer, tail]
        rw [assign_of_ne notTail, update_of_ne notSlot]
      · have notSlot : cell ≠ slot := fun equal => absent l (equal ▸ member)
        simp [appendToLayer, notSlot]
  · simp only [appendToLayer, tail]
    by_cases same : l = layer
    · subst same
      rcases nonempty : lists l with _ | ⟨first, rest⟩
      · simp
      · simp [linked.head, nonempty, getLast?_cons]
    · split <;> simp [same, linked.head]
  · by_cases same : l = layer
    · subst same
      simp [appendToLayer]
    · simp [appendToLayer, same, linked.tail]
  · refine mask_update linked.mask (fun i => ?_) i
    have nonempty : (lists layer ++ [slot]).isEmpty = false := by simp
    by_cases isLayer : i = layer.val <;> simp [appendToLayer, getLsbD_setLayerNonempty, isLayer, nonempty]

end Flinstone.Sched
