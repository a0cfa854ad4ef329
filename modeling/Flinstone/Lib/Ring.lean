import Mathlib.Data.Nat.ModEq
import Mathlib.Logic.Function.Basic

/-! # Ring indices -/

namespace Flinstone.Lib
open List

variable {cap : Nat} {α : Type}

structure Ring (cap : Nat) where
  head : Fin cap
  tail : Fin cap
  len : Nat
  bounded : len ≤ cap
  balanced : tail.val = (head.val + len) % cap

def advance (i : Fin cap) : Fin cap := ⟨(i.val + 1) % cap, Nat.mod_lt _ (Fin.pos i)⟩

namespace Ring

def empty (positive : 0 < cap) : Ring cap where
  head := ⟨0, positive⟩
  tail := ⟨0, positive⟩
  len := 0
  bounded := Nat.zero_le cap
  balanced := by simp

def push (r : Ring cap) (room : r.len < cap) : Ring cap where
  head := r.head
  tail := advance r.tail
  len := r.len + 1
  bounded := room
  balanced := by simp [advance, r.balanced, Nat.add_assoc]

def pop (r : Ring cap) (occupied : 0 < r.len) : Ring cap where
  head := advance r.head
  tail := r.tail
  len := r.len - 1
  bounded := (Nat.sub_le _ _).trans r.bounded
  balanced := by
    have sum : r.head.val + 1 + (r.len - 1) = r.head.val + r.len := by omega
    simp [advance, r.balanced, sum]

def place (r : Ring cap) (i : Nat) : Fin cap := ⟨(r.head.val + i) % cap, Nat.mod_lt _ (Fin.pos r.head)⟩

def window (r : Ring cap) (buf : Fin cap → α) : List α := (List.range r.len).map fun i => buf (r.place i)

variable (r : Ring cap)

@[simp] theorem length_window (buf : Fin cap → α) : (r.window buf).length = r.len := by
  simp [window]

theorem place_zero : r.place 0 = r.head := Fin.ext (Nat.mod_eq_of_lt r.head.isLt)

theorem place_len : r.place r.len = r.tail := Fin.ext r.balanced.symm

theorem place_ne_tail (room : r.len < cap) {i : Nat} (occupied : i < r.len) : r.place i ≠ r.tail := by
  intro same
  rw [← r.place_len] at same
  have offsets : i ≡ r.len [MOD cap] := Nat.ModEq.add_left_cancel' r.head.val (congrArg Fin.val same)
  have equal := Nat.ModEq.eq_of_lt_of_lt offsets (occupied.trans room) room
  omega

theorem place_pop (occupied : 0 < r.len) (i : Nat) : (r.pop occupied).place i = r.place (i + 1) := by
  simp [place, pop, advance, add_comm i 1, add_assoc]

theorem window_push (room : r.len < cap) (buf : Fin cap → α) (a : α) :
    (r.push room).window (Function.update buf r.tail a) = r.window buf ++ [a] := by
  have places (i : Nat) : (r.push room).place i = r.place i := rfl
  simp only [window, places]
  rw [show (r.push room).len = r.len + 1 from rfl, range_succ, map_append]
  congr 1
  · refine map_congr_left fun i member => ?_
    exact Function.update_of_ne (r.place_ne_tail room (mem_range.mp member)) a buf
  · simp [r.place_len]

theorem window_pop (occupied : 0 < r.len) (buf : Fin cap → α) :
    r.window buf = buf r.head :: (r.pop occupied).window buf := by
  have length : r.len = (r.pop occupied).len + 1 := by
    simp only [pop]
    omega
  simp only [window, length, range_succ_eq_map, map_cons, map_map, place_zero, place_pop]
  rfl

end Ring

end Flinstone.Lib
