import Mathlib.Data.List.Basic

/-! # Stores in a buffer -/

namespace Flinstone.Lib
open List
variable {α : Type}

def storeAt (buf : List α) (off : Nat) (data : List α) : Option (List α) :=
  if off + data.length ≤ buf.length then some (buf.take off ++ data ++ buf.drop (off + data.length)) else none

theorem storeAt_behind {front : List α} {off : Nat} (filled : front.length = off) (back data : List α)
    (fits : data.length ≤ back.length) :
    storeAt (front ++ back) off data = some (front ++ data ++ back.drop data.length) := by
  subst filled
  rw [storeAt, if_pos (by rw [length_append]; omega), take_left, drop_append,
    drop_of_length_le (Nat.le_add_right _ _), Nat.add_sub_cancel_left, nil_append]

end Flinstone.Lib
