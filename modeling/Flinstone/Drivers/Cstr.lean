import Flinstone.Lib.Bytes
import Mathlib.Logic.Function.Basic

/-!
# Copies of C strings

`fl_cstr.h`; the null pointer is the address 0.
-/

namespace Flinstone.Drivers
open Flinstone.Lib List Function

def scanLen (mem : Memory) (s maxLen n : Nat) : Nat :=
  if n < maxLen ∧ mem (s + n) ≠ 0 then scanLen mem s maxLen (n + 1) else n
termination_by maxLen - n

def flCstrLen (mem : Memory) (s maxLen : Nat) : Nat := if s = 0 then 0 else scanLen mem s maxLen 0

-- `dst[i] = src[i]`
def assignByte (dst src : Nat) (mem : Memory) (i : Nat) : Memory := update mem (dst + i) (mem (src + i))

def flCstrCopy (asmMemCopy : Memory → Nat → Nat → Nat → Memory) (dst dstLen src : Nat) (mem : Memory) : Memory :=
  if dst = 0 ∨ dstLen = 0 then mem
  else
    let n := flCstrLen mem src (dstLen - 1)
    let copied :=
      if n = 0 then mem
      else
        let dstEnd := (dst + n) % 2 ^ 64
        let srcEnd := (src + n) % 2 ^ 64
        if ¬ (src ≠ 0 ∧ dst < srcEnd ∧ dstEnd > src) then asmMemCopy mem dst src n
        else if dst ≤ src then (range n).foldl (assignByte dst src) mem
        else (range n).reverse.foldl (assignByte dst src) mem
    update copied (dst + n) 0

structure CString (mem : Memory) (s len : Nat) : Prop where
  nonnull : s ≠ 0
  chars : ∀ i < len, mem (s + i) ≠ 0
  ends : mem (s + len) = 0
  fits : s + len < 2 ^ 64

section
variable {mem : Memory} {s dst src len maxLen n : Nat}

theorem scanLen_eq (string : CString mem s len) (le : n ≤ min len maxLen) :
    scanLen mem s maxLen n = min len maxLen := by
  induction left : min len maxLen - n generalizing n with
  | zero =>
    rw [scanLen, if_neg]
    · omega
    · rintro ⟨below, char⟩
      obtain rfl : n = len := by omega
      exact char string.ends
  | succ left ih =>
    rw [scanLen, if_pos ⟨by omega, string.chars n (by omega)⟩]
    exact ih (by omega) (by omega)

theorem flCstrLen_eq (string : CString mem s len) (maxLen : Nat) : flCstrLen mem s maxLen = min len maxLen := by
  rw [flCstrLen, if_neg string.nonnull, scanLen_eq string (Nat.zero_le _)]

theorem assignByte_eq (mem : Memory) (i : Nat) :
    assignByte dst src mem i = mem.store 1 (dst + i) (mem.load 1 (src + i)) := by
  funext x
  unfold assignByte Memory.store
  by_cases here : x = dst + i
  · subst here
    rw [update_self, if_pos (by omega), Memory.load_byte (by omega)]
    congr 1
    omega
  · rw [update_of_ne here, if_neg (by omega)]

theorem foldl_assignByte (below : dst ≤ src) : (range n).foldl (assignByte dst src) mem = mem.copy dst src n := by
  induction n with
  | zero =>
    funext x
    exact (if_neg (by omega)).symm
  | succ n ih =>
    rw [range_succ, foldl_append, ih, foldl_cons, foldl_nil, assignByte_eq]
    exact Memory.copy_store (.inl below)

-- the bytes from `n` on are there already
theorem foldl_reverse_assignByte (mem : Memory) (above : src ≤ dst) (last : Nat) :
    (range n).reverse.foldl (assignByte dst src) (mem.copy (dst + n) (src + n) last) = mem.copy dst src (n + last) := by
  induction n generalizing last with
  | zero => rw [range_zero, reverse_nil, foldl_nil, zero_add, add_zero, add_zero]
  | succ n ih =>
    rw [range_succ, reverse_append, reverse_singleton, singleton_append, foldl_cons]
    have next : assignByte dst src (mem.copy (dst + (n + 1)) (src + (n + 1)) last) n =
        mem.copy (dst + n) (src + n) (last + 1) := by
      funext x
      unfold assignByte Memory.copy
      by_cases here : x = dst + n
      · subst here
        rw [update_self, if_neg (by omega), if_pos (by omega)]
        congr 1
        omega
      · rw [update_of_ne here]
        split <;> split <;> first | omega | rfl | (congr 1; omega)
    rw [next, ih, add_assoc, add_comm 1]

end

theorem fl_cstr_copy_moves (asmMemCopy : Memory → Nat → Nat → Nat → Memory)
    (copies : ∀ mem dst src n, dst + n ≤ 2 ^ 64 → src + n ≤ 2 ^ 64 → dst + n ≤ src ∨ src + n ≤ dst →
      asmMemCopy mem dst src n = mem.copy dst src n)
    (mem : Memory) (dst dstLen src len : Nat) (nonnull : dst ≠ 0) (room : 1 ≤ dstLen) (fits : dst + dstLen ≤ 2 ^ 64)
    (string : CString mem src len) :
    (∀ i < min len (dstLen - 1), flCstrCopy asmMemCopy dst dstLen src mem (dst + i) = mem (src + i)) ∧
      flCstrCopy asmMemCopy dst dstLen src mem (dst + min len (dstLen - 1)) = 0 ∧
      ∀ x, x < dst ∨ dst + dstLen ≤ x → flCstrCopy asmMemCopy dst dstLen src mem x = mem x := by
  have measured := flCstrLen_eq string (dstLen - 1)
  have string_fits := string.fits
  generalize counted : min len (dstLen - 1) = n at measured
  have moved : flCstrCopy asmMemCopy dst dstLen src mem = update (mem.copy dst src n) (dst + n) 0 := by
    unfold flCstrCopy
    rw [if_neg (by omega)]
    simp only [measured]
    congr 1
    split
    · next none =>
        funext x
        exact (if_neg (by omega)).symm
    · split
      · next apart =>
          have nonnull := string.nonnull
          exact copies mem dst src n (by omega) (by omega) (by omega)
      · split
        · next below => exact foldl_assignByte below
        · have nothing : mem.copy (dst + n) (src + n) 0 = mem := funext fun x => if_neg (by omega)
          have whole := foldl_reverse_assignByte mem (show src ≤ dst by omega) (n := n) 0
          rwa [nothing] at whole
  rw [moved]
  refine ⟨fun i below => ?_, update_self .., fun x outside => ?_⟩
  · rw [update_of_ne (by omega), Memory.copy_at below]
  · rw [update_of_ne (by omega), Memory.copy_apart (by omega)]

theorem fl_cstr_copy_moves_up :
    let mem : Memory := fun x => if 100 ≤ x ∧ x < 105 then BitVec.ofNat 8 (x - 3) else 0
    (∀ i < 5, flCstrCopy Memory.copy 102 14 100 mem (102 + i) = mem (100 + i)) ∧
      flCstrCopy Memory.copy 102 14 100 mem 107 = 0 := by
  intro mem
  have moved := fl_cstr_copy_moves Memory.copy (fun _ _ _ _ _ _ _ => rfl) mem 102 14 100 5 (by decide) (by decide)
    (by decide) ⟨by decide, by decide, by decide, by decide⟩
  exact ⟨moved.1, moved.2.1⟩

end Flinstone.Drivers
