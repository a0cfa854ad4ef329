import Mathlib.Algebra.BigOperators.Fin
import Mathlib.Data.Fintype.BigOperators
import Mathlib.Logic.Equiv.Fin.Basic

/-! # Bitmaps -/

namespace Flinstone.Lib

abbrev Bitmap (m w : Nat) := Fin m → BitVec w

namespace Bitmap
variable {m w : Nat}

def test (b : Bitmap m w) (i : Nat) : Bool := if h : i / w < m then (b ⟨i / w, h⟩).getLsbD (i % w) else false

variable {r i : Nat}

theorem div_mod_place (bit : r < w) (q : Nat) : (q * w + r) / w = q ∧ (q * w + r) % w = r := by
  rw [mul_comm]
  constructor
  · rw [Nat.mul_add_div (by omega), Nat.div_eq_of_lt bit, add_zero]
  · rw [Nat.mul_add_mod, Nat.mod_eq_of_lt bit]

theorem exists_place (low : i < m * w) : ∃ (q : Fin m) (r : Nat), r < w ∧ i = q * w + r := by
  have positive : 0 < w := Nat.pos_of_ne_zero fun none => by simp [none] at low
  refine ⟨⟨i / w, (Nat.div_lt_iff_lt_mul positive).mpr low⟩, i % w, Nat.mod_lt i positive, ?_⟩
  rw [mul_comm]
  exact (Nat.div_add_mod i w).symm

variable (b : Bitmap m w)

theorem test_place (q : Fin m) (bit : r < w) : b.test (q * w + r) = (b q).getLsbD r := by
  obtain ⟨word, place⟩ := div_mod_place bit q
  simp only [test, word, place, q.isLt, dif_pos]

theorem test_update {q : Nat} (word : q < m) (bit : r < w) {x : BitVec w} (new : Bool)
    (changes : ∀ i < w, x.getLsbD i = if i = r then new else (b ⟨q, word⟩).getLsbD i)
    (low : i < m * w) :
    test (Function.update b ⟨q, word⟩ x) i = if i = q * w + r then new else b.test i := by
  obtain ⟨p, k, inside, rfl⟩ := exists_place low
  have apart : p * w + k = q * w + r ↔ p = q ∧ k = r := by
    constructor
    · intro same
      have there := div_mod_place bit q
      rw [← same] at there
      have here := div_mod_place inside p
      exact ⟨here.1.symm.trans there.1, here.2.symm.trans there.2⟩
    · rintro ⟨rfl, rfl⟩
      rfl
  rw [test_place _ p inside, test_place _ p inside, Function.update_apply]
  by_cases here : p = ⟨q, word⟩
  · subst here
    simp [changes k inside]
  · have other : ¬ (p : Nat) = q := fun same => here (Fin.ext same)
    simp [apart, here, other]

theorem test_lowest (q : Fin m) (room : b q ≠ BitVec.allOnes w)
    (full : ∀ p < q, b p = BitVec.allOnes w) :
    (~~~ b q).ctz.toNat < w ∧ b.test (q * w + (~~~ b q).ctz.toNat) = false ∧
      ∀ i < q * w + (~~~ b q).ctz.toNat, b.test i = true := by
  have some : ~~~ b q ≠ 0#w := fun none => room (by rw [← BitVec.not_not (b := b q), none, BitVec.not_zero])
  have found := BitVec.getLsbD_true_ctz_of_ne_zero some
  have bit : (~~~ b q).ctz.toNat < w := BitVec.lt_of_getLsbD found
  refine ⟨bit, ?_, fun i lower => ?_⟩
  · rw [test_place b q bit]
    simpa [bit] using found
  · obtain ⟨p, r, inside, rfl⟩ := exists_place (m := m) (w := w) (i := i) (by
      have last : q * w + w ≤ m * w := by
        rw [← Nat.succ_mul]
        exact Nat.mul_le_mul_right w q.isLt
      omega)
    rw [test_place b p inside]
    rcases lt_trichotomy p q with earlier | rfl | later
    · rw [full p earlier]
      simp [inside]
    · have clear := BitVec.getLsbD_false_of_lt_ctz (x := ~~~ b p) (i := r) (by omega)
      simpa [inside] using clear
    · have further : q * w + w ≤ p * w := by
        rw [← Nat.succ_mul]
        exact Nat.mul_le_mul_right w later
      omega

theorem cpop_eq_sum (x : BitVec w) : x.cpop.toNat = ∑ i : Fin w, (x.getLsbD i).toNat := by
  have counted : ∀ n, x.cpopNatRec n 0 = ∑ i ∈ Finset.range n, (x.getLsbD i).toNat := by
    intro n
    induction n with
    | zero => rfl
    | succ n ih => rw [BitVec.cpopNatRec_succ, BitVec.cpopNatRec_add, ih, Finset.sum_range_succ]
  rw [BitVec.toNat_cpop, counted, Finset.sum_range fun i => (x.getLsbD i).toNat]

def clear (b : Bitmap m w) : Finset (Fin (m * w)) := Finset.univ.filter fun i => b.test i = false

theorem mem_clear {b : Bitmap m w} {i : Fin (m * w)} : i ∈ b.clear ↔ b.test i = false := by
  simp [clear]

theorem card_clear : b.clear.card = ∑ q, (~~~ b q).cpop.toNat := by
  rw [clear, Finset.card_filter, ← finProdFinEquiv.sum_comp, Fintype.sum_prod_type]
  refine Finset.sum_congr rfl fun q _ => ?_
  rw [cpop_eq_sum]
  refine Finset.sum_congr rfl fun r _ => ?_
  have place : (finProdFinEquiv (q, r) : Fin (m * w)).val = q * w + r := by
    rw [finProdFinEquiv_apply_val, mul_comm, add_comm]
  rw [place, test_place b q r.isLt, BitVec.getLsbD_not, decide_eq_true r.isLt, Bool.true_and]
  cases (b q).getLsbD r <;> rfl

end Bitmap

end Flinstone.Lib
