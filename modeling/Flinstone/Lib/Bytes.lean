import Mathlib.Tactic.Ring

/-! # Numbers in a memory of bytes -/

namespace Flinstone.Lib
open BitVec

abbrev Memory := Nat → BitVec 8

namespace Memory
variable {mem mem' : Memory} {a n v x : Nat}

def load (mem : Memory) : Nat → Nat → Nat
  | 0, _ => 0
  | n + 1, a => (mem a).toNat + 256 * load mem n (a + 1)

def store (mem : Memory) (n a v : Nat) : Memory := fun x =>
  if a ≤ x ∧ x < a + n then BitVec.ofNat 8 (v / 256 ^ (x - a)) else mem x

def copy (mem : Memory) (dst src n : Nat) : Memory := fun x =>
  if dst ≤ x ∧ x < dst + n then mem (src + (x - dst)) else mem x

def zero (mem : Memory) (a n : Nat) : Memory := fun x => if a ≤ x ∧ x < a + n then 0 else mem x

def fill (mem : Memory) (a n : Nat) (b : BitVec 8) : Memory := fun x => if a ≤ x ∧ x < a + n then b else mem x

theorem load_lt : load mem n a < 256 ^ n := by
  induction n generalizing a with
  | zero => exact one_pos
  | succ n ih =>
    have rest := ih (a := a + 1)
    rw [load, pow_succ']
    omega

theorem load_congr (same : ∀ x, a ≤ x → x < a + n → mem' x = mem x) : load mem' n a = load mem n a := by
  induction n generalizing a with
  | zero => rfl
  | succ n ih =>
    rw [load, load, same a le_rfl (by omega), ih fun x above below => same x (by omega) (by omega)]

theorem load_digits (digits : ∀ i < n, mem (a + i) = BitVec.ofNat 8 (v / 256 ^ i)) : load mem n a = v % 256 ^ n := by
  induction n generalizing a v with
  | zero => rw [load, pow_zero, Nat.mod_one]
  | succ n ih =>
    have first := digits 0 (by omega)
    rw [add_zero, pow_zero, Nat.div_one] at first
    have rest : load mem n (a + 1) = v / 256 % 256 ^ n := by
      refine ih fun i below => ?_
      rw [Nat.div_div_eq_div_mul, ← pow_succ', ← digits (i + 1) (by omega)]
      congr 1
      omega
    rw [load, first, rest, pow_succ', Nat.mod_mul, toNat_ofNat]

theorem load_store (fits : v < 256 ^ n) : load (store mem n a v) n a = v := by
  rw [load_digits (v := v), Nat.mod_eq_of_lt fits]
  intro i below
  rw [store, if_pos (by omega), Nat.add_sub_cancel_left]

theorem store_apart (apart : x < a ∨ a + n ≤ x) : store mem n a v x = mem x := if_neg (by omega)

theorem store_mod : store mem n a (v % 256 ^ n) = store mem n a v := by
  funext x
  unfold store
  split
  · next inside =>
      obtain ⟨later, split⟩ : ∃ later, n = (x - a) + (later + 1) := ⟨n - (x - a) - 1, by omega⟩
      refine eq_of_toNat_eq ?_
      rw [toNat_ofNat, toNat_ofNat, split, pow_add, Nat.mod_mul_right_div_self, pow_succ]
      exact Nat.mod_mod_of_dvd _ (Dvd.intro_left _ rfl)
  · rfl

theorem store_comm {b w : Nat} (apart : a + n ≤ b ∨ b + n ≤ a) :
    store (store mem n a v) n b w = store (store mem n b w) n a v := by
  funext x
  unfold store
  split <;> split <;> first | rfl | omega

theorem load_byte {i : Nat} (below : i < n) : BitVec.ofNat 8 (load mem n a / 256 ^ i) = mem (a + i) := by
  induction n generalizing a i with
  | zero => omega
  | succ n ih =>
    cases i with
    | zero =>
      rw [load, pow_zero, Nat.div_one, add_zero, ofNat_add, ofNat_mul]
      simp
    | succ i =>
      have rest : load mem (n + 1) a / 256 = load mem n (a + 1) := by
        rw [load]
        omega
      rw [pow_succ', ← Nat.div_div_eq_div_mul, rest, ih (by omega), add_right_comm, add_assoc]

theorem load_lane {k w : Nat} (inside : k + w ≤ n) : load mem n a / 256 ^ k % 256 ^ w = load mem w (a + k) := by
  refine (load_digits fun i below => ?_).symm
  rw [Nat.div_div_eq_div_mul, ← pow_add, load_byte (by omega), add_assoc]

theorem store_lane {k w u : Nat} (inside : k + w ≤ n) (bytes : ∀ i < n, BitVec.ofNat 8 (u / 256 ^ i) =
      if k ≤ i ∧ i < k + w then BitVec.ofNat 8 (v / 256 ^ (i - k)) else mem (a + i)) :
    store mem n a u = store mem w (a + k) v := by
  funext x
  unfold store
  split
  · rw [bytes (x - a) (by omega)]
    split <;> split
    · congr 3
      omega
    · omega
    · omega
    · congr 1
      omega
  · rw [if_neg (by omega)]

theorem copy_at {src i : Nat} (below : i < n) : copy mem a src n (a + i) = mem (src + i) := by
  rw [copy, if_pos (by omega), Nat.add_sub_cancel_left]

theorem copy_apart (apart : x < a ∨ a + n ≤ x) {src : Nat} : copy mem a src n x = mem x := if_neg (by omega)

/-- The next `n` bytes of a copy that runs upwards: what is read has not been written yet. -/
theorem copy_store {src k : Nat} (unread : a ≤ src ∨ src + (k + n) ≤ a) :
    store (copy mem a src k) n (a + k) (load (copy mem a src k) n (src + k)) = copy mem a src (k + n) := by
  rw [load_congr fun x above below => copy_apart (by omega)]
  funext x
  unfold store
  split
  · rw [load_byte (by omega), copy, if_pos (by omega)]
    congr 1
    omega
  · unfold copy
    split <;> split <;> first | rfl | omega

theorem fill_store {b : BitVec 8} {k : Nat} (all : ∀ i < n, BitVec.ofNat 8 (v / 256 ^ i) = b) :
    store (fill mem a k b) n (a + k) v = fill mem a (k + n) b := by
  funext x
  unfold store
  split
  · rw [all _ (by omega), fill, if_pos (by omega)]
  · unfold fill
    split <;> split <;> first | rfl | omega

theorem zero_apart (apart : x < a ∨ a + n ≤ x) : zero mem a n x = mem x := if_neg (by omega)

theorem load_store_apart {b k : Nat} (apart : b + k ≤ a ∨ a + n ≤ b) : load (store mem n a v) k b = load mem k b :=
  load_congr fun x above below => store_apart (by omega)

end Memory

end Flinstone.Lib
