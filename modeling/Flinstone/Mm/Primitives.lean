import Flinstone.Lib.Bytes
import Flinstone.Lib.Code
import Mathlib.Logic.Function.Basic

/-!
# The assembly memory primitives

`mem_asm.s` of `arch/x86_64/gas` and `arch/arm/gas`.
-/

namespace Flinstone.Mm
open Flinstone.Lib Flinstone.Lib.Code

structure Cpu (ρ : Type) where
  regs : ρ → BitVec 64
  mem : Memory
  zf : Bool

namespace Cpu
variable {ρ : Type} [DecidableEq ρ]

def set (s : Cpu ρ) (r : ρ) (v : BitVec 64) : Cpu ρ := { s with regs := Function.update s.regs r v }

def setFlags (s : Cpu ρ) (r : ρ) (v : BitVec 64) : Cpu ρ := { s.set r v with zf := v == 0 }

def loaded (s : Cpu ρ) (bytes : Nat) (base : ρ) : BitVec 64 := BitVec.ofNat 64 (s.mem.load bytes (s.regs base).toNat)

def store (s : Cpu ρ) (bytes : Nat) (base : ρ) (v : BitVec 64) : Cpu ρ :=
  { s with mem := s.mem.store bytes (s.regs base).toNat v.toNat }

end Cpu

namespace X86

inductive Reg where
  | rax | rcx | rdx | rsi | rdi | r8 | r9 | r10 | r11
  deriving DecidableEq

open Reg

abbrev Instr := Code (Cpu Reg)

def movq (src dst : Reg) : Instr := op fun s => s.set dst (s.regs src)
def movqLoad (base dst : Reg) : Instr := op fun s => s.set dst (s.loaded 8 base)
def movqStore (src base : Reg) : Instr := op fun s => s.store 8 base (s.regs src)
-- the upper bytes of the register stay
def movbLoad (base dst : Reg) : Instr := op fun s => s.set dst (s.regs dst &&& ~~~0xff ||| s.loaded 1 base)
def movbStore (src base : Reg) : Instr := op fun s => s.store 1 base (s.regs src)
def movbImm (v : BitVec 64) (base : Reg) : Instr := op fun s => s.store 1 base v
def movzbl (src dst : Reg) : Instr := op fun s => s.set dst (s.regs src &&& 0xff)
def shrq (k : Nat) (r : Reg) : Instr := op fun s => s.setFlags r (s.regs r >>> k)
def shlq (k : Nat) (r : Reg) : Instr := op fun s => s.setFlags r (s.regs r <<< k)
def addq (v : BitVec 64) (r : Reg) : Instr := op fun s => s.setFlags r (s.regs r + v)
def incq (r : Reg) : Instr := op fun s => s.setFlags r (s.regs r + 1)
def decq (r : Reg) : Instr := op fun s => s.setFlags r (s.regs r - 1)
def andq (v : BitVec 64) (r : Reg) : Instr := op fun s => s.setFlags r (s.regs r &&& v)
def orq (src dst : Reg) : Instr := op fun s => s.setFlags dst (s.regs dst ||| s.regs src)
def xorq (src dst : Reg) : Instr := op fun s => s.setFlags dst (s.regs dst ^^^ s.regs src)
def testq (a b : Reg) : Instr := op fun s => { s with zf := s.regs a &&& s.regs b == 0 }
def jz (target : Nat) : Instr := jump (fun s => s.zf) target
def jnz (target : Nat) : Instr := jump (fun s => !s.zf) target

def asmMemCopy : List Instr := [
  movq rdi rax, movq rsi rcx, movq rdx r8, movq rdx r9, shrq 3 r9, testq r9 r9, jz 13,
  -- 7: `.L_copy_qwords`
  movqLoad rsi r10, movqStore r10 rdi, addq 8 rsi, addq 8 rdi, decq r9, jnz 7,
  -- 13: `.L_copy_bytes`
  andq 7 r8, testq r8 r8, jz 22,
  -- 16: `.L_copy_byte_loop`
  movbLoad rsi r10, movbStore r10 rdi, incq rsi, incq rdi, decq r8, jnz 16,
  -- 22: `.L_copy_done`
  ret]

def asmMemZero : List Instr := [
  movq rsi r8, xorq r10 r10, movq rsi r9, shrq 3 r9, testq r9 r9, jz 10,
  -- 6: `.L_zero_qwords`
  movqStore r10 rdi, addq 8 rdi, decq r9, jnz 6,
  -- 10: `.L_zero_bytes`
  andq 7 r8, testq r8 r8, jz 17,
  -- 13: `.L_zero_byte_loop`
  movbImm 0 rdi, incq rdi, decq r8, jnz 13,
  -- 17: `.L_zero_done`
  ret]

def asmBlockFill : List Instr := [
  movzbl rsi rsi, movq rdx r8, shrq 3 r8, testq r8 r8, jz 18,
  movq rsi r10, shlq 8 r10, orq rsi r10, movq r10 r11, shlq 16 r10, orq r11 r10, movq r10 r11, shlq 32 r10, orq r11 r10,
  -- 14: `.L_fill_qwords`
  movqStore r10 rdi, addq 8 rdi, decq r8, jnz 14,
  -- 18: `.L_fill_bytes`
  movq rdx r8, andq 7 r8, testq r8 r8, jz 26,
  -- 22: `.L_fill_byte_loop`
  movbStore rsi rdi, incq rdi, decq r8, jnz 22,
  -- 26: `.L_fill_done`
  ret]

end X86

namespace A64

inductive Reg where
  | x0 | x1 | x2 | x3 | x4 | x5 | d0
  deriving DecidableEq

open Reg

abbrev Instr := Code (Cpu Reg)

def mov (d n : Reg) : Instr := op fun s => s.set d (s.regs n)
def lsr (d n : Reg) (k : Nat) : Instr := op fun s => s.set d (s.regs n >>> k)
def and (d n : Reg) (v : BitVec 64) : Instr := op fun s => s.set d (s.regs n &&& v)
def subs (d n : Reg) (v : BitVec 64) : Instr := op fun s => s.setFlags d (s.regs n - v)
-- `ldr d, [base], #bytes`, and `ldrb` for a byte
def ldr (bytes : Nat) (d base : Reg) : Instr :=
  op fun s => (s.set d (s.loaded bytes base)).set base (s.regs base + BitVec.ofNat 64 bytes)
def str (bytes : Nat) (src base : Reg) : Instr :=
  op fun s => (s.store bytes base (s.regs src)).set base (s.regs base + BitVec.ofNat 64 bytes)
def strZero (bytes : Nat) (base : Reg) : Instr :=
  op fun s => (s.store bytes base 0).set base (s.regs base + BitVec.ofNat 64 bytes)
def dup (d n : Reg) : Instr := op fun s => s.set d (((s.regs n).setWidth 8).replicate 8)
def cbz (r : Reg) (target : Nat) : Instr := jump (fun s => s.regs r == 0) target
def bne (target : Nat) : Instr := jump (fun s => !s.zf) target

def asmMemCopy : List Instr := [
  cbz x2 14, mov x3 x2, lsr x4 x2 3, cbz x4 8,
  -- 4: `.L_copy_qwords`
  ldr 8 x5 x1, str 8 x5 x0, subs x4 x4 1, bne 4,
  -- 8: `.L_copy_bytes`
  and x3 x3 7, cbz x3 14,
  -- 10: `.L_copy_byte_loop`
  ldr 1 x5 x1, str 1 x5 x0, subs x3 x3 1, bne 10,
  -- 14: `.L_copy_done`
  ret]

def asmMemZero : List Instr := [
  cbz x1 12, mov x3 x1, lsr x4 x1 3, cbz x4 7,
  -- 4: `.L_zero_qwords`
  strZero 8 x0, subs x4 x4 1, bne 4,
  -- 7: `.L_zero_bytes`
  and x3 x3 7, cbz x3 12,
  -- 9: `.L_zero_byte_loop`
  strZero 1 x0, subs x3 x3 1, bne 9,
  -- 12: `.L_zero_done`
  ret]

def asmBlockFill : List Instr := [
  cbz x2 14, and x1 x1 0xff, dup d0 x1, mov x3 x2, lsr x4 x2 3, cbz x4 9,
  -- 6: `.L_fill_qwords`
  str 8 d0 x0, subs x4 x4 1, bne 6,
  -- 9: `.L_fill_bytes`
  and x3 x3 7, cbz x3 14,
  -- 11: `.L_fill_byte_loop`
  str 1 x1 x0, subs x3 x3 1, bne 11,
  -- 14: `.L_fill_done`
  ret]

end A64

/-! ## Loops over a range -/

theorem ofNat_succ_sub_one (j : Nat) : BitVec.ofNat 64 (j + 1) - 1 = BitVec.ofNat 64 j := by
  rw [BitVec.ofNat_add]
  exact BitVec.add_sub_cancel _ _

theorem ofNat_bne_zero {j : Nat} (small : j < 2 ^ 64) : (BitVec.ofNat 64 j != 0) = decide (j ≠ 0) := by
  refine Bool.eq_iff_iff.mpr ?_
  rw [bne_iff_ne, decide_eq_true_eq, ne_eq, ← BitVec.toNat_inj, BitVec.toNat_ofNat, Nat.mod_eq_of_lt small]
  rfl

theorem words_and_rest (z : BitVec 64) : 8 * (z >>> 3).toNat + (z &&& 7).toNat = z.toNat := by
  have rest : (z &&& 7).toNat = z.toNat % 2 ^ 3 := by
    exact Nat.and_two_pow_sub_one_eq_mod _ 3
  rw [BitVec.toNat_ushiftRight, Nat.shiftRight_eq_div_pow, rest]
  omega

section
variable {ρ : Type} {code : List (Code (Cpu ρ))} {Q : Cpu ρ → Prop} {P R : Nat → Cpu ρ → Prop} {count rest : ρ}
  {skip : Cpu ρ → Bool} {pc exit k n : Nat} {s s' : Cpu ρ}

/-- A loop that counts its passes down; `jnz` and `b.ne` close it. -/
structure Loop (code : List (Code (Cpu ρ))) (count : ρ) (pc exit : Nat) : Prop where
  closes : code[pc + blockLength (code.drop pc)]? = some (jump (fun s => !s.zf) pc)
  ends : pc + blockLength (code.drop pc) + 1 = exit
  counts : ∀ s, (block (code.drop pc) s).regs count = s.regs count - 1
  flags : ∀ s, (block (code.drop pc) s).zf = ((block (code.drop pc) s).regs count == 0)

theorem Loop.returns (loop : Loop code count pc exit) (bytes : Nat)
    (pass : ∀ k s, k + bytes ≤ n → P k s → P (k + bytes) (block (code.drop pc) s)) (start : P k s)
    (room : k + bytes * (s.regs count).toNat ≤ n) (some : s.regs count ≠ 0)
    (done : ∀ s', P (k + bytes * (s.regs count).toNat) s' → Returns code Q exit s') : Returns code Q pc s := by
  obtain ⟨left, total⟩ : ∃ left, (s.regs count).toNat = left + 1 :=
    Nat.exists_eq_succ_of_ne_zero fun none => some (BitVec.eq_of_toNat_eq none)
  have small := (s.regs count).isLt
  rw [total] at room done small
  refine .repeats (I := fun j s =>
    (∃ i, i + j = left + 1 ∧ P (k + bytes * i) s) ∧ s.regs count = BitVec.ofNat 64 j) loop.closes ?_ ?_
    ⟨⟨0, zero_add _, start⟩, BitVec.eq_of_toNat_eq (by rw [total, BitVec.toNat_ofNat, Nat.mod_eq_of_lt small])⟩
  · rintro j s ⟨⟨i, sum, here⟩, counted⟩
    have next : (block (code.drop pc) s).regs count = BitVec.ofNat 64 j := by
      rw [loop.counts, counted, ofNat_succ_sub_one]
    have further : bytes * (i + 1) ≤ bytes * (left + 1) := Nat.mul_le_mul_left _ (by omega)
    rw [Nat.mul_succ] at further
    have passed := pass (k + bytes * i) s (by omega) here
    rw [add_assoc, ← Nat.mul_succ] at passed
    refine ⟨⟨⟨i + 1, by omega, passed⟩, next⟩, ?_⟩
    rw [loop.flags, next]
    exact ofNat_bne_zero (by omega)
  · rintro s ⟨⟨i, sum, here⟩, -⟩
    obtain rfl : i = left + 1 := sum
    rw [loop.ends]
    exact done s here

theorem Loop.guarded (loop : Loop code count (pc + 1) exit) (guard : code[pc]? = some (jump skip exit)) (bytes : Nat)
    (pass : ∀ k s, k + bytes ≤ n → P k s → P (k + bytes) (block (code.drop (pc + 1)) s))
    (skips : skip s = (s.regs count == 0)) (start : P k s) (room : k + bytes * (s.regs count).toNat ≤ n)
    (done : ∀ s', P (k + bytes * (s.regs count).toNat) s' → Returns code Q exit s') : Returns code Q pc s := by
  refine .jump guard ?_
  rw [skips]
  by_cases none : s.regs count = 0
  · rw [none] at done ⊢
    exact done s start
  · rw [if_neg (by simpa using none)]
    exact loop.returns bytes pass start room none done

/-- From the last word on: what is left is counted, and done byte by byte. -/
theorem Loop.bytes {start : Nat} (loop : Loop code rest (pc + 1) exit) (z : BitVec 64)
    (leaves : code[exit]? = some ret) (guard : code[pc]? = some (jump skip exit))
    (before : start + blockLength (code.drop start) = pc)
    (pass : ∀ k s, k + 1 ≤ z.toNat → R k s → R (k + 1) (block (code.drop (pc + 1)) s))
    (skips : skip (block (code.drop start) s) = ((block (code.drop start) s).regs rest == 0))
    (counted : (block (code.drop start) s).regs rest = z &&& 7)
    (entered : R (8 * (z >>> 3).toNat) (block (code.drop start) s)) : Returns code (R z.toNat) start s := by
  have split := words_and_rest z
  subst before
  refine .block (loop.guarded guard 1 pass skips entered (by rw [counted]; omega) fun s here => .ret leaves ?_)
  rwa [counted, one_mul, split] at here

theorem Loop.words (loop : Loop code count (pc + 1) exit) (z : BitVec 64) (guard : code[pc]? = some (jump skip exit))
    (pass : ∀ k s, k + 8 ≤ z.toNat → P k s → P (k + 8) (block (code.drop (pc + 1)) s))
    (skips : skip s = (s.regs count == 0)) (counted : s.regs count = z >>> 3) (start : P 0 s)
    (done : ∀ s', P (8 * (z >>> 3).toNat) s' → Returns code Q exit s') : Returns code Q pc s := by
  have split := words_and_rest z
  refine loop.guarded guard 8 pass skips start (by rw [counted]; omega) fun s here => done s ?_
  rwa [counted, zero_add] at here

structure Copying (dst src : ρ) (mem : Memory) (d a k : Nat) (s : Cpu ρ) : Prop where
  mem : s.mem = mem.copy d a k
  dst : s.regs dst = BitVec.ofNat 64 (d + k)
  src : s.regs src = BitVec.ofNat 64 (a + k)

structure Filling (dst : ρ) (mem : Memory) (d : Nat) (b : BitVec 8) (k : Nat) (s : Cpu ρ) : Prop where
  mem : s.mem = mem.fill d k b
  dst : s.regs dst = BitVec.ofNat 64 (d + k)

variable {dst src : ρ} {mem : Memory} {d a bytes : Nat} {b : BitVec 8} {v : BitVec 64}

theorem Copying.pass (positive : 0 < bytes) (le : k + bytes ≤ n) (fits : d + n ≤ 2 ^ 64) (fits' : a + n ≤ 2 ^ 64)
    (unread : d ≤ a ∨ a + n ≤ d) (here : Copying dst src mem d a k s)
    (value : v.toNat % 256 ^ bytes = s.mem.load bytes (s.regs src).toNat)
    (stored : s'.mem = s.mem.store bytes (s.regs dst).toNat v.toNat)
    (dst_moved : s'.regs dst = s.regs dst + BitVec.ofNat 64 bytes)
    (src_moved : s'.regs src = s.regs src + BitVec.ofNat 64 bytes) : Copying dst src mem d a (k + bytes) s' := by
  refine ⟨?_, ?_, ?_⟩
  · rw [stored, ← Memory.store_mod, value, here.mem, here.dst, here.src, BitVec.toNat_ofNat, BitVec.toNat_ofNat,
      Nat.mod_eq_of_lt (by omega), Nat.mod_eq_of_lt (by omega)]
    exact Memory.copy_store (by omega)
  · rw [dst_moved, here.dst, ← BitVec.ofNat_add, add_assoc]
  · rw [src_moved, here.src, ← BitVec.ofNat_add, add_assoc]

theorem Filling.pass (positive : 0 < bytes) (le : k + bytes ≤ n) (fits : d + n ≤ 2 ^ 64)
    (here : Filling dst mem d b k s) (value : ∀ i < bytes, BitVec.ofNat 8 (v.toNat / 256 ^ i) = b)
    (stored : s'.mem = s.mem.store bytes (s.regs dst).toNat v.toNat)
    (dst_moved : s'.regs dst = s.regs dst + BitVec.ofNat 64 bytes) : Filling dst mem d b (k + bytes) s' := by
  refine ⟨?_, ?_⟩
  · rw [stored, here.mem, here.dst, BitVec.toNat_ofNat, Nat.mod_eq_of_lt (by omega)]
    exact Memory.fill_store value
  · rw [dst_moved, here.dst, ← BitVec.ofNat_add, add_assoc]

theorem Copying.start {x y : BitVec 64} (kept : s.mem = mem) (first : s.regs dst = x) (second : s.regs src = y) :
    Copying dst src mem x.toNat y.toNat 0 s := by
  refine ⟨kept.trans (funext fun x => (if_neg (by omega)).symm), ?_, ?_⟩
  · rw [first, add_zero, BitVec.ofNat_toNat, BitVec.setWidth_eq]
  · rw [second, add_zero, BitVec.ofNat_toNat, BitVec.setWidth_eq]

theorem Filling.start {x : BitVec 64} (kept : s.mem = mem) (first : s.regs dst = x) :
    Filling dst mem x.toNat b 0 s := by
  refine ⟨kept.trans (funext fun x => (if_neg (by omega)).symm), ?_⟩
  rw [first, add_zero, BitVec.ofNat_toNat, BitVec.setWidth_eq]

theorem Cpu.loaded_mod (s : Cpu ρ) (base : ρ) (short : bytes ≤ 8) :
    (s.loaded bytes base).toNat % 256 ^ bytes = s.mem.load bytes (s.regs base).toNat := by
  have small : s.mem.load bytes (s.regs base).toNat < 256 ^ bytes := Memory.load_lt
  have fits : 256 ^ bytes ≤ 256 ^ 8 := Nat.pow_le_pow_right (by decide) short
  rw [loaded, BitVec.toNat_ofNat, Nat.mod_eq_of_lt (by omega)]
  exact Nat.mod_eq_of_lt (by omega)

end

/-! ## x86-64 -/

theorem low_byte (b : BitVec 8) : ∀ i < 1, BitVec.ofNat 8 ((b.setWidth 64).toNat / 256 ^ i) = b := by
  intro i below
  obtain rfl : i = 0 := by omega
  refine BitVec.eq_of_toNat_eq ?_
  rw [BitVec.toNat_ofNat, BitVec.toNat_setWidth]
  omega

theorem replicate_bytes : ∀ b : BitVec 8, ∀ i < 8, BitVec.ofNat 8 ((b.replicate 8).toNat / 256 ^ i) = b := by
  decide +kernel

theorem and_low (y : BitVec 64) : y &&& 0xff = (y.setWidth 8).setWidth 64 := by
  refine BitVec.eq_of_toNat_eq ?_
  rw [BitVec.toNat_and, BitVec.toNat_setWidth, BitVec.toNat_setWidth]
  have low : y.toNat &&& 0xff = y.toNat % 2 ^ 8 := Nat.and_two_pow_sub_one_eq_mod _ 8
  change y.toNat &&& 0xff = _
  omega

namespace X86
open Reg

structure Called (mem : Memory) (x y z : BitVec 64) (s : Cpu Reg) : Prop where
  mem : s.mem = mem
  rdi : s.regs rdi = x
  rsi : s.regs rsi = y
  rdx : s.regs rdx = z

variable {mem : Memory} {x y z : BitVec 64} {s : Cpu Reg}

theorem testq_self (s : Cpu Reg) (r : Reg) : (s.regs r &&& s.regs r == 0) = (s.regs r == 0) := by rw [BitVec.and_self]

theorem movb_mod (s : Cpu Reg) :
    (s.regs r10 &&& ~~~0xff ||| s.loaded 1 rsi).toNat % 256 ^ 1 = s.mem.load 1 (s.regs rsi).toNat := by
  have low : (s.regs r10 &&& ~~~0xff ||| s.loaded 1 rsi).setWidth 8 = (s.loaded 1 rsi).setWidth 8 := by
    have none : (~~~0xff : BitVec 64).setWidth 8 = 0#8 := by decide
    rw [BitVec.setWidth_or, BitVec.setWidth_and, none, BitVec.and_zero, BitVec.zero_or]
  have same := congrArg BitVec.toNat low
  exact same.trans (s.loaded_mod rsi (by decide))

theorem asmMemCopy_returns (called : Called mem x y z s) (fits : x.toNat + z.toNat ≤ 2 ^ 64)
    (fits' : y.toNat + z.toNat ≤ 2 ^ 64) (unread : x.toNat ≤ y.toNat ∨ y.toNat + z.toNat ≤ x.toNat) :
    Returns asmMemCopy (Copying rdi rsi mem x.toNat y.toNat z.toNat) 0 s := by
  have words : Loop asmMemCopy r9 7 13 := ⟨rfl, rfl, fun _ => rfl, fun _ => rfl⟩
  have bytes : Loop asmMemCopy r8 16 22 := ⟨rfl, rfl, fun _ => rfl, fun _ => rfl⟩
  refine .block (words.words z (P := fun k s => Copying rdi rsi mem x.toNat y.toNat k s ∧ s.regs r8 = z) rfl
    (fun k s le here => ?_) (testq_self _ _) ?_ ?_ fun s here => bytes.bytes z rfl rfl rfl (fun k s le here => ?_)
    (testq_self _ _) ?_ ?_)
  · exact ⟨here.1.pass (by decide) le fits fits' unread (s.loaded_mod rsi (by decide)) rfl rfl rfl, here.2⟩
  · exact congrArg (fun v : BitVec 64 => v >>> 3) called.rdx
  · exact ⟨.start called.mem called.rdi called.rsi, called.rdx⟩
  · exact here.pass (by decide) le fits fits' unread (movb_mod s) rfl rfl rfl
  · exact congrArg (fun v : BitVec 64 => v &&& 7) here.2
  · exact ⟨here.1.mem, here.1.dst, here.1.src⟩

theorem asmMemZero_returns (called : Called mem x y z s) (fits : x.toNat + y.toNat ≤ 2 ^ 64) :
    Returns asmMemZero (Filling rdi mem x.toNat 0 y.toNat) 0 s := by
  have words : Loop asmMemZero r9 6 10 := ⟨rfl, rfl, fun _ => rfl, fun _ => rfl⟩
  have bytes : Loop asmMemZero r8 13 17 := ⟨rfl, rfl, fun _ => rfl, fun _ => rfl⟩
  refine .block (words.words y (P := fun k s => Filling rdi mem x.toNat 0 k s ∧ s.regs r8 = y ∧ s.regs r10 = 0) rfl
    (fun k s le here => ?_) (testq_self _ _) ?_ ?_ fun s here => bytes.bytes y rfl rfl rfl (fun k s le here => ?_)
    (testq_self _ _) ?_ ?_)
  · exact ⟨here.1.pass (v := s.regs r10) (by decide) le fits (by rw [here.2.2]; decide) rfl rfl, here.2⟩
  · exact congrArg (fun v : BitVec 64 => v >>> 3) called.rsi
  · exact ⟨.start called.mem called.rdi, called.rsi, BitVec.xor_self⟩
  · exact here.pass (v := 0) (by decide) le fits (by decide) rfl rfl
  · exact congrArg (fun v : BitVec 64 => v &&& 7) here.2.1
  · exact ⟨here.1.mem, here.1.dst⟩

def spread (b : BitVec 64) : BitVec 64 :=
  let two := b <<< 8 ||| b
  let four := two <<< 16 ||| two
  four <<< 32 ||| four

theorem spread_eq : ∀ b : BitVec 8, spread (b.setWidth 64) = b.replicate 8 := by decide +kernel

theorem asmBlockFill_returns (called : Called mem x y z s) (fits : x.toNat + z.toNat ≤ 2 ^ 64) :
    Returns asmBlockFill (Filling rdi mem x.toNat (y.setWidth 8) z.toNat) 0 s := by
  have words : Loop asmBlockFill r8 14 18 := ⟨rfl, rfl, fun _ => rfl, fun _ => rfl⟩
  have bytes : Loop asmBlockFill r8 22 26 := ⟨rfl, rfl, fun _ => rfl, fun _ => rfl⟩
  let P (k : Nat) (s : Cpu Reg) : Prop :=
    Filling rdi mem x.toNat (y.setWidth 8) k s ∧ s.regs rdx = z ∧ s.regs rsi = (y.setWidth 8).setWidth 64
  have tail : ∀ s, P (8 * (z >>> 3).toNat) s →
      Returns asmBlockFill (Filling rdi mem x.toNat (y.setWidth 8) z.toNat) 18 s := by
    refine fun s here => .mono (bytes.bytes z (R := fun k s => Filling rdi mem x.toNat (y.setWidth 8) k s ∧
      s.regs rsi = (y.setWidth 8).setWidth 64) rfl rfl rfl (fun k s le here => ?_) (testq_self _ _) ?_ ?_)
      fun _ => And.left
    · exact ⟨here.1.pass (by decide) le fits (by rw [here.2]; exact low_byte _) rfl rfl, here.2⟩
    · exact congrArg (fun v : BitVec 64 => v &&& 7) here.2.1
    · exact ⟨⟨here.1.mem, here.1.dst⟩, here.2.2⟩
  refine .block (.jump rfl ?_)
  generalize entered : block (asmBlockFill.drop 0) s = s₁
  have start : P 0 s₁ := by
    subst entered
    refine ⟨.start called.mem called.rdi, called.rdx, ?_⟩
    rw [← and_low, ← called.rsi]
    rfl
  have counted : s₁.regs r8 = z >>> 3 := by
    rw [← entered, ← called.rdx]
    rfl
  have tested : s₁.zf = (s₁.regs r8 == 0) := by
    subst entered
    exact testq_self _ _
  rw [tested]
  by_cases none : s₁.regs r8 = 0
  · rw [if_pos (by simp [none])]
    refine tail s₁ ?_
    rwa [← counted, none]
  · rw [if_neg (by simpa using none)]
    iterate 9 refine .op rfl ?_
    have split := words_and_rest z
    have eight : spread (s₁.regs rsi) = (y.setWidth 8).replicate 8 := by rw [start.2.2, spread_eq]
    refine words.returns 8 (n := z.toNat) (P := fun k s => P k s ∧ s.regs r10 = (y.setWidth 8).replicate 8)
      (fun k s le here => ?_) ⟨⟨⟨start.1.mem, start.1.dst⟩, start.2⟩, eight⟩ ?_ none ?_
    · exact ⟨⟨here.1.1.pass (by decide) le fits (by rw [here.2]; exact replicate_bytes _) rfl rfl, here.1.2⟩, here.2⟩
    · change 0 + 8 * (s₁.regs r8).toNat ≤ _
      rw [counted]
      omega
    · rintro s ⟨here, -⟩
      change P (0 + 8 * (s₁.regs r8).toNat) s at here
      rw [counted, zero_add] at here
      exact tail s here

end X86

/-! ## AArch64 -/

namespace A64
open Reg

structure Called (mem : Memory) (x y z : BitVec 64) (s : Cpu Reg) : Prop where
  mem : s.mem = mem
  x0 : s.regs x0 = x
  x1 : s.regs x1 = y
  x2 : s.regs x2 = z

variable {mem : Memory} {x y z : BitVec 64} {s : Cpu Reg}

theorem returns_cbz {code : List Instr} {Q : Cpu Reg → Prop} {r : Reg} {target : Nat}
    (first : code[0]? = some (cbz r target)) (last : code[target]? = some ret) (nothing : s.regs r = 0 → Q s)
    (next : Returns code Q 1 s) : Returns code Q 0 s := by
  refine .jump first ?_
  by_cases none : s.regs r = 0
  · rw [if_pos (by simp [none])]
    exact .ret last (nothing none)
  · rwa [if_neg (by simpa using none)]

theorem asmMemCopy_returns (called : Called mem x y z s) (fits : x.toNat + z.toNat ≤ 2 ^ 64)
    (fits' : y.toNat + z.toNat ≤ 2 ^ 64) (unread : x.toNat ≤ y.toNat ∨ y.toNat + z.toNat ≤ x.toNat) :
    Returns asmMemCopy (Copying .x0 .x1 mem x.toNat y.toNat z.toNat) 0 s := by
  have words : Loop asmMemCopy x4 4 8 := ⟨rfl, rfl, fun _ => rfl, fun _ => rfl⟩
  have bytes : Loop asmMemCopy x3 10 14 := ⟨rfl, rfl, fun _ => rfl, fun _ => rfl⟩
  have start : Copying .x0 .x1 mem x.toNat y.toNat 0 s := .start called.mem called.x0 called.x1
  refine returns_cbz rfl rfl (fun none => ?_) (.block (words.words z
    (P := fun k s => Copying .x0 .x1 mem x.toNat y.toNat k s ∧ s.regs x3 = z) rfl (fun k s le here => ?_) rfl ?_ ?_
    fun s here => bytes.bytes z rfl rfl rfl (fun k s le here => ?_) rfl ?_ ?_))
  · rwa [← called.x2, none]
  · exact ⟨here.1.pass (by decide) le fits fits' unread (s.loaded_mod .x1 (by decide)) rfl rfl rfl, here.2⟩
  · exact congrArg (fun v : BitVec 64 => v >>> 3) called.x2
  · exact ⟨⟨start.mem, start.dst, start.src⟩, called.x2⟩
  · exact here.pass (by decide) le fits fits' unread (s.loaded_mod .x1 (by decide)) rfl rfl rfl
  · exact congrArg (fun v : BitVec 64 => v &&& 7) here.2
  · exact ⟨here.1.mem, here.1.dst, here.1.src⟩

theorem asmMemZero_returns (called : Called mem x y z s) (fits : x.toNat + y.toNat ≤ 2 ^ 64) :
    Returns asmMemZero (Filling .x0 mem x.toNat 0 y.toNat) 0 s := by
  have words : Loop asmMemZero x4 4 7 := ⟨rfl, rfl, fun _ => rfl, fun _ => rfl⟩
  have bytes : Loop asmMemZero x3 9 12 := ⟨rfl, rfl, fun _ => rfl, fun _ => rfl⟩
  have start : Filling .x0 mem x.toNat 0 0 s := .start called.mem called.x0
  refine returns_cbz rfl rfl (fun none => ?_) (.block (words.words y
    (P := fun k s => Filling .x0 mem x.toNat 0 k s ∧ s.regs x3 = y) rfl (fun k s le here => ?_) rfl ?_ ?_
    fun s here => bytes.bytes y rfl rfl rfl (fun k s le here => ?_) rfl ?_ ?_))
  · rwa [← called.x1, none]
  · exact ⟨here.1.pass (v := 0) (by decide) le fits (by decide) rfl rfl, here.2⟩
  · exact congrArg (fun v : BitVec 64 => v >>> 3) called.x1
  · exact ⟨⟨start.mem, start.dst⟩, called.x1⟩
  · exact here.pass (v := 0) (by decide) le fits (by decide) rfl rfl
  · exact congrArg (fun v : BitVec 64 => v &&& 7) here.2
  · exact ⟨here.1.mem, here.1.dst⟩

theorem asmBlockFill_returns (called : Called mem x y z s) (fits : x.toNat + z.toNat ≤ 2 ^ 64) :
    Returns asmBlockFill (Filling .x0 mem x.toNat (y.setWidth 8) z.toNat) 0 s := by
  have words : Loop asmBlockFill x4 6 9 := ⟨rfl, rfl, fun _ => rfl, fun _ => rfl⟩
  have bytes : Loop asmBlockFill x3 11 14 := ⟨rfl, rfl, fun _ => rfl, fun _ => rfl⟩
  have start : Filling .x0 mem x.toNat (y.setWidth 8) 0 s := .start called.mem called.x0
  have byte : s.regs .x1 &&& 0xff = (y.setWidth 8).setWidth 64 := by rw [called.x1, and_low]
  have eight : ((s.regs .x1 &&& 0xff).setWidth 8).replicate 8 = (y.setWidth 8).replicate 8 := by
    rw [byte, BitVec.setWidth_setWidth_of_le _ (by decide), BitVec.setWidth_eq]
  refine returns_cbz rfl rfl (fun none => ?_) (.block (words.words z (P := fun k s =>
      (Filling .x0 mem x.toNat (y.setWidth 8) k s ∧ s.regs .x1 = (y.setWidth 8).setWidth 64) ∧
        s.regs x3 = z ∧ s.regs d0 = (y.setWidth 8).replicate 8) rfl (fun k s le here => ?_) rfl ?_ ?_
    fun s here => (bytes.bytes z (R := fun k s =>
      Filling .x0 mem x.toNat (y.setWidth 8) k s ∧ s.regs .x1 = (y.setWidth 8).setWidth 64) rfl rfl rfl
      (fun k s le here => ?_) rfl ?_ ?_).mono fun _ => And.left))
  · rwa [← called.x2, none]
  · exact ⟨⟨here.1.1.pass (by decide) le fits (by rw [here.2.2]; exact replicate_bytes _) rfl rfl, here.1.2⟩, here.2⟩
  · exact congrArg (fun v : BitVec 64 => v >>> 3) called.x2
  · exact ⟨⟨⟨start.mem, start.dst⟩, byte⟩, called.x2, eight⟩
  · exact ⟨here.1.pass (by decide) le fits (by rw [here.2]; exact low_byte _) rfl rfl, here.2⟩
  · exact congrArg (fun v : BitVec 64 => v &&& 7) here.2.1
  · exact ⟨⟨here.1.1.mem, here.1.1.dst⟩, here.1.2⟩

end A64

theorem mem_asm_primitives (mem : Memory) (x y z : BitVec 64) (s : Cpu X86.Reg) (t : Cpu A64.Reg)
    (called : X86.Called mem x y z s) (called' : A64.Called mem x y z t) :
    (x.toNat + y.toNat ≤ 2 ^ 64 →
      Returns X86.asmMemZero (fun s' => s'.mem = mem.fill x.toNat y.toNat 0) 0 s ∧
      Returns A64.asmMemZero (fun t' => t'.mem = mem.fill x.toNat y.toNat 0) 0 t) ∧
    (x.toNat + z.toNat ≤ 2 ^ 64 →
      Returns X86.asmBlockFill (fun s' => s'.mem = mem.fill x.toNat z.toNat (y.setWidth 8)) 0 s ∧
      Returns A64.asmBlockFill (fun t' => t'.mem = mem.fill x.toNat z.toNat (y.setWidth 8)) 0 t) ∧
    (x.toNat + z.toNat ≤ 2 ^ 64 → y.toNat + z.toNat ≤ 2 ^ 64 →
      x.toNat + z.toNat ≤ y.toNat ∨ y.toNat + z.toNat ≤ x.toNat ∨ x.toNat < y.toNat →
      Returns X86.asmMemCopy (fun s' => s'.mem = mem.copy x.toNat y.toNat z.toNat) 0 s ∧
      Returns A64.asmMemCopy (fun t' => t'.mem = mem.copy x.toNat y.toNat z.toNat) 0 t) := by
  refine ⟨fun fits => ⟨?_, ?_⟩, fun fits => ⟨?_, ?_⟩, fun fits fits' apart => ⟨?_, ?_⟩⟩
  · exact (X86.asmMemZero_returns called fits).mono fun s' here => here.mem
  · exact (A64.asmMemZero_returns called' fits).mono fun t' here => here.mem
  · exact (X86.asmBlockFill_returns called fits).mono fun s' here => here.mem
  · exact (A64.asmBlockFill_returns called' fits).mono fun t' here => here.mem
  · exact (X86.asmMemCopy_returns called fits fits' (by omega)).mono fun s' here => here.mem
  · exact (A64.asmMemCopy_returns called' fits fits' (by omega)).mono fun t' here => here.mem

theorem mem_asm_primitives_overlap :
    let mem : Memory := BitVec.ofNat 8
    let s : Cpu X86.Reg := ⟨fun | .rdi => 10 | .rsi => 13 | .rdx => 21 | _ => 0, mem, false⟩
    let t : Cpu A64.Reg := ⟨fun | .x0 => 10 | .x1 => 13 | .x2 => 21 | _ => 0, mem, false⟩
    Returns X86.asmMemCopy (fun s' => s'.mem = mem.copy 10 13 21) 0 s ∧
      Returns A64.asmMemCopy (fun t' => t'.mem = mem.copy 10 13 21) 0 t :=
  (mem_asm_primitives (BitVec.ofNat 8) 10 13 21 _ _ ⟨rfl, rfl, rfl, rfl⟩ ⟨rfl, rfl, rfl, rfl⟩).2.2 (by decide)
    (by decide) (by decide)

end Flinstone.Mm
