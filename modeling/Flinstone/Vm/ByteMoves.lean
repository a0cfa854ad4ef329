import Flinstone.Vm.Control

/-! # MOV r8, imm8 -/

namespace Flinstone.Vm
open Flinstone.Lib Flinstone.Sys Function

variable {n : Nat} {W : Type}

namespace Byte8

def container (r : Reg) : Reg := if r < 4 then r else r - 4

def lowBit (r : Reg) : Nat := if r < 4 then 0 else 8

def get (cpu : VmCpu) (r : Reg) : Byte := (cpu.regs (container r)).extractLsb' (lowBit r) 8

def movBytes (r : Reg) (imm : Byte) : List Byte := [BitVec.ofNat 8 (0xB0 + r), imm]

def movInstr (r : Reg) (imm : Byte) : VmInstr := ⟨.mov, some r, none, imm.setWidth 32, 2⟩

/-- The 8-bit register takes the value and EIP moves behind the two bytes. -/
structure Moves (r : Reg) (imm : Byte) (vm vm' : VmState n W) : Prop where
  set : get vm'.cpu r = imm
  eip : vm'.cpu.eip = vm.cpu.eip + BitVec.ofNat 32 2
  bits : ∀ i, i < lowBit r ∨ lowBit r + 8 ≤ i → (vm'.reg (container r)).getLsbD i = (vm.reg (container r)).getLsbD i
  others : ∀ q ≠ container r, vm'.reg q = vm.reg q
  rest : vm' = vm.setCpu { vm.cpu with regs := vm'.cpu.regs, eip := vm'.cpu.eip }

def Harmless (r : Reg) (imm : Byte) (cpu : VmCpu) : Prop :=
  if r < 4 then (cpu.regs r).toNat < 256 else cpu.regs r = imm.setWidth 32 ∧ get cpu r = imm

instance (r : Reg) (imm : Byte) (cpu : VmCpu) : Decidable (Harmless r imm cpu) := by
  unfold Harmless
  infer_instance

theorem vmDecode_mov (sized : Sized n) (r : Reg) (imm : Byte) {ram : Ram n} {phys : Word}
    (code : copyOut ram phys.toNat (movBytes r imm).length = .ok (movBytes r imm)) :
    vmDecode ram phys = .ok (some (movInstr r imm)) := by
  obtain ⟨within, bytes⟩ := copyOut_eq_ok code
  change phys.toNat + 2 ≤ n at within
  obtain ⟨second, next⟩ := secondByte_succeeds ram phys
  have here : byteAt ram phys.toNat = .ok (BitVec.ofNat 8 (0xB0 + r)) := bytes 0 (Nat.succ_pos 1)
  have there : byteAt ram (phys.toNat + 1) = .ok imm := bytes 1 (Nat.lt_succ_self 1)
  have sum : (phys + BitVec.ofNat 32 1).toNat = phys.toNat + 1 := toNat_offset sized (by omega)
  change (phys + 1).toNat = _ at sum
  have single : ∀ r : Reg, BitVec.ofNat 8 (0xB0 + r) ≠ 0x0F := by decide
  have opcode : (BitVec.ofNat 8 (0xB0 + r)).toNat = 0xB0 + r := Nat.mod_eq_of_lt (by omega)
  have dispatch : decodeOneByte ram phys (0xB0 + r) second = decodeMovR8Imm8 ram phys r := by
    have code : ∀ r : Reg, Fin.ofNat 8 (0xB0 + r) = r := by decide
    unfold decodeOneByte
    rw [if_neg (by omega), if_neg (by omega), if_neg (by omega), if_neg (by omega), if_neg (by omega),
      if_pos (by omega), code r]
  rw [vmDecode_oneByte sized here next (single r), opcode, dispatch, decodeMovR8Imm8, sum, there]
  rfl

def moved (r : Reg) (imm : Byte) (vm : VmState n W) : VmState n W :=
  vm.setCpu { vm.cpu with
    regs := update vm.cpu.regs r (imm.setWidth 32), eip := vm.cpu.eip + BitVec.ofNat 32 2 }

variable {r : Reg} {imm : Byte} {vm : VmState n W}

theorem vmRunStep_mov (sized : Sized n) (env : Env W) (code : CodeAt (movBytes r imm) vm) (executes : Executes vm) :
    vmRunStep env 1 vm = .ok (1, moved r imm vm) :=
  vmRunStep_fetched executes (fetch_code sized code executes fun _ => vmDecode_mov sized r imm) rfl

theorem extractLsb'_setWidth (imm : Byte) : (imm.setWidth 32).extractLsb' 0 8 = imm := by
  ext i inside
  simp [inside, inside.trans (by decide : 8 < 32)]

theorem getLsbD_imm (imm : Byte) {i : Nat} (above : 8 ≤ i) : (imm.setWidth 32).getLsbD i = false := by
  rw [BitVec.getLsbD_setWidth, BitVec.getLsbD_of_ge imm i above, Bool.and_false]

theorem high_bits_clear {x : Word} : (∀ i, 8 ≤ i → x.getLsbD i = false) ↔ x.toNat < 256 := by
  constructor
  · intro clear
    apply Nat.lt_pow_two_of_testBit (n := 8)
    intro i above
    exact clear i above
  · intro small i above
    exact Nat.testBit_lt_two_pow (small.trans_le (Nat.pow_le_pow_right (n := 2) (by decide) above))

theorem moves_low (low : r < 4) : Moves r imm vm (moved r imm vm) ↔ (vm.cpu.regs r).toNat < 256 := by
  have same : container r = r := if_pos low
  have first : lowBit r = 0 := if_pos low
  have written : (moved r imm vm).reg r = imm.setWidth 32 := update_self ..
  rw [← high_bits_clear]
  constructor
  · intro moves i above
    have kept := moves.bits i (.inr (by omega))
    rw [same, written, getLsbD_imm imm above] at kept
    exact kept.symm
  · intro clear
    refine ⟨?_, rfl, ?_, ?_, rfl⟩
    · rw [get, same, first]
      exact (congrArg _ written).trans (extractLsb'_setWidth imm)
    · intro i outside
      have above : 8 ≤ i := by omega
      rw [same, written, getLsbD_imm imm above]
      exact (clear i above).symm
    · intro q other
      exact update_of_ne (same ▸ other) ..

theorem moves_high (high : ¬ r < 4) :
    Moves r imm vm (moved r imm vm) ↔ vm.cpu.regs r = imm.setWidth 32 ∧ get vm.cpu r = imm := by
  have below : container r ≠ r := by
    have apart : ∀ r : Reg, ¬ r < 4 → container r ≠ r := by decide
    exact apart r high
  have kept : (moved r imm vm).reg (container r) = vm.reg (container r) := update_of_ne below ..
  have byte : get (moved r imm vm).cpu r = get vm.cpu r := congrArg (BitVec.extractLsb' (lowBit r) 8) kept
  have written : (moved r imm vm).reg r = imm.setWidth 32 := update_self ..
  constructor
  · intro moves
    exact ⟨(moves.others r below.symm).symm.trans written, byte.symm.trans moves.set⟩
  · rintro ⟨already, set⟩
    refine ⟨byte.trans set, rfl, fun i _ => by rw [kept], ?_, rfl⟩
    intro q _
    by_cases here : q = r
    · rw [here, written]
      exact already.symm
    · exact update_of_ne here ..

/-- Exactly if the instruction runs and what `set_reg32` does besides has no effect. -/
theorem vmRunStep_movR8_iff (env : Env W) {r : Reg} {imm : Byte} {vm : VmState guestRamSize W}
    (code : CodeAt (movBytes r imm) vm) :
    ∃ count vm', vmRunStep env 1 vm = .ok (count, vm') ∧
      (Moves r imm vm vm' ↔ Executes vm ∧ Harmless r imm vm.cpu) := by
  by_cases executes : Executes vm
  · refine ⟨1, _, vmRunStep_mov sized_guest env code executes, ?_⟩
    rw [and_iff_right executes, Harmless]
    split
    · next low => exact moves_low low
    · next high => exact moves_high high
  · refine ⟨0, vm, vmRunStep_stuck sized_guest env code executes, iff_of_false ?_ fun both => executes both.1⟩
    intro moves
    exact add_ofNat_ne vm.cpu.eip (by decide) (by decide) moves.eip.symm

theorem booted_mov (r : Reg) (imm : Byte)
    (boots : bootsTo (movBytes r imm) = some (.ok guestLoadAddr, .ok (movBytes r imm), 0, false))
    (clear : (bootWith (movBytes r imm)).map (fun vm => vm.reg r) = some 0) :
    ∃ vm, bootWith (movBytes r imm) = some vm ∧ CodeAt (movBytes r imm) vm ∧ Executes vm ∧ vm.cpu.regs r = 0 := by
  obtain ⟨vm, booted, code, executes, -⟩ := booted_at boots
  rw [booted] at clear
  exact ⟨vm, booted, code, executes, Option.some.inj clear⟩

theorem booted_mov_al : ∃ vm count vm', bootWith (movBytes 0 5) = some vm ∧ vmRunStep idleHost 1 vm = .ok (count, vm') ∧
      Moves 0 5 vm vm' := by
  obtain ⟨vm, booted, code, executes, zero⟩ := booted_mov 0 5 (by decide +kernel) (by decide +kernel)
  obtain ⟨count, vm', ran, moves⟩ := vmRunStep_movR8_iff idleHost code
  refine ⟨vm, count, vm', booted, ran, moves.mpr ⟨executes, ?_⟩⟩
  rw [Harmless, if_pos (by decide), zero]
  decide

theorem booted_mov_ah_sets_esp : ∃ vm count vm', bootWith (movBytes 4 5) = some vm ∧ CodeAt (movBytes 4 5) vm ∧
      vmRunStep idleHost 1 vm = .ok (count, vm') ∧ vm'.reg esp = 5 ∧ ¬ Moves 4 5 vm vm' := by
  obtain ⟨vm, booted, code, executes, zero⟩ := booted_mov 4 5 (by decide +kernel) (by decide +kernel)
  have ran := vmRunStep_mov sized_guest idleHost code executes
  refine ⟨vm, 1, _, booted, code, ran, rfl, fun moves => ?_⟩
  have already := ((moves_high (by decide)).mp moves).1
  rw [zero] at already
  exact absurd already (by decide)

end Byte8

end Flinstone.Vm
