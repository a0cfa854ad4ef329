import Flinstone.Vm.Bridge
import Flinstone.Vm.Machine

/-! # Guest memory isolation -/

namespace Flinstone.Vm
open Flinstone.Lib Flinstone.Sys

variable {n : Nat} {W : Type}

def Stop.IsRam (stop : Stop) : Prop := ∃ index, stop = .ram index

/-! ## Sums of 32 bits -/

def Wraps (addr : Word) (len : Nat) : Prop := 2 ^ 32 ≤ addr.toNat + len

instance (addr : Word) (len : Nat) : Decidable (Wraps addr len) := inferInstanceAs (Decidable (_ ≤ _))

variable {addr : Word} {len start count : Nat} {ram : Ram n}

theorem toNat_add_of_not_wraps (exact : ¬ Wraps addr len) : (addr + BitVec.ofNat 32 len).toNat = addr.toNat + len := by
  simp only [Wraps, not_le] at exact
  rw [BitVec.toNat_add, BitVec.toNat_ofNat, Nat.mod_eq_of_lt (by omega : len < _), Nat.mod_eq_of_lt exact]

theorem toNat_add_of_wraps (short : len < 2 ^ 32)
    (wraps : Wraps addr len) : (addr + BitVec.ofNat 32 len).toNat = addr.toNat + len - 2 ^ 32 := by
  simp only [Wraps] at wraps
  rw [BitVec.toNat_add, BitVec.toNat_ofNat, Nat.mod_eq_of_lt short]
  omega

/-! ## The page walk -/

theorem copyOut_of_le (inside : start + count ≤ n) : Succeeds (copyOut ram start count) := ⟨_, dif_pos inside⟩

theorem copyOut_of_gt (outside : n < start + count) : StopsWith Stop.IsRam (copyOut ram start count) :=
  ⟨_, dif_neg (not_le.mpr outside), _, rfl⟩

theorem copyOut_eq_ok {bytes : List Byte} (read : copyOut ram start count = .ok bytes) :
    start + count ≤ n ∧ ∀ i < count, byteAt ram (start + i) = .ok (bytes.getD i 0) := by
  unfold copyOut at read
  split at read
  · next within =>
      cases read
      refine ⟨within, fun i below => ?_⟩
      rw [byteAt_of_lt (by omega)]
      simp [List.getD, below]
  · cases read

-- what the interpreter needs of the size: room for an instruction, and no 32-bit sum that is
-- exact but too large for the comparison
structure Sized (n : Nat) : Prop where
  lower : 16 ≤ n
  upper : n + 16 < 2 ^ 32

theorem sized_guest : Sized guestRamSize := ⟨by decide, by decide⟩

theorem pageEntry_decided (sized : Sized n) (ram : Ram n) (addr : Word) :
    Decided Stop.IsRam (Wraps addr 4) (pageEntry ram addr) := by
  have lower := sized.lower
  have upper := sized.upper
  unfold pageEntry
  by_cases wraps : Wraps addr 4
  · have sum : (addr + 4).toNat = addr.toNat + 4 - 2 ^ 32 := toNat_add_of_wraps (by decide) wraps
    have passed : ¬ (addr + 4).toNat > n := by omega
    rw [if_neg passed]
    refine .inr ⟨wraps, (stopsWith_map _ _).mpr (copyOut_of_gt ?_)⟩
    simp only [Wraps] at wraps
    omega
  · have sum : (addr + 4).toNat = addr.toNat + 4 := toNat_add_of_not_wraps wraps
    by_cases passed : (addr + 4).toNat > n
    · rw [if_pos passed]
      exact .ok wraps _
    · rw [if_neg passed]
      exact (Decided.of_succeeds wraps (copyOut_of_le (by omega))).map _

def WalkWraps (ram : Ram n) (cr0 cr3 linear : Word) : Prop :=
  (cr0 &&& 0x80000000 ≠ 0 ∧ 4096 ≤ n) ∧
    (Wraps (pdeAddr cr3 linear) 4 ∨
      ∃ pde, pageEntry ram (pdeAddr cr3 linear) = .ok (some pde) ∧ Wraps (pteAddr pde linear) 4)

theorem vmCpuTranslate_decided (sized : Sized n) (ram : Ram n) (cr0 cr3 linear : Word) :
    Decided Stop.IsRam (WalkWraps ram cr0 cr3 linear) (vmCpuTranslate ram cr0 cr3 linear) := by
  unfold vmCpuTranslate
  by_cases paging : cr0 &&& 0x80000000 = 0
  · rw [if_pos paging]
    exact .ok (fun wraps => wraps.1.1 paging) _
  by_cases tiny : n < 4096
  · rw [if_neg paging, if_pos tiny]
    exact .ok (fun wraps => not_le.mpr tiny wraps.1.2) _
  rw [if_neg paging, if_neg tiny]
  refine ((pageEntry_decided sized ram (pdeAddr cr3 linear)).bind_or fun entry _ =>
    show Decided Stop.IsRam (∃ pde, entry = some pde ∧ Wraps (pteAddr pde linear) 4) _ from ?_).congr ?_
  · cases entry with
    | none => exact .ok (by simp) _
    | some pde =>
      refine ((pageEntry_decided sized ram (pteAddr pde linear)).bind ?_).congr (by simp)
      intro entry _
      cases entry <;> exact succeeds_pure _
  simp only [WalkWraps, ne_eq, paging, not_false_eq_true, Nat.le_of_not_lt tiny, and_self, true_and]
  refine or_congr_right ⟨?_, ?_⟩
  · rintro ⟨entry, read, pde, rfl, wraps⟩
    exact ⟨pde, read, wraps⟩
  · rintro ⟨pde, read, wraps⟩
    exact ⟨some pde, read, pde, rfl, wraps⟩

/-! ## Decoding

An instruction that starts 16 bytes before the end is read inside RAM, whatever its bytes are. -/

section
variable (ram : Ram n) {addr : Word}
variable {k : Nat}

theorem toNat_offset (sized : Sized n) (inside : addr.toNat + k ≤ n) :
    (addr + BitVec.ofNat 32 k).toNat = addr.toNat + k := by
  have upper := sized.upper
  apply toNat_add_of_not_wraps
  simp only [Wraps]
  omega

theorem byteAt_succeeds {index : Nat} (inside : index < n) : Succeeds (byteAt ram index) := ⟨_, byteAt_of_lt inside⟩

theorem byteAt_offset (sized : Sized n) (inside : addr.toNat + k < n) :
    Succeeds (byteAt ram (addr + BitVec.ofNat 32 k).toNat) := by
  rw [toNat_offset sized (le_of_lt inside)]
  exact byteAt_succeeds ram inside

theorem disp32At_succeeds (sized : Sized n) (inside : addr.toNat + 4 ≤ n) : Succeeds (disp32At ram addr) := by
  refine (byteAt_succeeds ram (by omega)).bind fun b0 _ => ?_
  refine (byteAt_offset ram sized (k := 1) (by omega)).bind fun b1 _ => ?_
  refine (byteAt_offset ram sized (k := 2) (by omega)).bind fun b2 _ => ?_
  refine (byteAt_offset ram sized (k := 3) (by omega)).bind fun b3 _ => ?_
  exact succeeds_pure _

theorem disp32At_offset (sized : Sized n) (inside : addr.toNat + k + 4 ≤ n) :
    Succeeds (disp32At ram (addr + BitVec.ofNat 32 k)) := by
  apply disp32At_succeeds ram sized
  rw [toNat_offset sized (by omega)]
  exact inside

theorem decodeDisp_succeeds (sized : Sized n) (inside : addr.toNat + 5 ≤ n) (mod : Nat)
    (rm : Reg) : ∃ disp count size, decodeDisp ram addr mod rm = .ok (disp, count, size) ∧ size ≤ 5 := by
  unfold decodeDisp
  split
  · obtain ⟨d, read⟩ := byteAt_offset ram sized (k := 1) (by omega : addr.toNat + 1 < n)
    exact ⟨_, 1, 2, bind_eq_ok.mpr ⟨d, read, rfl⟩, by omega⟩
  · split
    · obtain ⟨d, read⟩ := disp32At_offset ram sized (k := 1) (by omega : addr.toNat + 1 + 4 ≤ n)
      exact ⟨d, 4, 5, bind_eq_ok.mpr ⟨d, read, rfl⟩, by omega⟩
    · exact ⟨0, 0, 1, rfl, by omega⟩

theorem decodeSib_succeeds (sized : Sized n) (mod : Nat) {m : VmModrm} (short : m.size ≤ 5)
    (inside : addr.toNat + 10 ≤ n) :
    ∃ m', decodeSib ram addr mod m = .ok m' ∧ m'.size ≤ 10 := by
  obtain ⟨s, read⟩ := byteAt_offset ram sized (k := m.size) (by omega : addr.toNat + m.size < n)
  unfold decodeSib
  rw [read]
  simp only [bind, Except.bind, pure, pure]
  split
  · obtain ⟨d, read⟩ := disp32At_offset ram sized (k := m.size + 1) (by omega : addr.toNat + (m.size + 1) + 4 ≤ n)
    rw [read]
    exact ⟨_, rfl, by simp only; omega⟩
  · exact ⟨_, rfl, by simp only; omega⟩

theorem decodeModrm_succeeds (sized : Sized n) (inside : addr.toNat + 10 ≤ n) :
    ∃ m, decodeModrm ram addr = .ok m ∧ ∀ found, m = some found → found.size ≤ 10 := by
  unfold decodeModrm
  split
  · exact ⟨none, rfl, by simp⟩
  · obtain ⟨b, read⟩ := byteAt_succeeds ram (by omega : addr.toNat < n)
    obtain ⟨disp, count, size, decoded, short⟩ := decodeDisp_succeeds ram sized
      (by omega : addr.toNat + 5 ≤ n) (b.toNat >>> 6) (regField b 0)
    rw [read]
    simp only [bind, Except.bind, pure, pure, decoded]
    split
    · obtain ⟨m, decoded, bound⟩ := decodeSib_succeeds ram sized (b.toNat >>> 6)
        (m := ⟨b.toNat >>> 6, regField b 3, regField b 0, disp, count, none, size⟩) short inside
      rw [decoded]
      exact ⟨some m, rfl, fun found same => Option.some.inj same ▸ bound⟩
    · exact ⟨_, rfl, fun found same => by rw [← Option.some.inj same]; simp only; omega⟩

theorem decodeModrm_offset (sized : Sized n) (inside : addr.toNat + k + 10 ≤ n) :
    ∃ m, decodeModrm ram (addr + BitVec.ofNat 32 k) = .ok m ∧ ∀ found, m = some found → found.size ≤ 10 := by
  apply decodeModrm_succeeds ram sized
  rw [toNat_offset sized (by omega)]
  exact inside

theorem decodeMovCr_succeeds (sized : Sized n) (inside : addr.toNat + 16 ≤ n) (imm : Word) :
    Succeeds (decodeMovCr ram addr imm) := by
  obtain ⟨m, decoded, -⟩ := decodeModrm_offset ram sized (k := 2) (by omega : addr.toNat + 2 + 10 ≤ n)
  refine Succeeds.bind ⟨m, decoded⟩ fun _ _ => ?_
  split
  · exact succeeds_pure _
  · split <;> exact succeeds_pure _

theorem decodeAlu_succeeds (sized : Sized n) (inside : addr.toNat + 16 ≤ n) (op : VmOpcode)
    (toRm : Bool) : Succeeds (decodeAlu ram addr op toRm) := by
  obtain ⟨m, decoded, -⟩ := decodeModrm_offset ram sized (k := 1) (by omega : addr.toNat + 1 + 10 ≤ n)
  refine Succeeds.bind ⟨m, decoded⟩ fun _ _ => ?_
  split
  · exact succeeds_pure _
  · split
    · exact succeeds_pure _
    · split <;> exact succeeds_pure _

theorem decodeAluImm8_succeeds (sized : Sized n) (inside : addr.toNat + 16 ≤ n) :
    Succeeds (decodeAluImm8 ram addr) := by
  obtain ⟨m, decoded, short⟩ := decodeModrm_offset ram sized (k := 1) (by omega : addr.toNat + 1 + 10 ≤ n)
  refine Succeeds.bind ⟨m, decoded⟩ fun found same => ?_
  obtain rfl : m = found := Except.ok.inj (decoded.symm.trans same)
  cases m with
  | none => exact succeeds_pure _
  | some m =>
    have size := short m rfl
    simp only
    split
    · exact succeeds_pure _
    · split
      · exact succeeds_pure _
      · split
        · exact (byteAt_offset ram sized (k := m.size + 1) (by omega)).bind fun _ _ =>
            succeeds_pure _
        · exact succeeds_pure _

theorem decodeOneByte_succeeds (sized : Sized n) (inside : addr.toNat + 16 ≤ n) (opcode : Nat)
    (imm : Byte) : Succeeds (decodeOneByte ram addr opcode imm) := by
  unfold decodeOneByte
  split
  · exact decodeAlu_succeeds ram sized inside _ _
  split
  · exact decodeAlu_succeeds ram sized inside _ _
  split
  · exact decodeAlu_succeeds ram sized inside _ _
  split
  · exact decodeAlu_succeeds ram sized inside _ _
  split
  · exact decodeAluImm8_succeeds ram sized inside
  split
  · exact (byteAt_offset ram sized (k := 1) (by omega)).bind fun _ _ => succeeds_pure _
  split
  · exact (disp32At_offset ram sized (k := 1) (by omega)).bind fun _ _ => succeeds_pure _
  · exact succeeds_ok _

theorem vmDecode_succeeds (sized : Sized n) (inside : addr.toNat + 16 ≤ n) : Succeeds (vmDecode ram addr) := by
  unfold vmDecode
  split
  · exact succeeds_ok _
  refine (byteAt_succeeds ram (by omega)).bind fun b0 _ => ?_
  have second : Succeeds (secondByte ram addr) := by
    unfold secondByte
    split
    · exact byteAt_succeeds ram (by assumption)
    · exact succeeds_ok _
  refine second.bind fun b1 _ => ?_
  split
  · split
    · exact decodeMovCr_succeeds ram sized inside 0
    · split
      · exact decodeMovCr_succeeds ram sized inside 1
      · exact succeeds_pure _
  · exact decodeOneByte_succeeds ram sized inside _ _

end

/-! ## Accesses of one instruction -/

section
variable (vm : VmState n W)

def AccessWraps (linear : Word) : Prop := WalkWraps vm.mem.ram vm.cpu.cr0 vm.cpu.cr3 linear

def PushWraps (count : Nat) : Prop :=
  AccessWraps vm (stackLinear (vm.setReg esp (vm.reg esp - BitVec.ofNat 32 count)).cpu)

def PopWraps : Prop := AccessWraps vm (stackLinear vm.cpu)

def IntWraps (instr : VmInstr) : Prop :=
  PushWraps vm 2 ∨ ∃ vm₁, pushStack 2 (fun cpu => cpu.eflags) vm = .ok vm₁ ∧
    (PushWraps vm₁ 2 ∨ ∃ vm₂, pushStack 2 (fun _ => vm.cpu.cs &&& 0xFFFF) vm₁ = .ok vm₂ ∧
      (PushWraps vm₂ 2 ∨ ∃ vm₃, pushStack 2 (fun _ => vm.cpu.eip &&& 0xFFFF) vm₂ = .ok vm₃ ∧
        AccessWraps vm₃ ((instr.imm &&& 0xFF) * 4)))

def IretWraps : Prop :=
  PopWraps vm ∨ ∃ ip, popStack 2 vm = .ok ip ∧
    (PopWraps ip.2 ∨ ∃ cs, popStack 2 ip.2 = .ok cs ∧ PopWraps cs.2)

def ExecuteWraps (instr : VmInstr) : Prop :=
  match instr.op with
  | .push => PushWraps vm 4
  | .pop | .ret => PopWraps vm
  | .int => IntWraps vm instr
  | .iret => IretWraps vm
  | .stosb => AccessWraps vm (vmCpuLinearAddr vm.cpu.es (vm.reg edi &&& 0xFFFF))
  | _ => False

theorem translateAddr_decided (sized : Sized n) (linear : Word) :
    Decided Stop.IsRam (AccessWraps vm linear) (translateAddr vm.cpu vm.mem linear) :=
  vmCpuTranslate_decided sized vm.mem.ram vm.cpu.cr0 vm.cpu.cr3 linear

theorem pushStack_decided (sized : Sized n) (count : Nat) (value : VmCpu → Word) :
    Decided Stop.IsRam (PushWraps vm count) (pushStack count value vm) := by
  refine (translateAddr_decided (vm.setReg esp _) sized _).bind fun phys _ => ?_
  rw [vmMemWrite_eq]
  exact succeeds_pure _

theorem popStack_decided (sized : Sized n) (count : Nat) : Decided Stop.IsRam (PopWraps vm) (popStack count vm) := by
  refine (translateAddr_decided vm sized _).bind fun phys _ => ?_
  rw [vmMemRead_eq]
  split <;> exact succeeds_pure _

theorem executeInt_decided (sized : Sized n) (instr : VmInstr) :
    Decided Stop.IsRam (IntWraps vm instr) (executeInt instr vm) := by
  refine (pushStack_decided vm sized 2 _).bind_or fun vm₁ _ => ?_
  refine (pushStack_decided vm₁ sized 2 _).bind_or fun vm₂ _ => ?_
  refine (pushStack_decided vm₂ sized 2 _).bind_or fun vm₃ _ => ?_
  refine (translateAddr_decided vm₃ sized _).bind fun phys _ => ?_
  simp only [vmMemRead_eq]
  split <;> exact succeeds_pure _

theorem executeIret_decided (sized : Sized n) : Decided Stop.IsRam (IretWraps vm) (executeIret vm) := by
  refine (popStack_decided vm sized 2).bind_or fun ip _ => ?_
  refine (popStack_decided ip.2 sized 2).bind_or fun cs _ => ?_
  exact (popStack_decided cs.2 sized 2).bind fun _ _ => succeeds_pure _

theorem executeStosb_decided (sized : Sized n) :
    Decided Stop.IsRam (AccessWraps vm (vmCpuLinearAddr vm.cpu.es (vm.reg edi &&& 0xFFFF))) (executeStosb vm) := by
  refine (translateAddr_decided vm sized _).bind fun phys _ => ?_
  rw [vmMemWrite8_eq]
  exact succeeds_pure _

def outPort (instr : VmInstr) : Option Word :=
  match instr.op with
  | .out => some instr.imm
  | .outDx => some (vm.reg edx &&& 0xFFFF)
  | _ => none

variable {instr : VmInstr} {port : Word}

variable (env : Env W)

theorem execute_of_out (writes : outPort vm instr = some port) :
    StopsIff (port.toNat = 0xE5 ∧ BridgeStops vm) (execute env instr vm) := by
  obtain ⟨op, dst, src, imm, size⟩ := instr
  cases op <;> simp only [outPort, reduceCtorEq, Option.some.injEq] at writes
  case out =>
    subst writes
    exact (vmIoOut_decided env _ _ 1 vm).map some
  case outDx =>
    subst writes
    exact (vmIoOut_decided env _ _ 4 vm).map some

theorem execute_of_no_out (sized : Sized n) (silent : outPort vm instr = none) :
    Decided Stop.IsRam (ExecuteWraps vm instr) (execute env instr vm) := by
  obtain ⟨op, dst, src, imm, size⟩ := instr
  cases op <;> simp only [outPort, reduceCtorEq] at silent
  case push => exact (pushStack_decided vm sized 4 _).map some
  case pop => exact (popStack_decided vm sized 4).map _
  case ret => exact (popStack_decided vm sized 2).map _
  case int => exact (executeInt_decided vm sized _).map some
  case iret => exact (executeIret_decided vm sized).map some
  case stosb => exact (executeStosb_decided vm sized).map some
  all_goals exact .ok id _

theorem not_executeWraps_of_out (writes : outPort vm instr = some port) : ¬ ExecuteWraps vm instr := by
  obtain ⟨op, dst, src, imm, size⟩ := instr
  cases op <;> simp [outPort] at writes <;> exact id

theorem execute_stops_iff (sized : Sized n) (instr : VmInstr) :
    StopsWith Stop.IsRam (execute env instr vm) ↔ ExecuteWraps vm instr := by
  cases writes : outPort vm instr with
  | none => exact (execute_of_no_out vm env sized writes).stopsWith_iff
  | some port =>
    refine iff_of_false ?_ (not_executeWraps_of_out vm writes)
    rintro ⟨stop, stopped, index, rfl⟩
    have kernel := (execute_of_out vm env writes).isKind stopped
    simp [IsKernelStop] at kernel

/-! ## One pass of the interpreter -/

def FetchWraps : Prop :=
  AccessWraps vm (guestEipLinear vm.cpu) ∨
    ∃ phys, translateAddr vm.cpu vm.mem (guestEipLinear vm.cpu) = .ok phys ∧ Wraps phys 16

theorem vmDecode_of_wraps (sized : Sized n) (ram : Ram n) {addr : Word} (wraps : Wraps addr 16) :
    StopsWith Stop.IsRam (vmDecode ram addr) := by
  have lower := sized.lower
  have upper := sized.upper
  have large : ¬ n < 2 := by omega
  have outside : n ≤ addr.toNat := by
    simp only [Wraps] at wraps
    omega
  unfold vmDecode
  rw [if_neg large, stopsWith_bind]
  exact .inl ⟨_, byteAt_of_ge outside, _, rfl⟩

theorem fetch_decided (sized : Sized n) : Decided Stop.IsRam (FetchWraps vm) (fetch vm) := by
  have lower := sized.lower
  refine (translateAddr_decided vm sized _).bind_or fun phys _ => ?_
  by_cases wraps : Wraps phys 16
  · have sum : (phys + 16).toNat = phys.toNat + 16 - 2 ^ 32 := toNat_add_of_wraps (by decide) wraps
    have passed : ¬ (phys + 16).toNat > n := by omega
    rw [if_neg passed]
    exact .inr ⟨wraps, vmDecode_of_wraps sized vm.mem.ram wraps⟩
  · have sum : (phys + 16).toNat = phys.toNat + 16 := toNat_add_of_not_wraps wraps
    by_cases passed : (phys + 16).toNat > n
    · rw [if_pos passed]
      exact .ok wraps _
    · rw [if_neg passed]
      exact .of_succeeds wraps (vmDecode_succeeds vm.mem.ram sized (by omega))

def PassWraps : Prop :=
  vm.cpu.halted = false ∧
    (FetchWraps vm ∨ ∃ instr, fetch vm = .ok (some instr) ∧ ExecuteWraps vm instr)

theorem vmRunPass_stops_iff (sized : Sized n) :
    StopsWith Stop.IsRam (vmRunPass env vm) ↔ PassWraps vm := by
  unfold vmRunPass PassWraps
  cases vm.cpu.halted with
  | true => simp
  | false =>
    simp only [Bool.false_eq_true, if_false, stopsWith_bind, true_and, (fetch_decided vm sized).stopsWith_iff]
    refine or_congr_right ⟨?_, ?_⟩
    · rintro ⟨found, fetched, stops⟩
      cases found with
      | none => simp at stops
      | some instr =>
        rw [stopsWith_bind] at stops
        refine ⟨instr, fetched, (execute_stops_iff vm env sized instr).mp ?_⟩
        simpa using stops
    · rintro ⟨instr, fetched, wraps⟩
      refine ⟨some instr, fetched, ?_⟩
      rw [stopsWith_bind]
      exact .inl ((execute_stops_iff vm env sized instr).mpr wraps)

end

theorem vmRunStep_isolated_iff (env : Env W) (maxInstructions : Nat) (vm : VmState guestRamSize W) :
    ¬ StopsWith Stop.IsRam (vmRunStep env maxInstructions vm) ↔
      Along (vmRunPass env) (fun vm => ¬ PassWraps vm) maxInstructions vm := by
  have step (vm : VmState guestRamSize W) : StopsWith Stop.IsRam (vmRunPass env vm) ↔ ¬ ¬ PassWraps vm := by
    rw [not_not]
    exact vmRunPass_stops_iff vm env sized_guest
  rw [vmRunStep, loop_stops_iff Stop.IsRam step, not_not]

def jumpBelowZero : List Byte := [0xBF, 0x02, 0x00, 0x00, 0x00, 0xB0, 0xEB, 0xAA, 0xB0, 0xEC, 0xAA, 0xCD, 0x01]

-- The interrupt vector is zero, so after INT 1 the guest runs the jump it stored at address 2.
-- The jump ends at 0xFFFFFFF0, where `phys + 16` is zero.
theorem jumpBelowZero_strays : (bootWith jumpBelowZero).map (fun vm => (vmRunStep idleHost 8 vm).map fun r => r.1) =
      some (.error (.ram 0xFFFFFFF0)) := by
  decide +kernel

theorem vmRunStep_leaves_ram :
    ∃ vm, bootWith jumpBelowZero = some vm ∧ StopsWith Stop.IsRam (vmRunStep idleHost 8 vm) := by
  obtain ⟨vm, booted, stopped⟩ := Option.map_eq_some_iff.mp jumpBelowZero_strays
  refine ⟨vm, booted, (stopsWith_map _ fun r => r.1).mp ?_⟩
  rw [stopped]
  exact ⟨_, rfl, _, rfl⟩

end Flinstone.Vm
