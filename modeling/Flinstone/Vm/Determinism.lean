import Flinstone.Vm.Frame
import Flinstone.Vm.Machine

/-! # Uninitialised locals -/

namespace Flinstone.Vm
open Flinstone.Lib Flinstone.Sys List Option

variable {n : Nat} {W : Type}

def ReadsGarbage (vm : VmState n W) : Prop :=
  vm.cpu.halted = false ∧ ∃ instr, fetch vm = .ok (some instr) ∧ PopsGarbage vm instr

section
variable (env : Env W) (vm : VmState n W) (stack : Nat → Word)

theorem ideFill_withStack : ideFill env (vm.withStack stack) = (ideFill env vm).withStack stack := by
  unfold ideFill
  by_cases active : vmDiskIsActive vm.disk = true
  · simp only [VmState.withStack, active, if_true]
  · simp only [VmState.withStack, active]
    obtain ⟨reply, world⟩ := env.readSector vm.io.ideLba vm.world
    cases reply <;> rfl

variable (port : Nat)

theorem vmIoInIde_withStack : vmIoInIde env port (vm.withStack stack) =
      (vmIoInIde env port vm).map id (·.withStack stack) := by
  unfold vmIoInIde
  split
  · simp only [ideFill_withStack, ← apply_ite (VmState.withStack · stack)]
    rfl
  all_goals rfl

theorem vmIoInKeyboard_withStack : vmIoInKeyboard env port (vm.withStack stack) =
      (vmIoInKeyboard env port vm).map id (·.withStack stack) := by
  unfold vmIoInKeyboard
  by_cases data : port = 0x60
  · cases bound : vm.io.hostBound with
    | false =>
      simp only [VmState.withStack, data, bound, if_true, Bool.false_eq_true, if_false]
      rfl
    | true =>
      simp only [VmState.withStack, data, bound, if_true]
      obtain ⟨scancode, host⟩ := vmHostKbdPop vm.host
      cases scancode <;> rfl
  · simp only [data, if_false]
    rfl

theorem vmIoInPit_withStack : vmIoInPit env port (vm.withStack stack) =
      (vmIoInPit env port vm).map id (·.withStack stack) := by
  unfold vmIoInPit
  simp only [apply_ite (Prod.map id fun r : VmState n W => r.withStack stack)]
  rfl

theorem vmIoIn_withStack (port : Word) (size : Nat) : vmIoIn env port size (vm.withStack stack) =
      (vmIoIn env port size vm).map id (·.withStack stack) := by
  unfold vmIoIn
  simp only [vmIoInIde_withStack, vmIoInKeyboard_withStack, vmIoInPit_withStack,
    apply_ite (Prod.map id fun r : VmState n W => r.withStack stack)]
  rfl

theorem vmSysCall_withStack : vmSysCall env (vm.withStack stack) = (vmSysCall env vm).map (·.withStack stack) := by
  unfold vmSysCall
  simp only [VmState.withStack]
  cases flSyscallDispatch env _ _ _ _ _ _ <;> rfl

theorem vmIoOutIde_withStack (value : Word) : vmIoOutIde env port value (vm.withStack stack) =
      (vmIoOutIde env port value vm).withStack stack := by
  unfold vmIoOutIde
  split
  case h_4 =>
    unfold ideWriteData
    simp only [apply_ite (VmState.withStack · stack)]
    rfl
  all_goals rfl

theorem vmIoOut_withStack (port value : Word) (size : Nat) : vmIoOut env port value size (vm.withStack stack) =
      (vmIoOut env port value size vm).map (·.withStack stack) := by
  unfold vmIoOut
  simp only [vmSysCall_withStack, vmIoOutIde_withStack, apply_ite (Except.map fun r : VmState n W => r.withStack stack)]
  rfl

/-! ## Passes that read no garbage -/

theorem execute_withStack {instr : VmInstr} (clean : ¬ PopsGarbage vm instr) : execute env instr (vm.withStack stack) =
      (execute env instr vm).map (Option.map (·.withStack stack)) := by
  cases port : instr.op.usesPort with
  | false =>
    have same : (vm.withStack stack).host = vm.host := rfl
    have moved := execute_frame env same port clean
    have kept := execute_frame env (rfl : vm.host = vm.host) port clean
    rw [moved, kept]
    cases execute env instr vm with
    | error stop => rfl
    | ok next => cases next <;> rfl
  | true =>
    obtain ⟨op, dst, src, imm, size⟩ := instr
    cases op <;> simp only [VmOpcode.usesPort, Bool.false_eq_true] at port
    case inn =>
      have reads := vmIoIn_withStack env vm stack imm 1
      simp only [execute, reads]
      rfl
    case inDx =>
      have reads := vmIoIn_withStack env vm stack (vm.reg edx &&& 0xFFFF) 4
      exact congrArg (fun r : Word × VmState n W => Except.ok (some (r.2.setReg eax r.1))) reads
    case out => exact (congrArg _ (vmIoOut_withStack env vm stack imm _ 1)).trans (map_some_map _ _)
    case outDx => exact (congrArg _ (vmIoOut_withStack env vm stack _ _ 4)).trans (map_some_map _ _)

theorem advanceEip_withStack (instr : VmInstr) :
    advanceEip instr (vm.withStack stack) = (advanceEip instr vm).withStack stack := by
  unfold advanceEip
  split <;> rfl

theorem vmRunPass_withStack (clean : ¬ ReadsGarbage vm) : vmRunPass env (vm.withStack stack) =
      (vmRunPass env vm).map (Option.map (·.withStack stack)) := by
  cases halted : vm.cpu.halted with
  | true =>
    rw [vmRunPass_halted env vm halted, vmRunPass_halted env (vm.withStack stack) halted]
    rfl
  | false =>
    cases found : fetch vm with
    | error stop =>
      rw [vmRunPass_error env vm halted found, vmRunPass_error env (vm.withStack stack) halted found]
      rfl
    | ok next =>
      cases next with
      | none =>
        rw [vmRunPass_none env vm halted found, vmRunPass_none env (vm.withStack stack) halted found]
        rfl
      | some instr =>
        have safe : ¬ PopsGarbage vm instr := fun pops => clean ⟨halted, instr, found, pops⟩
        rw [vmRunPass_execute env vm halted found, vmRunPass_execute env (vm.withStack stack) halted found,
          execute_withStack env vm stack safe]
        cases execute env instr vm with
        | error stop => rfl
        | ok next =>
          cases next with
          | none => rfl
          | some vm₁ =>
            simp only [Except.map, map_some, advanceEip_withStack]

end

/-! ## Garbage shows -/

def PopNamed (instr : VmInstr) : Prop := instr.op = .pop → instr.dstReg.isSome

theorem decodePlain_popNamed (opcode : Nat) (imm : Byte) :
    Yields PopNamed (.ok (decodePlain opcode imm) : Except Stop _) := by
  unfold decodePlain
  split
  case h_16 =>
    split_ifs
    all_goals first
      | exact yields_none
      | exact yields_some fun _ => rfl
  all_goals exact yields_some (by simp [PopNamed])

theorem vmDecode_popNamed (ram : Ram n) (addr : Word) : Yields PopNamed (vmDecode ram addr) := by
  have movCr (imm : Word) : Yields PopNamed (decodeMovCr ram addr imm) := by
    refine .bind fun m => ?_
    cases m with
    | none => exact yields_none
    | some m => exact .ite yields_none (yields_some fun _ => rfl)
  have arith (op : VmOpcode) (toRm : Bool) : Yields PopNamed (decodeAlu ram addr op toRm) := by
    refine .bind fun m => ?_
    cases m with
    | none => exact yields_none
    | some m =>
      exact .ite yields_none (.ite (yields_some fun _ => rfl) (yields_some fun _ => rfl))
  have arithImm : Yields PopNamed (decodeAluImm8 ram addr) := by
    refine .bind fun m => ?_
    cases m with
    | none => exact yields_none
    | some m =>
      exact .ite yields_none (.ite yields_none (.ite (.bind fun _ => yields_some fun _ => rfl) yields_none))
  have move8 (reg : Reg) : Yields PopNamed (decodeMovR8Imm8 ram addr reg) := .bind fun _ => yields_some fun _ => rfl
  have move32 (reg : Reg) : Yields PopNamed (decodeMovR32Imm32 ram addr reg) := .bind fun _ => yields_some fun _ => rfl
  refine .ite yields_none (.bind fun b0 => .bind fun b1 => .ite ?_ ?_)
  · exact .ite (movCr 0) (.ite (movCr 1) yields_none)
  · exact .ite (arith _ _) (.ite (arith _ _) (.ite (arith _ _) (.ite (arith _ _)
      (.ite arithImm (.ite (move8 _) (.ite (move32 _) (decodePlain_popNamed _ _)))))))

section
variable (env : Env W) (vm : VmState n W)

def popValue (ram : Ram n) (phys : Word) (count : Nat) (c : Word) : Word :=
  if inside : phys.toNat + count ≤ n then
    wordOf (List.ofFn fun i : Fin count =>
      ram ⟨phys.toNat + i, Nat.lt_of_lt_of_le (Nat.add_lt_add_left i.isLt _) inside⟩)
  else wordOf (bytesOf c count)

variable {phys : Word} {count : Nat} {instr : VmInstr}

theorem popStack_const (walk : stackPhys vm 0 = .ok phys) (count : Nat) (c : Word) :
    popStack count (vm.withStack fun _ => c) = .ok (popValue vm.mem.ram phys count c,
        (vm.setReg esp (vm.reg esp + BitVec.ofNat 32 count)).withStack fun _ => c) := by
  have walk' : stackPhys (vm.withStack fun _ => c) 0 = .ok phys := walk
  unfold popValue
  by_cases inside : phys.toNat + count ≤ n
  · rw [popStack_inside walk' inside, dif_pos inside]
    rfl
  · rw [popStack_outside walk' (not_le.mp inside), dif_neg inside]
    rfl

def guestOutcome (count : Nat) : Except Stop (VmCpu × Ram n) :=
  (vmRunStep env count vm).map fun r => (r.2.cpu, r.2.mem.ram)

def StackFree (count : Nat) : Prop :=
  ∀ stack stack', guestOutcome env (vm.withStack stack) count =
    guestOutcome env (vm.withStack stack') count

theorem guestOutcome_succ {vm₁ : VmState n W} (pass : vmRunPass env vm = .ok (some vm₁))
    (count : Nat) : guestOutcome env vm (count + 1) = guestOutcome env vm₁ count := by
  simp only [guestOutcome, vmRunStep, loop, pass]
  cases loop (vmRunPass env) count vm₁ <;> rfl

theorem not_stackFree {r : Word → VmState n W} (pass : ∀ c, vmRunPass env (vm.withStack fun _ => c) = .ok (some (r c)))
    (differ : (r 0).cpu ≠ (r 0xFFFFFFFF).cpu) : ¬ StackFree env vm 1 := by
  intro free
  have same := free (fun _ => 0) fun _ => 0xFFFFFFFF
  rw [guestOutcome_succ env _ (pass 0), guestOutcome_succ env _ (pass 0xFFFFFFFF)] at same
  exact differ (congrArg Prod.fst (Except.ok.inj same))

theorem popValue_outside (ram : Ram n)
    (outside : n < phys.toNat + count) (c : Word) : popValue ram phys count c = wordOf (bytesOf c count) :=
  dif_neg (not_le.mpr outside)

theorem garbage_pop {r : Reg} (running : vm.cpu.halted = false)
    (fetched : fetch vm = .ok (some instr)) (op : instr.op = .pop) (dst : instr.dstReg = some r)
    (unreadable : Unreadable vm 0 4) : ¬ StackFree env vm 1 := by
  obtain ⟨phys, walk, outside⟩ := unreadable
  have pass (c : Word) := vmRunPass_execute env (vm.withStack fun _ => c) running fetched
  simp only [execute, op, popStack_const vm walk, popValue_outside _ outside] at pass
  refine not_stackFree env vm pass fun same => ?_
  have value := congrArg (fun cpu => cpu.regs r) same
  simp [advanceEip, op, dst, setReg32, VmState.cpu, VmState.setCpu] at value
  revert value
  decide

theorem garbage_ret (running : vm.cpu.halted = false) (fetched : fetch vm = .ok (some instr)) (op : instr.op = .ret)
    (unreadable : Unreadable vm 0 2) : ¬ StackFree env vm 1 := by
  obtain ⟨phys, walk, outside⟩ := unreadable
  have pass (c : Word) := vmRunPass_execute env (vm.withStack fun _ => c) running fetched
  simp only [execute, op, popStack_const vm walk, popValue_outside _ outside] at pass
  refine not_stackFree env vm pass fun same => ?_
  have value := congrArg (fun cpu => cpu.eip) same
  simp [advanceEip, op, VmState.cpu, VmState.setCpu] at value
  revert value
  decide

theorem executeIret_const {phys₀ phys₂ phys₄ : Word} (walk₀ : stackPhys vm 0 = .ok phys₀)
    (walk₂ : stackPhys vm 2 = .ok phys₂) (walk₄ : stackPhys vm 4 = .ok phys₄) :
    ∃ popped : VmState n W, ∀ c, executeIret (vm.withStack fun _ => c) = .ok ((popped.setCpu { popped.cpu with
        eip := popValue vm.mem.ram phys₀ 2 c
        cs := popValue vm.mem.ram phys₂ 2 c
        eflags := (popped.cpu.eflags &&& 0xFFFF0000) ||| popValue vm.mem.ram phys₄ 2 c }).withStack fun _ => c) := by
  let vm₁ := vm.setReg esp (vm.reg esp + BitVec.ofNat 32 2)
  let vm₂ := vm₁.setReg esp (vm₁.reg esp + BitVec.ofNat 32 2)
  have shift₁ (offset : Nat) : stackPhys vm₁ offset = stackPhys vm (2 + offset) := stackPhys_popped vm vm.stack 2 offset
  have shift₂ : stackPhys vm₂ 0 = stackPhys vm₁ 2 := stackPhys_popped vm₁ vm₁.stack 2 0
  refine ⟨vm₂.setReg esp (vm₂.reg esp + BitVec.ofNat 32 2), fun c => ?_⟩
  unfold executeIret
  rw [popStack_const vm walk₀]
  simp only [bind, Except.bind]
  rw [popStack_const vm₁ ((shift₁ 0).trans walk₂)]
  simp only
  rw [popStack_const vm₂ ((shift₂.trans (shift₁ 2)).trans walk₄)]
  rfl

theorem garbage_iret (running : vm.cpu.halted = false) (fetched : fetch vm = .ok (some instr)) (op : instr.op = .iret)
    (walks : ∀ offset ∈ [0, 2, 4], Succeeds (stackPhys vm offset))
    (unreadable : ∃ offset ∈ [0, 2, 4], Unreadable vm offset 2) : ¬ StackFree env vm 1 := by
  obtain ⟨phys₀, walk₀⟩ := walks 0 (by simp)
  obtain ⟨phys₂, walk₂⟩ := walks 2 (by simp)
  obtain ⟨phys₄, walk₄⟩ := walks 4 (by simp)
  obtain ⟨popped, result⟩ := executeIret_const vm walk₀ walk₂ walk₄
  have pass (c : Word) := vmRunPass_execute env (vm.withStack fun _ => c) running fetched
  simp only [execute, op, result] at pass
  refine not_stackFree env vm pass fun same => ?_
  obtain ⟨offset, member, phys, walk, outside⟩ := unreadable
  have value := popValue_outside vm.mem.ram outside
  simp only [mem_cons, not_mem_nil, or_false] at member
  rcases member with rfl | rfl | rfl
  · obtain rfl : phys₀ = phys := Except.ok.inj (walk₀.symm.trans walk)
    have differ := congrArg (fun cpu => cpu.eip) same
    simp [advanceEip, op, VmState.cpu, VmState.setCpu, VmState.withStack, value] at differ
    revert differ
    decide
  · obtain rfl : phys₂ = phys := Except.ok.inj (walk₂.symm.trans walk)
    have differ := congrArg (fun cpu => cpu.cs) same
    simp [advanceEip, op, VmState.cpu, VmState.setCpu, VmState.withStack, value] at differ
    revert differ
    decide
  · obtain rfl : phys₄ = phys := Except.ok.inj (walk₄.symm.trans walk)
    have differ := congrArg (fun cpu => cpu.eflags.getLsbD 0) same
    simp [advanceEip, op, VmState.cpu, VmState.setCpu, VmState.withStack, value] at differ
    revert differ
    decide

theorem not_stackFree_of_readsGarbage (garbage : ReadsGarbage vm) : ¬ StackFree env vm 1 := by
  obtain ⟨running, instr, fetched, pops⟩ := garbage
  unfold PopsGarbage at pops
  split at pops
  · next op =>
      have named : instr.dstReg.isSome := by
        obtain ⟨phys, -, decoded⟩ := bind_eq_ok.mp fetched
        split at decoded
        · cases decoded
        · exact vmDecode_popNamed _ _ instr decoded op
      obtain ⟨r, dst⟩ := isSome_iff_exists.mp named
      exact garbage_pop env vm running fetched op dst pops
  · next op => exact garbage_ret env vm running fetched op pops
  · next op => exact garbage_iret env vm running fetched op pops.1 pops.2
  · exact pops.elim

theorem guestOutcome_withStack
    (clean : Along (vmRunPass env) (fun vm => ¬ ReadsGarbage vm) count vm) (stack : Nat → Word) :
    guestOutcome env (vm.withStack stack) count = guestOutcome env vm count := by
  have steps (s t : VmState n W) (related : t = s.withStack stack) (clean : ¬ ReadsGarbage s) :
      Matches (fun s t => t = s.withStack stack) (vmRunPass env s) (vmRunPass env t) := by
    subst related
    rw [vmRunPass_withStack env s stack clean]
    cases vmRunPass env s with
    | error stop => rfl
    | ok next =>
      cases next with
      | none => trivial
      | some s' => rfl
  rcases loop_simulates steps rfl clean with ⟨passes, s, t, left, right, related⟩ | ⟨e, left, right⟩
  · subst related
    simp only [guestOutcome, vmRunStep, left, right]
    rfl
  · simp only [guestOutcome, vmRunStep, left, right]

theorem vmRunStep_stackFree_iff (maxInstructions : Nat) : (∀ count ≤ maxInstructions, StackFree env vm count) ↔
      Along (vmRunPass env) (fun vm => ¬ ReadsGarbage vm) maxInstructions vm := by
  constructor
  · intro free
    induction maxInstructions generalizing vm with
    | zero => trivial
    | succ rest ih =>
      have clean : ¬ ReadsGarbage vm := fun garbage =>
        not_stackFree_of_readsGarbage env vm garbage (free 1 (by omega))
      refine ⟨clean, fun vm₁ pass => ih vm₁ fun count le stack stack' => ?_⟩
      -- the pass is the same on every stack, so `vm₁` inherits the independence
      have next (stack : Nat → Word) : vmRunPass env (vm.withStack stack) = .ok (some (vm₁.withStack stack)) := by
        rw [vmRunPass_withStack env vm stack clean, pass]
        rfl
      have same := free (count + 1) (by omega) stack stack'
      rwa [guestOutcome_succ env _ (next stack), guestOutcome_succ env _ (next stack')] at same
  · intro clean count le stack stack'
    have short := clean.mono le
    rw [guestOutcome_withStack env vm short, guestOutcome_withStack env vm short]

end

def popAboveRam : List Byte := [0xBC, 0x00, 0x00, 0x00, 0x01, 0x58]

theorem popAboveRam_eax : (bootWith popAboveRam).map (fun vm => [0, 0xFFFFFFFF].map fun c =>
      (guestOutcome idleHost (vm.withStack fun _ => c) 2).map fun r => r.1.regs eax) =
      some [.ok 0, .ok 0xFFFFFFFF] := by
  decide +kernel

theorem vmRunStep_leaks_stack : ∃ vm, bootWith popAboveRam = some vm ∧ ¬ StackFree idleHost vm 2 := by
  obtain ⟨vm, booted, outcomes⟩ := map_eq_some_iff.mp popAboveRam_eax
  refine ⟨vm, booted, fun free => ?_⟩
  have same := free (fun _ => 0) fun _ => 0xFFFFFFFF
  simp only [map_cons, map_nil, cons.injEq, and_true] at outcomes
  have eaxs := outcomes.1.symm.trans ((congrArg _ same).trans outcomes.2)
  revert eaxs
  decide

end Flinstone.Vm
