import Flinstone.Vm.Execute

/-! # What an instruction depends on and what it changes -/

namespace Flinstone.Vm
open Flinstone.Lib Flinstone.Sys

variable {n : Nat} {W : Type}

def VmState.withStack (vm : VmState n W) (stack : Nat → Word) : VmState n W := { vm with stack }

def stackPhys (vm : VmState n W) (offset : Nat) : Except Stop Word :=
  translateAddr vm.cpu vm.mem (vmCpuLinearAddr vm.cpu.ss (vm.reg esp + BitVec.ofNat 32 offset))

def Unreadable (vm : VmState n W) (offset count : Nat) : Prop :=
  ∃ phys, stackPhys vm offset = .ok phys ∧ n < phys.toNat + count

def PopsGarbage (vm : VmState n W) (instr : VmInstr) : Prop :=
  match instr.op with
  | .pop => Unreadable vm 0 4
  | .ret => Unreadable vm 0 2
  | .iret => (∀ offset ∈ [0, 2, 4], Succeeds (stackPhys vm offset)) ∧ ∃ offset ∈ [0, 2, 4], Unreadable vm offset 2
  | _ => False

instance (vm : VmState n W) (offset count : Nat) : Decidable (Unreadable vm offset count) :=
  match walk : stackPhys vm offset with
  | .ok phys => decidable_of_iff (n < phys.toNat + count) (by simp [Unreadable, walk])
  | .error _ => isFalse fun ⟨_, found, _⟩ => nomatch walk.symm.trans found

instance (vm : VmState n W) (instr : VmInstr) : Decidable (PopsGarbage vm instr) := by
  unfold PopsGarbage
  split <;> infer_instance

section
variable {vm vm' : VmState n W}

def framed (vm' : VmState n W) (r : VmState n W) : VmState n W := { vm' with host := r.host }

theorem pushStack_frame (same : vm'.host = vm.host) (count : Nat) (value : VmCpu → Word) :
    pushStack count value vm' = (pushStack count value vm).map (framed vm') := by
  obtain ⟨host, io', sys', disk', stack', world'⟩ := vm'
  subst same
  unfold pushStack
  simp only [VmState.setReg, VmState.setCpu, VmState.cpu, VmState.mem, VmState.reg]
  cases translateAddr _ _ _ with
  | error stop => rfl
  | ok phys => simp only [bind, bind, vmMemWrite_eq]; rfl

theorem pushStack_framed (count : Nat) (value : VmCpu → Word) :
    pushStack count value (framed vm' vm) = (pushStack count value vm).map (framed vm') := by
  have same : (framed vm' vm).host = vm.host := rfl
  exact pushStack_frame same count value

theorem stackPhys_zero (vm : VmState n W) : stackPhys vm 0 = translateAddr vm.cpu vm.mem (stackLinear vm.cpu) := by
  simp [stackPhys, stackLinear, VmState.reg]

variable {count : Nat} {stop : Stop} {phys : Word} {r : Word × VmState n W}

theorem popStack_error (walk : stackPhys vm 0 = .error stop) : popStack count vm = .error stop := by
  rw [stackPhys_zero] at walk
  unfold popStack
  rw [walk]
  rfl

theorem popStack_inside (walk : stackPhys vm 0 = .ok phys) (inside : phys.toNat + count ≤ n) : popStack count vm =
      .ok (wordOf (List.ofFn fun i : Fin count => vm.mem.ram ⟨phys.toNat + i, by omega⟩),
        vm.setReg esp (vm.reg esp + BitVec.ofNat 32 count)) := by
  rw [stackPhys_zero] at walk
  unfold popStack
  simp only [walk, bind, Except.bind, vmMemRead_eq, dif_pos inside]
  rfl

theorem popStack_outside (walk : stackPhys vm 0 = .ok phys) (outside : n < phys.toNat + count) : popStack count vm =
      .ok (wordOf (bytesOf (vm.stack 0) count), (vm.withStack fun i => vm.stack (i + 1)).setReg esp
          (vm.reg esp + BitVec.ofNat 32 count)) := by
  rw [stackPhys_zero] at walk
  unfold popStack
  simp only [walk, bind, Except.bind, vmMemRead_eq, dif_neg (not_le.mpr outside)]
  rfl

theorem stackPhys_frame (same : vm'.host = vm.host) (offset : Nat) : stackPhys vm' offset = stackPhys vm offset := by
  simp only [stackPhys, VmState.cpu, VmState.mem, VmState.reg, same]

theorem popStack_frame (same : vm'.host = vm.host) (readable : ¬ Unreadable vm 0 count) :
    popStack count vm' = (popStack count vm).map fun r => (r.1, framed vm' r.2) := by
  have walks := stackPhys_frame same 0
  cases walk : stackPhys vm 0 with
  | error stop => rw [popStack_error walk, popStack_error (walks.trans walk)]; rfl
  | ok phys =>
    have inside : phys.toNat + count ≤ n := by
      by_contra outside
      exact readable ⟨phys, walk, not_le.mp outside⟩
    rw [popStack_inside walk inside, popStack_inside (walks.trans walk) inside]
    obtain ⟨host, io', sys', disk', stack', world'⟩ := vm'
    subst same
    rfl

theorem executeInt_frame (same : vm'.host = vm.host) (instr : VmInstr) :
    executeInt instr vm' = (executeInt instr vm).map (framed vm') := by
  unfold executeInt
  simp only [VmState.cpu, VmState.mem, same]
  rw [pushStack_frame same]
  refine bind_map_congr fun vm₁ _ => ?_
  rw [pushStack_framed]
  refine bind_map_congr fun vm₂ _ => ?_
  rw [pushStack_framed]
  refine bind_map_congr fun vm₃ _ => ?_
  simp only [framed]
  cases translateAddr vm₃.host.cpu vm₃.host.mem _ with
  | error stop => rfl
  | ok phys =>
    simp only [bind, Except.bind, vmMemRead_eq]
    split <;> rfl

theorem executeStosb_frame (same : vm'.host = vm.host) : executeStosb vm' = (executeStosb vm).map (framed vm') := by
  unfold executeStosb
  simp only [VmState.cpu, VmState.mem, VmState.reg, same]
  cases translateAddr vm.host.cpu vm.host.mem _ with
  | error stop => rfl
  | ok phys =>
    simp only [bind, bind, vmMemWrite8_eq]
    obtain ⟨host, io', sys', disk', stack', world'⟩ := vm'
    subst same
    rfl

theorem popStack_ok (walk : stackPhys vm 0 = .ok phys) (count : Nat) : ∃ value stack, popStack count vm =
      .ok (value, (vm.withStack stack).setReg esp (vm.reg esp + BitVec.ofNat 32 count)) := by
  by_cases inside : phys.toNat + count ≤ n
  · exact ⟨_, vm.stack, popStack_inside walk inside⟩
  · exact ⟨_, _, popStack_outside walk (not_le.mp inside)⟩

theorem stackPhys_popped (vm : VmState n W) (stack : Nat → Word) (count offset : Nat) :
    stackPhys ((vm.withStack stack).setReg esp (vm.reg esp + BitVec.ofNat 32 count)) offset =
      stackPhys vm (count + offset) := by
  simp [stackPhys, VmState.setReg, VmState.setCpu, VmState.withStack, VmState.cpu, VmState.mem,
    VmState.reg, setReg32, BitVec.ofNat_add, add_assoc, translateAddr]

theorem stackPhys_popStack (popped : popStack count vm = .ok r)
    (offset : Nat) : stackPhys r.2 offset = stackPhys vm (count + offset) := by
  cases walk : stackPhys vm 0 with
  | error stop =>
    rw [popStack_error walk] at popped
    cases popped
  | ok phys =>
    obtain ⟨value, stack, result⟩ := popStack_ok walk count
    rw [result] at popped
    cases popped
    exact stackPhys_popped vm stack count offset

def iretWalks (vm : VmState n W) : Except Stop Unit := do
  let _ ← stackPhys vm 0
  let _ ← stackPhys vm 2
  let _ ← stackPhys vm 4
  return ()

theorem executeIret_error (walks : iretWalks vm = .error stop) : executeIret vm = .error stop := by
  unfold iretWalks at walks
  unfold executeIret
  cases first : stackPhys vm 0 with
  | error stop =>
    simp only [first, bind, Except.bind, Except.error.injEq] at walks
    rw [popStack_error first, ← walks]
    rfl
  | ok phys =>
    simp only [first, bind, Except.bind] at walks
    obtain ⟨ip, stack, popped⟩ := popStack_ok first 2
    have next := stackPhys_popStack popped
    simp only [popped, bind, Except.bind]
    cases second : stackPhys vm 2 with
    | error stop =>
      simp only [second, Except.error.injEq] at walks
      rw [popStack_error ((next 0).trans second), ← walks]
    | ok phys =>
      simp only [second] at walks
      obtain ⟨cs, stack, popped⟩ := popStack_ok ((next 0).trans second) 2
      have last := (stackPhys_popStack popped 0).trans (next 2)
      simp only [popped]
      cases third : stackPhys vm 4 with
      | error stop =>
        simp only [third, Except.error.injEq] at walks
        rw [popStack_error (last.trans third), ← walks]
      | ok phys => simp [third, pure, Except.pure] at walks

theorem iretWalks_ok (walks : iretWalks vm = .ok ()) : ∀ offset ∈ [0, 2, 4], Succeeds (stackPhys vm offset) := by
  obtain ⟨phys₀, first, walks⟩ := bind_eq_ok.mp walks
  obtain ⟨phys₂, second, walks⟩ := bind_eq_ok.mp walks
  obtain ⟨phys₄, third, -⟩ := bind_eq_ok.mp walks
  intro offset member
  simp only [List.mem_cons, List.not_mem_nil, or_false] at member
  rcases member with rfl | rfl | rfl
  exacts [⟨_, first⟩, ⟨_, second⟩, ⟨_, third⟩]

theorem popStack_framed (readable : ¬ Unreadable vm 0 count) : popStack count (framed vm' vm) =
      (popStack count vm).map fun r => (r.1, framed vm' r.2) := by
  have same : (framed vm' vm).host = vm.host := rfl
  exact popStack_frame same readable

theorem unreadable_popStack (popped : popStack count vm = .ok r) (offset bytes : Nat) :
    Unreadable r.2 offset bytes ↔ Unreadable vm (count + offset) bytes := by
  simp only [Unreadable, stackPhys_popStack popped]

theorem executeIret_frame (same : vm'.host = vm.host) (readable : ∀ offset ∈ [0, 2, 4], ¬ Unreadable vm offset 2) :
    executeIret vm' = (executeIret vm).map (framed vm') := by
  unfold executeIret
  rw [popStack_frame same (readable 0 (by simp))]
  refine bind_map_congr fun ip first => ?_
  have second := unreadable_popStack first
  simp only
  rw [popStack_framed ((second 0 2).not.mpr (readable 2 (by simp)))]
  refine bind_map_congr fun cs popped => ?_
  have third := (unreadable_popStack popped 0 2).trans (second 2 2)
  rw [popStack_framed (third.not.mpr (readable 4 (by simp)))]
  exact bind_map_congr fun _ _ => rfl

def VmOpcode.usesPort : VmOpcode → Bool
  | .inn | .out | .inDx | .outDx => true
  | _ => false

theorem executeIret_clean (same : vm'.host = vm.host) {dst src : Option Reg} {imm : Word}
    {size : Nat} (clean : ¬ PopsGarbage vm ⟨.iret, dst, src, imm, size⟩) :
    executeIret vm' = (executeIret vm).map (framed vm') := by
  cases walks : iretWalks vm with
  | error stop =>
    have walks' : iretWalks vm' = .error stop := by
      simp only [iretWalks, stackPhys_frame same]
      exact walks
    rw [executeIret_error walks, executeIret_error walks']
    rfl
  | ok done =>
    refine executeIret_frame same fun offset member unreadable => ?_
    exact clean ⟨iretWalks_ok walks, offset, member, unreadable⟩

theorem execute_frame (env : Env W) (same : vm'.host = vm.host) {instr : VmInstr}
    (internal : instr.op.usesPort = false) (clean : ¬ PopsGarbage vm instr) :
    execute env instr vm' = (execute env instr vm).map (Option.map (framed vm')) := by
  obtain ⟨op, dst, src, imm, size⟩ := instr
  have popped (count : Nat) (f : Word × VmState n W → Option (VmState n W))
      (moves : ∀ r, f (r.1, framed vm' r.2) = (f r).map (framed vm'))
      (readable : ¬ Unreadable vm 0 count) :
      (popStack count vm').map f = ((popStack count vm).map f).map (Option.map (framed vm')) := by
    rw [popStack_frame same readable]
    cases popStack count vm with
    | error stop => rfl
    | ok r => exact congrArg Except.ok (moves r)
  cases op <;> simp only [VmOpcode.usesPort, Bool.true_eq_false] at internal
  case push => exact (congrArg _ (pushStack_frame same 4 _)).trans (map_some_map _ _)
  case int => exact (congrArg _ (executeInt_frame same _)).trans (map_some_map _ _)
  case stosb => exact (congrArg _ (executeStosb_frame same)).trans (map_some_map _ _)
  case pop => exact popped 4 _ (fun _ => rfl) clean
  case ret => exact popped 2 _ (fun _ => rfl) clean
  case iret => exact (congrArg _ (executeIret_clean same clean)).trans (map_some_map _ _)
  all_goals
    have moves : vm'.setCpu = framed vm' ∘ vm.setCpu := by
      funext cpu
      simp [VmState.setCpu, framed, same]
    simp only [execute, VmState.cpu, same, Except.map, Option.map_map, moves]

end

structure Kept (host host' : VmHost n) : Prop where
  base : host'.mem.base = host.mem.base
  running : host'.running = host.running
  paused : host'.paused = host.paused

theorem Kept.refl (host : VmHost n) : Kept host host := ⟨rfl, rfl, rfl⟩

theorem Kept.trans {a b c : VmHost n} (first : Kept a b) (second : Kept b c) : Kept a c :=
  ⟨second.base.trans first.base, second.running.trans first.running, second.paused.trans first.paused⟩

def Within (vm r : VmState n W) : Prop := ∃ host stack, r = { vm with host, stack } ∧ Kept vm.host host

namespace Within

variable {vm r : VmState n W}

theorem trans {q : VmState n W} (first : Within vm r) (second : Within r q) : Within vm q := by
  obtain ⟨host, stack, rfl, kept⟩ := first
  obtain ⟨host', stack', rfl, kept'⟩ := second
  exact ⟨host', stack', rfl, kept.trans kept'⟩

theorem setCpu (vm : VmState n W) (cpu : VmCpu) : Within vm (vm.setCpu cpu) := ⟨_, vm.stack, rfl, rfl, rfl, rfl⟩

theorem pushStack {count : Nat} {value : VmCpu → Word}
    (pushed : pushStack count value vm = .ok r) : Within vm r := by
  obtain ⟨phys, -, rest⟩ := bind_eq_ok.mp pushed
  rw [vmMemWrite_eq] at rest
  cases rest
  refine ⟨_, vm.stack, rfl, ?_, rfl, rfl⟩
  split <;> rfl

theorem popStack {count : Nat} {r : Word × VmState n W} (popped : popStack count vm = .ok r) : Within vm r.2 := by
  obtain ⟨phys, -, rest⟩ := bind_eq_ok.mp popped
  rw [vmMemRead_eq] at rest
  split at rest <;>
    · cases rest
      exact ⟨_, _, rfl, rfl, rfl, rfl⟩

theorem executeInt {instr : VmInstr} (ran : executeInt instr vm = .ok r) : Within vm r := by
  obtain ⟨vm₁, first, ran⟩ := bind_eq_ok.mp ran
  obtain ⟨vm₂, second, ran⟩ := bind_eq_ok.mp ran
  obtain ⟨vm₃, third, ran⟩ := bind_eq_ok.mp ran
  obtain ⟨phys, -, ran⟩ := bind_eq_ok.mp ran
  have pushes := ((pushStack first).trans (pushStack second)).trans (pushStack third)
  simp only [vmMemRead_eq, bind, bind] at ran
  split at ran
  · cases ran
    exact pushes.trans (setCpu vm₃ _)
  · cases ran
    exact pushes

theorem executeIret (ran : executeIret vm = .ok r) : Within vm r := by
  obtain ⟨ip, first, ran⟩ := bind_eq_ok.mp ran
  obtain ⟨cs, second, ran⟩ := bind_eq_ok.mp ran
  obtain ⟨flags, third, ran⟩ := bind_eq_ok.mp ran
  cases ran
  exact (((popStack first).trans (popStack second)).trans (popStack third)).trans (setCpu flags.2 _)

theorem executeStosb (ran : executeStosb vm = .ok r) : Within vm r := by
  obtain ⟨phys, -, ran⟩ := bind_eq_ok.mp ran
  rw [vmMemWrite8_eq] at ran
  cases ran
  refine ⟨_, vm.stack, rfl, ?_, rfl, rfl⟩
  split <;> rfl

end Within

theorem execute_within {env : Env W} {instr : VmInstr} {vm r : VmState n W}
    (internal : instr.op.usesPort = false) (ran : execute env instr vm = .ok (some r)) :
    Within vm r := by
  have popped {count : Nat} {cpu : Word × VmState n W → VmCpu}
      (ran : (popStack count vm).map (fun top => some (top.2.setCpu (cpu top))) = .ok (some r)) :
      Within vm r := by
    obtain ⟨top, popped, stored⟩ := map_eq_ok.mp ran
    exact Option.some.inj stored ▸ (Within.popStack popped).trans (.setCpu top.2 _)
  obtain ⟨op, dst, src, imm, size⟩ := instr
  cases op <;> simp only [VmOpcode.usesPort, Bool.true_eq_false] at internal
  case push => exact .pushStack (map_some_eq_ok.mp ran)
  case int => exact .executeInt (map_some_eq_ok.mp ran)
  case iret => exact .executeIret (map_some_eq_ok.mp ran)
  case stosb => exact .executeStosb (map_some_eq_ok.mp ran)
  case pop => exact popped ran
  case ret => exact popped ran
  all_goals
    simp only [execute, Except.ok.injEq, Option.map_eq_some_iff] at ran
    obtain ⟨cpu, -, rfl⟩ := ran
    exact .setCpu vm cpu

end Flinstone.Vm
