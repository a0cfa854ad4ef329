import Flinstone.Vm.Control

/-! # From INT to IRET and back -/

namespace Flinstone.Vm
open Flinstone.Lib Flinstone.Sys

variable {n : Nat} {W : Type}

structure FrameAt (ram : Ram n) (top : Nat) (cpu : VmCpu) : Prop where
  ip : copyOut ram top 2 = .ok (bytesOf (cpu.eip &&& 0xFFFF) 2)
  cs : copyOut ram (top + 2) 2 = .ok (bytesOf (cpu.cs &&& 0xFFFF) 2)
  flags : copyOut ram (top + 4) 2 = .ok (bytesOf cpu.eflags 2)

variable {vm : VmState n W} {top : Nat} {env : Env W} {t : Transfer} {value : Word}

theorem pushStack_half (value : VmCpu → Word) (at_top : StackAt vm.cpu (top + 2)) (inside : top + 2 ≤ n) :
    ∃ ram, pushStack 2 value vm = .ok (vm.put (lowered vm.cpu 2) ram) ∧
      copyOut ram top 2 = .ok (bytesOf (value (lowered vm.cpu 2)) 2) ∧
      ∀ above, top + 2 ≤ above → copyOut ram above 2 = copyOut vm.mem.ram above 2 := by
  have length : (bytesOf (value (lowered vm.cpu 2)) 2).length = 2 := by simp [bytesOf]
  have stored := copyOut_overwrite vm.mem.ram (length.symm ▸ inside)
  refine ⟨_, pushStack_at value at_top inside, stored, fun above later => copyOut_congr fun i least _ => ?_⟩
  exact overwrite_apart (.inr (by omega))

theorem pushFrame_at (at_top : StackAt vm.cpu (top + 6)) (inside : top + 6 ≤ n) :
    ∃ ram, pushFrame vm = .ok (vm.put (lowered vm.cpu 6) ram) ∧ FrameAt ram top vm.cpu := by
  have at₄ : StackAt vm.cpu (top + 4 + 2) := at_top
  obtain ⟨ram₁, push₁, flags, -⟩ := pushStack_half (fun cpu => cpu.eflags) at₄ (by omega)
  have at₂ : StackAt (vm.put (lowered vm.cpu 2) ram₁).cpu (top + 2 + 2) := at₄.lowered
  obtain ⟨ram₂, push₂, cs, kept₂⟩ := pushStack_half (fun _ => vm.cpu.cs &&& 0xFFFF) at₂ (by omega)
  rw [cpu_put, put_put, lowered_lowered] at push₂
  have at₀ : StackAt (vm.put (lowered vm.cpu (2 + 2)) ram₂).cpu (top + 2) := lowered_lowered vm.cpu 2 2 ▸ at₂.lowered
  obtain ⟨ram₃, push₃, ip, kept₃⟩ := pushStack_half (fun _ => vm.cpu.eip &&& 0xFFFF) at₀ (by omega)
  rw [cpu_put, put_put, lowered_lowered] at push₃
  refine ⟨ram₃, ?_, ip, (kept₃ _ (by omega)).trans cs, ((kept₃ _ (by omega)).trans (kept₂ _ (by omega))).trans flags⟩
  simp only [pushFrame, push₁, push₂, bind, Except.bind]
  exact push₃

theorem executes_of_step {vm vm' : VmState guestRamSize W} (code : t.At vm)
    (ran : vmRunStep env 1 vm = .ok (1, vm')) : Executes vm := by
  by_contra stuck
  have idle := vmRunStep_stuck sized_guest env code stuck
  rw [ran] at idle
  cases idle

theorem ivt_inside (vector : Byte) : (vector.setWidth 32 * 4 : Word).toNat + 4 ≤ guestRamSize := by
  have small : 1024 ≤ guestRamSize := by decide
  rw [BitVec.toNat_mul, BitVec.toNat_setWidth]
  change (vector.toNat % 2 ^ 32 * 4) % 2 ^ 32 + 4 ≤ guestRamSize
  omega

theorem int_step {vector : Byte} {vm vm' : VmState guestRamSize W}
    (code : (Transfer.int vector).At vm) (ran : vmRunStep env 1 vm = .ok (1, vm'))
    (at_top : StackAt vm.cpu (top + 6)) (inside : top + 6 ≤ guestRamSize) :
    StackAt vm'.cpu top ∧ vm'.reg esp = vm.reg esp - 6 ∧ FrameAt vm'.mem.ram top vm.cpu := by
  obtain ⟨ram, frame, held⟩ := pushFrame_at at_top inside
  have below : StackAt (lowered vm.cpu 6) top := at_top.lowered
  have entry : ivtPhys (vm.put (lowered vm.cpu 6) ram) vector = _ := translateAddr_flat below.flat _ _
  obtain ⟨ip, cs, executed, -⟩ := executeInt_reads sized_guest frame entry (ivt_inside vector)
  have stepped := vmRunStep_transfer sized_guest env code (executes_of_step code ran)
    (congrArg (Except.map some) executed)
  rw [ran] at stepped
  cases stepped
  exact ⟨⟨below.flat, below.linear⟩, regs_setReg32_self vm.cpu esp _, held⟩

theorem iret_step {vm vm' : VmState guestRamSize W} {ip cs flags : Word} (code : Transfer.iret.At vm)
    (ran : vmRunStep env 1 vm = .ok (1, vm')) (first : Reads vm.mem (stackPhys vm 0) ip)
    (second : Reads vm.mem (stackPhys vm 2) cs) (third : Reads vm.mem (stackPhys vm 4) flags) :
    vm'.cpu.eip = ip + 1 ∧ vm'.cpu.cs = cs ∧ vm'.cpu.eflags = (vm.cpu.eflags &&& 0xFFFF0000) ||| flags ∧
      vm'.reg esp = vm.reg esp + 6 := by
  have stepped := vmRunStep_transfer sized_guest env code (executes_of_step code ran)
    (congrArg (Except.map some) (executeIret_reads first second third))
  rw [ran] at stepped
  cases stepped
  exact ⟨rfl, rfl, rfl, regs_setReg32_self vm.cpu esp _⟩

theorem reads_of_stackAt (sized : Sized n) {offset : Nat} (at_top : StackAt vm.cpu top)
    (copied : copyOut vm.mem.ram (top + offset) 2 = .ok (bytesOf value 2)) :
    Reads vm.mem (stackPhys vm offset) (value &&& 0xFFFF) := by
  have inside := (copyOut_eq_ok copied).1
  have upper := sized.upper
  have above : StackAt (raised vm.cpu offset) (top + offset) := at_top.raised (by omega)
  have walk : stackPhys vm offset = .ok (stackLinear (raised vm.cpu offset)) := by
    rw [stackPhys, translateAddr_flat at_top.flat, stackLinear, raised, regs_setReg32_self]
    rfl
  rw [← above.linear] at copied
  exact ⟨_, _, walk, copied, (wordOf_bytesOf_two value).symm⟩

theorem and_halfMask_of_lt (small : value.toNat < 65536) : value &&& 0xFFFF = value := by
  apply BitVec.eq_of_toNat_eq
  exact Nat.and_two_pow_sub_one_of_lt_two_pow (n := 16) small

theorem low_flags (flags pushed : Word) :
    ((flags &&& 0xFFFF0000) ||| (pushed &&& 0xFFFF)) &&& 0xFFFF = pushed &&& 0xFFFF := by
  have high : (0xFFFF0000 : Word) &&& 0xFFFF = 0 := by decide
  rw [BitVec.and_or_distrib_right, BitVec.and_assoc, high, BitVec.and_assoc, BitVec.and_self]
  simp

structure Interruptible (vector : Byte) (vm : VmState guestRamSize W) : Prop where
  int : (Transfer.int vector).At vm
  low : vm.cpu.eip.toNat < 65534
  segment : vm.cpu.cs.toNat < 65536
  flat : Flat vm.cpu
  stack : (vmCpuLinearAddr vm.cpu.ss (vm.reg esp - 6)).toNat + 6 ≤ guestRamSize

def SameFrame (left vm : VmState n W) : Prop :=
  vm.reg esp = left.reg esp ∧
    ∀ offset ∈ [0, 2, 4], ∀ value, Reads left.mem (stackPhys left offset) value →
      Reads vm.mem (stackPhys vm offset) value

def Resumes (vm vm' : VmState n W) : Prop :=
  vm'.cpu.eip = vm.cpu.eip + 2 ∧ vm'.cpu.cs = vm.cpu.cs ∧ vm'.cpu.eflags &&& 0xFFFF = vm.cpu.eflags &&& 0xFFFF ∧
    vm'.reg esp = vm.reg esp

theorem int_iret_never_resumes {env : Env W} {vector : Byte} {vm vm₁ vm₂ vm₃ : VmState guestRamSize W}
    (before : Interruptible vector vm) (enters : vmRunStep env 1 vm = .ok (1, vm₁)) (same : SameFrame vm₁ vm₂)
    (iret : Transfer.iret.At vm₂) (leaves : vmRunStep env 1 vm₂ = .ok (1, vm₃)) :
    ¬ Resumes vm vm₃ ∧ vm₃.cpu.eip = vm.cpu.eip + 1 ∧ vm₃.cpu.cs = vm.cpu.cs ∧
      vm₃.cpu.eflags &&& 0xFFFF = vm.cpu.eflags &&& 0xFFFF ∧ vm₃.reg esp = vm.reg esp := by
  obtain ⟨int, low, segment, flat, stack⟩ := before
  have at_top : StackAt vm.cpu ((vmCpuLinearAddr vm.cpu.ss (vm.reg esp - 6)).toNat + 6) := by
    refine ⟨flat, ?_⟩
    have moved : stackLinear vm.cpu = vmCpuLinearAddr vm.cpu.ss (vm.reg esp - 6) + BitVec.ofNat 32 6 := by
      rw [stackLinear, vmCpuLinearAddr, vmCpuLinearAddr, add_assoc]
      exact congrArg _ (sub_add_cancel _ _).symm
    rw [moved, toNat_offset sized_guest stack]
  obtain ⟨below, lower, frame⟩ := int_step int enters at_top stack
  have read {offset : Nat} {value : Word} (member : offset ∈ [0, 2, 4])
      (copied : copyOut vm₁.mem.ram (_ + offset) 2 = .ok (bytesOf value 2)) :=
    same.2 offset member _ (reads_of_stackAt sized_guest below copied)
  have mask (value : Word) : value &&& 0xFFFF &&& 0xFFFF = value &&& 0xFFFF := by
    rw [BitVec.and_assoc, BitVec.and_self]
  obtain ⟨eip, cs, flags, stack⟩ :=
    iret_step iret leaves (read (by simp) frame.ip) (read (by simp) frame.cs) (read (by simp) frame.flags)
  rw [mask, and_halfMask_of_lt (by omega)] at eip
  rw [mask, and_halfMask_of_lt segment] at cs
  have restored : vm₃.cpu.eflags &&& 0xFFFF = vm.cpu.eflags &&& 0xFFFF := by rw [flags, low_flags]
  have raised : vm₃.reg esp = vm.reg esp := by rw [stack, same.1, lower, sub_add_cancel]
  refine ⟨fun resumes => ?_, eip, cs, restored, raised⟩
  have values := congrArg BitVec.toNat (eip.symm.trans resumes.1)
  change (vm.cpu.eip.toNat + 1) % 2 ^ 32 = (vm.cpu.eip.toNat + 2) % 2 ^ 32 at values
  omega

def interrupted (vm : VmState guestRamSize Unit) : VmState guestRamSize Unit :=
  vm.put (setReg32 vm.cpu (some esp) 0x7000) (overwrite vm.mem.ram 2 [0xCF])

def codeAt (vm : VmState n W) (count : Nat) : Except Stop (List Byte) :=
  translateAddr vm.cpu vm.mem (guestEipLinear vm.cpu) >>= fun phys => copyOut vm.mem.ram phys.toNat count

theorem at_of_codeAt (code : codeAt vm t.bytes.length = .ok t.bytes) : t.At vm := by
  obtain ⟨phys, found, copied⟩ := bind_eq_ok.mp code
  exact ⟨phys, found, copied⟩

def roundTrip (vm : VmState guestRamSize Unit) : Except Stop (List Byte × Nat × List Byte × Nat × Word) := do
  let int ← codeAt vm 2
  let entered ← vmRunStep idleHost 1 vm
  let iret ← codeAt entered.2 1
  let left ← vmRunStep idleHost 1 entered.2
  return (int, entered.1, iret, left.1, left.2.cpu.eip)

set_option synthInstance.maxSize 256 in
theorem interrupted_runs :
    (bootWith [0xCD, 0x20]).map (fun vm => (vm.cpu.eip, vm.cpu.cs, vm.cpu.cr0, vm.cpu.ss)) = some (0, 0x07c0, 0, 0) ∧
      (bootWith [0xCD, 0x20]).map (fun vm => roundTrip (interrupted vm)) =
        some (.ok ([0xCD, 0x20], 1, [0xCF], 1, 1)) := by
  decide +kernel

theorem sameFrame_refl (vm : VmState n W) : SameFrame vm vm := ⟨rfl, fun _ _ _ read => read⟩

theorem interrupted_round_trip :
    ∃ vm vm₁ vm₂ : VmState guestRamSize Unit, Interruptible 0x20 vm ∧ stackLinear vm.cpu = 0x7000 ∧
      guestEipLinear vm.cpu = 0x7c00 ∧ vmRunStep idleHost 1 vm = .ok (1, vm₁) ∧ Transfer.iret.At vm₁ ∧
      vmRunStep idleHost 1 vm₁ = .ok (1, vm₂) ∧ vm.cpu.eip = 0 ∧ vm₂.cpu.eip = 1 := by
  obtain ⟨vm, booted, trip⟩ := Option.map_eq_some_iff.mp interrupted_runs.2
  have facts := interrupted_runs.1
  simp only [booted, Option.map_some, Option.some.injEq, Prod.mk.injEq] at facts
  obtain ⟨eip, cs, flat, segment⟩ := facts
  obtain ⟨int, code, trip⟩ := bind_eq_ok.mp trip
  obtain ⟨⟨count, vm₁⟩, entered, trip⟩ := bind_eq_ok.mp trip
  obtain ⟨iret, code', trip⟩ := bind_eq_ok.mp trip
  obtain ⟨⟨count', vm₂⟩, left, trip⟩ := bind_eq_ok.mp trip
  simp only [pure, Except.pure, Except.ok.injEq, Prod.mk.injEq] at trip
  obtain ⟨rfl, rfl, rfl, rfl, inside⟩ := trip
  have stack : (interrupted vm).reg esp = 0x7000 := regs_setReg32_self vm.cpu esp _
  have eip' : (interrupted vm).cpu.eip = 0 := eip
  have cs' : (interrupted vm).cpu.cs = 0x07c0 := cs
  have flat' : (interrupted vm).cpu.cr0 = 0 := flat
  have segment' : (interrupted vm).cpu.ss = 0 := segment
  refine ⟨_, vm₁, vm₂, ⟨at_of_codeAt code, ?_, ?_, ?_, ?_⟩, ?_, ?_, entered, at_of_codeAt code', left, eip', inside⟩
  · rw [eip']; decide
  · rw [cs']; decide
  · rw [Flat, flat']; decide
  · rw [segment', stack]; decide
  · change vmCpuLinearAddr _ ((interrupted vm).reg esp) = _
    rw [segment', stack]; decide
  · rw [guestEipLinear, cs', eip']; decide

theorem interrupted_never_resumes : ∃ vm vm₁ vm₂ : VmState guestRamSize Unit, vmRunStep idleHost 1 vm = .ok (1, vm₁) ∧
      vmRunStep idleHost 1 vm₁ = .ok (1, vm₂) ∧ ¬ Resumes vm vm₂ := by
  obtain ⟨vm, vm₁, vm₂, before, -, -, entered, iret, left, -⟩ := interrupted_round_trip
  exact ⟨vm, vm₁, vm₂, entered, left, (int_iret_never_resumes before entered (sameFrame_refl vm₁) iret left).1⟩

theorem iret_resumes_inside_int :
    ∃ vm vm₁ vm₂ : VmState guestRamSize Unit, Interruptible 0x20 vm ∧ stackLinear vm.cpu = 0x7000 ∧
      guestEipLinear vm.cpu = 0x7c00 ∧ vmRunStep idleHost 1 vm = .ok (1, vm₁) ∧ Transfer.iret.At vm₁ ∧
      vmRunStep idleHost 1 vm₁ = .ok (1, vm₂) ∧ ¬ Resumes vm vm₂ := by
  obtain ⟨vm, vm₁, vm₂, before, stack, code, entered, iret, left, eip, inside⟩ := interrupted_round_trip
  refine ⟨vm, vm₁, vm₂, before, stack, code, entered, iret, left, fun resumes => ?_⟩
  have next := resumes.1
  rw [eip, inside] at next
  exact absurd next (by decide)

end Flinstone.Vm
