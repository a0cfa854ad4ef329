import Flinstone.Vm.Frame
import Flinstone.Vm.Isolation

/-! # The guest's stack -/

namespace Flinstone.Vm
open Flinstone.Lib Flinstone.Sys List

variable {n : Nat} {W : Type}

variable (value : Word)

theorem bytesOf_succ (count : Nat) :
    bytesOf value (count + 1) = value.setWidth 8 :: bytesOf (value >>> 8) count := by
  simp only [bytesOf, range_succ_eq_map, map_cons, map_map]
  congr 1
  apply map_congr_left
  intro i _
  simp [BitVec.shiftRight_add, mul_add, add_comm]

variable {i start count top : Nat} {ram ram' : Ram n} {bytes : List Byte} {cpu : VmCpu} {vm vm' : VmState n W}
  {phys : Word} {r : Reg} {env : Env W} {words : List Word} {srcs dsts : List Reg}

theorem getLsbD_wordOf_cons (b : Byte) (rest : List Byte) (inside : i < 32) :
    (wordOf (b :: rest)).getLsbD i = if i < 8 then b.getLsbD i else (wordOf rest).getLsbD (i - 8) := by
  simp only [wordOf, BitVec.getLsbD_or, BitVec.getLsbD_setWidth, BitVec.getLsbD_shiftLeft, inside, decide_true]
  by_cases low : i < 8
  · simp [low]
  · simp [low, BitVec.getLsbD_of_ge b i (by omega)]

theorem getLsbD_wordOf_bytesOf (count : Nat) (inside : i < 32) :
    (wordOf (bytesOf value count)).getLsbD i = (decide (i < 8 * count) && value.getLsbD i) := by
  induction count generalizing value i with
  | zero => simp [bytesOf, wordOf]
  | succ count ih =>
    rw [bytesOf_succ, getLsbD_wordOf_cons _ _ inside]
    by_cases low : i < 8
    · have covered : i < 8 * (count + 1) := by omega
      simp [low, covered]
    · have shifted : 8 + (i - 8) = i := by omega
      have covered : i - 8 < 8 * count ↔ i < 8 * (count + 1) := by omega
      simp [low, ih (value >>> 8) (i := i - 8) (by omega), shifted, covered]

theorem wordOf_bytesOf_four : wordOf (bytesOf value 4) = value := by
  apply BitVec.eq_of_getLsbD_eq
  intro i inside
  rw [getLsbD_wordOf_bytesOf value 4 inside, decide_eq_true inside, Bool.true_and]

theorem getLsbD_halfMask (inside : i < 32) : (0xFFFF : Word).getLsbD i = decide (i < 16) := by
  revert i
  decide

theorem wordOf_bytesOf_two : wordOf (bytesOf value 2) = value &&& 0xFFFF := by
  apply BitVec.eq_of_getLsbD_eq
  intro i inside
  rw [getLsbD_wordOf_bytesOf value 2 inside, BitVec.getLsbD_and, getLsbD_halfMask inside, Bool.and_comm]

theorem overwrite_apart {i : Fin n}
    (apart : i.val < start ∨ start + bytes.length ≤ i.val) : overwrite ram start bytes i = ram i := by
  unfold overwrite
  split
  · next above => simp [getD, show bytes.length ≤ i.val - start by omega]
  · rfl

theorem copyOut_overwrite (ram : Ram n) (inside : start + bytes.length ≤ n) :
    copyOut (overwrite ram start bytes) start bytes.length = .ok bytes := by
  rw [copyOut, dif_pos inside]
  refine congrArg Except.ok (ext_getElem (by simp) fun i _ below => ?_)
  simp [overwrite, getD]

theorem copyOut_congr (same : ∀ i : Fin n, start ≤ i.val → i.val < start + count → ram' i = ram i) :
    copyOut ram' start count = copyOut ram start count := by
  unfold copyOut
  split
  · refine congrArg Except.ok (congrArg ofFn (funext fun i => same _ ?_ ?_))
    · simp
    · simp
  · rfl

/-! ## Pushing and popping -/

def Flat (cpu : VmCpu) : Prop := cpu.cr0 &&& 0x80000000 = 0

theorem translateAddr_flat (flat : Flat cpu) (mem : VmMem n) (linear : Word) :
    translateAddr cpu mem linear = .ok linear :=
  if_pos flat

theorem setReg_idem (vm : VmState n W) (r : Reg) (v v' : Word) : (vm.setReg r v).setReg r v' = vm.setReg r v' := by
  simp [VmState.setReg, VmState.setCpu, VmState.cpu, setReg32]

theorem reg_setReg (vm : VmState n W) (r : Reg) (v : Word) : (vm.setReg r v).reg r = v := by
  simp [VmState.setReg, VmState.setCpu, VmState.cpu, VmState.reg, setReg32]

theorem popStack_copied (walk : stackPhys vm 0 = .ok phys) (copied : copyOut vm.mem.ram phys.toNat count = .ok bytes) :
    popStack count vm = .ok (wordOf bytes, vm.setReg esp (vm.reg esp + BitVec.ofNat 32 count)) := by
  unfold copyOut at copied
  split at copied
  · next inside => rw [popStack_inside walk inside, Except.ok.inj copied]
  · cases copied

structure StackAt (cpu : VmCpu) (top : Nat) : Prop where
  flat : Flat cpu
  linear : (stackLinear cpu).toNat = top

def lowered (cpu : VmCpu) (count : Nat) : VmCpu := setReg32 cpu (some esp) (cpu.regs esp - BitVec.ofNat 32 count)

def raised (cpu : VmCpu) (count : Nat) : VmCpu := setReg32 cpu (some esp) (cpu.regs esp + BitVec.ofNat 32 count)

theorem regs_setReg32_self (cpu : VmCpu) (r : Reg) (v : Word) : (setReg32 cpu (some r) v).regs r = v := by
  simp [setReg32]

theorem regs_setReg32_of_ne (cpu : VmCpu) {r' : Reg} (other : r' ≠ r) (v : Word) :
    (setReg32 cpu (some r) v).regs r' = cpu.regs r' := by
  simp [setReg32, other]

theorem lowered_zero (cpu : VmCpu) : lowered cpu 0 = cpu := by
  simp [lowered, setReg32]

theorem lowered_lowered (cpu : VmCpu) (count count' : Nat) :
    lowered (lowered cpu count) count' = lowered cpu (count + count') := by
  simp [lowered, setReg32, BitVec.ofNat_add, sub_sub]

theorem StackAt.lowered (at_top : StackAt cpu (top + count)) : StackAt (lowered cpu count) top := by
  refine ⟨at_top.flat, ?_⟩
  have moved : stackLinear (Vm.lowered cpu count) = stackLinear cpu - BitVec.ofNat 32 count := by
    simp only [stackLinear, Vm.lowered, setReg32, Function.update_self, vmCpuLinearAddr, add_sub_assoc]
  have linear := at_top.linear
  rw [moved, BitVec.toNat_sub_of_le (by simp [BitVec.le_def]; omega), linear, BitVec.toNat_ofNat,
    Nat.mod_eq_of_lt (by omega), Nat.add_sub_cancel]

theorem StackAt.raised (at_top : StackAt cpu top) (small : top + count < 2 ^ 32) :
    StackAt (raised cpu count) (top + count) := by
  refine ⟨at_top.flat, ?_⟩
  have moved : stackLinear (Vm.raised cpu count) = stackLinear cpu + BitVec.ofNat 32 count := by
    simp only [stackLinear, Vm.raised, setReg32, Function.update_self, vmCpuLinearAddr, add_assoc]
  rw [moved, BitVec.toNat_add, at_top.linear, BitVec.toNat_ofNat, Nat.add_mod_mod, Nat.mod_eq_of_lt small]

def VmState.put (vm : VmState n W) (cpu : VmCpu) (ram : Ram n) : VmState n W :=
  (vm.setCpu cpu).setMem { vm.mem with ram }

section
variable (vm : VmState n W) (cpu cpu' : VmCpu) (ram ram' : Ram n)

@[simp] theorem cpu_put : (vm.put cpu ram).cpu = cpu := rfl

@[simp] theorem put_put : (vm.put cpu ram).put cpu' ram' = vm.put cpu' ram' := rfl

end

theorem pushStack_inside (value : VmCpu → Word)
    (walk : translateAddr (lowered vm.cpu count) vm.mem (stackLinear (lowered vm.cpu count)) = .ok phys)
    (inside : phys.toNat + count ≤ n) :
    pushStack count value vm = .ok (vm.put (lowered vm.cpu count)
      (overwrite vm.mem.ram phys.toNat (bytesOf (value (lowered vm.cpu count)) count))) := by
  have length : (bytesOf (value (lowered vm.cpu count)) count).length = count := by simp [bytesOf]
  change (translateAddr (lowered vm.cpu count) vm.mem (stackLinear (lowered vm.cpu count)) >>= _) = _
  rw [walk]
  change (vmMemWrite vm.mem _ (bytesOf (value (lowered vm.cpu count)) count) >>= _) = _
  rw [vmMemWrite_eq, length, if_pos inside]
  rfl

theorem pushStack_at (value : VmCpu → Word) (at_top : StackAt vm.cpu (top + count)) (inside : top + count ≤ n) :
    pushStack count value vm = .ok (vm.put (lowered vm.cpu count)
      (overwrite vm.mem.ram top (bytesOf (value (lowered vm.cpu count)) count))) := by
  have below := at_top.lowered
  rw [← below.linear] at inside ⊢
  exact pushStack_inside value (translateAddr_flat below.flat ..) inside

theorem popStack_at (at_top : StackAt vm.cpu top) (copied : copyOut vm.mem.ram top count = .ok bytes) :
    popStack count vm = .ok (wordOf bytes, vm.setCpu (raised vm.cpu count)) := by
  have walk : stackPhys vm 0 = .ok (stackLinear vm.cpu) := by
    rw [stackPhys_zero, translateAddr_flat at_top.flat]
  rw [← at_top.linear] at copied
  exact popStack_copied walk copied

def executeAll (env : Env W) : List VmInstr → VmState n W → Except Stop (Option (VmState n W))
  | [], vm => .ok (some vm)
  | instr :: rest, vm => do
      match ← execute env instr vm with
      | none => return none
      | some vm => executeAll env rest vm

theorem executeAll_cons {instr : VmInstr} {rest : List VmInstr} (ran : execute env instr vm = .ok (some vm')) :
    executeAll env (instr :: rest) vm = executeAll env rest vm' := by
  rw [executeAll, ran]
  rfl

theorem executeAll_append {first second : List VmInstr} (ran : executeAll env first vm = .ok (some vm')) :
    executeAll env (first ++ second) vm = executeAll env second vm' := by
  induction first generalizing vm with
  | nil => cases ran; rfl
  | cons instr rest ih =>
    cases step : execute env instr vm with
    | error stop => rw [executeAll, step] at ran; cases ran
    | ok result =>
      cases result with
      | none => rw [executeAll, step] at ran; cases ran
      | some next =>
        rw [executeAll_cons step] at ran
        rw [cons_append, executeAll_cons step, ih ran]

def pushReg (r : Reg) : VmInstr := ⟨.push, some r, none, 0, 1⟩

def popReg (r : Reg) : VmInstr := ⟨.pop, some r, none, 0, 1⟩

def Words (ram : Ram n) (top : Nat) : List Word → Prop
  | [] => True
  | w :: rest => copyOut ram top 4 = .ok (bytesOf w 4) ∧ Words ram (top + 4) rest

theorem words_congr (held : Words ram top words)
    (same : ∀ i : Fin n, top ≤ i.val → ram' i = ram i) : Words ram' top words := by
  induction words generalizing top with
  | nil => trivial
  | cons w rest ih =>
    refine ⟨?_, ih held.2 fun i above => same i (by omega)⟩
    rw [copyOut_congr fun i above _ => same i above, held.1]

def pushed (cpu : VmCpu) : List Reg → List Word
  | [] => []
  | r :: rest => (lowered cpu 4).regs r :: pushed (lowered cpu 4) rest

def popped (cpu : VmCpu) : List Reg → List Word → VmCpu
  | r :: regs, w :: words => popped (setReg32 (raised cpu 4) (some r) w) regs words
  | _, _ => cpu

theorem execute_pushReg (env : Env W) (r : Reg)
    (at_top : StackAt vm.cpu (top + 4)) (inside : top + 4 ≤ n) (held : Words vm.mem.ram (top + 4) words) :
    ∃ ram, execute env (pushReg r) vm = .ok (some (vm.put (lowered vm.cpu 4) ram)) ∧
      Words ram top ((lowered vm.cpu 4).regs r :: words) ∧
      ∀ i : Fin n, i.val < top ∨ top + 4 ≤ i.val → ram i = vm.mem.ram i := by
  have length : (bytesOf ((lowered vm.cpu 4).regs r) 4).length = 4 := by simp [bytesOf]
  have stored := copyOut_overwrite vm.mem.ram (length.symm ▸ inside)
  have kept (i : Fin n) (apart : i.val < top ∨ top + 4 ≤ i.val) :
      overwrite vm.mem.ram top (bytesOf ((lowered vm.cpu 4).regs r) 4) i = vm.mem.ram i :=
    overwrite_apart (length.symm ▸ apart)
  refine ⟨_, ?_, ⟨stored, words_congr held fun i above => kept i (.inr above)⟩, kept⟩
  exact congrArg (Except.map some) (pushStack_at (fun cpu => getReg32 cpu (some r)) at_top inside)

theorem executeAll_push (env : Env W)
    (at_top : StackAt vm.cpu (top + 4 * srcs.length)) (inside : top + 4 * srcs.length ≤ n)
    (held : Words vm.mem.ram (top + 4 * srcs.length) words) :
    ∃ ram, executeAll env (srcs.map pushReg) vm = .ok (some (vm.put (lowered vm.cpu (4 * srcs.length)) ram)) ∧
      StackAt (lowered vm.cpu (4 * srcs.length)) top ∧ Words ram top ((pushed vm.cpu srcs).reverse ++ words) ∧
      ∀ i : Fin n, i.val < top ∨ top + 4 * srcs.length ≤ i.val → ram i = vm.mem.ram i := by
  induction srcs generalizing vm words with
  | nil =>
    refine ⟨vm.mem.ram, ?_, ?_, held, fun _ _ => rfl⟩
    · rw [length_nil, mul_zero, lowered_zero]
      rfl
    · rw [length_nil, mul_zero, lowered_zero]
      exact at_top
  | cons r rest ih =>
    have split : top + 4 * (r :: rest).length = top + 4 * rest.length + 4 := by rw [length_cons]; omega
    have total : 4 + 4 * rest.length = 4 * (r :: rest).length := by rw [length_cons]; omega
    rw [split] at at_top inside held
    obtain ⟨ram₁, step, held₁, kept₁⟩ := execute_pushReg env r at_top inside held
    have lower : StackAt (vm.put (lowered vm.cpu 4) ram₁).cpu _ := at_top.lowered
    obtain ⟨ram, ran, at_top', held', kept⟩ := ih lower (by omega) held₁
    rw [cpu_put, lowered_lowered, total] at at_top'
    refine ⟨ram, ?_, at_top', ?_, fun i apart => (kept i ?_).trans (kept₁ i ?_)⟩
    · rw [map_cons, executeAll_cons step, ran, put_put, cpu_put, lowered_lowered, total]
    · rw [pushed, reverse_cons, append_assoc]
      exact held'
    · omega
    · omega

theorem StackAt.setReg32 (at_top : StackAt cpu top) (other : r ≠ esp) (w : Word) :
    StackAt (setReg32 cpu (some r) w) top := by
  refine ⟨at_top.flat, ?_⟩
  rw [← at_top.linear, stackLinear, regs_setReg32_of_ne cpu other.symm]
  rfl

theorem executeAll_pop (sized : Sized n) (env : Env W) (at_top : StackAt vm.cpu top) (held : Words vm.mem.ram top words)
    (length : dsts.length = words.length) (others : esp ∉ dsts) :
    executeAll env (dsts.map popReg) vm = .ok (some (vm.setCpu (popped vm.cpu dsts words))) := by
  induction dsts generalizing vm words top with
  | nil => rfl
  | cons r rest ih =>
    cases words with
    | nil => cases length
    | cons w words =>
      obtain ⟨copied, held⟩ := held
      have inside : top + 4 ≤ n := by
        by_contra outside
        rw [copyOut, dif_neg outside] at copied
        cases copied
      have upper := sized.upper
      rw [mem_cons, not_or] at others
      let next := vm.setCpu (setReg32 (raised vm.cpu 4) (some r) w)
      have step : execute env (popReg r) vm = .ok (some next) := by
        simp only [execute, popReg, popStack_at at_top copied, wordOf_bytesOf_four]
        rfl
      have above : StackAt next.cpu (top + 4) := (at_top.raised (by omega)).setReg32 (symm others.1) w
      have ran := ih above held (Nat.succ.inj length) others.2
      rw [map_cons, executeAll_cons step]
      exact ran

theorem popped_of_not_mem (other : r ≠ esp) (unlisted : r ∉ dsts) : (popped cpu dsts words).regs r = cpu.regs r := by
  induction dsts generalizing cpu words with
  | nil => rfl
  | cons d rest ih =>
    cases words with
    | nil => rfl
    | cons w words =>
      rw [mem_cons, not_or] at unlisted
      rw [popped, ih unlisted.2, regs_setReg32_of_ne _ unlisted.1, raised, regs_setReg32_of_ne _ other]

theorem popped_esp (length : dsts.length = words.length)
    (others : esp ∉ dsts) : (popped cpu dsts words).regs esp = cpu.regs esp + BitVec.ofNat 32 (4 * dsts.length) := by
  induction dsts generalizing cpu words with
  | nil => simp [popped]
  | cons d rest ih =>
    cases words with
    | nil => cases length
    | cons w words =>
      rw [mem_cons, not_or] at others
      rw [popped, ih (Nat.succ.inj length) others.2, regs_setReg32_of_ne _ others.1, raised, regs_setReg32_self,
        add_assoc, ← BitVec.ofNat_add, length_cons, Nat.mul_succ, add_comm 4]

theorem popped_last (length : dsts.length = words.length)
    (others : esp ∉ dsts) {k : Nat} {w : Word} (listed : dsts[k]? = some r) (value : words[k]? = some w)
    (last : ∀ j > k, dsts[j]? ≠ some r) : (popped cpu dsts words).regs r = w := by
  induction dsts generalizing cpu words k with
  | nil => cases listed
  | cons d rest ih =>
    cases words with
    | nil => cases length
    | cons w' words =>
      rw [mem_cons, not_or] at others
      rw [popped]
      cases k with
      | zero =>
        cases listed
        cases value
        have unlisted : r ∉ rest := by
          intro again
          obtain ⟨j, found⟩ := mem_iff_getElem?.mp again
          exact last (j + 1) (Nat.succ_pos j) found
        rw [popped_of_not_mem (symm others.1) unlisted, regs_setReg32_self]
      | succ k =>
        exact ih (Nat.succ.inj length) others.2 listed value fun j later => last (j + 1) (Nat.succ_lt_succ later)

theorem length_pushed (cpu : VmCpu) (srcs : List Reg) : (pushed cpu srcs).length = srcs.length := by
  induction srcs generalizing cpu with
  | nil => rfl
  | cons r rest ih => rw [pushed, length_cons, ih, length_cons]

theorem pushed_getElem (cpu : VmCpu) {j : Nat} (listed : srcs[j]? = some r) : (pushed cpu srcs)[j]? =
      some (if r = esp then cpu.regs esp - BitVec.ofNat 32 (4 * (j + 1)) else cpu.regs r) := by
  induction srcs generalizing cpu j with
  | nil => cases listed
  | cons s rest ih =>
    have moved : (lowered cpu 4).regs esp = cpu.regs esp - BitVec.ofNat 32 4 := regs_setReg32_self cpu esp _
    have kept {r : Reg} (other : r ≠ esp) : (lowered cpu 4).regs r = cpu.regs r := regs_setReg32_of_ne cpu other _
    cases j with
    | zero =>
      cases listed
      refine congrArg some ?_
      split
      · next same => rw [same, moved]
      · next other => exact kept other
    | succ j =>
      refine (ih (lowered cpu 4) listed).trans (congrArg some ?_)
      split
      · rw [moved, sub_sub, ← BitVec.ofNat_add, Nat.mul_succ 4 (j + 1), add_comm]
      · next other => exact kept other

theorem executeAll_push_pop (env : Env W) {vm : VmState guestRamSize W} {count : Nat} (srcs dsts : Fin count → Reg)
    (flat : Flat vm.cpu) (others : ∀ k, dsts k ≠ esp)
    (room : 4 * count ≤ vm.cpu.ss.toNat * 16 + (vm.reg esp).toNat)
    (inside : vm.cpu.ss.toNat * 16 + (vm.reg esp).toNat ≤ guestRamSize) :
    ∃ vm', executeAll env ((ofFn srcs).map pushReg ++ (ofFn dsts).map popReg) vm = .ok (some vm') ∧
      (∀ k, (∀ j > k, dsts j ≠ dsts k) → vm'.reg (dsts k) =
        if srcs k.rev = esp then vm.reg esp - BitVec.ofNat 32 (4 * (k.rev + 1)) else vm.reg (srcs k.rev)) ∧
      (∀ r, (∀ k, dsts k ≠ r) → vm'.reg r = vm.reg r) ∧ vm'.reg esp = vm.reg esp ∧
      ∀ i : Fin guestRamSize, i.val + 4 * count < vm.cpu.ss.toNat * 16 + (vm.reg esp).toNat ∨
        vm.cpu.ss.toNat * 16 + (vm.reg esp).toNat ≤ i.val → vm'.mem.ram i = vm.mem.ram i := by
  obtain ⟨top, base⟩ := Nat.exists_eq_add_of_le' room
  have small : guestRamSize < 2 ^ 32 := by decide
  have at_top : StackAt vm.cpu (top + 4 * (ofFn srcs).length) := by
    refine ⟨flat, ?_⟩
    rw [stackLinear, vmCpuLinearAddr, BitVec.toNat_add, BitVec.toNat_shiftLeft, Nat.shiftLeft_eq, length_ofFn]
    unfold VmState.reg at base inside
    omega
  have below : top + 4 * (ofFn srcs).length ≤ guestRamSize := by rw [length_ofFn]; omega
  have unlisted : esp ∉ ofFn dsts := by simp [mem_ofFn, others]
  have nothing : Words vm.mem.ram (top + 4 * (ofFn srcs).length) [] := trivial
  obtain ⟨ram, ran, at_bottom, held, kept⟩ := executeAll_push env at_top below nothing
  rw [append_nil] at held
  have length : (ofFn dsts).length = (pushed vm.cpu (ofFn srcs)).reverse.length := by simp [length_pushed]
  let middle := vm.put (lowered vm.cpu (4 * (ofFn srcs).length)) ram
  have at_middle : StackAt middle.cpu top := at_bottom
  have held_middle : Words middle.mem.ram top _ := held
  have rest := executeAll_pop sized_guest env at_middle held_middle length unlisted
  have restored :
      (popped middle.cpu (ofFn dsts) (pushed vm.cpu (ofFn srcs)).reverse).regs esp = vm.reg esp := by
    have moved : middle.cpu.regs esp = vm.reg esp - BitVec.ofNat 32 (4 * (ofFn srcs).length) :=
      regs_setReg32_self vm.cpu esp _
    rw [popped_esp length unlisted, moved, length_ofFn, length_ofFn, sub_add_cancel]
  refine ⟨_, (executeAll_append ran).trans rest, ?_, ?_, restored, ?_⟩
  · intro k last
    have source : (ofFn srcs)[k.rev.val]? = some (srcs k.rev) := by
      rw [List.getElem?_ofFn, dif_pos k.rev.isLt]
    have index : (pushed vm.cpu (ofFn srcs)).length - 1 - k.val = k.rev.val := by
      rw [length_pushed, length_ofFn, Fin.val_rev]
      omega
    refine popped_last length unlisted (k := k.val) (by simp) ?_ ?_
    · rw [getElem?_reverse (by simp [length_pushed]), index, pushed_getElem vm.cpu source]
      rfl
    · intro j later again
      obtain ⟨inside, same⟩ := List.getElem?_eq_some_iff.mp again
      rw [length_ofFn] at inside
      rw [List.getElem_ofFn] at same
      exact last ⟨j, inside⟩ later same
  · intro r other
    by_cases stack : r = esp
    · rw [stack]
      exact restored
    · refine (popped_of_not_mem stack ?_).trans (regs_setReg32_of_ne vm.cpu stack _)
      simp [mem_ofFn, other]
  · intro i apart
    exact kept i (by rw [length_ofFn]; omega)

theorem booted_swap : ∃ vm vm', bootWith [0xF4] = some vm ∧
      executeAll idleHost ([eax, edx].map pushReg ++ [eax, edx].map popReg)
        (((vm.setReg esp 0x7000).setReg eax 1).setReg edx 2) = .ok (some vm') ∧
      vm'.reg eax = 2 ∧ vm'.reg edx = 1 ∧ vm'.reg esp = 0x7000 := by
  have boots : (bootWith [0xF4]).map (fun vm => (vm.cpu.cr0, vm.cpu.ss)) = some (0, 0) := by decide +kernel
  obtain ⟨vm, booted, facts⟩ := Option.map_eq_some_iff.mp boots
  simp only [Prod.mk.injEq] at facts
  obtain ⟨flat, segment⟩ := facts
  let regs (k : Fin 2) : Reg := if k = 0 then eax else edx
  let start := ((vm.setReg esp 0x7000).setReg eax 1).setReg edx 2
  have first : start.reg eax = 1 := (regs_setReg32_of_ne _ (by decide) _).trans (reg_setReg ..)
  have stack : start.reg esp = 0x7000 :=
    (regs_setReg32_of_ne _ (by decide) _).trans ((regs_setReg32_of_ne _ (by decide) _).trans (reg_setReg ..))
  have top : start.cpu.ss.toNat * 16 + (start.reg esp).toNat = 0x7000 := by
    rw [stack]
    change vm.cpu.ss.toNat * 16 + _ = _
    rw [segment]
    rfl
  have flat' : Flat start.cpu := by
    change vm.cpu.cr0 &&& _ = 0
    rw [flat]
    decide
  obtain ⟨vm', ran, values, -, kept, -⟩ := executeAll_push_pop idleHost regs regs flat' (by decide)
    (by rw [top]; decide) (by rw [top]; decide)
  refine ⟨vm, vm', booted, ran, (values 0 (by decide)).trans ?_, (values 1 (by decide)).trans ?_, kept.trans stack⟩
  · exact (if_neg (by decide)).trans (reg_setReg ..)
  · exact (if_neg (by decide)).trans first

end Flinstone.Vm
