import Flinstone.Vm.Stack

/-! # Control transfers -/

namespace Flinstone.Vm
open Flinstone.Lib Flinstone.Sys

variable {n : Nat} {W : Type}

inductive Transfer where
  | jmp (rel : Byte)
  | jz (rel : Byte)
  | jnz (rel : Byte)
  | ret
  | int (vector : Byte)
  | iret

def Reads (mem : VmMem n) (phys : Except Stop Word) (value : Word) : Prop :=
  ∃ p bytes, phys = .ok p ∧ copyOut mem.ram p.toNat 2 = .ok bytes ∧ value = wordOf bytes

def ivtPhys (vm : VmState n W) (vector : Byte) : Except Stop Word :=
  translateAddr vm.cpu vm.mem (vector.setWidth 32 * 4)

def pushFrame (vm : VmState n W) : Except Stop (VmState n W) := do
  let ip := vm.cpu.eip &&& 0xFFFF
  let cs := vm.cpu.cs &&& 0xFFFF
  let vm ← pushStack 2 (fun cpu => cpu.eflags) vm
  let vm ← pushStack 2 (fun _ => cs) vm
  pushStack 2 (fun _ => ip) vm

def zeroSet (cpu : VmCpu) : Prop := cpu.eflags &&& zeroFlag ≠ 0

instance (cpu : VmCpu) : Decidable (zeroSet cpu) := inferInstanceAs (Decidable (_ ≠ _))

def CodeAt (bytes : List Byte) (vm : VmState n W) : Prop :=
  ∃ phys, translateAddr vm.cpu vm.mem (guestEipLinear vm.cpu) = .ok phys ∧
    copyOut vm.mem.ram phys.toNat bytes.length = .ok bytes

namespace Transfer

def opcode : Transfer → Byte
  | jmp _ => 0xEB
  | jz _ => 0x74
  | jnz _ => 0x75
  | ret => 0xC3
  | int _ => 0xCD
  | iret => 0xCF

def operand : Transfer → List Byte
  | jmp rel | jz rel | jnz rel => [rel]
  | int vector => [vector]
  | ret | iret => []

def bytes (t : Transfer) : List Byte := t.opcode :: t.operand

def instr : Transfer → VmInstr
  | jmp rel => ⟨.jmp, none, none, rel.signExtend 32, 2⟩
  | jz rel => ⟨.jz, none, none, rel.signExtend 32, 2⟩
  | jnz rel => ⟨.jnz, none, none, rel.signExtend 32, 2⟩
  | ret => ⟨.ret, none, none, 0, 1⟩
  | int vector => ⟨.int, none, none, vector.setWidth 32, 2⟩
  | iret => ⟨.iret, none, none, 0, 1⟩

def At (t : Transfer) (vm : VmState n W) : Prop := CodeAt t.bytes vm

def Operands (t : Transfer) (vm : VmState n W) : Prop :=
  match t with
  | ret => ∃ ip, Reads vm.mem (stackPhys vm 0) ip
  | iret => ∀ offset ∈ [0, 2, 4], ∃ value, Reads vm.mem (stackPhys vm offset) value
  | int vector =>
    ∃ pushed phys, pushFrame vm = .ok pushed ∧ ivtPhys pushed vector = .ok phys ∧ phys.toNat + 4 ≤ n
  | _ => True

/-- INT reads its vector when the frame is on the stack. -/
def Target (t : Transfer) (vm vm' : VmState n W) (cs eip : Word) : Prop :=
  let next := vm.cpu.eip + BitVec.ofNat 32 t.bytes.length
  match t with
  | jmp rel => cs = vm.cpu.cs ∧ eip = next + rel.signExtend 32
  | jz rel => cs = vm.cpu.cs ∧ eip = if zeroSet vm.cpu then next + rel.signExtend 32 else next
  | jnz rel => cs = vm.cpu.cs ∧ eip = if zeroSet vm.cpu then next else next + rel.signExtend 32
  | ret => cs = vm.cpu.cs ∧ Reads vm.mem (stackPhys vm 0) eip
  | int vector => Reads vm'.mem (ivtPhys vm' vector) eip ∧ Reads vm'.mem ((ivtPhys vm' vector).map (· + 2)) cs
  | iret => Reads vm.mem (stackPhys vm 0) eip ∧ Reads vm.mem (stackPhys vm 2) cs

def Untaken (t : Transfer) (cpu : VmCpu) : Prop :=
  match t with
  | jz _ => ¬ zeroSet cpu
  | jnz _ => zeroSet cpu
  | _ => False

def Loops (t : Transfer) (vm : VmState n W) : Prop :=
  match t with
  | jmp rel => rel = 0xFE
  | jz rel => zeroSet vm.cpu ∧ rel = 0xFE
  | jnz rel => ¬ zeroSet vm.cpu ∧ rel = 0xFE
  | ret => Reads vm.mem (stackPhys vm 0) vm.cpu.eip
  | int vector =>
    Reads vm.mem (ivtPhys vm vector) vm.cpu.eip ∧ Reads vm.mem ((ivtPhys vm vector).map (· + 2)) vm.cpu.cs
  | iret => Reads vm.mem (stackPhys vm 0) vm.cpu.eip ∧ Reads vm.mem (stackPhys vm 2) vm.cpu.cs

end Transfer

def Executes (vm : VmState n W) : Prop :=
  vm.cpu.halted = false ∧
    ∃ phys, translateAddr vm.cpu vm.mem (guestEipLinear vm.cpu) = .ok phys ∧ phys.toNat + 16 ≤ n

open Classical in
def Transfer.Lands (t : Transfer) (vm : VmState n W) : Prop :=
  if Executes vm then t.instr.op = .jmp ∨ t.Untaken vm.cpu else t.Loops vm

theorem secondByte_succeeds (ram : Ram n) (addr : Word) : Succeeds (secondByte ram addr) := by
  unfold secondByte
  split
  · next inside => exact byteAt_succeeds ram inside
  · exact succeeds_ok 0

variable {ram : Ram n} {phys value : Word} {vm vm' : VmState n W} {env : Env W}

theorem vmDecode_oneByte (sized : Sized n) {first second : Byte}
    (here : byteAt ram phys.toNat = .ok first) (next : secondByte ram phys = .ok second) (single : first ≠ 0x0F) :
    vmDecode ram phys = decodeOneByte ram phys first.toNat second := by
  have lower := sized.lower
  unfold vmDecode
  rw [if_neg (by omega), here, next]
  simp only [bind, Except.bind, if_neg single]

theorem vmDecode_transfer (sized : Sized n) (t : Transfer)
    (code : copyOut ram phys.toNat t.bytes.length = .ok t.bytes) : vmDecode ram phys = .ok (some t.instr) := by
  obtain ⟨within, bytes⟩ := copyOut_eq_ok code
  obtain ⟨second, next⟩ := secondByte_succeeds ram phys
  have here : byteAt ram phys.toNat = .ok t.opcode := bytes 0 (Nat.succ_pos _)
  have single : t.opcode ≠ 0x0F := by cases t <;> simp [Transfer.opcode]
  have operand (imm : Byte) (two : t.operand = [imm]) : second = imm := by
    have length : t.bytes.length = 2 := by rw [Transfer.bytes, two]; rfl
    have sum : (phys + BitVec.ofNat 32 1).toNat = phys.toNat + 1 := toNat_offset sized (by omega)
    change (phys + 1).toNat = _ at sum
    rw [secondByte, sum, if_pos (by omega), bytes 1 (by omega), Transfer.bytes, two] at next
    exact (Except.ok.inj next).symm
  rw [vmDecode_oneByte sized here next single]
  cases t with
  | jmp rel => rw [operand rel rfl]; rfl
  | jz rel => rw [operand rel rfl]; rfl
  | jnz rel => rw [operand rel rfl]; rfl
  | ret => rfl
  | int vector => rw [operand vector rfl]; rfl
  | iret => rfl

theorem fetch_code (sized : Sized n) {bytes : List Byte} {instr : VmInstr} (code : CodeAt bytes vm)
    (executes : Executes vm) (decodes : ∀ phys : Word, copyOut vm.mem.ram phys.toNat bytes.length = .ok bytes →
      vmDecode vm.mem.ram phys = .ok (some instr)) : fetch vm = .ok (some instr) := by
  obtain ⟨phys, found, copied⟩ := code
  obtain ⟨-, _, same, window⟩ := executes
  obtain rfl := Except.ok.inj (found.symm.trans same)
  have sum : (phys + BitVec.ofNat 32 16).toNat = phys.toNat + 16 := toNat_offset sized window
  change (phys + 16).toNat = _ at sum
  unfold fetch
  simp only [found, bind, Except.bind]
  rw [if_neg (by omega), decodes phys copied]

theorem fetch_short (sized : Sized n) {bytes : List Byte} (code : CodeAt bytes vm)
    (executes : ¬ Executes vm) (running : vm.cpu.halted = false) : fetch vm = .ok none := by
  obtain ⟨phys, found, copied⟩ := code
  have inside := (copyOut_eq_ok copied).1
  have upper := sized.upper
  have exact : ¬ Wraps phys 16 := by unfold Wraps; omega
  have sum : (phys + 16).toNat = phys.toNat + 16 := toNat_add_of_not_wraps exact
  have window : ¬ phys.toNat + 16 ≤ n := fun window => executes ⟨running, phys, found, window⟩
  unfold fetch
  simp only [found, bind, Except.bind]
  rw [if_pos (by omega)]
  rfl

theorem vmRunStep_one_none (pass : vmRunPass env vm = .ok none) : vmRunStep env 1 vm = .ok (0, vm) := by
  simp only [vmRunStep, loop, pass]

theorem vmRunStep_one_some (pass : vmRunPass env vm = .ok (some vm')) : vmRunStep env 1 vm = .ok (1, vm') := by
  simp only [vmRunStep, loop, pass]

theorem vmRunStep_fetched {instr : VmInstr} (executes : Executes vm)
    (fetched : fetch vm = .ok (some instr)) (ran : execute env instr vm = .ok (some vm')) :
    vmRunStep env 1 vm = .ok (1, advanceEip instr vm') := by
  apply vmRunStep_one_some
  rw [vmRunPass_execute env vm executes.1 fetched, ran]
  rfl

theorem vmRunStep_transfer (sized : Sized n) (env : Env W) {t : Transfer} (code : t.At vm)
    (executes : Executes vm) (ran : execute env t.instr vm = .ok (some vm')) :
    vmRunStep env 1 vm = .ok (1, advanceEip t.instr vm') :=
  vmRunStep_fetched executes (fetch_code sized code executes fun _ => vmDecode_transfer sized t) ran

theorem vmRunStep_stuck (sized : Sized n) (env : Env W) {bytes : List Byte} (code : CodeAt bytes vm)
    (executes : ¬ Executes vm) : vmRunStep env 1 vm = .ok (0, vm) := by
  apply vmRunStep_one_none
  cases halted : vm.cpu.halted with
  | true => exact vmRunPass_halted env vm halted
  | false => exact vmRunPass_none env vm halted (fetch_short sized code executes halted)

/-! ## What `execute` sets -/

theorem setWidth_signExtend (rel : Byte) : (rel.signExtend 32).setWidth 8 = rel := by
  ext i inside
  have wide : i < 32 := by omega
  simp [BitVec.getElem_signExtend, wide, inside]

theorem reads_eq {mem : VmMem n} {phys : Except Stop Word} {value' : Word} (read : Reads mem phys value)
    (again : Reads mem phys value') : value = value' := by
  obtain ⟨p, bytes, found, copied, rfl⟩ := read
  obtain ⟨p', bytes', found', copied', rfl⟩ := again
  obtain rfl := Except.ok.inj (found.symm.trans found')
  obtain rfl := Except.ok.inj (copied.symm.trans copied')
  rfl

theorem popStack_reads (read : Reads vm.mem (stackPhys vm 0) value) :
    popStack 2 vm = .ok (value, vm.setReg esp (vm.reg esp + BitVec.ofNat 32 2)) := by
  obtain ⟨phys, bytes, found, copied, rfl⟩ := read
  exact popStack_copied found copied

theorem add_ofNat_ne (x : Word) {size : Nat} (positive : 0 < size) (small : size < 2 ^ 32) :
    x + BitVec.ofNat 32 size ≠ x := by
  intro same
  have values := congrArg BitVec.toNat same
  rw [BitVec.toNat_add, BitVec.toNat_ofNat, Nat.mod_eq_of_lt small] at values
  omega

theorem executeInt_eq (instr : VmInstr) (vm : VmState n W) : executeInt instr vm = pushFrame vm >>= fun pushed => do
      let phys ← translateAddr pushed.cpu pushed.mem ((instr.imm &&& 0xFF) * 4)
      if (phys + 4).toNat ≤ n then
        let newIp ← vmMemRead pushed.mem phys 2
        let newCs ← vmMemRead pushed.mem (phys + 2) 2
        return pushed.setCpu { pushed.cpu with
          eip := (newIp.map wordOf).getD (vm.cpu.eip &&& 0xFFFF)
          cs := (newCs.map wordOf).getD (vm.cpu.cs &&& 0xFFFF) }
      else return pushed := by
  unfold executeInt pushFrame
  simp only [bind_assoc]

theorem vector_mask (vector : Byte) : vector.setWidth 32 &&& 0xFF = vector.setWidth 32 := by
  apply BitVec.eq_of_toNat_eq
  have bound := vector.isLt
  exact Nat.and_two_pow_sub_one_of_lt_two_pow (n := 8) bound

theorem executeInt_reads {pushed : VmState n W} {vector : Byte} (sized : Sized n)
    (frame : pushFrame vm = .ok pushed) (entry : ivtPhys pushed vector = .ok phys) (inside : phys.toNat + 4 ≤ n) :
    ∃ ip cs, executeInt (Transfer.int vector).instr vm = .ok (pushed.setCpu { pushed.cpu with eip := ip, cs := cs }) ∧
      Reads pushed.mem (ivtPhys pushed vector) ip ∧ Reads pushed.mem ((ivtPhys pushed vector).map (· + 2)) cs := by
  have entire : (phys + BitVec.ofNat 32 4).toNat = phys.toNat + 4 := toNat_offset sized inside
  have half : (phys + BitVec.ofNat 32 2).toNat = phys.toNat + 2 := toNat_offset sized (by omega)
  change (phys + 4).toNat = _ at entire
  change (phys + 2).toNat = _ at half
  have lower : phys.toNat + 2 ≤ n := by omega
  have upper : (phys + 2).toNat + 2 ≤ n := by omega
  refine ⟨_, _, ?_, ⟨phys, _, entry, dif_pos lower, rfl⟩, phys + 2, _, congrArg _ entry, dif_pos upper, rfl⟩
  unfold ivtPhys at entry
  rw [executeInt_eq, frame]
  simp only [Transfer.instr, vector_mask, entry, bind, Except.bind]
  rw [if_pos (by omega), vmMemRead_eq, dif_pos lower]
  simp only [vmMemRead_eq, dif_pos upper]
  rfl

theorem popStack_reads_at {offset : Nat} (read : Reads vm.mem (stackPhys vm offset) value) :
    popStack 2 (vm.setReg esp (vm.reg esp + BitVec.ofNat 32 offset)) =
      .ok (value, vm.setReg esp (vm.reg esp + BitVec.ofNat 32 (offset + 2))) := by
  let moved := vm.setReg esp (vm.reg esp + BitVec.ofNat 32 offset)
  have shifted : stackPhys moved 0 = stackPhys vm offset := stackPhys_popped vm vm.stack offset 0
  have there : Reads moved.mem (stackPhys moved 0) value := by rw [shifted]; exact read
  rw [popStack_reads there, setReg_idem, reg_setReg, add_assoc, ← BitVec.ofNat_add]

theorem executeIret_reads {ip cs flags : Word} (first : Reads vm.mem (stackPhys vm 0) ip)
    (second : Reads vm.mem (stackPhys vm 2) cs) (third : Reads vm.mem (stackPhys vm 4) flags) :
    executeIret vm = .ok ((vm.setReg esp (vm.reg esp + BitVec.ofNat 32 6)).setCpu
      { (vm.setReg esp (vm.reg esp + BitVec.ofNat 32 6)).cpu with
        eip := ip, cs := cs, eflags := (vm.cpu.eflags &&& 0xFFFF0000) ||| flags }) := by
  unfold executeIret
  rw [popStack_reads first]
  simp only [bind, Except.bind, popStack_reads_at second, popStack_reads_at third]
  rfl

namespace Transfer

variable {t : Transfer} {vm vm' : VmState n W}

theorem target_unique {cs cs' eip eip' : Word} (target : t.Target vm vm' cs eip)
    (again : t.Target vm vm' cs' eip') : eip = eip' := by
  cases t with
  | jmp rel => exact target.2.trans again.2.symm
  | jz rel => exact target.2.trans again.2.symm
  | jnz rel => exact target.2.trans again.2.symm
  | ret => exact reads_eq target.2 again.2
  | int vector => exact reads_eq target.1 again.1
  | iret => exact reads_eq target.1 again.1

theorem untaken_target (untaken : t.Untaken vm.cpu) (vm' : VmState n W) :
    t.Target vm vm' vm.cpu.cs (vm.cpu.eip + BitVec.ofNat 32 t.instr.size) := by
  cases t with
  | jz rel => exact ⟨rfl, (if_neg untaken).symm⟩
  | jnz rel => exact ⟨rfl, (if_pos untaken).symm⟩
  | _ => exact untaken.elim

theorem execute_untaken (env : Env W) (untaken : t.Untaken vm.cpu) : execute env t.instr vm = .ok (some vm) := by
  cases t with
  | jz rel =>
    have clear : (vm.cpu.eflags &&& zeroFlag != 0) = false := by simpa [Untaken, zeroSet] using untaken
    simp only [execute, instr, executeCpu, clear, jumpIf]
    rfl
  | jnz rel =>
    have clear : (vm.cpu.eflags &&& zeroFlag == 0) = false := by simpa [Untaken, zeroSet] using untaken
    simp only [execute, instr, executeCpu, clear, jumpIf]
    rfl
  | _ => exact untaken.elim

theorem jump_target (vm : VmState n W) {instr : VmInstr} {rel : Byte} (imm : instr.imm = rel.signExtend 32)
    (size : instr.size = 2) :
    (vm.setCpu (jumpIf true instr vm.cpu)).cpu.eip = vm.cpu.eip + BitVec.ofNat 32 2 + rel.signExtend 32 := by
  change vm.cpu.eip + branchOffset instr = _
  rw [branchOffset, imm, size, setWidth_signExtend, add_comm (rel.signExtend 32), add_assoc]

theorem execute_target (sized : Sized n) (env : Env W) (operands : t.Operands vm) (taken : ¬ t.Untaken vm.cpu) :
    ∃ vm', execute env t.instr vm = .ok (some vm') ∧ t.Target vm vm' vm'.cpu.cs vm'.cpu.eip := by
  cases t with
  | jmp rel => exact ⟨_, rfl, rfl, jump_target vm rfl rfl⟩
  | jz rel =>
    have set : zeroSet vm.cpu := not_not.mp taken
    have condition : (vm.cpu.eflags &&& zeroFlag != 0) = true := by simpa [zeroSet] using set
    refine ⟨vm.setCpu (jumpIf true (jz rel).instr vm.cpu), ?_, rfl, ?_⟩
    · simp only [execute, instr, executeCpu, condition]
      rfl
    · rw [if_pos set]
      exact jump_target vm rfl rfl
  | jnz rel =>
    have clear : ¬ zeroSet vm.cpu := taken
    have condition : (vm.cpu.eflags &&& zeroFlag == 0) = true := by simpa [zeroSet] using clear
    refine ⟨vm.setCpu (jumpIf true (jnz rel).instr vm.cpu), ?_, rfl, ?_⟩
    · simp only [execute, instr, executeCpu, condition]
      rfl
    · rw [if_neg clear]
      exact jump_target vm rfl rfl
  | ret =>
    obtain ⟨ip, read⟩ := operands
    exact ⟨_, congrArg (Except.map _) (popStack_reads read), rfl, read⟩
  | int vector =>
    obtain ⟨pushed, phys, frame, entry, inside⟩ := operands
    obtain ⟨ip, cs, ran, readIp, readCs⟩ := executeInt_reads sized frame entry inside
    exact ⟨_, congrArg (Except.map some) ran, readIp, readCs⟩
  | iret =>
    obtain ⟨ip, first⟩ := operands 0 (by simp)
    obtain ⟨cs, second⟩ := operands 2 (by simp)
    obtain ⟨flags, third⟩ := operands 4 (by simp)
    exact ⟨_, congrArg (Except.map some) (executeIret_reads first second third), first, second⟩

theorem advanceEip_target (target : t.Target vm vm' vm'.cpu.cs vm'.cpu.eip) (moves : t.instr.op ≠ .jmp) :
    ¬ t.Target vm (advanceEip t.instr vm') (advanceEip t.instr vm').cpu.cs (advanceEip t.instr vm').cpu.eip := by
  intro advanced
  rw [advanceEip, if_neg moves] at advanced
  have size : 0 < t.instr.size ∧ t.instr.size < 2 ^ 32 := by cases t <;> simp [instr]
  have kept : t.Target vm vm' vm'.cpu.cs (vm'.cpu.eip + BitVec.ofNat 32 t.instr.size) := by
    cases t <;> exact advanced
  exact add_ofNat_ne _ size.1 size.2 (target_unique kept target)

theorem back_iff (eip : Word) (rel : Byte) : eip = eip + BitVec.ofNat 32 2 + rel.signExtend 32 ↔ rel = 0xFE := by
  have offset : ∀ rel : Byte, BitVec.ofNat 32 2 + rel.signExtend 32 = 0#32 ↔ rel = 0xFE := by decide +kernel
  rw [add_assoc, BitVec.self_eq_add_right, offset]

theorem target_self : t.Target vm vm vm.cpu.cs vm.cpu.eip ↔ t.Loops vm := by
  have next : vm.cpu.eip ≠ vm.cpu.eip + BitVec.ofNat 32 2 := (add_ofNat_ne _ (by simp) (by simp)).symm
  cases t with
  | jmp rel => exact (and_iff_right rfl).trans (back_iff _ rel)
  | jz rel =>
    refine (and_iff_right rfl).trans ?_
    split
    · next set => exact (back_iff _ rel).trans (and_iff_right set).symm
    · next clear => exact iff_of_false next fun loops => clear loops.1
  | jnz rel =>
    refine (and_iff_right rfl).trans ?_
    split
    · next set => exact iff_of_false next fun loops => loops.1 set
    · next clear => exact (back_iff _ rel).trans (and_iff_right clear).symm
  | ret => exact and_iff_right rfl
  | int vector => exact Iff.rfl
  | iret => exact Iff.rfl

end Transfer

/-- Exactly if it is a JMP or an untaken conditional jump, or did not run and leads to itself. -/
theorem vmRunStep_target_iff {env : Env W} {t : Transfer} {vm : VmState guestRamSize W} (code : t.At vm)
    (operands : t.Operands vm) :
    ∃ count vm', vmRunStep env 1 vm = .ok (count, vm') ∧ (t.Target vm vm' vm'.cpu.cs vm'.cpu.eip ↔ t.Lands vm) := by
  unfold Transfer.Lands
  by_cases executes : Executes vm
  · rw [if_pos executes]
    by_cases untaken : t.Untaken vm.cpu
    · refine ⟨_, _, vmRunStep_transfer sized_guest env code executes (Transfer.execute_untaken env untaken), ?_⟩
      have moves : t.instr.op ≠ .jmp := by rintro jump; cases t <;> first | exact untaken.elim | cases jump
      rw [advanceEip, if_neg moves]
      exact iff_of_true (Transfer.untaken_target untaken _) (.inr untaken)
    · obtain ⟨vm', ran, target⟩ := Transfer.execute_target sized_guest env operands untaken
      refine ⟨_, _, vmRunStep_transfer sized_guest env code executes ran, ?_⟩
      by_cases jump : t.instr.op = .jmp
      · rw [advanceEip, if_pos jump]
        exact iff_of_true target (.inl jump)
      · exact iff_of_false (Transfer.advanceEip_target target jump) (not_or.mpr ⟨jump, untaken⟩)
  · rw [if_neg executes]
    exact ⟨_, _, vmRunStep_stuck sized_guest env code executes, Transfer.target_self⟩

/-! ## A booted guest -/

def bootsTo (program : List Byte) : Option (Except Stop Word × Except Stop (List Byte) × Word × Bool) :=
  (bootWith program).map fun vm => (translateAddr vm.cpu vm.mem (guestEipLinear vm.cpu),
    copyOut vm.mem.ram guestLoadAddr.toNat program.length, vm.cpu.eflags, vm.cpu.halted)

theorem booted_at {bytes : List Byte} (boots : bootsTo bytes = some (.ok guestLoadAddr, .ok bytes, 0, false)) :
    ∃ vm, bootWith bytes = some vm ∧ CodeAt bytes vm ∧ Executes vm ∧ vm.cpu.eflags = 0 := by
  obtain ⟨vm, booted, facts⟩ := Option.map_eq_some_iff.mp boots
  simp only [Prod.mk.injEq] at facts
  obtain ⟨found, code, clear, running⟩ := facts
  exact ⟨vm, booted, ⟨_, found, code⟩, ⟨running, _, found, by decide⟩, clear⟩

theorem booted_jmp_lands :
    ∃ vm count vm', bootWith (Transfer.jmp 0x10).bytes = some vm ∧ vmRunStep idleHost 1 vm = .ok (count, vm') ∧
      (Transfer.jmp 0x10).Target vm vm' vm'.cpu.cs vm'.cpu.eip := by
  obtain ⟨vm, booted, code, executes, -⟩ := booted_at (show bootsTo (Transfer.jmp 0x10).bytes = _ by decide +kernel)
  obtain ⟨count, vm', ran, lands⟩ := vmRunStep_target_iff code trivial
  exact ⟨vm, count, vm', booted, ran, lands.mpr ((if_pos executes).mpr (.inl rfl))⟩

theorem booted_jnz_misses : ∃ vm count vm', bootWith (Transfer.jnz 0x10).bytes = some vm ∧ (Transfer.jnz 0x10).At vm ∧
      (Transfer.jnz 0x10).Operands vm ∧ vmRunStep idleHost 1 vm = .ok (count, vm') ∧
      ¬ (Transfer.jnz 0x10).Target vm vm' vm'.cpu.cs vm'.cpu.eip := by
  obtain ⟨vm, booted, code, executes, clear⟩ := booted_at (show bootsTo (Transfer.jnz 0x10).bytes = _ by decide +kernel)
  have taken : ¬ (Transfer.jnz 0x10).Untaken vm.cpu := by simp [Transfer.Untaken, zeroSet, clear]
  have operands : (Transfer.jnz 0x10).Operands vm := trivial
  obtain ⟨vm', ran, target⟩ := Transfer.execute_target sized_guest idleHost operands taken
  have stepped := vmRunStep_transfer sized_guest idleHost code executes ran
  exact ⟨vm, _, _, booted, code, operands, stepped, Transfer.advanceEip_target target (by decide)⟩

end Flinstone.Vm
