import Flinstone.Vm.Frame
import Flinstone.Vm.Reset
import Flinstone.Vm.Rounds

/-! # Replaying from a checkpoint -/

namespace Flinstone.Vm
open Flinstone.Lib Flinstone.Sched Flinstone.Sys Option

variable {n : Nat} {W : Type}

/-! ## Instructions that touch no device register -/

def statefulOut (port : Nat) : Bool :=
  (0xE0 ≤ port && port ≤ 0xEA && port != 0xE6) || port == 0x43 || port == 0x1f0 ||
    (0x1f3 ≤ port && port ≤ 0x1f5) || port == 0xCF8 || port == 0xCF9 || port == 0xCFC

def TouchesDevice (vm : VmState n W) (instr : VmInstr) : Prop :=
  match instr.op with
  | .inn => instr.imm.toNat = 0x1f0
  | .inDx => (vm.reg edx &&& 0xFFFF).toNat = 0x1f0
  | .out => statefulOut instr.imm.toNat = true
  | .outDx => statefulOut (vm.reg edx &&& 0xFFFF).toNat = true
  | _ => False

def Replayable (vm : VmState n W) : Prop :=
  vm.cpu.halted = false → ∀ instr, fetch vm = .ok (some instr) →
    ¬ PopsGarbage vm instr ∧ ¬ TouchesDevice vm instr

instance (vm : VmState n W) (instr : VmInstr) : Decidable (TouchesDevice vm instr) := by
  rcases instr with ⟨op⟩
  cases op <;> dsimp only [TouchesDevice] <;> infer_instance

instance (vm : VmState n W) : Decidable (Replayable vm) :=
  match fetched : fetch vm with
  | .ok (some instr) => decidable_of_iff (vm.cpu.halted = false → ¬ PopsGarbage vm instr ∧ ¬ TouchesDevice vm instr) (by
        simp [Replayable, fetched])
  | .ok none => isTrue fun _ _ found => nomatch fetched.symm.trans found
  | .error _ => isTrue fun _ _ found => nomatch fetched.symm.trans found

theorem vmHostKbdPop_kept (host : VmHost n) : Kept host (vmHostKbdPop host).2 := by
  unfold vmHostKbdPop
  split <;> exact ⟨rfl, rfl, rfl⟩

def ideRegister (io : VmIo) (port : Nat) : Byte :=
  match port with
  | 0x1f1 => 0
  | 0x1f2 => 1
  | 0x1f3 => io.ideLba.setWidth 8
  | 0x1f4 => (io.ideLba >>> 8).setWidth 8
  | 0x1f5 => (io.ideLba >>> 16).setWidth 8
  | 0x1f7 => 0x40
  | _ => 0xFF

theorem vmIoInIde_register (env : Env W) {port : Nat} (other : port ≠ 0x1f0) (vm : VmState n W) :
    vmIoInIde env port vm = (ideRegister vm.io port, vm) := by
  unfold vmIoInIde ideRegister
  split
  case h_1 => exact absurd rfl other
  case h_8 => split <;> first | contradiction | rfl
  all_goals rfl

variable {port : Word} {env : Env W} {vm vm' : VmState n W} {m₀ m₀' m m' : Machine n W} {host : VmHost n} {fuel : Nat}

theorem vmIoInKeyboard_calm (calm : CalmHost env) (bound : vm.io.hostBound = true) :
    ∃ world, vmIoInKeyboard env 0x60 vm =
      ((vmHostKbdPop vm.host).1.getD 0, { vm with host := (vmHostKbdPop vm.host).2, world }) := by
  unfold vmIoInKeyboard
  simp only [bound, if_true]
  cases popped : vmHostKbdPop vm.host with
  | mk scancode host =>
    cases scancode with
    | some scancode => exact ⟨vm.world, rfl⟩
    | none =>
      have kept : host = vm.host := by
        unfold vmHostKbdPop at popped
        split at popped
        · exact (Prod.mk.inj popped).2.symm
        · cases (Prod.mk.inj popped).1
      simp only [calm.keyboard, kept]
      exact ⟨_, rfl⟩

def LocalIn (env : Env W) (port : Word) (size n : Nat) : Prop :=
  ∃ (value : VmHost n → VmIo → Word) (next : VmHost n → VmHost n),
    (∀ host, Kept host (next host)) ∧ ∀ vm : VmState n W, vm.io.hostBound = true → ∃ world, vmIoIn env port size vm =
        (value vm.host vm.io, { vm with host := next vm.host, world })

theorem localIn_still {size : Nat} (value : VmHost n → VmIo → Word)
    (reads : ∀ vm : VmState n W, vm.io.hostBound = true →
      vmIoIn env port size vm = (value vm.host vm.io, vm)) : LocalIn env port size n :=
  ⟨value, id, Kept.refl, fun vm bound => ⟨vm.world, reads vm bound⟩⟩

theorem vmIoIn_local (calm : CalmHost env) (other : port.toNat ≠ 0x1f0) (size n : Nat) : LocalIn env port size n := by
  by_cases ide : 0x1f0 ≤ port.toNat ∧ port.toNat ≤ 0x1f7
  · refine localIn_still (fun _ io =>
      readPortWidth ((ideRegister io port.toNat).setWidth 32) size) fun vm _ => ?_
    unfold vmIoIn
    rw [if_pos ide, vmIoInIde_register env other]
  by_cases data : port.toNat = 0x60
  · refine ⟨fun host _ => readPortWidth (((vmHostKbdPop host).1.getD 0).setWidth 32) size,
      fun host => (vmHostKbdPop host).2, vmHostKbdPop_kept, fun vm bound => ?_⟩
    obtain ⟨world, popped⟩ := vmIoInKeyboard_calm calm bound
    refine ⟨world, ?_⟩
    unfold vmIoIn
    rw [if_neg ide, if_pos (.inl data), data, popped]
  by_cases status : port.toNat = 0x64
  · refine localIn_still (fun _ _ => readPortWidth 0 size) fun vm _ => ?_
    unfold vmIoIn vmIoInKeyboard
    rw [if_neg ide, if_pos (.inr status), if_neg data]
    rfl
  have keyboard : ¬ (port.toNat = 0x60 ∨ port.toNat = 0x64) := by simp [data, status]
  by_cases pit : 0x40 ≤ port.toNat ∧ port.toNat ≤ 0x43
  · refine localIn_still (fun host io => readPortWidth (((if port.toNat = 0x40 then
      host.vmTicks.setWidth 8 else if port.toNat = 0x43 then io.pitMode else 0 : Byte)).setWidth 32)
      size) fun vm bound => ?_
    unfold vmIoIn vmIoInPit
    rw [if_neg ide, if_neg keyboard, if_pos pit]
    split_ifs <;> rfl
  · refine localIn_still (fun _ io =>
      if port.toNat = 0x20 ∨ port.toNat = 0x21 ∨ port.toNat = 0xA0 ∨ port.toNat = 0xA1 then
        readPortWidth ((vmIoInPic port.toNat).setWidth 32) size
      else if port.toNat = 0xCFC ∧ size = 4 then vmIoInPci io
      else if port.toNat = 0xE6 then readPortWidth (low32 io.sysRet) size
      else if port.toNat = 0xEB then readPortWidth (high32 io.sysRet) size
      else readPortWidth 0xFF size) fun vm _ => ?_
    unfold vmIoIn
    rw [if_neg ide, if_neg keyboard, if_neg pit]
    split_ifs <;> rfl

theorem vmIoOut_local (env : Env W) (stateless : statefulOut port.toNat = false)
    (value : Word) (size : Nat) (vm : VmState n W) :
    ∃ world, vmIoOut env port value size vm = .ok { vm with world } := by
  simp only [statefulOut, Bool.or_eq_false_iff, Bool.and_eq_false_iff, decide_eq_false_iff_not,
    beq_eq_false_iff_ne, bne_eq_false_iff_eq] at stateless
  have ide : vmIoOutIde env port.toNat value vm = vm := by
    unfold vmIoOutIde
    split <;> first | omega | rfl
  unfold vmIoOut
  simp only [ide]
  rw [if_neg (by omega), if_neg (by omega), if_neg (by omega), if_neg (by omega),
    if_neg (by omega), if_neg (by omega), if_neg (by omega)]
  split
  · exact ⟨vm.world, rfl⟩
  split
  · split
    · exact ⟨_, rfl⟩
    · exact ⟨vm.world, rfl⟩
  rw [if_neg (by omega)]
  split
  · exact ⟨_, rfl⟩
  · exact ⟨vm.world, rfl⟩

/-! ## Two machines side by side -/

def Beside (vm vm' r r' : VmState n W) : Prop :=
  ∃ host world world', r = { vm with host, world } ∧ r' = { vm' with host, world := world' } ∧ Kept vm.host host

theorem in_beside (calm : CalmHost env)
    (host : vm'.host = vm.host) (io : vm'.io = vm.io) (bound : vm.io.hostBound = true)
    (other : port.toNat ≠ 0x1f0) (size : Nat) (store : VmCpu → Word → VmCpu) :
    let (v, r) := vmIoIn env port size vm
    let (v', r') := vmIoIn env port size vm'
    Beside vm vm' (r.setCpu (store r.cpu v)) (r'.setCpu (store r'.cpu v')) := by
  obtain ⟨value, next, kept, reads⟩ := vmIoIn_local calm other size n
  obtain ⟨world, first⟩ := reads vm bound
  obtain ⟨world', second⟩ := reads vm' (io ▸ bound)
  have same : value vm'.host vm'.io = value vm.host vm.io := by rw [host, io]
  rw [same, host] at second
  rw [first, second]
  exact ⟨_, world, world', rfl, rfl, (kept vm.host).trans ⟨rfl, rfl, rfl⟩⟩

theorem out_beside (env : Env W) (host : vm'.host = vm.host)
    (stateless : statefulOut port.toNat = false) (value : Word) (size : Nat) :
    Matches (Beside vm vm') ((vmIoOut env port value size vm).map some)
      ((vmIoOut env port value size vm').map some) := by
  obtain ⟨world, first⟩ := vmIoOut_local env stateless value size vm
  obtain ⟨world', second⟩ := vmIoOut_local env stateless value size vm'
  rw [first, second]
  refine ⟨vm.host, world, world', rfl, ?_, Kept.refl vm.host⟩
  rw [← host]

theorem execute_beside (calm : CalmHost env)
    (host : vm'.host = vm.host) (io : vm'.io = vm.io) (bound : vm.io.hostBound = true)
    {instr : VmInstr} (clean : ¬ PopsGarbage vm instr) (quiet : ¬ TouchesDevice vm instr) :
    Matches (Beside vm vm') (execute env instr vm) (execute env instr vm') := by
  cases port : instr.op.usesPort with
  | false =>
    have kept := execute_frame env (rfl : vm.host = vm.host) port clean
    rw [execute_frame env host port clean]
    cases ran : execute env instr vm with
    | error stop => rfl
    | ok next =>
      cases next with
      | none => trivial
      | some r =>
        rw [ran] at kept
        have same : r = framed vm r := some.inj (Except.ok.inj kept)
        obtain ⟨after, stack, rfl, unwritten⟩ := execute_within port ran
        exact ⟨after, vm.world, vm'.world, same, rfl, unwritten⟩
  | true =>
    obtain ⟨op, dst, src, imm, size⟩ := instr
    have regs (r : Reg) : vm'.reg r = vm.reg r := by simp only [VmState.reg, VmState.cpu, host]
    have cpu : vm'.cpu = vm.cpu := by simp only [VmState.cpu, host]
    cases op <;> simp only [VmOpcode.usesPort, Bool.false_eq_true] at port
    case inn =>
      exact in_beside calm host io bound quiet 1 fun cpu v =>
        setReg8Lo cpu (some eax) (v.setWidth 8)
    case inDx =>
      have stored := in_beside calm host io bound quiet 4 fun cpu v => setReg32 cpu (some eax) v
      simp only [execute, regs]
      exact stored
    case out =>
      simp only [execute, cpu]
      exact out_beside env host (Bool.not_eq_true _ ▸ quiet) _ 1
    case outDx =>
      simp only [execute, regs]
      exact out_beside env host (Bool.not_eq_true _ ▸ quiet) _ 4

theorem Beside.advanceEip {r r' : VmState n W} (beside : Beside vm vm' r r')
    (instr : VmInstr) : Beside vm vm' (advanceEip instr r) (advanceEip instr r') := by
  obtain ⟨host, world, world', rfl, rfl, kept⟩ := beside
  unfold Vm.advanceEip
  split
  · exact ⟨host, world, world', rfl, rfl, kept⟩
  · exact ⟨_, world, world', rfl, rfl, kept.trans ⟨rfl, rfl, rfl⟩⟩

theorem Beside.trans {r r' q q' : VmState n W} (first : Beside vm vm' r r')
    (second : Beside r r' q q') : Beside vm vm' q q' := by
  obtain ⟨host, world, world', rfl, rfl, kept⟩ := first
  obtain ⟨host₂, world₂, world₂', rfl, rfl, kept₂⟩ := second
  exact ⟨host₂, world₂, world₂', rfl, rfl, kept.trans kept₂⟩

theorem vmRunPass_beside (calm : CalmHost env)
    (host : vm'.host = vm.host) (io : vm'.io = vm.io) (bound : vm.io.hostBound = true)
    (replayable : Replayable vm) :
    Matches (Beside vm vm') (vmRunPass env vm) (vmRunPass env vm') := by
  have cpu : vm'.cpu = vm.cpu := congrArg VmHost.cpu host
  have fetches : fetch vm' = fetch vm := by
    simp only [fetch, cpu, VmState.mem, host]
  cases halted : vm.cpu.halted with
  | true =>
    rw [vmRunPass_halted env vm halted, vmRunPass_halted env vm' (cpu ▸ halted)]
    trivial
  | false =>
    have halted' : vm'.cpu.halted = false := cpu ▸ halted
    cases fetched : fetch vm with
    | error stop =>
      rw [vmRunPass_error env vm halted fetched, vmRunPass_error env vm' halted' (fetches.trans fetched)]
      rfl
    | ok found =>
      cases found with
      | none =>
        rw [vmRunPass_none env vm halted fetched, vmRunPass_none env vm' halted' (fetches.trans fetched)]
        trivial
      | some instr =>
        obtain ⟨clean, quiet⟩ := replayable halted instr fetched
        have step := execute_beside calm host io bound clean quiet
        rw [vmRunPass_execute env vm halted fetched, vmRunPass_execute env vm' halted' (fetches.trans fetched)]
        exact step.map fun _ _ beside => beside.advanceEip instr

theorem vmRunStep_beside (calm : CalmHost env) {vm₀ vm₀' : VmState n W}
    (io : vm₀'.io = vm₀.io) (bound : vm₀.io.hostBound = true)
    (beside : Beside vm₀ vm₀' vm vm') {count : Nat}
    (replayable : Along (vmRunPass env) Replayable count vm) :
    (∃ passes r r', vmRunStep env count vm = .ok (passes, r) ∧
        vmRunStep env count vm' = .ok (passes, r') ∧ Beside vm₀ vm₀' r r') ∨
      ∃ stop, vmRunStep env count vm = .error stop ∧ vmRunStep env count vm' = .error stop := by
  refine loop_simulates (fun r r' beside replayable => ?_) beside replayable
  obtain ⟨host, world, world', rfl, rfl, kept⟩ := id beside
  have same : { vm₀' with host, world := world' }.host = { vm₀ with host, world }.host := rfl
  exact (vmRunPass_beside calm same io bound replayable).imp fun _ _ next => beside.trans next

/-! ## Rounds side by side -/

-- the state before a round: no reset is pending, no checkpoint falls due, and the quantum stays
-- with the guest proper
def RoundReplayable (env : Env W) (maxCycles : Word) (m : Machine n W) : Prop :=
  m.vm.cpu.halted = false → m.runCycles < maxCycles →
    m.vm.io.resetRequested = false ∧ (m.runCycles + 1).toNat % vmCheckpointInterval ≠ 0 ∧
      Along (vmRunPass env) Replayable vmQuantum m.vm

instance (env : Env W) (maxCycles : Word) (m : Machine n W) : Decidable (RoundReplayable env maxCycles m) := by
  unfold RoundReplayable
  infer_instance

structure Abreast (m₀ m₀' m m' : Machine n W) : Prop where
  vm : Beside m₀.vm m₀'.vm m.vm m'.vm
  runCycles : m'.runCycles = m.runCycles
  snapshot : m.snapshot = m₀.snapshot

theorem housekeeping_abreast (env : Env W) (abreast : Abreast m₀ m₀' m m')
    (undue : (m.runCycles + 1).toNat % vmCheckpointInterval ≠ 0) :
    ∃ r r', housekeeping env m = .ok r ∧ housekeeping env m' = .ok r' ∧ Abreast m₀ m₀' r r' := by
  obtain ⟨⟨host, world, world', left, right, kept⟩, cycles, snapshot⟩ := abreast
  obtain ⟨shown, first⟩ := housekeeping_eq env m
  obtain ⟨shown', second⟩ := housekeeping_eq env m'
  rw [if_neg undue] at first
  rw [cycles, if_neg undue] at second
  refine ⟨_, _, first, second, ⟨vmHostTickAdvance host vmTickStep, shown, shown', ?_, ?_, ?_⟩, ?_, snapshot⟩
  · simp only [ticked, left]
  · simp only [ticked, right]
  · exact kept.trans ⟨rfl, rfl, rfl⟩
  · simp only [ticked, cycles]

theorem cycle_abreast (calm : CalmHost env) (io : m₀'.vm.io = m₀.vm.io) (bound : m₀.vm.io.hostBound = true)
    (abreast : Abreast m₀ m₀' m m')
    (undue : (m.runCycles + 1).toNat % vmCheckpointInterval ≠ 0)
    (replayable : Along (vmRunPass env) Replayable vmQuantum m.vm) :
    (∃ r r', cycle env m = .ok r ∧ cycle env m' = .ok r' ∧ Abreast m₀ m₀' r r') ∨
      ∃ stop, cycle env m = .error stop ∧ cycle env m' = .error stop := by
  unfold cycle runTask
  rcases vmRunStep_beside calm io bound abreast.vm replayable with
    ⟨passes, vm, vm', left, right, beside⟩ | ⟨stop, left, right⟩
  · have ran : Abreast m₀ m₀' { m with vm } { m' with vm := vm' } := ⟨beside, abreast.runCycles, abreast.snapshot⟩
    have cpu : vm'.cpu = vm.cpu := by
      obtain ⟨host, world, world', rfl, rfl, -⟩ := beside
      rfl
    simp only [left, right, Except.map, bind, Except.bind, cpu]
    split
    · exact .inl (housekeeping_abreast env ran undue)
    · exact .inl ⟨_, _, rfl, rfl, ran⟩
  · exact .inr ⟨stop, by simp [left, Except.map, bind, Except.bind], by simp [right, Except.map, bind, Except.bind]⟩

theorem cycleRound_abreast (calm : CalmHost env) (maxCycles : Word)
    (io : m₀'.vm.io = m₀.vm.io) (bound : m₀.vm.io.hostBound = true)
    (m m' : Machine n W) (abreast : Abreast m₀ m₀' m m')
    (replayable : RoundReplayable env maxCycles m) :
    Matches (Abreast m₀ m₀') (cycleRound env maxCycles m) (cycleRound env maxCycles m') := by
  have cpu : m'.vm.cpu = m.vm.cpu ∧ m'.vm.io = m.vm.io := by
    obtain ⟨host, world, world', left, right, -⟩ := abreast.vm
    rw [left, right]
    exact ⟨rfl, io⟩
  unfold cycleRound
  rw [cpu.1, cpu.2, abreast.runCycles]
  by_cases done : (m.vm.cpu.halted || decide (maxCycles ≤ m.runCycles)) = true
  · rw [if_pos done, if_pos done]
    trivial
  · rw [if_neg done, if_neg done]
    simp only [Bool.or_eq_true, decide_eq_true_eq, not_or, Bool.not_eq_true] at done
    obtain ⟨quiet, undue, quantum⟩ := replayable done.1 (BitVec.not_le.mp done.2)
    rw [if_neg (by simp [quiet]), if_neg (by simp [quiet])]
    rcases cycle_abreast calm io bound abreast undue quantum with
      ⟨r, r', left, right, next⟩ | ⟨stop, left, right⟩
    · rw [left, right]
      exact next
    · rw [left, right]
      rfl

/-! ## Saving and restoring -/

theorem restoreHost_snapshotOf {later : VmHost n} (kept : Kept host later) :
    restoreHost (snapshotOf host) host.mem.ram later = host := by
  obtain ⟨base, running, paused⟩ := kept
  obtain ⟨⟨ram, base₀, _, _⟩, cpu, queue, head, tail, ticks, running₀, paused₀⟩ := host
  cases base
  cases running
  cases paused
  rfl

theorem vmSnapshotSave_calm (calm : CalmHost env) (nonempty : n ≠ 0) (m : Machine n W) :
    ∃ w, vmSnapshotSave env m = (true, { m with
      vm := { m.vm with
        disk := (snapshotDisk env m.vm.disk w).1
        world := (snapshotDisk env m.vm.disk w).2 }
      snapshot := snapshotOf m.vm.host }) := by
  have granted : ∃ w, snapshotAlloc env m.snapshot m.vm.world = (true, w) := by
    unfold snapshotAlloc
    split
    · exact ⟨_, rfl⟩
    · obtain ⟨size, w, allocated⟩ := calm.malloc_eq n m.vm.world
      exact ⟨w, by rw [allocated]⟩
  obtain ⟨w, granted⟩ := granted
  refine ⟨w, ?_⟩
  unfold vmSnapshotSave vmSnapshotSaveOn
  rw [if_neg nonempty, granted]
  rfl

theorem restoreDisk_content (calm : CalmHost env) {disk : VmDisk} (intact : DiskIntact disk) (w w' : W) :
    diskContent (restoreDisk env (snapshotDisk env disk w).1 w').1 = diskContent (snapshotDisk env disk w).1 := by
  cases active : disk.isOpen with
  | false => simp [restoreDisk, restoreDiskOn, snapshotDisk, snapshotDiskOn, vmDiskIsActive, active]
  | true =>
    obtain ⟨copy, w₁, copied, copies⟩ := vmDiskSnapshotSave_calm calm active intact w
    let saved : VmDisk := { disk with checkpoint := some copy }
    have active' : vmDiskIsActive saved = true := active
    have checkpoint : saved.checkpoint = some copy := rfl
    obtain ⟨image, w₂, restored, copies'⟩ := vmDiskSnapshotRestore_calm calm active' checkpoint copies.length w'
    have first : snapshotDisk env disk w = (saved, w₁) := by
      have isActive : vmDiskIsActive disk = true := active
      rw [snapshotDisk, snapshotDiskOn, if_pos isActive, ← vmDiskSnapshotSave, copied]
    have second : restoreDisk env saved w' = ({ saved with image }, w₂) := by
      rw [restoreDisk, restoreDiskOn, if_pos active', ← vmDiskSnapshotRestore, restored]
    rw [first, second]
    exact diskContent_copies (show DiskIntact saved from intact)
      ⟨copies'.length, fun i below => (copies'.byte i below).trans (copies.byte i below)⟩

theorem abreast_refl (host : m'.vm.host = m.vm.host) (cycles : m'.runCycles = m.runCycles) : Abreast m m' m m' :=
  ⟨⟨m.vm.host, m.vm.world, m'.vm.world, rfl, by rw [← host], Kept.refl _⟩, cycles, rfl⟩

theorem vmSnapshotRestore_eq (env : Env W) (snapshot : m.snapshot = snapshotOf host) (kept : Kept host m.vm.host) :
    ∃ world, (vmSnapshotRestore env m).2 = { m with
      vm := { m.vm with host, disk := (restoreDisk env m.vm.disk m.vm.world).1, world } } := by
  refine ⟨(restoreDisk env m.vm.disk m.vm.world).2, ?_⟩
  have checkpoint : m.snapshot.hasCheckpoint = true := by rw [snapshot]; rfl
  have ram : m.snapshot.ramCopy = some host.mem.ram := by rw [snapshot]; rfl
  have back : restoreHost m.snapshot host.mem.ram m.vm.host = host := by
    rw [snapshot]
    exact restoreHost_snapshotOf kept
  simp only [vmSnapshotRestore, vmSnapshotRestoreOn, checkpoint, ram, back, restoreDisk]

theorem runs_abreast (calm : CalmHost env) (maxCycles : Word) (host : m'.vm.host = m.vm.host)
    (io : vmIoSetHost m'.vm.io true = vmIoSetHost m.vm.io true) {rounds : Nat}
    {r : Machine n W}
    (ran : loop (cycleRound env maxCycles) fuel (cycleStart m) = .ok (rounds, r))
    (replayable : Along (cycleRound env maxCycles) (RoundReplayable env maxCycles) fuel (cycleStart m)) :
    ∃ r', loop (cycleRound env maxCycles) fuel (cycleStart m') = .ok (rounds, r') ∧
      Abreast (cycleStart m) (cycleStart m') r r' := by
  have start : Abreast (cycleStart m) (cycleStart m') (cycleStart m) (cycleStart m') := abreast_refl host rfl
  rcases loop_simulates (cycleRound_abreast calm maxCycles io rfl) start replayable with
    ⟨rounds', s, r', left, right, abreast⟩ | ⟨stop, left, -⟩
  · obtain ⟨rfl, rfl⟩ := Prod.mk.inj (Except.ok.inj (ran.symm.trans left))
    exact ⟨r', right, abreast⟩
  · cases ran.symm.trans left

theorem replay_of_saved (calm : CalmHost env) (maxCycles : Word)
    {saved first : Machine n W} (snapshot : saved.snapshot = snapshotOf saved.vm.host)
    (ran : vmRunCycles env fuel maxCycles saved = .ok (some first))
    (replayable : Along (cycleRound env maxCycles) (RoundReplayable env maxCycles) fuel (cycleStart saved)) :
    ∃ second w, vmRunCycles env fuel maxCycles (vmSnapshotRestore env first).2 = .ok (some second) ∧
      guestView second.vm = guestView first.vm ∧ first.vm.disk = saved.vm.disk ∧
      second.vm.disk = (restoreDisk env saved.vm.disk w).1 := by
  obtain ⟨rounds, r, pq, loops, left, rfl⟩ := rounds_of_vmRunCycles ran
  -- the first run beside itself: only the host context and the world have moved
  obtain ⟨-, -, ⟨host, world, -, alone, -, kept⟩, -, same⟩ := runs_abreast calm maxCycles rfl rfl loops replayable
  have unchanged : (setHost false (withQueue pq r)).snapshot = snapshotOf saved.vm.host := same.trans snapshot
  have kept : Kept saved.vm.host (setHost false (withQueue pq r)).vm.host := by
    simp only [setHost, withQueue, alone]
    exact kept
  obtain ⟨w, restored⟩ := vmSnapshotRestore_eq env unchanged kept
  generalize (vmSnapshotRestore env _).2 = again at restored ⊢
  have host : again.vm.host = saved.vm.host := by rw [restored]
  have io : vmIoSetHost again.vm.io true = vmIoSetHost saved.vm.io true := by
    simp only [restored, setHost, withQueue, alone]
    rfl
  -- the second run beside the first
  obtain ⟨r', loops', ⟨host', world', world'', first, second, -⟩, -, -⟩ :=
    runs_abreast calm maxCycles host io loops replayable
  obtain ⟨pq', ran'⟩ := vmRunCycles_of_rounds loops' left
  refine ⟨_, r.vm.world, ran', ?_, ?_, ?_⟩
  · have sys : again.vm.sys = saved.vm.sys := by
      simp only [restored, setHost, withQueue, alone]
      rfl
    simp only [setHost, withQueue, second, first, cycleStart, guestView, VmState.mem, VmState.cpu, sys, io]
  · simp only [setHost, withQueue, alone]
    rfl
  · simp only [setHost, withQueue, second, restored, alone]
    rfl

theorem replay_of_replayable {env : Env W} (calm : CalmHost env) (maxCycles : Word)
    {m first : Machine guestRamSize W} (intact : DiskIntact m.vm.disk) {fuel : Nat}
    (ran : vmRunCycles env fuel maxCycles (vmSnapshotSave env m).2 = .ok (some first))
    (replayable : Along (runRound env maxCycles) (RoundReplayable env maxCycles) fuel
      (runStart (vmSnapshotSave env m).2)) :
    ∃ second, vmRunCycles env fuel maxCycles (vmSnapshotRestore env first).2 = .ok (some second) ∧
      guestView second.vm = guestView first.vm ∧
      diskContent second.vm.disk = diskContent first.vm.disk := by
  have same (m m' : Machine guestRamSize W) (related : Scheduled m m') :
      RoundReplayable env maxCycles m ↔ RoundReplayable env maxCycles m' := by
    obtain ⟨pq, rfl, -⟩ := related
    exact Iff.rfl
  have replayable := (along_iff_of_matches (runRound_matches env maxCycles) same
    (scheduled_start (vmSnapshotSave env m).2)).mpr replayable
  obtain ⟨w, save⟩ := vmSnapshotSave_calm calm (by decide) m
  generalize vmSnapshotSave env m = saved at save ran replayable
  subst save
  obtain ⟨second, w', ran', view, kept, restored⟩ := replay_of_saved calm maxCycles rfl ran replayable
  refine ⟨second, ran', view, ?_⟩
  rw [kept, restored]
  exact restoreDisk_content calm intact w w'

def countOnce : List Byte := [0x40, 0xF4]

theorem countOnce_runs : (bootWith countOnce).map (fun vm =>
      let saved := (vmSnapshotSave idleHost (.ofGuest vm)).2
      ((vmRunCycles idleHost 2 1 saved).toOption.join.map fun first => first.vm.reg eax, decide (DiskIntact vm.disk),
        decide (Along (runRound idleHost 1) (RoundReplayable idleHost 1) 2 (runStart saved)))) =
      some (some 1, true, true) := by
  decide +kernel

theorem replay_of_countOnce : ∃ vm first second, bootWith countOnce = some vm ∧
      vmRunCycles idleHost 2 1 (vmSnapshotSave idleHost (.ofGuest vm)).2 = .ok (some first) ∧
      first.vm.reg eax = 1 ∧
      vmRunCycles idleHost 2 1 (vmSnapshotRestore idleHost first).2 = .ok (some second) ∧
      guestView second.vm = guestView first.vm ∧
      diskContent second.vm.disk = diskContent first.vm.disk := by
  obtain ⟨vm, booted, outcome⟩ := map_eq_some_iff.mp countOnce_runs
  obtain ⟨ran, outcome⟩ := Prod.mk.inj outcome
  obtain ⟨intact, replayable⟩ := Prod.mk.inj outcome
  obtain ⟨first, ran, counted⟩ := map_eq_some_iff.mp ran
  have ran := toOption_join_eq_some.mp ran
  obtain ⟨second, ran', view, content⟩ :=
    replay_of_replayable (m := .ofGuest vm) idleHost_calm 1 (of_decide_eq_true intact) ran
      (of_decide_eq_true replayable)
  exact ⟨vm, first, second, booted, ran, counted, ran', view, content⟩

def countMode : List Byte := [0xE4, 0x43, 0x40, 0xE6, 0x43, 0xF4]

theorem countMode_runs : (bootWith countMode).map (fun vm =>
      (vmRunCycles idleHost 2 1 (vmSnapshotSave idleHost (.ofGuest vm)).2).toOption.join.map
        fun first => (first.vm.reg eax,
          (vmRunCycles idleHost 2 1 (vmSnapshotRestore idleHost first).2).toOption.join.map
            fun second => second.vm.reg eax)) = some (some (1, some 2)) := by
  decide +kernel

theorem replay_differs : ∃ vm first second, bootWith countMode = some vm ∧
      vmRunCycles idleHost 2 1 (vmSnapshotSave idleHost (.ofGuest vm)).2 = .ok (some first) ∧
      vmRunCycles idleHost 2 1 (vmSnapshotRestore idleHost first).2 = .ok (some second) ∧
      guestView second.vm ≠ guestView first.vm := by
  obtain ⟨vm, booted, outcome⟩ := map_eq_some_iff.mp countMode_runs
  obtain ⟨first, ran, outcome⟩ := map_eq_some_iff.mp outcome
  obtain ⟨once, outcome⟩ := Prod.mk.inj outcome
  obtain ⟨second, ran', twice⟩ := map_eq_some_iff.mp outcome
  refine ⟨vm, first, second, booted, toOption_join_eq_some.mp ran, toOption_join_eq_some.mp ran', fun same => ?_⟩
  have eaxs : second.vm.reg eax = first.vm.reg eax := congrArg (fun view => view.cpu.regs eax) same
  rw [once, twice] at eaxs
  revert eaxs
  decide

end Flinstone.Vm
