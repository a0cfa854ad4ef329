import Flinstone.Vm.Schedule
import Flinstone.Vm.Termination

/-! # Reset requests -/

namespace Flinstone.Vm
open Flinstone.Lib Flinstone.Sched Flinstone.Sys Option

variable {n : Nat} {W : Type}

def ResetCommand (value : Word) : Prop := value &&& 0x0E = 0x06 ∨ value &&& 0x0E = 0x0E

def outValue (vm : VmState n W) (instr : VmInstr) : Word :=
  match instr.op with
  | .out => (getReg8Lo vm.cpu (some eax)).setWidth 32
  | _ => vm.reg eax

def WritesReset (vm : VmState n W) : Prop :=
  vm.cpu.halted = false ∧
    ∃ instr, fetch vm = .ok (some instr) ∧ outPort vm instr = some 0xCF9 ∧ ResetCommand (outValue vm instr)

instance : DecidablePred ResetCommand := fun _ => inferInstanceAs (Decidable (_ ∨ _))

instance (vm : VmState n W) : Decidable (WritesReset vm) :=
  match fetched : fetch vm with
  | .ok (some instr) =>
    decidable_of_iff (vm.cpu.halted = false ∧ outPort vm instr = some 0xCF9 ∧ ResetCommand (outValue vm instr))
      (by simp [WritesReset, fetched])
  | .ok none => .isFalse (by simp [WritesReset, fetched])
  | .error _ => .isFalse (by simp [WritesReset, fetched])

theorem vmIoOut_reset (env : Env W) {value : Word} (size : Nat) (vm : VmState n W) (command : ResetCommand value) :
    vmIoOut env 0xCF9 value size vm = .ok { vm with io := { vm.io with resetRequested := true } } :=
  if_pos command

variable {vm vm' : VmState n W} {env : Env W} {passes count : Nat} {m r : Machine n W}

theorem execute_reset (env : Env W) {instr : VmInstr} (writes : outPort vm instr = some 0xCF9)
    (command : ResetCommand (outValue vm instr)) :
    execute env instr vm = .ok (some { vm with io := { vm.io with resetRequested := true } }) := by
  obtain ⟨op, dst, src, imm, size⟩ := instr
  cases op <;> simp only [outPort, reduceCtorEq, some.injEq] at writes
  case out =>
    subst writes
    exact congrArg (Except.map some) (vmIoOut_reset env 1 vm command)
  case outDx =>
    simp only [execute, writes]
    exact congrArg (Except.map some) (vmIoOut_reset env 4 vm command)

theorem WritesReset.pass (env : Env W) (writes : WritesReset vm) :
    ∃ vm', vmRunPass env vm = .ok (some vm') ∧ vm'.io.resetRequested = true := by
  obtain ⟨running, instr, fetched, out, command⟩ := writes
  rw [vmRunPass_execute env vm running fetched, execute_reset env out command]
  refine ⟨_, rfl, ?_⟩
  unfold advanceEip
  split <;> rfl

theorem WritesReset.quantum {final : VmState n W}
    (executed : loop (vmRunPass env) passes vm = .ok (passes, vm')) (inside : passes < vmQuantum)
    (writes : WritesReset vm') (ran : vmRunStep env vmQuantum vm = .ok (count, final)) :
    final.io.resetRequested = true := by
  obtain ⟨more, whole⟩ := Nat.exists_eq_add_of_lt inside
  rw [whole, add_assoc] at ran
  obtain ⟨rest, after⟩ := loop_rest executed ran
  obtain ⟨vm₁, pass, requested⟩ := writes.pass env
  rcases loop_succ_eq_ok.mp after with ⟨leaves, -, -⟩ | ⟨vm₂, rest', goes, after, -⟩
  · cases pass.symm.trans leaves
  · obtain rfl := some.inj (Except.ok.inj (pass.symm.trans goes))
    exact (vmRunStep_onward after).reset requested

theorem housekeeping_reset (ran : housekeeping env m = .ok r) : r.vm.io = m.vm.io ∧ r.vm.cpu = m.vm.cpu := by
  obtain ⟨world, result⟩ := housekeeping_eq env m
  rw [result] at ran
  split at ran
  · obtain ⟨disk, world', snapshot, saved⟩ := vmSnapshotSave_eq env (ticked m world)
    rw [saved] at ran
    cases ran
    exact ⟨rfl, rfl⟩
  · cases ran
    exact ⟨rfl, rfl⟩

theorem cycle_reset (ran : cycle env m = .ok r)
    (executed : loop (vmRunPass env) passes m.vm = .ok (passes, vm)) (inside : passes < vmQuantum)
    (writes : WritesReset vm) : r.vm.io.resetRequested = true := by
  obtain ⟨count, final, quantum, ⟨-, rfl⟩ | ⟨-, kept⟩⟩ := cycle_steps ran
  · exact writes.quantum executed inside quantum
  · rw [(housekeeping_reset kept).1]
    exact writes.quantum executed inside quantum

def Waiting (m : Machine n W) : Prop := m.vm.cpu.halted = false → Queued m.pq atRest

theorem Waiting.scheduled (waiting : Waiting m) : Scheduled m m := ⟨m.pq, rfl, waiting⟩

theorem Waiting.round (waiting : Waiting m) (ran : vmRunRound env m = .ok (some r)) :
    Waiting r ∧ ∃ pq r', r = withQueue pq r' ∧ cycleVmRound env m = .ok (some r') := by
  have alike := vmRunRound_matches env m m waiting.scheduled
  rw [ran] at alike
  cases result : cycleVmRound env m with
  | error stop => simp [Matches, result] at alike
  | ok next =>
    cases next with
    | none => simp [Matches, result] at alike
    | some r' =>
      simp only [Matches, result] at alike
      obtain ⟨pq, rfl, queued⟩ := alike
      exact ⟨queued, pq, r', rfl, rfl⟩

theorem Waiting.of_runs {rounds : Nat}
    (ran : loop (vmRunRound env) rounds (runStart m) = .ok (count, r)) : Waiting r := by
  refine loop_keeps (fun s s' waiting goes => (waiting.round goes).1) ?_ ran
  obtain ⟨pq, result, queued⟩ := restartQueue_eq (cycleStart m)
  exact fun _ => congrArg Machine.pq result ▸ queued

def Honoured (env : Env W) (m : Machine n W) : Prop :=
  ∃ r, vmRunRound env m = .ok (some r) ∧ vmHostReset m.vm.host = .ok r.vm.host ∧ r.vm.io.resetRequested = false

theorem honoured_iff (env : Env W) {m : Machine guestRamSize W} (requested : m.vm.io.resetRequested = true) :
    Honoured env m ↔ m.vm.cpu.halted = false := by
  unfold Honoured vmRunRound
  cases halted : m.vm.cpu.halted with
  | true => simp
  | false =>
    simp only [requested, if_true, runReset, vmHostReset_eq, Except.map]
    exact iff_of_true ⟨_, rfl, rfl, rfl⟩ trivial

theorem Waiting.not_left (waiting : Waiting m) (running : m.vm.cpu.halted = false)
    (quiet : m.vm.io.resetRequested = false) : vmRunRound env m ≠ .ok none := by
  have occupied : pqIsEmpty m.pq ≠ true := fun empty => absurd ((waiting running).isEmpty_iff.mp empty) (by decide)
  simp [vmRunRound, running, quiet, occupied, Except.map]
  split <;> simp

theorem running_of_pass (executed : loop (vmRunPass env) passes vm = .ok (passes, vm')) (writes : WritesReset vm') :
    vm.cpu.halted = false := by
  cases passes with
  | zero =>
    cases executed
    exact writes.1
  | succ passes =>
    by_contra halted
    rcases loop_succ_eq_ok.mp executed with ⟨-, zero, -⟩ | ⟨vm₁, passes', goes, -, -⟩
    · cases zero
    · rw [vmRunPass_halted env vm (by simpa using halted)] at goes
      cases goes

/-- The loop resets the machine before it does anything else, unless the guest has halted. -/
theorem vmRun_reset_iff (env : Env W) (m : Machine guestRamSize W) {rounds passes : Nat}
    {head : Machine guestRamSize W} {next : Option (Machine guestRamSize W)} {vm : VmState guestRamSize W}
    (reached : loop (vmRunRound env) rounds (runStart m) = .ok (rounds, head))
    (quantum : head.vm.io.resetRequested = false) (round : vmRunRound env head = .ok next)
    (executed : loop (vmRunPass env) passes head.vm = .ok (passes, vm)) (inside : passes < vmQuantum)
    (writes : WritesReset vm) :
    ∃ r, next = some r ∧ r.vm.io.resetRequested = true ∧ (Honoured env r ↔ r.vm.cpu.halted = false) ∧
      (r.vm.cpu.halted = true → vmRunRound env r = .ok none) := by
  have waiting : Waiting head := .of_runs reached
  have running := running_of_pass executed writes
  cases next with
  | none => exact absurd round (waiting.not_left running quantum)
  | some r =>
    obtain ⟨-, pq, r', rfl, ran⟩ := waiting.round round
    unfold cycleVmRound at ran
    rw [if_neg (by simp [running]), if_neg (by simp [quantum])] at ran
    have requested : r'.vm.io.resetRequested = true := cycle_reset (map_some_eq_ok.mp ran) executed inside writes
    exact ⟨_, rfl, requested, honoured_iff env requested, fun halted => if_pos halted⟩

def resettingGuest : List Byte := [0xBA, 0xF9, 0x0C, 0x00, 0x00, 0xB8, 0x06, 0x00, 0x00, 0x00, 0xEF, 0x06]

def haltingGuest : List Byte := [0xBA, 0xF9, 0x0C, 0x00, 0x00, 0xB8, 0x06, 0x00, 0x00, 0x00, 0xEF, 0xF4]

theorem resetting_guest_reset :
    ∃ vm r, bootWith resettingGuest = some vm ∧ vmRunRound idleHost (runStart (Machine.ofGuest vm)) = .ok (some r) ∧
      r.vm.cpu.halted = false ∧ Honoured idleHost r := by
  have runs : (bootWith resettingGuest).map (fun vm =>
      let start := runStart (Machine.ofGuest vm)
      (start.vm.io.resetRequested, (loop (vmRunPass idleHost) 2 start.vm).map fun r => (r.1, decide (WritesReset r.2)),
        (vmRunRound idleHost start).map (Option.map fun r => r.vm.cpu.halted))) =
      some (false, .ok (2, true), .ok (some false)) := by decide +kernel
  obtain ⟨vm, booted, ran⟩ := map_eq_some_iff.mp runs
  obtain ⟨quiet, ran⟩ := Prod.mk.inj ran
  obtain ⟨executed, round⟩ := Prod.mk.inj ran
  obtain ⟨⟨passes, s⟩, executed, facts⟩ := map_eq_ok.mp executed
  obtain ⟨rfl, writes⟩ := Prod.mk.inj facts
  obtain ⟨next, round, halts⟩ := map_eq_ok.mp round
  obtain ⟨r, rfl, running⟩ := map_eq_some_iff.mp halts
  have reached : loop (vmRunRound idleHost) 0 (runStart (Machine.ofGuest vm)) =
      .ok (0, runStart (Machine.ofGuest vm)) := rfl
  obtain ⟨r', same, -, honoured, -⟩ := vmRun_reset_iff idleHost (Machine.ofGuest vm) reached quiet round executed
    (by decide) (of_decide_eq_true writes)
  obtain rfl := some.inj same
  exact ⟨vm, r, booted, round, running, honoured.mpr running⟩

theorem halting_guest_not_reset : ∃ vm s r final, bootWith haltingGuest = some vm ∧
      loop (vmRunPass idleHost) 2 (runStart (Machine.ofGuest vm)).vm = .ok (2, s) ∧ WritesReset s ∧
      vmRunRound idleHost (runStart (Machine.ofGuest vm)) = .ok (some r) ∧ ¬ Honoured idleHost r ∧
      vmRun idleHost 2 (Machine.ofGuest vm) = .ok (some final) ∧ final.vm.io.resetRequested = true := by
  have runs : (bootWith haltingGuest).map (fun vm =>
      let start := runStart (Machine.ofGuest vm)
      ((loop (vmRunPass idleHost) 2 start.vm).map fun r => (r.1, decide (WritesReset r.2)),
        (vmRunRound idleHost start).map (Option.map fun r => (r.vm.cpu.halted, r.vm.io.resetRequested)),
        (vmRun idleHost 2 (Machine.ofGuest vm)).map (Option.map fun r => r.vm.io.resetRequested))) =
      some (.ok (2, true), .ok (some (true, true)), .ok (some true)) := by decide +kernel
  obtain ⟨vm, booted, ran⟩ := map_eq_some_iff.mp runs
  obtain ⟨executed, ran⟩ := Prod.mk.inj ran
  obtain ⟨round, returns⟩ := Prod.mk.inj ran
  obtain ⟨⟨passes, s⟩, executed, facts⟩ := map_eq_ok.mp executed
  obtain ⟨rfl, writes⟩ := Prod.mk.inj facts
  obtain ⟨next, round, flags⟩ := map_eq_ok.mp round
  obtain ⟨r, rfl, raised⟩ := map_eq_some_iff.mp flags
  obtain ⟨halted, requested⟩ := Prod.mk.inj raised
  obtain ⟨left, returns, flag⟩ := map_eq_ok.mp returns
  obtain ⟨final, rfl, pending⟩ := map_eq_some_iff.mp flag
  have ignored : ¬ Honoured idleHost r := fun honoured => by
    rw [(honoured_iff idleHost requested).mp honoured] at halted
    cases halted
  exact ⟨vm, s, r, final, booted, executed, of_decide_eq_true writes, round, ignored, returns, pending⟩

end Flinstone.Vm
