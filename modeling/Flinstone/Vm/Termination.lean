import Flinstone.Vm.Isolation
import Flinstone.Vm.Reset
import Flinstone.Vm.Rounds

/-! # The run loop returns -/

namespace Flinstone.Vm
open Flinstone.Lib Flinstone.Sys

variable {n : Nat} {W : Type}

def CallHangs (vm : VmState n W) (instr : VmInstr) : Prop :=
  ∃ port, outPort vm instr = some port ∧ port.toNat = 0xE5 ∧ BridgeStops vm

def PassHangs (vm : VmState n W) : Prop :=
  vm.cpu.halted = false ∧ ∃ instr, fetch vm = .ok (some instr) ∧ CallHangs vm instr

def AnyStop (_ : Stop) : Prop := True

theorem stopsWith_any {α : Type} {r : Except Stop α} : StopsWith AnyStop r ↔ ¬ Succeeds r := by
  cases r with
  | error stop => simp [AnyStop, Succeeds]
  | ok a => simp

variable (env : Env W)

theorem execute_succeeds_iff (sized : Sized n) (vm : VmState n W) (instr : VmInstr) :
    Succeeds (execute env instr vm) ↔ ¬ ExecuteWraps vm instr ∧ ¬ CallHangs vm instr := by
  cases writes : outPort vm instr with
  | none =>
    rw [(execute_of_no_out vm env sized writes).succeeds_iff]
    simp [CallHangs, writes]
  | some port =>
    rw [(execute_of_out vm env writes).succeeds_iff]
    simp [CallHangs, writes, not_executeWraps_of_out vm writes]

theorem vmRunPass_succeeds_iff (sized : Sized n) (vm : VmState n W) :
    Succeeds (vmRunPass env vm) ↔ ¬ PassWraps vm ∧ ¬ PassHangs vm := by
  cases halted : vm.cpu.halted with
  | true => simp [vmRunPass_halted env vm halted, PassWraps, PassHangs, halted]
  | false =>
    have fetches := (fetch_decided vm sized).succeeds_iff
    cases fetched : fetch vm with
    | error stop =>
      have wraps : FetchWraps vm := by
        by_contra safe
        obtain ⟨instr, found⟩ := fetches.mpr safe
        rw [fetched] at found
        cases found
      simp [vmRunPass_error env vm halted fetched, PassWraps, halted, wraps, Succeeds]
    | ok found =>
      have safe : ¬ FetchWraps vm := fetches.mp ⟨found, fetched⟩
      cases found with
      | none =>
        simp [vmRunPass_none env vm halted fetched, PassWraps, PassHangs, halted, safe, fetched]
      | some instr =>
        have executes := execute_succeeds_iff env sized vm instr
        rw [vmRunPass_execute env vm halted fetched]
        simp only [PassWraps, PassHangs, halted, safe, fetched, true_and, false_or,
          Except.ok.injEq, Option.some.injEq, exists_eq_left', ← executes]
        exact succeeds_map _ _

theorem vmRunStep_succeeds_iff (sized : Sized n) (maxInstructions : Nat) (vm : VmState n W) :
    Succeeds (vmRunStep env maxInstructions vm) ↔
      Along (vmRunPass env) (fun vm => ¬ PassWraps vm ∧ ¬ PassHangs vm) maxInstructions vm := by
  have step (vm : VmState n W) : StopsWith AnyStop (vmRunPass env vm) ↔ ¬ (¬ PassWraps vm ∧ ¬ PassHangs vm) := by
    rw [stopsWith_any, vmRunPass_succeeds_iff env sized]
  have run := loop_stops_iff AnyStop step maxInstructions vm
  rw [stopsWith_any, not_iff_not] at run
  exact run

def QuantumStops (env : Env W) (maxCycles : Word) (m : Machine n W) : Prop :=
  m.vm.cpu.halted = false ∧ m.runCycles < maxCycles ∧ m.vm.io.resetRequested = false ∧
    ¬ Along (vmRunPass env) (fun vm => ¬ PassWraps vm ∧ ¬ PassHangs vm) vmQuantum m.vm

theorem housekeeping_keeps (m : Machine n W) :
    ∃ r, housekeeping env m = .ok r ∧ r.runCycles = m.runCycles + 1 := by
  obtain ⟨world, result⟩ := housekeeping_eq env m
  rw [result]
  split
  · obtain ⟨disk, world', snapshot, saved⟩ := vmSnapshotSave_eq env (ticked m world)
    exact ⟨_, rfl, by rw [saved]; rfl⟩
  · exact ⟨_, rfl, rfl⟩

theorem cycle_succeeds_iff (m : Machine n W) :
    Succeeds (cycle env m) ↔ Succeeds (vmRunStep env vmQuantum m.vm) := by
  unfold cycle runTask
  cases vmRunStep env vmQuantum m.vm with
  | error stop => simp [Except.map, bind, Except.bind, Succeeds]
  | ok run =>
    refine iff_of_true ?_ (succeeds_ok _)
    simp only [Except.map, bind, Except.bind]
    split
    · obtain ⟨r, kept, -⟩ := housekeeping_keeps env { m with vm := run.2 }
      exact ⟨r, kept⟩
    · exact succeeds_pure _

theorem cycle_counts {env : Env W} {m r : Machine n W} (ran : cycle env m = .ok r) :
    r.vm.cpu.halted = true ∨ r.runCycles = m.runCycles + 1 := by
  obtain ⟨passes, vm, -, ⟨halted, rfl⟩ | ⟨-, kept⟩⟩ := cycle_steps ran
  · exact .inl halted
  · obtain ⟨r', kept', count⟩ := housekeeping_keeps env { m with vm }
    obtain rfl := Except.ok.inj (kept.symm.trans kept')
    exact .inr count

theorem resetMachine_eq (m : Machine guestRamSize W) :
    ∃ r, resetMachine m = .ok r ∧ r.runCycles = m.runCycles ∧ r.vm.io.resetRequested = false := by
  unfold resetMachine
  rw [vmHostReset_eq]
  exact ⟨_, rfl, rfl, rfl⟩

theorem cycleRound_succeeds_iff (maxCycles : Word) (m : Machine guestRamSize W) :
    Succeeds (cycleRound env maxCycles m) ↔ ¬ QuantumStops env maxCycles m := by
  unfold cycleRound QuantumStops
  cases halted : m.vm.cpu.halted with
  | true => simp
  | false =>
    by_cases done : maxCycles ≤ m.runCycles
    · simp [done]
    cases reset : m.vm.io.resetRequested with
    | true =>
      obtain ⟨r, result, -⟩ := resetMachine_eq m
      simp [done, result]
    | false =>
      have counted : m.runCycles < maxCycles := BitVec.not_le.mp done
      have quantum := cycle_succeeds_iff env m
      rw [vmRunStep_succeeds_iff env sized_guest] at quantum
      simp only [done, counted, decide_false, Bool.false_eq_true, if_false,
        true_and, not_not, ← quantum]
      exact succeeds_map (cycle env m) some

def roundsLeft (maxCycles : Word) (m : Machine n W) : Nat :=
  if m.vm.cpu.halted then 0
  else 2 * (maxCycles.toNat - m.runCycles.toNat) + if m.vm.io.resetRequested then 1 else 0

theorem cycleRound_decreases (maxCycles : Word) (m m' : Machine guestRamSize W)
    (round : cycleRound env maxCycles m = .ok (some m')) :
    roundsLeft maxCycles m' < roundsLeft maxCycles m := by
  obtain ⟨running, counted, stepped⟩ := cycleRound_steps round
  have counted : m.runCycles.toNat < maxCycles.toNat := counted
  unfold roundsLeft
  rcases stepped with ⟨reset, ran⟩ | ⟨quiet, ran⟩
  · obtain ⟨r, result, cycles, cleared⟩ := resetMachine_eq m
    obtain rfl := Except.ok.inj (ran.symm.trans result)
    simp only [running, reset, cycles, cleared, Bool.false_eq_true, if_false, if_true]
    split <;> omega
  · simp only [running, quiet, Bool.false_eq_true, if_false]
    rcases cycle_counts ran with stopped | count
    · simp only [stopped, if_true]
      omega
    · have next : m'.runCycles.toNat = m.runCycles.toNat + 1 := by
        rw [count, BitVec.toNat_add_of_lt]
        · rfl
        · change m.runCycles.toNat + 1 < 2 ^ 32
          omega
      split
      · omega
      · split <;> omega

theorem cycleLoop_succeeds_iff (maxCycles : Word) (bound : Nat) (m : Machine guestRamSize W) :
    Succeeds (loop (cycleRound env maxCycles) bound m) ↔
      Along (cycleRound env maxCycles) (fun m => ¬ QuantumStops env maxCycles m) bound m := by
  have step (m : Machine guestRamSize W) :
      StopsWith AnyStop (cycleRound env maxCycles m) ↔ ¬ ¬ QuantumStops env maxCycles m := by
    rw [stopsWith_any, cycleRound_succeeds_iff]
  have run := loop_stops_iff AnyStop step bound m
  rw [stopsWith_any, not_iff_not] at run
  exact run

theorem cycleLoop_left_iff (maxCycles : Word) (m : Machine guestRamSize W) :
    (∃ fuel rounds r, loop (cycleRound env maxCycles) fuel m = .ok (rounds, r) ∧ rounds < fuel) ↔
      ∀ bound, Along (cycleRound env maxCycles) (fun m => ¬ QuantumStops env maxCycles m) bound m := by
  constructor
  · rintro ⟨fuel, rounds, r, run, left⟩ bound
    rcases le_total bound fuel with le | le
    · exact ((cycleLoop_succeeds_iff env maxCycles fuel m).mp ⟨_, run⟩).mono le
    · exact (cycleLoop_succeeds_iff env maxCycles bound m).mp ⟨_, loop_extend run left le⟩
  · intro safe
    have enough := Nat.lt_succ_self (roundsLeft maxCycles m)
    obtain ⟨⟨rounds, r⟩, run⟩ := (cycleLoop_succeeds_iff env maxCycles _ m).mpr (safe _)
    exact ⟨_, rounds, r, run, loop_leaves (roundsLeft maxCycles) (cycleRound_decreases env maxCycles) run enough⟩

theorem vmRunCycles_some_iff (fuel : Nat) (maxCycles : Word) (m : Machine n W) :
    (∃ m', vmRunCycles env fuel maxCycles m = .ok (some m')) ↔
      ∃ rounds r, loop (cycleRound env maxCycles) fuel (cycleStart m) = .ok (rounds, r) ∧ rounds < fuel := by
  constructor
  · rintro ⟨m', ran⟩
    obtain ⟨rounds, r, pq, loops, left, -⟩ := rounds_of_vmRunCycles ran
    exact ⟨rounds, r, loops, left⟩
  · rintro ⟨rounds, r, loops, left⟩
    obtain ⟨pq, ran⟩ := vmRunCycles_of_rounds loops left
    exact ⟨_, ran⟩

theorem vmRunCycles_returns_iff (maxCycles : Word) (m : Machine guestRamSize W) :
    (∃ fuel m', vmRunCycles env fuel maxCycles m = .ok (some m')) ↔
      ∀ rounds, Along (runRound env maxCycles) (fun m => ¬ QuantumStops env maxCycles m) rounds (runStart m) := by
  have same (m m' : Machine guestRamSize W) (related : Scheduled m m') :
      ¬ QuantumStops env maxCycles m ↔ ¬ QuantumStops env maxCycles m' := by
    obtain ⟨pq, rfl, -⟩ := related
    exact Iff.rfl
  have alike (rounds : Nat) : Along (cycleRound env maxCycles) (fun m => ¬ QuantumStops env maxCycles m) rounds
        (cycleStart m) ↔
      Along (runRound env maxCycles) (fun m => ¬ QuantumStops env maxCycles m) rounds (runStart m) :=
    along_iff_of_matches (runRound_matches env maxCycles) same (scheduled_start m)
  simp only [vmRunCycles_some_iff, cycleLoop_left_iff, alike]

def readEmptyPipe : List Byte :=
  [0xB0, 0x03, 0xE6, 0xE0, 0xB0, 0x01, 0xE6, 0xE1, 0xE6, 0xE5,
    0xB0, 0x04, 0xE6, 0xE0, 0xB0, 0x00, 0xE6, 0xE1, 0xE6, 0xE2, 0xB0, 0x01, 0xE6, 0xE3, 0xE6, 0xE5]

theorem readEmptyPipe_blocks : (bootWith readEmptyPipe).map (fun vm =>
      (runRound idleHost 1 (runStart (.ofGuest vm))).map fun _ => ()) = some (.error .blocked) := by
  decide +kernel

theorem vmRunCycles_blocks : ∃ vm, bootWith readEmptyPipe = some vm ∧
      ∀ fuel, vmRunCycles idleHost (fuel + 1) 1 (.ofGuest vm) = .error .blocked := by
  obtain ⟨vm, booted, outcome⟩ := Option.map_eq_some_iff.mp readEmptyPipe_blocks
  refine ⟨vm, booted, fun fuel => ?_⟩
  cases round : runRound idleHost 1 (runStart (.ofGuest vm)) with
  | error stop =>
    rw [round] at outcome
    cases outcome
    simp only [vmRunCycles, loop, round, Except.map]
  | ok next =>
    rw [round] at outcome
    cases outcome

end Flinstone.Vm
