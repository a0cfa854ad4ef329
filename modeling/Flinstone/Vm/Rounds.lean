import Flinstone.Sched.Tasks
import Flinstone.Vm.Machine

/-! # Rounds without the queue -/

namespace Flinstone.Vm
open Flinstone.Lib Flinstone.Sched Flinstone.Sys Function

variable {n : Nat} {W : Type}

def housekeeping (env : Env W) (m : Machine n W) : Except Stop (Machine n W) := do
  let counted := { m with runCycles := m.runCycles + 1 }
  let shown ← runTask env .display counted
  let ticked ← runTask env .timer shown
  if counted.runCycles.toNat % vmCheckpointInterval = 0 then runTask env .checkpoint ticked
  else return ticked

def cycle (env : Env W) (m : Machine n W) : Except Stop (Machine n W) := do
  let m ← runTask env .cpu m
  if m.vm.cpu.halted = false then housekeeping env m else return m

theorem vmDisplayRefresh_eq (env : Env W) (vm : VmState n W) :
    ∃ world, vmDisplayRefresh env vm = .ok { vm with world } := by
  unfold vmDisplayRefresh
  split
  · exact ⟨vm.world, rfl⟩
  · next large =>
      split
      · exact ⟨vm.world, rfl⟩
      · split
        · exact ⟨_, rfl⟩
        · unfold copyOut
          rw [dif_pos (not_lt.mp large)]
          exact ⟨_, rfl⟩

theorem vmSnapshotSave_eq (env : Env W) (m : Machine n W) : ∃ disk world snapshot,
      (vmSnapshotSave env m).2 = { m with vm := { m.vm with disk, world }, snapshot } := by
  unfold vmSnapshotSave vmSnapshotSaveOn
  split
  · exact ⟨m.vm.disk, m.vm.world, m.snapshot, rfl⟩
  · obtain ⟨granted, world⟩ := snapshotAlloc env m.snapshot m.vm.world
    cases granted with
    | false => exact ⟨m.vm.disk, world, m.snapshot, rfl⟩
    | true => exact ⟨_, _, _, rfl⟩

def ticked (m : Machine n W) (world : W) : Machine n W :=
  { m with
    runCycles := m.runCycles + 1
    vm := { m.vm with host := vmHostTickAdvance m.vm.host vmTickStep, world } }

theorem housekeeping_eq (env : Env W) (m : Machine n W) : ∃ world, housekeeping env m =
      if (m.runCycles + 1).toNat % vmCheckpointInterval = 0 then
        .ok (vmSnapshotSave env (ticked m world)).2
      else .ok (ticked m world) := by
  obtain ⟨world, shown⟩ := vmDisplayRefresh_eq env m.vm
  refine ⟨world, ?_⟩
  unfold housekeeping
  simp only [runTask, shown]
  rfl

def resetMachine (m : Machine n W) : Except Stop (Machine n W) :=
  (vmHostReset m.vm.host).map fun host =>
    { m with vm := { m.vm with host, io := vmIoClearReset m.vm.io } }

def cycleRound (env : Env W) (maxCycles : Word) (m : Machine n W) : Except Stop (Option (Machine n W)) :=
  if m.vm.cpu.halted || maxCycles ≤ m.runCycles then .ok none
  else if m.vm.io.resetRequested then (resetMachine m).map some
  else (cycle env m).map some

def cycleVmRound (env : Env W) (m : Machine n W) : Except Stop (Option (Machine n W)) :=
  if m.vm.cpu.halted then .ok none
  else if m.vm.io.resetRequested then (resetMachine m).map some
  else (cycle env m).map some

variable {env : Env W} {m r : Machine n W} {maxCycles : Word} {pq : PriorityQueue VmTask Unit} {fuel : Nat}

theorem cycle_steps (ran : cycle env m = .ok r) : ∃ passes vm, vmRunStep env vmQuantum m.vm = .ok (passes, vm) ∧
      (vm.cpu.halted = true ∧ r = { m with vm } ∨ vm.cpu.halted = false ∧ housekeeping env { m with vm } = .ok r) := by
  obtain ⟨m₁, quantum, rest⟩ := bind_eq_ok.mp ran
  obtain ⟨⟨passes, vm⟩, step, rfl⟩ := map_eq_ok.mp quantum
  refine ⟨passes, vm, step, ?_⟩
  cases halted : vm.cpu.halted with
  | true =>
    rw [if_neg (by simp [halted])] at rest
    exact .inl ⟨rfl, (Except.ok.inj rest).symm⟩
  | false =>
    rw [if_pos halted] at rest
    exact .inr ⟨rfl, rest⟩

theorem cycleRound_steps (round : cycleRound env maxCycles m = .ok (some r)) :
    m.vm.cpu.halted = false ∧ m.runCycles < maxCycles ∧ (m.vm.io.resetRequested = true ∧ resetMachine m = .ok r ∨
        m.vm.io.resetRequested = false ∧ cycle env m = .ok r) := by
  unfold cycleRound at round
  split at round
  · cases round
  next running =>
    simp only [Bool.or_eq_true, decide_eq_true_eq, not_or, Bool.not_eq_true] at running
    refine ⟨running.1, BitVec.not_le.mp running.2, ?_⟩
    split at round
    · next reset => exact .inl ⟨reset, map_some_eq_ok.mp round⟩
    · next reset => exact .inr ⟨by simpa using reset, map_some_eq_ok.mp round⟩

/-! ## Tasks and the queue -/

def withQueue (pq : PriorityQueue VmTask Unit) (m : Machine n W) : Machine n W := { m with pq }

theorem vmSnapshotSave_withQueue (env : Env W) (pq : PriorityQueue VmTask Unit) (m : Machine n W) :
    vmSnapshotSave env (withQueue pq m) = (vmSnapshotSave env m).map id (withQueue pq) := by
  unfold vmSnapshotSave vmSnapshotSaveOn
  by_cases empty : n = 0
  · rw [if_pos empty, if_pos empty]
    rfl
  · rw [if_neg empty, if_neg empty]
    cases result : snapshotAlloc env m.snapshot m.vm.world with
    | mk granted world => cases granted <;> simp [withQueue, result]

theorem runTask_withQueue (env : Env W) (task : VmTask) (pq : PriorityQueue VmTask Unit) (m : Machine n W) :
    runTask env task (withQueue pq m) = (runTask env task m).map (withQueue pq) := by
  cases task with
  | cpu =>
    simp only [runTask, withQueue]
    cases vmRunStep env vmQuantum m.vm <;> rfl
  | display =>
    simp only [runTask, withQueue]
    cases vmDisplayRefresh env m.vm <;> rfl
  | timer => rfl
  | checkpoint =>
    simp only [runTask, vmSnapshotSave_withQueue]
    rfl

def tasksOf (cpu display timer checkpoint : List VmTask) : Layer → List VmTask
  | 0 => cpu
  | 1 => display
  | 2 => timer
  | 3 => checkpoint

def atRest : Layer → List VmTask := tasksOf [.cpu] [] [] []

theorem queueTask_eq (task : VmTask) (m : Machine n W) {tasks : Layer → List VmTask}
    (queued : Queued m.pq tasks) (room : ((List.finRange 4).flatMap tasks).length < 128) :
    ∃ pq, queueTask task m = withQueue pq m ∧ Queued pq (update tasks (layerOf (pqPrio task))
        (tasks (layerOf (pqPrio task)) ++ [task])) := by
  have valid : priorityValid (pqPrio task) = true := by cases task <;> rfl
  exact ⟨_, rfl, (queued.push room valid task none).2⟩

theorem restartQueue_eq (m : Machine n W) : ∃ pq, restartQueue m = withQueue pq m ∧ Queued pq atRest := by
  obtain ⟨pq, result, queued⟩ := queueTask_eq .cpu { m with pq := pqInit m.pq } (queued_init m.pq) (by decide)
  have tasks : update (fun _ => []) (layerOf (pqPrio .cpu)) [.cpu] = atRest := by decide
  exact ⟨pq, result, tasks ▸ queued⟩

section
variable {pq : PriorityQueue VmTask Unit} {tasks : Layer → List VmTask}

theorem runLayer_single (env : Env W) (queued : Queued pq tasks) (layer : Int)
    (valid : priorityValid layer = true) {task : VmTask}
    (single : tasks (layerOf layer) = [task]) :
    ∃ pq', Queued pq' (update tasks (layerOf layer) []) ∧ ∀ m : Machine n W,
      runLayer env layer (withQueue pq m) = (runTask env task m).map fun r =>
        if task = .cpu ∧ r.vm.cpu.halted = false then reschedule (withQueue pq' r)
        else withQueue pq' r := by
  obtain ⟨popped, pq', result, fn, rest⟩ := queued.pop_cons valid single
  refine ⟨pq', rest, fun m => ?_⟩
  have run : runTask env task { m with pq := pq' } = (runTask env task m).map (withQueue pq') :=
    runTask_withQueue env task pq' m
  simp only [runLayer, withQueue, result, fn]
  rw [run]
  cases runTask env task m <;> rfl

theorem runLayer_other (env : Env W) (queued : Queued pq tasks) (layer : Int)
    (valid : priorityValid layer = true) {task : VmTask}
    (single : tasks (layerOf layer) = [task]) (other : task ≠ .cpu) :
    ∃ pq', Queued pq' (update tasks (layerOf layer) []) ∧ ∀ m : Machine n W,
      runLayer env layer (withQueue pq m) = (runTask env task m).map (withQueue pq') := by
  obtain ⟨pq', rest, result⟩ := runLayer_single env queued layer valid single
  refine ⟨pq', rest, fun m => ?_⟩
  rw [result]
  simp only [other, false_and, if_false]

theorem runLayer_empty (env : Env W) (queued : Queued pq tasks) (layer : Int)
    (empty : tasks (layerOf layer) = []) (m : Machine n W) :
    runLayer env layer (withQueue pq m) = .ok (withQueue pq m) := by
  simp only [runLayer, withQueue, Shows.pop_nil queued (congrArg (List.map some) empty)]

end

def checkpointDue (m : Machine n W) : List VmTask :=
  if (m.runCycles + 1).toNat % vmCheckpointInterval = 0 then [.checkpoint] else []

theorem reschedule_eq (queued : Queued pq fun _ => []) (m : Machine n W) :
    ∃ pq', Queued pq' (tasksOf [.cpu] [.display] [.timer] (checkpointDue m)) ∧
      reschedule (withQueue pq m) = withQueue pq' { m with runCycles := m.runCycles + 1 } := by
  let counted := withQueue pq { m with runCycles := m.runCycles + 1 }
  obtain ⟨pq₁, first, queued₁⟩ := queueTask_eq .display counted queued (by decide)
  obtain ⟨pq₂, second, queued₂⟩ := queueTask_eq .cpu (withQueue pq₁ counted) queued₁ (by decide)
  obtain ⟨pq₃, third, queued₃⟩ := queueTask_eq .timer (withQueue pq₂ counted) queued₂ (by decide)
  have pushed : reschedule (withQueue pq m) = if (m.runCycles + 1).toNat % vmCheckpointInterval = 0 then
        queueTask .checkpoint (withQueue pq₃ counted) else withQueue pq₃ counted := by
    have three : queueTask .timer (queueTask .cpu (queueTask .display counted)) = withQueue pq₃ counted := by
      rw [first, second]
      exact third
    rw [← three]
    rfl
  unfold checkpointDue
  by_cases due : (m.runCycles + 1).toNat % vmCheckpointInterval = 0
  · obtain ⟨pq₄, fourth, queued₄⟩ := queueTask_eq .checkpoint (withQueue pq₃ counted) queued₃ (by decide)
    rw [pushed, if_pos due, if_pos due]
    refine ⟨pq₄, ?_, fourth⟩
    convert queued₄ using 1
    decide
  · rw [pushed, if_neg due, if_neg due]
    refine ⟨pq₃, ?_, rfl⟩
    convert queued₃ using 1
    decide

/-! ## A round of the loop -/

theorem runLayers_housekeeping (env : Env W) (m : Machine n W)
    (queued : Queued pq (tasksOf [.cpu] [.display] [.timer] (checkpointDue m))) :
    ∃ pq', Queued pq' atRest ∧ (do
        let shown ← runLayer env 1 (withQueue pq { m with runCycles := m.runCycles + 1 })
        let ticked ← runLayer env 2 shown
        runLayer env 3 ticked) = (housekeeping env m).map (withQueue pq') := by
  obtain ⟨pq₁, queued₁, display⟩ := runLayer_other env queued 1 rfl rfl (by decide)
  obtain ⟨pq₂, queued₂, timer⟩ := runLayer_other env queued₁ 2 rfl rfl (by decide)
  unfold checkpointDue at queued₂
  by_cases due : (m.runCycles + 1).toNat % vmCheckpointInterval = 0
  · rw [if_pos due] at queued₂
    obtain ⟨pq₃, queued₃, checkpoint⟩ := runLayer_other env queued₂ 3 rfl rfl (by decide)
    refine ⟨pq₃, by convert queued₃ using 1; decide, ?_⟩
    rw [display]
    refine bind_map_congr fun shown _ => ?_
    rw [timer]
    refine bind_map_congr fun ticked _ => ?_
    rw [checkpoint, if_pos due]
  · rw [if_neg due] at queued₂
    refine ⟨pq₂, by convert queued₂ using 1; decide, ?_⟩
    rw [display]
    refine bind_map_congr fun shown _ => ?_
    rw [timer]
    refine bind_map_congr fun ticked _ => ?_
    rw [runLayer_empty env queued₂ 3 rfl, if_neg due]
    rfl

theorem runLayers_eq (env : Env W) (queued : Queued pq atRest) (m : Machine n W) :
    ∃ pq', runLayers env (withQueue pq m) = (cycle env m).map (withQueue pq') ∧
      ∀ r, cycle env m = .ok r → r.vm.cpu.halted = false → Queued pq' atRest := by
  obtain ⟨pq₀, queued₀, quantum⟩ := runLayer_single env queued 0 rfl rfl
  have none : update atRest (layerOf 0) [] = fun _ => [] := by decide
  rw [none] at queued₀
  unfold runLayers cycle
  rw [quantum]
  cases ran : runTask env .cpu m with
  | error stop => exact ⟨pq₀, rfl, by simp [bind, Except.bind]⟩
  | ok r =>
    simp only [Except.map, bind, Except.bind, true_and]
    cases halted : r.vm.cpu.halted with
    | true =>
      simp only [Bool.true_eq_false, if_false]
      refine ⟨pq₀, ?_, ?_⟩
      · simp only [runLayer_empty env queued₀ _ rfl]
        rfl
      · intro r' same
        cases same
        simp [halted]
    | false =>
      obtain ⟨pq₁, queued₁, pushed⟩ := reschedule_eq queued₀ r
      obtain ⟨pq', rest, layers⟩ := runLayers_housekeeping env r queued₁
      simp only [if_true, pushed]
      exact ⟨pq', layers, fun _ _ _ => rest⟩

def Scheduled (m m' : Machine n W) : Prop := ∃ pq, m' = withQueue pq m ∧ (m.vm.cpu.halted = false → Queued pq atRest)

theorem vmRunRound_matches (env : Env W) (m m' : Machine n W) (related : Scheduled m m') :
    Matches Scheduled (cycleVmRound env m) (vmRunRound env m') := by
  obtain ⟨pq, rfl, queued⟩ := related
  unfold cycleVmRound vmRunRound
  by_cases halted : m.vm.cpu.halted = true
  · have halted' : (withQueue pq m).vm.cpu.halted = true := halted
    rw [if_pos halted, if_pos halted']
    trivial
  have halted' : ¬ (withQueue pq m).vm.cpu.halted = true := halted
  rw [if_neg halted, if_neg halted']
  have running : m.vm.cpu.halted = false := by simpa using halted
  by_cases reset : m.vm.io.resetRequested = true
  · have reset' : (withQueue pq m).vm.io.resetRequested = true := reset
    rw [if_pos reset, if_pos reset']
    unfold resetMachine runReset
    have same : (withQueue pq m).vm.host = m.vm.host := rfl
    rw [same]
    cases vmHostReset m.vm.host with
    | error stop => rfl
    | ok host =>
      obtain ⟨pq', result, rest⟩ := restartQueue_eq
        { withQueue pq m with vm := { m.vm with host, io := vmIoClearReset m.vm.io } }
      exact ⟨pq', result, fun _ => rest⟩
  · have reset' : ¬ (withQueue pq m).vm.io.resetRequested = true := reset
    have occupied : ¬ pqIsEmpty (withQueue pq m).pq = true :=
      fun empty => absurd ((queued running).isEmpty_iff.mp empty) (by decide)
    rw [if_neg reset, if_neg reset', if_neg occupied]
    obtain ⟨pq', result, rest⟩ := runLayers_eq env (queued running) m
    rw [result]
    cases ran : cycle env m with
    | error stop => rfl
    | ok r => exact ⟨pq', rfl, rest r ran⟩

theorem runRound_eq (env : Env W) (maxCycles : Word) (m : Machine n W) :
    runRound env maxCycles m = if maxCycles ≤ m.runCycles then .ok none else vmRunRound env m := by
  unfold runRound vmRunRound
  by_cases limit : maxCycles ≤ m.runCycles <;> simp [limit]

theorem cycleRound_eq (env : Env W) (maxCycles : Word) (m : Machine n W) :
    cycleRound env maxCycles m = if maxCycles ≤ m.runCycles then .ok none else cycleVmRound env m := by
  unfold cycleRound cycleVmRound
  by_cases limit : maxCycles ≤ m.runCycles <;> simp [limit]

theorem runRound_matches (env : Env W) (maxCycles : Word) (m m' : Machine n W) (related : Scheduled m m') :
    Matches Scheduled (cycleRound env maxCycles m) (runRound env maxCycles m') := by
  have body := vmRunRound_matches env m m' related
  obtain ⟨pq, rfl, -⟩ := related
  rw [cycleRound_eq, runRound_eq]
  by_cases limit : maxCycles ≤ m.runCycles
  · have limit' : maxCycles ≤ (withQueue pq m).runCycles := limit
    rw [if_pos limit, if_pos limit']
    trivial
  · have limit' : ¬ maxCycles ≤ (withQueue pq m).runCycles := limit
    rw [if_neg limit, if_neg limit']
    exact body

def cycleStart (m : Machine n W) : Machine n W := { setHost true m with runCycles := 0 }

theorem scheduled_start (m : Machine n W) : Scheduled (cycleStart m) (runStart m) := by
  obtain ⟨pq, result, queued⟩ := restartQueue_eq (cycleStart m)
  exact ⟨pq, result, fun _ => queued⟩

theorem runLoop_simulates (env : Env W) (maxCycles : Word) (fuel : Nat) (m : Machine n W) :
    (∃ rounds r r', loop (cycleRound env maxCycles) fuel (cycleStart m) = .ok (rounds, r) ∧
        loop (runRound env maxCycles) fuel (runStart m) = .ok (rounds, r') ∧ Scheduled r r') ∨
      ∃ stop, loop (cycleRound env maxCycles) fuel (cycleStart m) = .error stop ∧
        loop (runRound env maxCycles) fuel (runStart m) = .error stop :=
  loop_simulates (fun m m' related _ => runRound_matches env maxCycles m m' related)
    (scheduled_start m) (along_true fuel _)

theorem rounds_of_vmRunCycles {final : Machine n W} (ran : vmRunCycles env fuel maxCycles m = .ok (some final)) :
    ∃ rounds r pq, loop (cycleRound env maxCycles) fuel (cycleStart m) = .ok (rounds, r) ∧
      rounds < fuel ∧ final = setHost false (withQueue pq r) := by
  unfold vmRunCycles at ran
  rcases runLoop_simulates env maxCycles fuel m with
    ⟨rounds, r, r', left, right, pq, rfl, -⟩ | ⟨stop, left, right⟩
  · rw [right] at ran
    simp only [Except.map, Except.ok.injEq] at ran
    split at ran
    · next left' => exact ⟨rounds, r, pq, left, left', (Option.some.inj ran).symm⟩
    · cases ran
  · rw [right] at ran
    cases ran

theorem vmRunCycles_of_rounds
    {rounds : Nat} (ran : loop (cycleRound env maxCycles) fuel (cycleStart m) = .ok (rounds, r))
    (left : rounds < fuel) :
    ∃ pq, vmRunCycles env fuel maxCycles m = .ok (some (setHost false (withQueue pq r))) := by
  unfold vmRunCycles
  rcases runLoop_simulates env maxCycles fuel m with
    ⟨rounds', s, s', first, second, pq, rfl, -⟩ | ⟨stop, first, -⟩
  · obtain ⟨rfl, rfl⟩ := Prod.mk.inj (Except.ok.inj (ran.symm.trans first))
    refine ⟨pq, ?_⟩
    rw [second]
    simp only [Except.map, left, if_true]
  · cases ran.symm.trans first

end Flinstone.Vm
