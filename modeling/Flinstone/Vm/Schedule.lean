import Flinstone.Vm.Rounds

/-! # The schedule of the run loop -/

namespace Flinstone.Vm
open Flinstone.Lib Flinstone.Sched Flinstone.Sys List

variable {n : Nat} {W : Type}

/-! ## What a quantum leaves alone -/

structure Onward (vm vm' : VmState n W) : Prop where
  ticks : vm'.host.vmTicks = vm.host.vmTicks
  reset : vm.io.resetRequested = true → vm'.io.resetRequested = true

namespace Onward
variable {vm vm' vm'' : VmState n W}

theorem refl (vm : VmState n W) : Onward vm vm := ⟨rfl, id⟩

theorem trans (first : Onward vm vm') (second : Onward vm' vm'') : Onward vm vm'' :=
  ⟨second.ticks.trans first.ticks, second.reset ∘ first.reset⟩

theorem of_cpu (cpu : VmCpu) (onward : Onward vm vm') : Onward vm (vm'.setCpu cpu) := ⟨onward.ticks, onward.reset⟩

end Onward

section
variable {vm vm' : VmState n W}

variable (env : Env W)

theorem ideFill_onward (vm : VmState n W) : Onward vm (ideFill env vm) := by
  unfold ideFill
  split
  · exact ⟨rfl, id⟩
  · split <;> exact ⟨rfl, id⟩

theorem ideNext_reset (io : VmIo) : (ideNext io).2.resetRequested = io.resetRequested := by
  unfold ideNext
  split <;> rfl

theorem vmIoInIde_onward (port : Nat) (vm : VmState n W) : Onward vm (vmIoInIde env port vm).2 := by
  unfold vmIoInIde
  split
  · have filled : Onward vm (if 512 ≤ vm.io.ideByteIdx.val then ideFill env vm else vm) := by
      split
      · exact ideFill_onward env vm
      · exact .refl vm
    exact filled.trans ⟨rfl, (ideNext_reset _).trans⟩
  all_goals exact .refl vm

theorem vmIoInKeyboard_onward (port : Nat) (vm : VmState n W) :
    Onward vm (vmIoInKeyboard env port vm).2 := by
  unfold vmIoInKeyboard vmHostKbdPop
  split_ifs <;> exact ⟨rfl, id⟩

theorem vmIoInPit_onward (port : Nat) (vm : VmState n W) : Onward vm (vmIoInPit env port vm).2 := by
  unfold vmIoInPit
  split_ifs <;> exact ⟨rfl, id⟩

theorem vmIoIn_onward (port : Word) (size : Nat) (vm : VmState n W) :
    Onward vm (vmIoIn env port size vm).2 := by
  unfold vmIoIn
  simp only
  split_ifs
  · exact vmIoInIde_onward env _ vm
  · exact vmIoInKeyboard_onward env _ vm
  · exact vmIoInPit_onward env _ vm
  all_goals exact .refl vm

theorem vmIoOutIde_onward (port : Nat) (value : Word) (vm : VmState n W) :
    Onward vm (vmIoOutIde env port value vm) := by
  unfold vmIoOutIde ideWriteData
  split
  case h_4 => simp only; split_ifs <;> exact ⟨rfl, id⟩
  all_goals exact ⟨rfl, id⟩

variable {env : Env W} {count : Nat}

theorem vmSysCall_onward (called : vmSysCall env vm = .ok vm') : Onward vm vm' := by
  unfold vmSysCall at called
  simp only at called
  split at called
  · cases called
  · cases called
    exact ⟨rfl, id⟩

theorem pciWrite_reset (io : VmIo) (value : Word) : (pciWrite io value).resetRequested = io.resetRequested := by
  unfold pciWrite
  split <;> rfl

theorem vmIoOut_onward (env : Env W) (port value : Word) (size : Nat) (vm : VmState n W) :
    Yields (Onward vm) ((vmIoOut env port value size vm).map some) := by
  have called : Yields (Onward vm) ((vmSysCall env vm).map some) :=
    fun _ ran => vmSysCall_onward (map_some_eq_ok.mp ran)
  unfold vmIoOut
  simp only [apply_ite (Except.map some)]
  repeat' apply Yields.ite
  all_goals first
    | exact called
    | exact yields_some (vmIoOutIde_onward env _ _ vm)
    | exact yields_some ⟨rfl, id⟩
    | exact yields_some ⟨rfl, fun _ => rfl⟩
    | exact yields_some ⟨rfl, (pciWrite_reset vm.io value).trans⟩

theorem pushStack_onward {value : VmCpu → Word} (pushed : pushStack count value vm = .ok vm') : Onward vm vm' := by
  obtain ⟨phys, -, rest⟩ := bind_eq_ok.mp pushed
  obtain ⟨written, -, rest⟩ := bind_eq_ok.mp rest
  cases rest
  exact ⟨rfl, id⟩

theorem popStack_onward {r : Word × VmState n W} (popped : popStack count vm = .ok r) : Onward vm r.2 := by
  obtain ⟨phys, -, rest⟩ := bind_eq_ok.mp popped
  obtain ⟨bytes, -, rest⟩ := bind_eq_ok.mp rest
  split at rest <;> cases rest <;> exact ⟨rfl, id⟩

theorem executeInt_onward {instr : VmInstr} (ran : executeInt instr vm = .ok vm') : Onward vm vm' := by
  obtain ⟨vm₁, first, ran⟩ := bind_eq_ok.mp ran
  obtain ⟨vm₂, second, ran⟩ := bind_eq_ok.mp ran
  obtain ⟨vm₃, third, ran⟩ := bind_eq_ok.mp ran
  obtain ⟨phys, -, ran⟩ := bind_eq_ok.mp ran
  have pushes := ((pushStack_onward first).trans (pushStack_onward second)).trans (pushStack_onward third)
  simp only [vmMemRead_eq, bind, bind] at ran
  split at ran
  · cases ran
    exact pushes.of_cpu _
  · cases ran
    exact pushes

theorem executeIret_onward (ran : executeIret vm = .ok vm') : Onward vm vm' := by
  obtain ⟨ip, first, ran⟩ := bind_eq_ok.mp ran
  obtain ⟨cs, second, ran⟩ := bind_eq_ok.mp ran
  obtain ⟨flags, third, ran⟩ := bind_eq_ok.mp ran
  cases ran
  exact (((popStack_onward first).trans (popStack_onward second)).trans (popStack_onward third)).of_cpu _

theorem executeStosb_onward (ran : executeStosb vm = .ok vm') : Onward vm vm' := by
  obtain ⟨phys, -, ran⟩ := bind_eq_ok.mp ran
  obtain ⟨mem, -, ran⟩ := bind_eq_ok.mp ran
  cases ran
  exact ⟨rfl, id⟩

theorem execute_onward (env : Env W) (instr : VmInstr) (vm : VmState n W) :
    Yields (Onward vm) (execute env instr vm) := by
  have popped {count : Nat} {cpu : Word × VmState n W → VmCpu} :
      Yields (Onward vm) ((popStack count vm).map fun top => some (top.2.setCpu (cpu top))) := by
    intro r ran
    obtain ⟨top, popped, stored⟩ := map_eq_ok.mp ran
    exact Option.some.inj stored ▸ (popStack_onward popped).of_cpu _
  obtain ⟨op, dst, src, imm, size⟩ := instr
  cases op
  case inn => exact yields_some ((vmIoIn_onward env imm 1 vm).of_cpu _)
  case out => exact vmIoOut_onward env _ _ _ vm
  case inDx => exact yields_some ((vmIoIn_onward env _ 4 vm).of_cpu _)
  case outDx => exact vmIoOut_onward env _ _ _ vm
  case push => exact fun _ ran => pushStack_onward (map_some_eq_ok.mp ran)
  case pop => exact popped
  case ret => exact popped
  case int => exact fun _ ran => executeInt_onward (map_some_eq_ok.mp ran)
  case iret => exact fun _ ran => executeIret_onward (map_some_eq_ok.mp ran)
  case stosb => exact fun _ ran => executeStosb_onward (map_some_eq_ok.mp ran)
  all_goals
    intro r ran
    simp only [execute, Except.ok.injEq, Option.map_eq_some_iff] at ran
    obtain ⟨cpu, -, rfl⟩ := ran
    exact (Onward.refl vm).of_cpu cpu

theorem vmRunPass_onward (env : Env W) (vm : VmState n W) : Yields (Onward vm) (vmRunPass env vm) := by
  refine .ite yields_none (.bind fun found => ?_)
  cases found with
  | none => exact yields_none
  | some instr =>
    intro r ran
    obtain ⟨next, executed, moved⟩ := bind_eq_ok.mp ran
    obtain ⟨vm₁, rfl, rfl⟩ := Option.map_eq_some_iff.mp (Except.ok.inj moved)
    have onward := execute_onward env instr vm vm₁ executed
    unfold advanceEip
    split
    · exact onward
    · exact onward.of_cpu _

theorem vmRunStep_onward {passes : Nat} (ran : vmRunStep env count vm = .ok (passes, vm')) : Onward vm vm' :=
  loop_keeps (fun s s' onward pass => onward.trans (vmRunPass_onward env s s' pass)) (.refl vm) ran

end

/-! ## The loop with its events -/

inductive Event where
  | quantum (halted : Bool)
  | display
  | tick
  | checkpoint
  | reset
  | push (handle : PqHandle)
  deriving DecidableEq

def Event.ofTask (task : VmTask) (after : Machine n W) : Event :=
  match task with
  | .cpu => .quantum after.vm.cpu.halted
  | .display => .display
  | .timer => .tick
  | .checkpoint => .checkpoint

abbrev Traced (n : Nat) (W : Type) := Machine n W × List Event

def tracedPush (task : VmTask) (t : Traced n W) : Traced n W :=
  (queueTask task t.1, t.2 ++ [.push (pqPush t.1.pq (pqPrio task) (some task) none).1])

def tracedReschedule (t : Traced n W) : Traced n W :=
  let t := ({ t.1 with runCycles := t.1.runCycles + 1 }, t.2)
  let t := tracedPush .timer (tracedPush .cpu (tracedPush .display t))
  if t.1.runCycles.toNat % vmCheckpointInterval = 0 then tracedPush .checkpoint t else t

def tracedLayer (env : Env W) (layer : Int) (t : Traced n W) : Except Stop (Traced n W) :=
  match pqPopFromLayer t.1.pq layer true with
  | (none, _) => .ok t
  | (some task, pq) =>
    match task.fn with
    | none => .ok ({ t.1 with pq }, t.2)
    | some fn => do
        let m ← runTask env fn { t.1 with pq }
        let t := (m, t.2 ++ [Event.ofTask fn m])
        return if fn = .cpu ∧ m.vm.cpu.halted = false then tracedReschedule t else t

def tracedLayers (env : Env W) (t : Traced n W) : Except Stop (Traced n W) := do
  let t ← tracedLayer env 0 t
  let t ← tracedLayer env 1 t
  let t ← tracedLayer env 2 t
  tracedLayer env 3 t

def tracedRestart (t : Traced n W) : Traced n W := tracedPush .cpu ({ t.1 with pq := pqInit t.1.pq }, t.2)

def tracedReset (t : Traced n W) : Except Stop (Traced n W) :=
  (vmHostReset t.1.vm.host).map fun host =>
    tracedRestart ({ t.1 with vm := { t.1.vm with host, io := vmIoClearReset t.1.vm.io } }, t.2 ++ [.reset])

def tracedRound (env : Env W) (maxCycles : Word) (t : Traced n W) : Except Stop (Option (Traced n W)) :=
  if t.1.vm.cpu.halted || maxCycles ≤ t.1.runCycles then .ok none
  else if t.1.vm.io.resetRequested then (tracedReset t).map some
  else if pqIsEmpty t.1.pq then .ok none
  else (tracedLayers env t).map some

def tracedStart (m : Machine n W) : Traced n W := tracedRestart ({ setHost true m with runCycles := 0 }, [])

/-! ## The events are only added -/

theorem tracedReschedule_erase (t : Traced n W) : (tracedReschedule t).1 = reschedule t.1 := by
  simp only [tracedReschedule, apply_ite Prod.fst]
  rfl

variable (env : Env W)

theorem tracedLayer_erase (layer : Int) (t : Traced n W) :
    (tracedLayer env layer t).map Prod.fst = runLayer env layer t.1 := by
  unfold tracedLayer runLayer
  obtain ⟨popped, pq⟩ := pqPopFromLayer t.1.pq layer true
  cases popped with
  | none => rfl
  | some task =>
    cases called : task.fn with
    | none => simp only [called]; rfl
    | some fn =>
      simp only [called]
      cases runTask env fn _ with
      | error stop => rfl
      | ok m =>
        simp only [bind, Except.bind, pure, Except.pure, Except.map, apply_ite Prod.fst, tracedReschedule_erase]

theorem tracedLayers_erase (t : Traced n W) : (tracedLayers env t).map Prod.fst = runLayers env t.1 := by
  unfold tracedLayers runLayers
  rw [← tracedLayer_erase]
  refine (bind_map_congr fun t₁ _ => ?_).symm
  rw [← tracedLayer_erase]
  refine bind_map_congr fun t₂ _ => ?_
  rw [← tracedLayer_erase]
  refine bind_map_congr fun t₃ _ => ?_
  exact (tracedLayer_erase env 3 t₃).symm

theorem tracedRound_erase (maxCycles : Word) (t : Traced n W) :
    (tracedRound env maxCycles t).map (Option.map Prod.fst) = runRound env maxCycles t.1 := by
  unfold tracedRound runRound
  split
  · rfl
  split
  · unfold tracedReset runReset
    cases vmHostReset t.1.vm.host <;> rfl
  split
  · rfl
  · rw [← tracedLayers_erase, map_some_map]

theorem tracedLoop_erase (maxCycles : Word) (fuel : Nat) (m : Machine n W) :
    (loop (tracedRound env maxCycles) fuel (tracedStart m)).map (Prod.map id Prod.fst) =
      loop (runRound env maxCycles) fuel (runStart m) :=
  loop_map (tracedRound_erase env maxCycles) fuel (tracedStart m)

/-! ## Tasks and pushes -/

structure TaskEffect (task : VmTask) (m r : Machine n W) : Prop where
  cycles : r.runCycles = m.runCycles
  cpu : task ≠ .cpu → r.vm.cpu = m.vm.cpu
  ticks : r.vm.host.vmTicks = if task = .timer then m.vm.host.vmTicks + vmTickStep else m.vm.host.vmTicks

variable {env : Env W} {task : VmTask} {m r : Machine n W} {tasks : Layer → List VmTask} {t t' : Traced n W}
  {layer : Int} {handles : List PqHandle} {first : Size}

theorem runTask_effect (ran : runTask env task m = .ok r) : r.pq = m.pq ∧ TaskEffect task m r := by
  cases task with
  | cpu =>
    obtain ⟨⟨passes, vm⟩, stepped, rfl⟩ := map_eq_ok.mp ran
    exact ⟨rfl, rfl, fun other => absurd rfl other, (vmRunStep_onward stepped).ticks⟩
  | display =>
    obtain ⟨vm, shown, rfl⟩ := map_eq_ok.mp ran
    obtain ⟨world, same⟩ := vmDisplayRefresh_eq env m.vm
    obtain rfl := Except.ok.inj (same.symm.trans shown)
    exact ⟨rfl, rfl, fun _ => rfl, rfl⟩
  | timer =>
    cases ran
    exact ⟨rfl, rfl, fun _ => rfl, rfl⟩
  | checkpoint =>
    cases ran
    obtain ⟨disk, world, snapshot, saved⟩ := vmSnapshotSave_eq env m
    rw [saved]
    exact ⟨rfl, rfl, fun _ => rfl, rfl⟩

theorem tracedPush_eq (task : VmTask) (m : Machine n W) (log : List Event)
    (queued : Queued m.pq tasks) (room : ((finRange 4).flatMap tasks).length < 128) :
    ∃ pq handle, tracedPush task (m, log) = (withQueue pq m, log ++ [.push handle]) ∧ handle ≠ -1 ∧
      Queued pq (Function.update tasks (layerOf (pqPrio task)) (tasks (layerOf (pqPrio task)) ++ [task])) := by
  have valid : priorityValid (pqPrio task) = true := by cases task <;> rfl
  obtain ⟨pq, result, rest⟩ := queueTask_eq task m queued room
  have granted := (queued.push room valid task none).1
  exact ⟨pq, _, Prod.ext result rfl, granted, rest⟩

theorem tracedReschedule_eq (m : Machine n W) (log : List Event) (queued : Queued m.pq fun _ => []) :
    ∃ (pq : PriorityQueue VmTask Unit) (handles : List PqHandle), tracedReschedule (m, log) =
        (withQueue pq { m with runCycles := m.runCycles + 1 }, log ++ handles.map .push) ∧
      (∀ handle ∈ handles, handle ≠ -1) ∧ Queued pq (tasksOf [.cpu] [.display] [.timer] (checkpointDue m)) := by
  let counted := { m with runCycles := m.runCycles + 1 }
  obtain ⟨pq₁, h₁, first, ok₁, queued₁⟩ := tracedPush_eq .display counted log queued (by decide)
  obtain ⟨pq₂, h₂, second, ok₂, queued₂⟩ := tracedPush_eq .cpu (withQueue pq₁ counted) (log ++ [Event.push h₁]) queued₁
    (by decide)
  obtain ⟨pq₃, h₃, third, ok₃, queued₃⟩ := tracedPush_eq .timer (withQueue pq₂ (withQueue pq₁ counted))
    (log ++ [Event.push h₁] ++ [Event.push h₂]) queued₂ (by decide)
  have pushed : tracedReschedule (m, log) = if (m.runCycles + 1).toNat % vmCheckpointInterval = 0 then
        tracedPush .checkpoint (withQueue pq₃ counted, log ++ [Event.push h₁] ++ [Event.push h₂] ++ [Event.push h₃])
      else (withQueue pq₃ counted, log ++ [Event.push h₁] ++ [Event.push h₂] ++ [Event.push h₃]) := by
    show (if (tracedPush .timer (tracedPush .cpu (tracedPush .display (counted, log)))).1.runCycles.toNat %
      vmCheckpointInterval = 0 then tracedPush .checkpoint _ else _) = _
    rw [first, second, third]
    rfl
  rw [pushed, checkpointDue]
  split
  · obtain ⟨pq₄, h₄, fourth, ok₄, queued₄⟩ := tracedPush_eq .checkpoint (withQueue pq₃ counted)
      (log ++ [Event.push h₁] ++ [Event.push h₂] ++ [Event.push h₃]) queued₃ (by decide)
    refine ⟨pq₄, [h₁, h₂, h₃, h₄], fourth.trans (Prod.ext rfl (by simp)), by simpa using ⟨ok₁, ok₂, ok₃, ok₄⟩, ?_⟩
    convert queued₄ using 1
    decide
  · refine ⟨pq₃, [h₁, h₂, h₃], Prod.ext rfl (by simp), by simpa using ⟨ok₁, ok₂, ok₃⟩, ?_⟩
    convert queued₃ using 1
    decide

theorem tracedLayer_task (env : Env W) (queued : Queued t.1.pq tasks)
    (valid : priorityValid layer = true) (single : tasks (layerOf layer) = [task])
    (ran : tracedLayer env layer t = .ok t') :
    ∃ r, Queued r.pq (Function.update tasks (layerOf layer) []) ∧ TaskEffect task t.1 r ∧
      t' = if task = .cpu ∧ r.vm.cpu.halted = false then tracedReschedule (r, t.2 ++ [.ofTask task r])
        else (r, t.2 ++ [.ofTask task r]) := by
  obtain ⟨popped, pq, result, fn, rest⟩ := queued.pop_cons valid single
  unfold tracedLayer at ran
  simp only [result, fn] at ran
  obtain ⟨r, done, ran⟩ := bind_eq_ok.mp ran
  obtain ⟨same, effect⟩ := runTask_effect done
  exact ⟨r, same ▸ rest, ⟨effect.cycles, effect.cpu, effect.ticks⟩, (Except.ok.inj ran).symm⟩

theorem tracedLayer_none (env : Env W) (queued : Queued t.1.pq tasks)
    (empty : tasks (layerOf layer) = []) : tracedLayer env layer t = .ok t := by
  simp only [tracedLayer, Shows.pop_nil queued (congrArg (map some) empty)]

theorem tracedLayer_other (env : Env W) (queued : Queued t.1.pq tasks)
    (valid : priorityValid layer = true) (single : tasks (layerOf layer) = [task])
    (other : task ≠ .cpu) (ran : tracedLayer env layer t = .ok t') :
    ∃ r, Queued r.pq (Function.update tasks (layerOf layer) []) ∧ TaskEffect task t.1 r ∧
      t' = (r, t.2 ++ [.ofTask task r]) := by
  obtain ⟨r, rest, effect, result⟩ := tracedLayer_task env queued valid single ran
  rw [if_neg fun both => other both.1] at result
  exact ⟨r, rest, effect, result⟩

theorem tracedLayer_checkpoint (env : Env W) {due : Prop} [Decidable due]
    (queued : Queued t.1.pq (tasksOf [.cpu] [] [] (if due then [.checkpoint] else [])))
    (ran : tracedLayer env 3 t = .ok t') :
    ∃ r, Queued r.pq atRest ∧ r.runCycles = t.1.runCycles ∧ r.vm.host.vmTicks = t.1.vm.host.vmTicks ∧
      t' = (r, t.2 ++ if due then [.checkpoint] else []) := by
  by_cases now : due
  · rw [if_pos now] at queued
    obtain ⟨r, rest, effect, rfl⟩ := tracedLayer_other env queued rfl rfl (by decide) ran
    have left : Function.update (tasksOf [.cpu] [] [] [.checkpoint]) (layerOf 3) [] = atRest := by decide
    exact ⟨r, left ▸ rest, effect.cycles, effect.ticks, by rw [if_pos now]; rfl⟩
  · rw [if_neg now] at queued
    rw [tracedLayer_none env queued rfl] at ran
    cases ran
    exact ⟨t.1, queued, rfl, rfl, by rw [if_neg now, append_nil]⟩

def Event.isStep : Event → Bool
  | .push _ => false
  | _ => true

def steps (log : List Event) : List Event := log.filter Event.isStep

theorem steps_append (log log' : List Event) : steps (log ++ log') = steps log ++ steps log' := filter_append ..

theorem steps_pushes (handles : List PqHandle) : steps (handles.map .push) = [] := by
  simp [steps, Event.isStep]

theorem mem_pushes {handle : PqHandle} (listed : Event.push handle ∈ handles.map .push) : handle ∈ handles := by
  simpa using listed

def checkpoints (cycles : Nat) : List Event := if cycles % vmCheckpointInterval = 0 then [.checkpoint] else []

inductive Schedule : List Event → Nat → Prop where
  | start : Schedule [] 0
  | reset {log : List Event} {cycles : Nat} (before : Schedule log cycles) : Schedule (log ++ [.reset]) cycles
  | halts {log : List Event} {cycles : Nat} (before : Schedule log cycles) : Schedule (log ++ [.quantum true]) cycles
  | runs {log : List Event} {cycles : Nat} (before : Schedule log cycles) :
      Schedule (log ++ [.quantum false, .display, .tick] ++ checkpoints (cycles + 1)) (cycles + 1)

structure AtHead (first : Size) (t : Traced n W) : Prop where
  queue : t.1.vm.cpu.halted = false → Queued t.1.pq atRest
  pushes : ∀ handle, .push handle ∈ t.2 → handle ≠ -1
  schedule : Schedule (steps t.2) t.1.runCycles.toNat
  ticks : t.1.vm.host.vmTicks = first + t.1.runCycles.setWidth 64

theorem atHead_restart {log : List Event}
    (pushes : ∀ handle, .push handle ∈ log → handle ≠ -1) (schedule : Schedule (steps log) m.runCycles.toNat)
    (ticks : m.vm.host.vmTicks = first + m.runCycles.setWidth 64) : AtHead first (tracedRestart (m, log)) := by
  obtain ⟨pq, handle, result, granted, queued⟩ := tracedPush_eq .cpu { m with pq := pqInit m.pq } log
    (queued_init m.pq) (by decide)
  have tasks : Function.update (fun _ => []) (layerOf (pqPrio .cpu)) [.cpu] = atRest := by decide
  unfold tracedRestart
  rw [result]
  constructor
  · intro _
    rwa [← tasks]
  · intro handle' listed
    rcases mem_append.mp listed with before | last
    · exact pushes handle' before
    · simp only [mem_singleton, Event.push.injEq] at last
      exact last ▸ granted
  · rw [steps_append, show steps [.push handle] = [] from rfl, append_nil]
    exact schedule
  · exact ticks

theorem AtHead.reset (head : AtHead first t) (ran : tracedReset t = .ok t') : AtHead first t' := by
  obtain ⟨host, done, rfl⟩ := map_eq_ok.mp ran
  have ticks : host.vmTicks = t.1.vm.host.vmTicks := by
    obtain ⟨loaded, -, rest⟩ := bind_eq_ok.mp done
    obtain ⟨drawn, -, rest⟩ := bind_eq_ok.mp rest
    cases rest
    rfl
  refine atHead_restart ?_ ?_ (ticks.trans head.ticks)
  · intro handle listed
    exact head.pushes handle (by simpa using listed)
  · rw [steps_append]
    exact head.schedule.reset

theorem AtHead.halts (head : AtHead first t) (effect : TaskEffect .cpu t.1 r) (halted : r.vm.cpu.halted = true) :
    AtHead first (r, t.2 ++ [.ofTask .cpu r]) := by
  constructor
  · intro running
    exact absurd (halted.symm.trans running) (by decide)
  · intro handle listed
    exact head.pushes handle (by simpa [Event.ofTask] using listed)
  · rw [steps_append, Event.ofTask, halted, effect.cycles]
    exact head.schedule.halts
  · rw [effect.ticks, effect.cycles]
    exact head.ticks

theorem setWidth_succ {c : Word} (counts : (c + 1).toNat = c.toNat + 1) : (c + 1).setWidth 64 = c.setWidth 64 + 1 := by
  apply BitVec.eq_of_toNat_eq
  rw [BitVec.toNat_setWidth, counts, BitVec.toNat_add, BitVec.toNat_setWidth, show (1 : Size).toNat = 1 from rfl]
  omega

theorem steps_checkpoints (cycles : Nat) : steps (checkpoints cycles) = checkpoints cycles := by
  unfold checkpoints
  split <;> rfl

theorem AtHead.runs (head : AtHead first t) (granted : ∀ handle ∈ handles, handle ≠ -1) (queued : Queued r.pq atRest)
    (counts : (t.1.runCycles + 1).toNat = t.1.runCycles.toNat + 1) (counted : r.runCycles = t.1.runCycles + 1)
    (advanced : r.vm.host.vmTicks = t.1.vm.host.vmTicks + 1) :
    AtHead first (r, t.2 ++ [Event.quantum false] ++ handles.map Event.push ++ [Event.display] ++ [Event.tick] ++
      checkpoints (t.1.runCycles.toNat + 1)) := by
  constructor
  · exact fun _ => queued
  · intro handle listed
    have kept : .push handle ∈ t.2 ∨ .push handle ∈ handles.map Event.push := by
      unfold checkpoints at listed
      split at listed <;> simpa using listed
    rcases kept with before | pushed
    · exact head.pushes handle before
    · exact granted handle (mem_pushes pushed)
  · have log : steps (t.2 ++ [Event.quantum false] ++ handles.map Event.push ++ [Event.display] ++ [Event.tick] ++
        checkpoints (t.1.runCycles.toNat + 1)) =
        steps t.2 ++ [Event.quantum false, Event.display, Event.tick] ++ checkpoints (t.1.runCycles.toNat + 1) := by
      simp only [steps_append, steps_pushes, steps_checkpoints, append_assoc]
      rfl
    rw [log, counted, counts]
    exact head.schedule.runs
  · rw [advanced, counted, setWidth_succ counts, head.ticks]
    exact add_assoc ..

theorem AtHead.layers (head : AtHead first t)
    (running : t.1.vm.cpu.halted = false) (counts : (t.1.runCycles + 1).toNat = t.1.runCycles.toNat + 1)
    (ran : tracedLayers env t = .ok t') : AtHead first t' := by
  obtain ⟨t₀, zero, ran⟩ := bind_eq_ok.mp ran
  obtain ⟨t₁, one, ran⟩ := bind_eq_ok.mp ran
  obtain ⟨t₂, two, three⟩ := bind_eq_ok.mp ran
  obtain ⟨r, rest, effect, result⟩ := tracedLayer_task env (head.queue running) rfl rfl zero
  have none : Function.update atRest (layerOf 0) [] = fun _ => [] := by decide
  rw [none] at rest
  cases halted : r.vm.cpu.halted with
  | true =>
    rw [if_neg (by simp [halted])] at result
    subst result
    rw [tracedLayer_none env rest rfl] at one
    cases one
    rw [tracedLayer_none env rest rfl] at two
    cases two
    rw [tracedLayer_none env rest rfl] at three
    cases three
    exact head.halts effect halted
  | false =>
    rw [if_pos ⟨rfl, halted⟩] at result
    obtain ⟨pq', handles, pushed, granted, queued⟩ := tracedReschedule_eq r (t.2 ++ [.ofTask .cpu r]) rest
    rw [pushed] at result
    subst result
    obtain ⟨r₁, queued₁, effect₁, rfl⟩ := tracedLayer_other env queued rfl rfl (by decide) one
    obtain ⟨r₂, queued₂, effect₂, rfl⟩ := tracedLayer_other env queued₁ rfl rfl (by decide) two
    have counted : r₂.runCycles = t.1.runCycles + 1 := by
      rw [effect₂.cycles, effect₁.cycles]
      exact congrArg (· + 1) effect.cycles
    have advanced : r₂.vm.host.vmTicks = t.1.vm.host.vmTicks + 1 := by
      rw [effect₂.ticks, if_pos rfl, effect₁.ticks, if_neg (by decide)]
      exact congrArg (· + 1) effect.ticks
    have left : Function.update (Function.update (tasksOf [.cpu] [.display] [.timer] (checkpointDue r))
        (layerOf 1) []) (layerOf 2) [] = tasksOf [.cpu] [] [] (checkpointDue r) := by
      funext layer
      fin_cases layer <;> rfl
    rw [left, checkpointDue] at queued₂
    obtain ⟨r₃, queued₃, cycles₃, ticks₃, rfl⟩ := tracedLayer_checkpoint env queued₂ three
    have ended := head.runs granted queued₃ counts (cycles₃.trans counted) (ticks₃.trans advanced)
    rw [← counts, ← effect.cycles] at ended
    rw [show Event.ofTask .cpu r = .quantum false from congrArg _ halted]
    exact ended

theorem AtHead.round {maxCycles : Word} (head : AtHead first t)
    (ran : tracedRound env maxCycles t = .ok (some t')) : AtHead first t' := by
  unfold tracedRound at ran
  split at ran
  · cases ran
  next running =>
    simp only [Bool.or_eq_true, decide_eq_true_eq, not_or, Bool.not_eq_true] at running
    split at ran
    · exact head.reset (map_some_eq_ok.mp ran)
    split at ran
    · cases ran
    · refine head.layers running.1 ?_ (map_some_eq_ok.mp ran)
      -- the counter is below the bound, so the next count does not wrap
      have below : t.1.runCycles.toNat < maxCycles.toNat := not_le.mp running.2
      have one : (1 : Word).toNat = 1 := rfl
      exact Nat.mod_eq_of_lt (by omega)

theorem atHead_start (m : Machine n W) : AtHead m.vm.host.vmTicks (tracedStart m) :=
  atHead_restart (by simp) .start (by simp [setHost])

/-- At every head of the loop the queue holds the CPU task, or the guest is halted; a quantum was followed by a display
refresh, a tick and, at the multiples of 500, a checkpoint. -/
theorem run_loop_schedule (env : Env W) (maxCycles : Word) (fuel : Nat) (m : Machine n W) :
    (loop (tracedRound env maxCycles) fuel (tracedStart m)).map (Prod.map id Prod.fst) =
        loop (runRound env maxCycles) fuel (runStart m) ∧
      (∀ rounds r log, loop (tracedRound env maxCycles) fuel (tracedStart m) = .ok (rounds, (r, log)) →
        (r.vm.cpu.halted = true ∨ Queued r.pq atRest) ∧ (∀ handle, .push handle ∈ log → handle ≠ -1) ∧
        Schedule (steps log) r.runCycles.toNat) ∧
      ∀ final, vmRunCycles env fuel maxCycles m = .ok (some final) →
        final.vm.host.vmTicks = m.vm.host.vmTicks + final.runCycles.setWidth 64 := by
  have heads {rounds : Nat} {t : Traced n W}
      (ran : loop (tracedRound env maxCycles) fuel (tracedStart m) = .ok (rounds, t)) :
      AtHead m.vm.host.vmTicks t :=
    loop_keeps (fun _ _ head => head.round) (atHead_start m) ran
  have erased := tracedLoop_erase env maxCycles fuel m
  refine ⟨erased, ?_, ?_⟩
  · intro rounds r log ran
    have head := heads ran
    refine ⟨?_, head.pushes, head.schedule⟩
    cases halted : r.vm.cpu.halted with
    | true => exact .inl rfl
    | false => exact .inr (head.queue halted)
  · intro final ran
    obtain ⟨⟨rounds, r⟩, looped, left⟩ := map_eq_ok.mp ran
    rw [← erased] at looped
    obtain ⟨⟨rounds', t⟩, traced, same⟩ := map_eq_ok.mp looped
    cases same
    dsimp only at left
    split at left
    · cases left
      exact (heads traced).ticks
    · cases left

theorem stuck_guest_schedule : ∃ vm rounds r log, bootWith [0x06] = some vm ∧
      loop (tracedRound idleHost 2) 5 (tracedStart (Machine.ofGuest vm)) = .ok (rounds, (r, log)) ∧
      steps log = [.quantum false, .display, .tick, .quantum false, .display, .tick] ∧
      Queued r.pq atRest ∧ Schedule (steps log) r.runCycles.toNat := by
  have runs : (bootWith [0x06]).map (fun vm =>
      (loop (tracedRound idleHost 2) 5 (tracedStart (Machine.ofGuest vm))).map fun r =>
        (steps r.2.2, r.2.1.vm.cpu.halted)) =
      some (.ok ([.quantum false, .display, .tick, .quantum false, .display, .tick], false)) := by decide +kernel
  obtain ⟨vm, booted, ran⟩ := Option.map_eq_some_iff.mp runs
  obtain ⟨⟨rounds, r, log⟩, looped, facts⟩ := map_eq_ok.mp ran
  obtain ⟨listed, running⟩ := Prod.mk.inj facts
  obtain ⟨-, heads, -⟩ := run_loop_schedule idleHost 2 5 (Machine.ofGuest vm)
  obtain ⟨queue, -, schedule⟩ := heads rounds r log looped
  have queued : Queued r.pq atRest := queue.resolve_left (by rw [show r.vm.cpu.halted = false from running]; decide)
  exact ⟨vm, rounds, r, log, booted, looped, listed, queued, schedule⟩

end Flinstone.Vm
