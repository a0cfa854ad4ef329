import Flinstone.Sched.Tasks

/-!
# The thread pool

`threadpool.c`.
-/

namespace Flinstone.Sched
open Function

inductive CommandStep (Local L M : Type) where
  | on (pc : Local) (memory : M)
  /-- `submit_single_command(line)`, and then `pc`. -/
  | submit (line : L) (pc : Local)
  | done (memory : M)

/-- Command lines `L` that share a memory `M`; an `I` is what reaches a command from outside. -/
structure Commands (L M I : Type) where
  Local : Type
  start : L → Local
  next : Local → M → I → CommandStep Local L M

/-- `job_node`; `commandStr` is `none` if it is `NULL`. -/
structure Job (L : Type) where
  commandStr : Option L
  done : Bool
  priority : Int
  pqHandle : PqHandle

/-- Where a thread is in `submit_single_command_priority`. -/
inductive Submit where
  | outside
  /-- Before `queue_job_priority`. -/
  | created (job : Nat) (priority : Int)
  /-- In the loop `while (!job->done)`. -/
  | waiting (job : Nat)
  /-- Before `free_job`. -/
  | finished (job : Nat)
  deriving DecidableEq

/-- Where a worker is; `layer` is the one its last task came from. -/
inductive WorkerPlace (Local : Type) where
  | loop
  | popped (job : Nat) (layer : Int)
  /-- In `execute_command_str`. -/
  | running (job : Nat) (layer : Int) (pc : Local)
  /-- Behind `execute_command_str`. -/
  | completing (job : Nat) (layer : Int)
  | scanning (layer : Int)
  | exited

inductive Milestone where
  /-- `pq_push` has taken the job. -/
  | accepted
  /-- A worker has called `run_job_task`. -/
  | started
  /-- The command has been executed and `done` is set. -/
  | completed
  /-- `free_job` -/
  | freed
  deriving DecidableEq

inductive PoolEvent where
  | reached (milestone : Milestone) (job : Nat)
  | touched (job : Nat)
  /-- `submit_single_command_priority` returns. -/
  | returned (job : Nat)
  deriving DecidableEq

/-- Whether the two allocations of `create_job` succeed. -/
structure JobMemory where
  node : Bool
  line : Bool

variable {L M I : Type} {cmds : Commands L M I} {S W : Type}

/-- The threads are the submitters `S` and the workers `W`. -/
structure Pool (cmds : Commands L M I) (S W : Type) where
  pq : PriorityQueue Unit Nat
  shuttingDown : Bool
  jobs : Nat → Option (Job L)
  nextJob : Nat
  memory : M
  calls : S ⊕ W → Submit
  worker : W → WorkerPlace cmds.Local
  log : List PoolEvent

/-- A worker goes on by itself, or with its call if its command has submitted a line. -/
inductive PoolAction (S W L I : Type) where
  | submit (t : S) (granted : JobMemory) (line : L) (priority : Int)
  | proceed (t : S ⊕ W)
  | work (w : W) (input : I) (granted : JobMemory)
  | shutDown

/-- The `for` loop up to the first task. -/
def scanLayers (pq : PriorityQueue Unit Nat) : List Int → Option (Int × PqTask Unit Nat) × PriorityQueue Unit Nat
  | [] => (none, pq)
  | layer :: rest =>
    match pqPopFromLayer pq layer true with
    | (some task, pq) => (some (layer, task), pq)
    | (none, pq) => scanLayers pq rest

def layersFrom (first : Int) : List Int := [0, 1, 2, 3].filter (first ≤ ·)

namespace Pool

def start (cmds : Commands L M I) (raw : PriorityQueue Unit Nat) (memory : M) : Pool cmds S W :=
  ⟨pqInit raw, false, fun _ => none, 0, memory, fun _ => .outside, fun _ => .loop, []⟩

def note (s : Pool cmds S W) (event : PoolEvent) : Pool cmds S W := { s with log := s.log ++ [event] }

def touch (s : Pool cmds S W) (job : Nat) : Pool cmds S W := s.note (.touched job)

def setJob (s : Pool cmds S W) (job : Nat) (change : Job L → Job L) : Pool cmds S W :=
  { s with jobs := update s.jobs job ((s.jobs job).map change) }

def createJob (s : Pool cmds S W) (granted : JobMemory) (line : L) : Option (Nat × Pool cmds S W) :=
  if granted.node then
    let job := ⟨if granted.line then some line else none, false, 0, 0⟩
    some (s.nextJob, { s with jobs := update s.jobs s.nextJob (some job), nextJob := s.nextJob + 1 })
  else none

def freeJob (s : Pool cmds S W) (job : Nat) : Pool cmds S W :=
  { (s.touch job).note (.reached .freed job) with jobs := update s.jobs job none }

/-- The part of `queue_job_priority` behind `pq_push`. -/
def accept (s : Pool cmds S W) (job : Nat) (priority : Int) (h : PqHandle) (pq : PriorityQueue Unit Nat) :
    Pool cmds S W :=
  if h.msb then { s with pq }
  else { s.setJob job (fun j => { j with pqHandle := h }) with
    pq := if priority = 2 then pqSetQuantum pq h 100 else pq }

def queueJobPriority (s : Pool cmds S W) (job : Nat) (priority : Int) : Pool cmds S W :=
  let s := (s.touch job).setJob job fun j => { j with priority, pqHandle := -1 }
  if pqCount s.pq ≥ 128 then s
  else
    let (h, pq) := pqPush s.pq priority (some ()) (some job)
    let s := if h = -1 then s else s.note (.reached .accepted job)
    s.accept job priority h pq

variable [DecidableEq S] [DecidableEq W]

def setCall (s : Pool cmds S W) (t : S ⊕ W) (call : Submit) : Pool cmds S W :=
  { s with calls := update s.calls t call }

def setWorker (s : Pool cmds S W) (w : W) (place : WorkerPlace cmds.Local) : Pool cmds S W :=
  { s with worker := update s.worker w place }

/-- `submit_single_command_priority`, from one section to the next. -/
def proceed (s : Pool cmds S W) (t : S ⊕ W) : Pool cmds S W :=
  match s.calls t with
  | .outside => s
  | .created job priority => (s.queueJobPriority job priority).setCall t (.waiting job)
  | .waiting job =>
    let s := s.touch job
    if (s.jobs job).any Job.done then s.setCall t (.finished job) else s
  | .finished job => ((s.freeJob job).note (.returned job)).setCall t .outside

def submit (s : Pool cmds S W) (t : S ⊕ W) (granted : JobMemory) (line : L) (priority : Int) : Pool cmds S W :=
  match s.createJob granted line with
  | none => s
  | some (job, s) => s.setCall t (.created job priority)

def scan (s : Pool cmds S W) (w : W) (layers : List Int) : Pool cmds S W :=
  match scanLayers s.pq layers with
  | (none, pq) => { s with pq }.setWorker w .loop
  | (some (layer, task), pq) =>
    { s with pq }.setWorker w (match task.fn, task.arg with
      | some _, some job => .popped job layer
      | _, _ => .scanning layer)

/-- `worker_thread`, from one section to the next. -/
def work (s : Pool cmds S W) (w : W) (input : I) (granted : JobMemory) : Pool cmds S W :=
  match s.worker w with
  | .loop =>
    if pqIsEmpty s.pq && !s.shuttingDown then s
    else if s.shuttingDown then s.setWorker w .exited
    else s.scan w (layersFrom 0)
  | .popped job layer =>
    let s := (s.note (.reached .started job)).touch job
    match (s.jobs job).bind Job.commandStr with
    | some line => s.setWorker w (.running job layer (cmds.start line))
    | none => s.setWorker w (.completing job layer)
  | .running job layer pc =>
    let s := s.touch job
    match cmds.next pc s.memory input with
    | .on pc memory => { s with memory }.setWorker w (.running job layer pc)
    | .submit line pc => (s.setWorker w (.running job layer pc)).submit (.inr w) granted line 0
    | .done memory => { s with memory }.setWorker w (.completing job layer)
  | .completing job layer =>
    ((s.touch job).setJob job (fun j => { j with done := true })).note (.reached .completed job)
      |>.setWorker w (.scanning layer)
  | .scanning layer => s.scan w (layersFrom (layer + 1))
  | .exited => s

def step (s : Pool cmds S W) : PoolAction S W L I → Pool cmds S W
  | .submit t granted line priority =>
    if s.calls (.inl t) = .outside then s.submit (.inl t) granted line priority else s
  | .proceed t => s.proceed t
  | .work w input granted => if s.calls (.inr w) = .outside then s.work w input granted else s
  | .shutDown => { s with shuttingDown := true }

def run (s : Pool cmds S W) (actions : List (PoolAction S W L I)) : Pool cmds S W := actions.foldl step s

end Pool

end Flinstone.Sched
